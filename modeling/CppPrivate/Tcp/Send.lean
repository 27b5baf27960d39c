import CppPrivate.Lib.Heap
import CppPrivate.Lib.Machine
import CppPrivate.Lib.Run

/-! A worker's map of connections, used by the worker and by other threads. The lock of the map is
held while an entry is looked up, and given back before the entry is used. A pointer names one
object: what is released is never found again under its name. -/
namespace CppPrivate.Tcp
open Run

structure MapLock where
  readers : Nat
  writing : Bool
deriving DecidableEq

/-- A connection; its memory is released by `FREE`. -/
structure CONN_INFO where
  sfd : Int
  pClientTcpEvent : Option Nat
deriving DecidableEq

inductive CloseStage where
  | wlock | erase | unlock | free
deriving DecidableEq

/-- Where a thread is; `force` tells `ForceCloseConn` from `Send`, and `forced` its `CloseConn` from
that of the worker's own callback. -/
inductive SendPc where
  | idle
  | rlock (force : Bool) (nFd : Int)
  | find (force : Bool) (nFd : Int)
  | unlock (force : Bool) (nFd : Int) (itFind : Option Nat)
  | test (force : Bool) (nFd : Int) (itFind : Option Nat)
  | second (nFd : Int) (itFind : Nat)  -- `itFind->second`
  | load (nFd : Int) (c : Nat)  -- `->pClientTcpEvent`
  | write (nFd : Int) (bev : Nat)  -- `bufferevent_write`
  | forceSecond (itFind : Nat)  -- `pConnInfo = itFind->second`
  | forceLog (itFind : Nat)  -- `itFind->second->sfd`
  | forceLoad (itFind : Nat)  -- `itFind->second->pClientTcpEvent`
  | cbarg (bev : Nat)  -- `bev->cbarg`
  | close (stage : CloseStage) (c bev : Nat) (forced : Bool)
  | setcb (bev : Nat)  -- `bufferevent_setcb`
  | registerLock (c : Nat)
  | registerInsert (c : Nat)
  | registerUnlock
deriving DecidableEq

/-- A write to a connection: the descriptor `Send` was called with, the connection registered under
it at that moment, and the one written to. -/
structure WriteEvent where
  nFd : Int
  registered : Option Nat
  written : Nat
deriving DecidableEq

/-- The map with what it leads to. The worker is thread 0; a `bufferevent` has in its `cbarg` the
connection it is made for. `fault`: something released has been used. -/
structure ConnMap where
  m_rwLock : MapLock
  m_connMap : Int → Option Nat
  nodes : Heap (Int × Nat)
  conns : Heap CONN_INFO
  bufferevents : Heap Nat
  openFds : List Int
  threads : List SendPc
  writes : List WriteEvent
  fault : Bool

/-- A call, an event at the worker, or the next statement of a thread. -/
inductive SendOp where
  | Send (i : Nat) (nFd : Int)
  | ForceCloseConn (i : Nat) (nFd : Int)
  | connect (sfd : Int)
  | event (bev : Nat)
  | next (i : Nat)
deriving DecidableEq

namespace ConnMap

def new (nThreads : Nat) : ConnMap :=
  ⟨⟨0, false⟩, fun _ => none, .empty, .empty, .empty, [], List.replicate nThreads .idle, [], false⟩

def goto (s : ConnMap) (i : Nat) (pc : SendPc) : ConnMap := { s with threads := s.threads.set i pc }

/-- What is read must not have been released. -/
def use {α : Type} (s : ConnMap) (cell : Option α) (k : α → ConnMap) : ConnMap :=
  match cell with
  | some a => k a
  | none => { s with fault := true }

def registered (s : ConnMap) (nFd : Int) : Option Nat :=
  (s.m_connMap nFd).bind fun it => (s.nodes.cell it).map Prod.snd

/-- `m_connMap.erase(sfd)`. -/
def erase (s : ConnMap) (sfd : Int) : ConnMap :=
  match s.m_connMap sfd with
  | some it => { s with
      m_connMap := Function.update s.m_connMap sfd none
      nodes := s.nodes.free it }
  | none => s

/-- `m_connMap[sfd] = c`. -/
def insert (s : ConnMap) (sfd : Int) (c : Nat) : ConnMap :=
  match s.m_connMap sfd with
  | some it => { s with nodes := s.nodes.modify it fun n => (n.1, c) }
  | none => { s with
      m_connMap := Function.update s.m_connMap sfd (some s.nodes.next)
      nodes := s.nodes.alloc (sfd, c) }

/-- `CloseConn(pConnInfo, bev)`; the `bufferevent` closes the descriptor. -/
def release (s : ConnMap) (c bev : Nat) (conn : CONN_INFO) : ConnMap :=
  if conn.pClientTcpEvent = some bev then
    s.use (s.bufferevents.cell bev) fun _ => { s with
      bufferevents := s.bufferevents.free bev
      conns := s.conns.free c
      openFds := removeIndex s.openFds conn.sfd }
  else { s with conns := s.conns.free c, openFds := removeIndex s.openFds conn.sfd }

/-- The statements of `CloseConn`; a forced one goes on to `bufferevent_setcb`. -/
def closeStep (s : ConnMap) (i : Nat) (stage : CloseStage) (c bev : Nat) (forced : Bool) :
    Option ConnMap :=
  match stage with
  | .wlock =>
    if s.m_rwLock = ⟨0, false⟩ then
      some { s.goto i (.close .erase c bev forced) with m_rwLock := ⟨0, true⟩ }
    else none
  | .erase => some (s.use (s.conns.cell c) fun conn =>
      (s.erase conn.sfd).goto i (.close .unlock c bev forced))
  | .unlock => some { s.goto i (.close .free c bev forced) with m_rwLock := ⟨0, false⟩ }
  | .free => some (s.use (s.conns.cell c) fun conn =>
      (s.release c bev conn).goto i (if forced then .setcb bev else .idle))

def next (s : ConnMap) (i : Nat) : SendPc → Option ConnMap
  | .idle => none
  | .rlock force nFd =>
    if s.m_rwLock.writing then none
    else some { s.goto i (.find force nFd) with m_rwLock.readers := s.m_rwLock.readers + 1 }
  | .find force nFd => some (s.goto i (.unlock force nFd (s.m_connMap nFd)))
  | .unlock force nFd itFind =>
    some { s.goto i (.test force nFd itFind) with m_rwLock.readers := s.m_rwLock.readers - 1 }
  | .test _ _ none => some (s.goto i .idle)
  | .test false nFd (some it) => some (s.goto i (.second nFd it))
  | .test true _ (some it) => some (s.goto i (.forceSecond it))
  | .second nFd it => some (s.use (s.nodes.cell it) fun n => s.goto i (.load nFd n.2))
  | .load nFd c => some (s.use (s.conns.cell c) fun conn =>
      s.use conn.pClientTcpEvent fun bev => s.goto i (.write nFd bev))
  | .write nFd bev => some (s.use (s.bufferevents.cell bev) fun c =>
      { s.goto i .idle with writes := ⟨nFd, s.registered nFd, c⟩ :: s.writes })
  | .forceSecond it => some (s.use (s.nodes.cell it) fun _ => s.goto i (.forceLog it))
  | .forceLog it => some (s.use (s.nodes.cell it) fun n =>
      s.use (s.conns.cell n.2) fun _ => s.goto i (.forceLoad it))
  | .forceLoad it => some (s.use (s.nodes.cell it) fun n =>
      s.use (s.conns.cell n.2) fun conn =>
        s.use conn.pClientTcpEvent fun bev => s.goto i (.cbarg bev))
  | .cbarg bev => some (s.use (s.bufferevents.cell bev) fun c =>
      s.goto i (.close .wlock c bev true))
  | .close stage c bev forced => s.closeStep i stage c bev forced
  | .setcb bev => some (s.use (s.bufferevents.cell bev) fun _ => s.goto i .idle)
  | .registerLock c =>
    if s.m_rwLock = ⟨0, false⟩ then
      some { s.goto i (.registerInsert c) with m_rwLock := ⟨0, true⟩ }
    else none
  | .registerInsert c => some (s.use (s.conns.cell c) fun conn =>
      (s.insert conn.sfd c).goto i .registerUnlock)
  | .registerUnlock => some { s.goto i .idle with m_rwLock := ⟨0, false⟩ }

/-- Nothing happens after a fault. A new connection has a descriptor that is not open, and the
events are those of the `bufferevent`s there are. -/
def step (s : ConnMap) (op : SendOp) : Option ConnMap :=
  if s.fault then none
  else match op with
  | .Send i nFd =>
    if 0 < i ∧ s.threads[i]? = some .idle then some (s.goto i (.rlock false nFd)) else none
  | .ForceCloseConn i nFd =>
    if 0 < i ∧ s.threads[i]? = some .idle then some (s.goto i (.rlock true nFd)) else none
  | .connect sfd =>
    if s.threads[0]? = some .idle ∧ sfd ∉ s.openFds then
      some { s.goto 0 (.registerLock s.conns.next) with
        conns := s.conns.alloc ⟨sfd, some s.bufferevents.next⟩
        bufferevents := s.bufferevents.alloc s.conns.next
        openFds := sfd :: s.openFds }
    else none
  | .event bev =>
    if s.threads[0]? = some .idle then
      (s.bufferevents.cell bev).map fun c => s.goto 0 (.close .wlock c bev false)
    else none
  | .next i => s.threads[i]?.bind (s.next i)

end ConnMap

/-- The descriptor whose connection a `Send` has found and is about to use. -/
def SendPc.uses : SendPc → Option Int
  | .unlock false nFd (some _) | .test false nFd (some _) | .second nFd _ | .load nFd _
  | .write nFd _ => some nFd
  | _ => none

def SendPc.own : SendPc → Option Nat
  | .close _ c _ _ | .registerLock c | .registerInsert c => some c
  | _ => none

/-- The next statement does not erase a connection from the map that a `Send` is about to use, and
is not a `find` of `ForceCloseConn` that finds its descriptor. -/
def SendPc.Undisturbing (s : ConnMap) : SendPc → Prop
  | .find force nFd => force = true → s.m_connMap nFd = none
  | .close stage c _ _ => stage = .erase →
    ∀ conn ∈ s.conns.cell c, ∀ pc ∈ s.threads, pc.uses ≠ some conn.sfd
  | _ => True

def SendOp.Undisturbing (s : ConnMap) : SendOp → Prop
  | .next i => ∀ pc ∈ s.threads[i]?, pc.Undisturbing s
  | _ => True

instance (s : ConnMap) : (pc : SendPc) → Decidable (pc.Undisturbing s)
  | .find force nFd => inferInstanceAs (Decidable (force = true → s.m_connMap nFd = none))
  | .close stage c _ _ => inferInstanceAs (Decidable (stage = .erase →
      ∀ conn ∈ s.conns.cell c, ∀ pc ∈ s.threads, pc.uses ≠ some conn.sfd))
  | .idle | .rlock _ _ | .unlock _ _ _ | .test _ _ _ | .second _ _ | .load _ _ | .write _ _
  | .forceSecond _ | .forceLog _ | .forceLoad _ | .cbarg _ | .setcb _ | .registerLock _
  | .registerInsert _ | .registerUnlock => inferInstanceAs (Decidable True)

instance (s : ConnMap) : (op : SendOp) → Decidable (op.Undisturbing s)
  | .next i => inferInstanceAs (Decidable (∀ pc ∈ s.threads[i]?, pc.Undisturbing s))
  | .Send _ _ | .ForceCloseConn _ _ | .connect _ | .event _ => inferInstanceAs (Decidable True)

def SendPc.Ok (s : ConnMap) : SendPc → Prop
  | .idle | .rlock _ _ | .find _ _ | .registerUnlock => True
  | .unlock _ _ none | .test _ _ none => True
  | .unlock force nFd (some it) | .test force nFd (some it) =>
    force = false ∧ s.m_connMap nFd = some it
  | .second nFd it => s.m_connMap nFd = some it
  | .load nFd c => s.registered nFd = some c
  | .write nFd bev => ∃ c, s.registered nFd = some c ∧ s.bufferevents.cell bev = some c
  | .close stage c bev forced => forced = false ∧ s.bufferevents.cell bev = some c ∧
    ∃ sfd, s.conns.cell c = some ⟨sfd, some bev⟩ ∧
      (stage = .unlock ∨ stage = .free → s.m_connMap sfd = none) ∧
      (stage = .wlock ∨ stage = .erase → s.registered sfd = some c)
  | .registerLock c | .registerInsert c =>
    ∃ conn, s.conns.cell c = some conn ∧ s.m_connMap conn.sfd = none
  | .forceSecond _ | .forceLog _ | .forceLoad _ | .cbarg _ | .setcb _ => False

/-- What the steps keep. A connection that is not released is registered, or the worker registers or
closes it. -/
structure Serving (s : ConnMap) : Prop where
  open_ : ∀ c conn, s.conns.cell c = some conn → conn.sfd ∈ s.openFds
  served : ∀ c conn, s.conns.cell c = some conn →
    ∃ b, conn.pClientTcpEvent = some b ∧ s.bufferevents.cell b = some c
  apart : ∀ c d x y, s.conns.cell c = some x → s.conns.cell d = some y → x.sfd = y.sfd → c = d
  bevs : ∀ b c, s.bufferevents.cell b = some c → ∃ sfd, s.conns.cell c = some ⟨sfd, some b⟩
  entries : ∀ fd it, s.m_connMap fd = some it → ∃ c b, s.nodes.cell it = some (fd, c) ∧
    s.conns.cell c = some ⟨fd, some b⟩ ∧ s.bufferevents.cell b = some c
  listed : ∀ c conn, s.conns.cell c = some conn → s.registered conn.sfd = some c ∨
    ∃ pc : SendPc, s.threads[0]? = some pc ∧ pc.own = some c
  worker : ∀ (i : Nat) (pc : SendPc), s.threads[i]? = some pc → pc.own ≠ none → i = 0
  ok : ∀ (i : Nat) (pc : SendPc), s.threads[i]? = some pc → pc.Ok s
  written : ∀ w ∈ s.writes, w.registered = some w.written
  sound : s.fault = false

namespace Serving
variable {s t : ConnMap} {i : Nat} {pc old : SendPc} {fd : Int} {c b it : Nat}

theorem new (nThreads : Nat) : Serving (.new nThreads) := by
  have hidle : ∀ (i : Nat) (pc : SendPc), (ConnMap.new nThreads).threads[i]? = some pc →
      pc = .idle := fun i pc h => List.eq_of_mem_replicate (List.mem_of_getElem? h)
  refine ⟨?_, ?_, ?_, ?_, ?_, ?_, ?_, ?_, ?_, rfl⟩
  · intro c conn h
    cases h
  · intro c conn h
    cases h
  · intro c d x y h
    cases h
  · intro b c h
    cases h
  · intro fd it h
    cases h
  · intro c conn h
    cases h
  · intro i pc h hown
    rw [hidle i pc h] at hown
    exact absurd rfl hown
  · intro i pc h
    rw [hidle i pc h]
    trivial
  · intro w h
    cases h

/-- An entry of the map leads to the connection. -/
theorem entry (h : Serving s) (hit : s.m_connMap fd = some it) : ∃ c b,
    s.nodes.cell it = some (fd, c) ∧ s.conns.cell c = some ⟨fd, some b⟩ ∧
      s.bufferevents.cell b = some c ∧ s.registered fd = some c := by
  obtain ⟨c, b, hnode, hconn, hbev⟩ := h.entries fd it hit
  refine ⟨c, b, hnode, hconn, hbev, ?_⟩
  simp [ConnMap.registered, hit, hnode]

theorem of_registered (h : Serving s) (hc : s.registered fd = some c) : ∃ it b,
    s.m_connMap fd = some it ∧ s.nodes.cell it = some (fd, c) ∧
      s.conns.cell c = some ⟨fd, some b⟩ ∧ s.bufferevents.cell b = some c := by
  obtain ⟨it, hit, -⟩ := Option.bind_eq_some_iff.mp hc
  obtain ⟨d, b, hnode, hconn, hbev, hd⟩ := h.entry hit
  obtain rfl : d = c := Option.some.inj (hd.symm.trans hc)
  exact ⟨it, b, hit, hnode, hconn, hbev⟩

/-- A connection that the worker has not in its hand is registered. -/
theorem registered_of_own (h : Serving s) (hi : s.threads[0]? = some pc) {conn : CONN_INFO}
    (hc : s.conns.cell c = some conn) (hown : pc.own ≠ some c) :
    s.registered conn.sfd = some c := by
  refine (h.listed c conn hc).resolve_right ?_
  intro hcase
  obtain ⟨v, hv, hvown⟩ := hcase
  obtain rfl := Option.some.inj (hi.symm.trans hv)
  exact hown hvown

/-- A thread goes on; the worker may take a connection in its hand. -/
theorem move (h : Serving s) (hi : s.threads[i]? = some old) (pc : SendPc) (hok : pc.Ok s)
    (hkeep : ∀ c, old.own = some c → pc.own = some c) (hown : pc.own ≠ none → i = 0) :
    Serving (s.goto i pc) := by
  have hself : (s.threads.set i pc)[i]? = some pc :=
    List.getElem?_set_self (List.getElem?_eq_some_iff.mp hi).1
  have hcases : ∀ (j : Nat) (v : SendPc), (s.threads.set i pc)[j]? = some v →
      (j = i ∧ v = pc) ∨ s.threads[j]? = some v := by
    intro j v hv
    by_cases hij : i = j
    · subst hij
      exact Or.inl ⟨rfl, Option.some.inj (hv.symm.trans hself)⟩
    · rw [List.getElem?_set_ne hij] at hv
      exact Or.inr hv
  refine ⟨h.open_, h.served, h.apart, h.bevs, h.entries, ?_, ?_, ?_, h.written, h.sound⟩
  · intro c conn hc
    refine (h.listed c conn hc).imp id ?_
    intro hcase
    obtain ⟨v, hv, hvown⟩ := hcase
    by_cases hi0 : i = 0
    · subst hi0
      obtain rfl : old = v := Option.some.inj (hi.symm.trans hv)
      exact ⟨pc, hself, hkeep c hvown⟩
    · exact ⟨v, (List.getElem?_set_ne hi0).trans hv, hvown⟩
  · intro j v hv hvown
    obtain ⟨rfl, rfl⟩ | hv := hcases j v hv
    · exact hown hvown
    · exact h.worker j v hv hvown
  · intro j v hv
    obtain ⟨rfl, rfl⟩ | hv := hcases j v hv
    · exact hok
    · exact h.ok j v hv

theorem goto (h : Serving s) (hi : s.threads[i]? = some old) (pc : SendPc) (hok : pc.Ok s)
    (hown : pc.own = old.own) : Serving (s.goto i pc) :=
  h.move hi pc hok (fun _ hc => hown.trans hc) fun hne => h.worker i old hi (hown ▸ hne)

/-- Where the lock stands plays no part in it. -/
theorem lock (h : Serving s) (l : MapLock) : Serving { s with m_rwLock := l } :=
  ⟨h.open_, h.served, h.apart, h.bevs, h.entries, h.listed, h.worker, h.ok, h.written, h.sound⟩

/-- What holds for a thread that registers or closes nothing is kept with what its `Send` has
found. -/
theorem ok_of_kept (h : Serving s) (hok : pc.Ok s) (hown : pc.own = none)
    (hkept : ∀ fd it c b, pc.uses = some fd → s.m_connMap fd = some it →
      s.nodes.cell it = some (fd, c) → s.bufferevents.cell b = some c →
      t.m_connMap fd = some it ∧ t.nodes.cell it = some (fd, c) ∧
        t.bufferevents.cell b = some c) : pc.Ok t := by
  -- the entry that a `Send` has found, with all it leads to
  have hmap : ∀ fd it, pc.uses = some fd → s.m_connMap fd = some it → t.m_connMap fd = some it := by
    intro fd it hu hit
    obtain ⟨c, b, hnode, -, hbev, -⟩ := h.entry hit
    exact (hkept fd it c b hu hit hnode hbev).1
  have hreg : ∀ fd c b, pc.uses = some fd → s.registered fd = some c →
      s.bufferevents.cell b = some c →
      t.registered fd = some c ∧ t.bufferevents.cell b = some c := by
    intro fd c b hu hc hbev
    obtain ⟨it, -, hit, hnode, -⟩ := h.of_registered hc
    obtain ⟨hit', hnode', hbev'⟩ := hkept fd it c b hu hit hnode hbev
    exact ⟨by simp [ConnMap.registered, hit', hnode'], hbev'⟩
  cases pc with
  | unlock force nFd itFind | test force nFd itFind =>
    cases itFind with
    | none => trivial
    | some it =>
      obtain ⟨rfl, hit⟩ := hok
      exact ⟨rfl, hmap nFd it rfl hit⟩
  | second nFd it => exact hmap nFd it rfl hok
  | load nFd c =>
    obtain ⟨it, b, -, -, -, hbev⟩ := h.of_registered hok
    exact (hreg nFd c b rfl hok hbev).1
  | write nFd bev =>
    obtain ⟨c, hc, hbev⟩ := hok
    exact ⟨c, hreg nFd c bev rfl hc hbev⟩
  | idle | rlock | find | registerUnlock => trivial
  | close | registerLock | registerInsert => cases hown
  | forceSecond | forceLog | forceLoad | cbarg | setcb => exact hok

/-- The threads other than the worker register and close nothing. -/
theorem own_of_pos (h : Serving s) (hi : s.threads[i]? = some pc) (hne : i ≠ 0) :
    pc.own = none := by
  by_contra hown
  exact hne (h.worker i pc hi hown)

/-- The worker goes on, the other threads stay where they are. -/
theorem threads_set_zero (h : Serving s) {j : Nat} {v : SendPc}
    (hv : (s.threads.set 0 pc)[j]? = some v) :
    (j = 0 ∧ v = pc) ∨ (j ≠ 0 ∧ s.threads[j]? = some v ∧ v.own = none) := by
  obtain ⟨rfl, hpc⟩ | ⟨hj, hv⟩ := getElem?_set_cases hv
  · exact Or.inl ⟨rfl, hpc⟩
  · exact Or.inr ⟨Ne.symm hj, hv, h.own_of_pos hv (Ne.symm hj)⟩

theorem worker_set_zero (h : Serving s) (pc : SendPc) (j : Nat) (v : SendPc)
    (hv : (s.threads.set 0 pc)[j]? = some v) (hown : v.own ≠ none) : j = 0 := by
  obtain ⟨rfl, -⟩ | ⟨-, -, hnone⟩ := h.threads_set_zero hv
  · rfl
  · exact absurd hnone hown

theorem connect (h : Serving s) (hidle : s.threads[0]? = some .idle) (hfd : fd ∉ s.openFds) :
    Serving { s.goto 0 (.registerLock s.conns.next) with
      conns := s.conns.alloc ⟨fd, some s.bufferevents.next⟩
      bufferevents := s.bufferevents.alloc s.conns.next
      openFds := fd :: s.openFds } := by
  have hlt := (List.getElem?_eq_some_iff.mp hidle).1
  have hconn : ∀ {c : Nat} {x : CONN_INFO}, s.conns.cell c = some x →
      (s.conns.alloc ⟨fd, some s.bufferevents.next⟩).cell c = some x := Heap.alloc_of_live
  have hbev : ∀ {b c : Nat}, s.bufferevents.cell b = some c →
      (s.bufferevents.alloc s.conns.next).cell b = some c := Heap.alloc_of_live
  have hnone : s.m_connMap fd = none := by
    rw [Option.eq_none_iff_forall_ne_some]
    intro it hit
    obtain ⟨c, b, -, hc, -⟩ := h.entry hit
    exact hfd (h.open_ c _ hc)
  refine ⟨?_, ?_, ?_, ?_, ?_, ?_, ?_, ?_, h.written, h.sound⟩
  · intro c conn hc
    obtain ⟨-, rfl⟩ | hc := Heap.of_alloc hc
    · exact List.mem_cons_self
    · exact List.mem_cons_of_mem _ (h.open_ c conn hc)
  · intro c conn hc
    obtain ⟨rfl, rfl⟩ | hc := Heap.of_alloc hc
    · exact ⟨_, rfl, Heap.alloc_self _ _⟩
    · obtain ⟨b, hcb, hb⟩ := h.served c conn hc
      exact ⟨b, hcb, hbev hb⟩
  · intro c d x y hc hd hxy
    obtain ⟨rfl, rfl⟩ | hc := Heap.of_alloc hc <;> obtain ⟨rfl, rfl⟩ | hd := Heap.of_alloc hd
    · rfl
    · have hopen := h.open_ d y hd
      rw [← hxy] at hopen
      exact absurd hopen hfd
    · have hopen := h.open_ c x hc
      rw [hxy] at hopen
      exact absurd hopen hfd
    · exact h.apart c d x y hc hd hxy
  · intro b c hb
    obtain ⟨rfl, rfl⟩ | hb := Heap.of_alloc hb
    · exact ⟨fd, Heap.alloc_self _ _⟩
    · obtain ⟨sfd, hc⟩ := h.bevs b c hb
      exact ⟨sfd, hconn hc⟩
  · intro fd' it hit
    obtain ⟨c, b, hnode, hc, hb, -⟩ := h.entry hit
    exact ⟨c, b, hnode, hconn hc, hbev hb⟩
  · intro c conn hc
    obtain ⟨rfl, -⟩ | hc := Heap.of_alloc hc
    · exact Or.inr ⟨_, List.getElem?_set_self hlt, rfl⟩
    · exact Or.inl (h.registered_of_own hidle hc nofun)
  · exact h.worker_set_zero _
  · intro j v hv
    obtain ⟨rfl, rfl⟩ | ⟨-, hv, hown⟩ := h.threads_set_zero hv
    · exact ⟨_, Heap.alloc_self _ _, hnone⟩
    · refine h.ok_of_kept (h.ok j v hv) hown fun fd it c b hu hit hnode hb => ?_
      exact ⟨hit, hnode, hbev hb⟩

theorem insert (h : Serving s) (hi : s.threads[i]? = some (.registerInsert c))
    {conn : CONN_INFO} (hc : s.conns.cell c = some conn) :
    Serving ((s.insert conn.sfd c).goto i .registerUnlock) := by
  obtain rfl := h.worker i _ hi nofun
  obtain ⟨x, hx, hnone⟩ := h.ok 0 _ hi
  obtain rfl := Option.some.inj (hx.symm.trans hc)
  have hins : s.insert x.sfd c = { s with
      m_connMap := Function.update s.m_connMap x.sfd (some s.nodes.next)
      nodes := s.nodes.alloc (x.sfd, c) } := by
    rw [ConnMap.insert]
    rw [hnone]
  have hkept : ∀ {fd it d}, s.m_connMap fd = some it → s.nodes.cell it = some (fd, d) →
      Function.update s.m_connMap x.sfd (some s.nodes.next) fd = some it ∧
        (s.nodes.alloc (x.sfd, c)).cell it = some (fd, d) := by
    intro fd it d hit hnode
    have hne : fd ≠ x.sfd := by
      intro heq
      subst heq
      rw [hnone] at hit
      cases hit
    exact ⟨by rw [Function.update_of_ne hne, hit], Heap.alloc_of_live hnode⟩
  have hreg : ∀ {fd d}, s.registered fd = some d →
      ({ s with
        m_connMap := Function.update s.m_connMap x.sfd (some s.nodes.next)
        nodes := s.nodes.alloc (x.sfd, c) } : ConnMap).registered fd = some d := by
    intro fd d hd
    obtain ⟨it, b, hit, hnode, -⟩ := h.of_registered hd
    obtain ⟨hit', hnode'⟩ := hkept hit hnode
    simp [ConnMap.registered, hit', hnode']
  rw [hins]
  refine ⟨h.open_, h.served, h.apart, h.bevs, ?_, ?_, ?_, ?_, h.written, h.sound⟩
  · intro fd it hit
    by_cases hfd : fd = x.sfd
    · subst hfd
      obtain ⟨b, hcb, hb⟩ := h.served c x hc
      obtain rfl : s.nodes.next = it := by simpa [ConnMap.goto] using hit
      exact ⟨c, b, Heap.alloc_self _ _, by rw [← hcb]; exact hc, hb⟩
    · have hit' : s.m_connMap fd = some it := by simpa [ConnMap.goto, hfd] using hit
      obtain ⟨d, b, hnode, hd, hb, -⟩ := h.entry hit'
      exact ⟨d, b, (hkept hit' hnode).2, hd, hb⟩
  · intro d y hd
    left
    by_cases hdc : d = c
    · subst hdc
      obtain rfl := Option.some.inj (hd.symm.trans hc)
      simp [ConnMap.registered, ConnMap.goto]
    · exact hreg (h.registered_of_own hi hd fun he => hdc (Option.some.inj he).symm)
  · exact h.worker_set_zero _
  · intro j v hv
    obtain ⟨rfl, rfl⟩ | ⟨-, hv, hown⟩ := h.threads_set_zero hv
    · trivial
    · refine h.ok_of_kept (h.ok j v hv) hown fun fd it c b hu hit hnode hb => ?_
      obtain ⟨hit', hnode'⟩ := hkept hit hnode
      exact ⟨hit', hnode', hb⟩

/-- The worker takes a connection from the map that no `Send` has found. -/
theorem erase (h : Serving s) (hi : s.threads[i]? = some (.close .erase c b false))
    {conn : CONN_INFO} (hc : s.conns.cell c = some conn)
    (hfree : ∀ pc ∈ s.threads, pc.uses ≠ some conn.sfd) :
    Serving ((s.erase conn.sfd).goto i (.close .unlock c b false)) := by
  obtain rfl := h.worker i _ hi nofun
  obtain ⟨-, hb, sfd, hx, -, hreg⟩ := h.ok 0 _ hi
  obtain rfl := Option.some.inj (hx.symm.trans hc)
  obtain ⟨it, -, hit, hnode, -⟩ := h.of_registered (hreg (Or.inr rfl))
  have hera : s.erase sfd = { s with
      m_connMap := Function.update s.m_connMap sfd none
      nodes := s.nodes.free it } := by
    rw [ConnMap.erase]
    rw [hit]
  have hkept : ∀ {fd it' d}, fd ≠ sfd → s.m_connMap fd = some it' →
      s.nodes.cell it' = some (fd, d) → Function.update s.m_connMap sfd none fd = some it' ∧
        (s.nodes.free it).cell it' = some (fd, d) := by
    intro fd it' d hne hit' hnode'
    have hnodes : it' ≠ it := by
      intro heq
      subst heq
      exact hne (Prod.mk.inj (Option.some.inj (hnode'.symm.trans hnode))).1
    exact ⟨by rw [Function.update_of_ne hne, hit'], by rw [Heap.free_of_ne hnodes, hnode']⟩
  change Serving ((s.erase sfd).goto 0 _)
  rw [hera]
  refine ⟨h.open_, h.served, h.apart, h.bevs, ?_, ?_, ?_, ?_, h.written, h.sound⟩
  · intro fd it' hit'
    by_cases hfd : fd = sfd
    · subst hfd
      simp [ConnMap.goto] at hit'
    · have hold : s.m_connMap fd = some it' := by simpa [ConnMap.goto, hfd] using hit'
      obtain ⟨d, b', hnode', hd, hb', -⟩ := h.entry hold
      exact ⟨d, b', (hkept hfd hold hnode').2, hd, hb'⟩
  · intro d y hd
    by_cases hdc : d = c
    · subst hdc
      exact Or.inr ⟨_, List.getElem?_set_self (List.getElem?_eq_some_iff.mp hi).1, rfl⟩
    · left
      have hregd : s.registered y.sfd = some d :=
        h.registered_of_own hi hd fun he => hdc (Option.some.inj he).symm
      have hne : y.sfd ≠ sfd := fun he => hdc (h.apart d c y _ hd hx he)
      obtain ⟨it', b', hit', hnode', -⟩ := h.of_registered hregd
      obtain ⟨hit'', hnode''⟩ := hkept hne hit' hnode'
      simp [ConnMap.registered, ConnMap.goto, hit'', hnode'']
  · exact h.worker_set_zero _
  · intro j v hv
    obtain ⟨rfl, rfl⟩ | ⟨-, hj, hown⟩ := h.threads_set_zero hv
    · exact ⟨rfl, hb, sfd, hx, fun _ => Function.update_self _ _ _, by simp⟩
    · refine h.ok_of_kept (h.ok j v hj) hown fun fd it' d b' hu hit' hnode' hb' => ?_
      have hne : fd ≠ sfd := fun he => hfree v (List.mem_of_getElem? hj) (he ▸ hu)
      obtain ⟨hit'', hnode''⟩ := hkept hne hit' hnode'
      exact ⟨hit'', hnode'', hb'⟩

/-- The worker releases a connection that is no longer in the map. -/
theorem release (h : Serving s) (hi : s.threads[i]? = some (.close .free c b false))
    {conn : CONN_INFO} (hc : s.conns.cell c = some conn) :
    Serving ((s.release c b conn).goto i .idle) := by
  obtain rfl := h.worker i _ hi nofun
  obtain ⟨-, hb, sfd, hx, hnone, -⟩ := h.ok 0 _ hi
  obtain rfl := Option.some.inj (hx.symm.trans hc)
  have hrel : s.release c b ⟨sfd, some b⟩ = { s with
      bufferevents := s.bufferevents.free b
      conns := s.conns.free c
      openFds := removeIndex s.openFds sfd } := by
    unfold ConnMap.release ConnMap.use
    rw [if_pos rfl, hb]
  have hbev : ∀ {b' d}, d ≠ c → s.bufferevents.cell b' = some d →
      (s.bufferevents.free b).cell b' = some d := by
    intro b' d hne hb'
    rw [Heap.free_of_ne ?_, hb']
    intro heq
    subst heq
    exact hne (Option.some.inj (hb'.symm.trans hb))
  have hentry : ∀ {fd it}, s.m_connMap fd = some it → ∃ d b', d ≠ c ∧
      s.nodes.cell it = some (fd, d) ∧ s.conns.cell d = some ⟨fd, some b'⟩ ∧
      s.bufferevents.cell b' = some d := by
    intro fd it hit
    obtain ⟨d, b', hnode, hd, hb', -⟩ := h.entry hit
    refine ⟨d, b', ?_, hnode, hd, hb'⟩
    intro heq
    subst heq
    obtain rfl : fd = sfd := congrArg CONN_INFO.sfd (Option.some.inj (hd.symm.trans hx))
    rw [hnone (Or.inr rfl)] at hit
    cases hit
  rw [hrel]
  refine ⟨?_, ?_, ?_, ?_, ?_, ?_, ?_, ?_, h.written, h.sound⟩
  · intro d y hd
    obtain ⟨hdc, hd⟩ := Heap.of_free hd
    exact mem_removeIndex.mpr ⟨h.open_ d y hd, fun he => hdc (h.apart d c y _ hd hx he)⟩
  · intro d y hd
    obtain ⟨hdc, hd⟩ := Heap.of_free hd
    obtain ⟨b', hyb, hb'⟩ := h.served d y hd
    exact ⟨b', hyb, hbev hdc hb'⟩
  · intro d e y z hd he
    exact h.apart d e y z (Heap.of_free hd).2 (Heap.of_free he).2
  · intro b' d hb'
    obtain ⟨hbb, hb'⟩ := Heap.of_free hb'
    obtain ⟨fd, hd⟩ := h.bevs b' d hb'
    refine ⟨fd, ?_⟩
    have hdc : d ≠ c := by
      intro heq
      subst heq
      have hev := congrArg CONN_INFO.pClientTcpEvent (Option.some.inj (hd.symm.trans hx))
      exact hbb (Option.some.inj hev)
    exact (Heap.free_of_ne hdc).trans hd
  · intro fd it hit
    obtain ⟨d, b', hdc, hnode, hd, hb'⟩ := hentry hit
    exact ⟨d, b', hnode, (Heap.free_of_ne hdc).trans hd, hbev hdc hb'⟩
  · intro d y hd
    obtain ⟨hdc, hd⟩ := Heap.of_free hd
    exact Or.inl (h.registered_of_own hi hd fun he => hdc (Option.some.inj he).symm)
  · exact h.worker_set_zero _
  · intro j v hv
    obtain ⟨rfl, rfl⟩ | ⟨-, hv, hown⟩ := h.threads_set_zero hv
    · trivial
    · refine h.ok_of_kept (h.ok j v hv) hown fun fd it d b' hu hit hnode hb' => ?_
      obtain ⟨d', -, hdc, hnode', -⟩ := hentry hit
      obtain rfl : d' = d := (Prod.mk.inj (Option.some.inj (hnode'.symm.trans hnode))).2
      exact ⟨hit, hnode, hbev hdc hb'⟩

/-- A `Send` writes to the connection that is registered. -/
theorem write (h : Serving s) (hi : s.threads[i]? = some (.write fd b))
    (hc : s.registered fd = some c) :
    Serving { s.goto i .idle with writes := ⟨fd, s.registered fd, c⟩ :: s.writes } := by
  have h' := h.goto hi .idle trivial rfl
  refine ⟨h'.open_, h'.served, h'.apart, h'.bevs, h'.entries, h'.listed, h'.worker, h'.ok, ?_,
    h.sound⟩
  intro w hw
  obtain rfl | hw := List.mem_cons.mp hw
  · exact hc
  · exact h.written w hw

theorem closeStep (h : Serving s) {stage : CloseStage} {forced : Bool}
    (hi : s.threads[i]? = some (.close stage c b forced))
    (hu : SendPc.Undisturbing s (.close stage c b forced))
    (hs : s.closeStep i stage c b forced = some t) : Serving t := by
  have hok := h.ok i _ hi
  obtain ⟨rfl, hb, sfd, hc, hnone, hreg⟩ := hok
  cases stage with
  | wlock =>
    simp only [ConnMap.closeStep] at hs
    split at hs
    · obtain rfl := Option.some.inj hs
      refine (h.goto hi (.close .erase c b false) ?_ rfl).lock _
      exact ⟨rfl, hb, sfd, hc, by simp, fun _ => hreg (Or.inl rfl)⟩
    · cases hs
  | erase =>
    simp only [ConnMap.closeStep, hc, ConnMap.use, Option.some.injEq] at hs
    subst hs
    exact h.erase hi hc fun pc hpc => hu rfl _ hc pc hpc
  | unlock =>
    obtain rfl := Option.some.inj hs
    refine (h.goto hi (.close .free c b false) ?_ rfl).lock _
    exact ⟨rfl, hb, sfd, hc, fun _ => hnone (Or.inl rfl), by simp⟩
  | free =>
    simp only [ConnMap.closeStep, hc, ConnMap.use, Option.some.injEq] at hs
    subst hs
    exact h.release hi hc

theorem next (h : Serving s) (hi : s.threads[i]? = some pc) (hu : pc.Undisturbing s)
    (hs : s.next i pc = some t) : Serving t := by
  have hok := h.ok i pc hi
  cases pc with
  | idle => cases hs
  | rlock force nFd =>
    simp only [ConnMap.next] at hs
    split at hs
    · cases hs
    · obtain rfl := Option.some.inj hs
      exact (h.goto hi (.find force nFd) trivial rfl).lock _
  | find force nFd =>
    obtain rfl := Option.some.inj hs
    refine h.goto hi _ ?_ rfl
    cases hit : s.m_connMap nFd with
    | none => trivial
    | some it =>
      refine ⟨?_, hit⟩
      cases force with
      | false => rfl
      | true => exact absurd (hit.symm.trans (hu rfl)) nofun
  | unlock force nFd itFind =>
    obtain rfl := Option.some.inj hs
    refine (h.goto hi (.test force nFd itFind) ?_ rfl).lock _
    cases itFind <;> exact hok
  | test force nFd itFind =>
    cases itFind with
    | none =>
      obtain rfl := Option.some.inj hs
      exact h.goto hi _ trivial rfl
    | some it =>
      obtain ⟨rfl, hit⟩ := hok
      obtain rfl := Option.some.inj hs
      exact h.goto hi _ hit rfl
  | second nFd it =>
    obtain ⟨c, b, hnode, -, -, hreg⟩ := h.entry hok
    simp only [ConnMap.next, hnode, ConnMap.use, Option.some.injEq] at hs
    subst hs
    exact h.goto hi _ hreg rfl
  | load nFd c =>
    obtain ⟨it, b, -, -, hc, hb⟩ := h.of_registered hok
    simp only [ConnMap.next, hc, ConnMap.use, Option.some.injEq] at hs
    subst hs
    exact h.goto hi _ ⟨c, hok, hb⟩ rfl
  | write nFd bev =>
    obtain ⟨c, hreg, hb⟩ := hok
    simp only [ConnMap.next, hb, ConnMap.use, Option.some.injEq] at hs
    subst hs
    exact h.write hi hreg
  | close stage c bev forced => exact h.closeStep hi hu hs
  | registerLock c =>
    simp only [ConnMap.next] at hs
    split at hs
    · obtain rfl := Option.some.inj hs
      exact (h.goto hi (.registerInsert c) hok rfl).lock _
    · cases hs
  | registerInsert c =>
    obtain ⟨conn, hc, -⟩ := hok
    simp only [ConnMap.next, hc, ConnMap.use, Option.some.injEq] at hs
    subst hs
    exact h.insert hi hc
  | registerUnlock =>
    obtain rfl := Option.some.inj hs
    exact (h.goto hi .idle trivial rfl).lock _
  | forceSecond | forceLog | forceLoad | cbarg | setcb => exact hok.elim

/-- An event of a connection, which is in the map. -/
theorem event (h : Serving s) (hidle : s.threads[0]? = some .idle)
    (hb : s.bufferevents.cell b = some c) : Serving (s.goto 0 (.close .wlock c b false)) := by
  obtain ⟨sfd, hc⟩ := h.bevs b c hb
  have hreg : s.registered sfd = some c := h.registered_of_own hidle hc nofun
  refine h.move hidle _ ⟨rfl, hb, sfd, hc, by simp, fun _ => hreg⟩ nofun fun _ => rfl

theorem step (h : Serving s) {op : SendOp} (hu : op.Undisturbing s) (hs : s.step op = some t) :
    Serving t := by
  unfold ConnMap.step at hs
  rw [if_neg (by simp [h.sound])] at hs
  cases op with
  | Send i nFd | ForceCloseConn i nFd =>
    dsimp only at hs
    split at hs
    · rename_i hidle
      obtain rfl := Option.some.inj hs
      exact h.goto hidle.2 _ trivial rfl
    · cases hs
  | connect sfd =>
    dsimp only at hs
    split at hs
    · rename_i hcon
      obtain rfl := Option.some.inj hs
      exact h.connect hcon.1 hcon.2
    · cases hs
  | event bev =>
    dsimp only at hs
    split at hs
    · rename_i hidle
      obtain ⟨c, hb, rfl⟩ := Option.map_eq_some_iff.mp hs
      exact h.event hidle hb
    · cases hs
  | next i =>
    obtain ⟨pc, hi, hs⟩ := Option.bind_eq_some_iff.mp hs
    exact h.next hi (hu pc hi) hs

end Serving

/-- As long as no `ForceCloseConn` finds a connection and no connection is erased that a `Send` is
about to use, nothing released is used, and every `Send` writes to the connection registered under
its descriptor. -/
theorem sends_reach_registered {nThreads : Nat} {ops : List SendOp} {t : ConnMap}
    (h : Runs ConnMap.step (fun s op => op.Undisturbing s) (.new nThreads) ops t) :
    t.fault = false ∧ ∀ w ∈ t.writes, w.registered = some w.written := by
  have hserving := h.invariant Serving (.new nThreads) fun _ _ _ hi hu hs => hi.step hu hs
  exact ⟨hserving.sound, hserving.written⟩

def nexts (i n : Nat) : List SendOp := List.replicate n (.next i)

/-- A write while a second connection is registered, a close, and a write to the connection that has
the descriptor then. -/
def descriptorReused : List SendOp :=
  [[.connect 5], nexts 0 3, [.Send 1 5], nexts 1 2, [.connect 6], nexts 1 1, nexts 0 3, nexts 1 4,
    [.event 0], nexts 0 4, [.connect 5], nexts 0 3, [.ForceCloseConn 1 7], nexts 1 4, [.Send 1 5],
    nexts 1 7].flatten

theorem sends_reach_registered_reused : ∃ t,
    Runs ConnMap.step (fun s op => op.Undisturbing s) (.new 2) descriptorReused t ∧
    t.writes = [⟨5, some 2, 2⟩, ⟨5, some 0, 0⟩] ∧
    t.fault = false ∧ ∀ w ∈ t.writes, w.registered = some w.written := by
  have h : ((exec ConnMap.step (fun s op => op.Undisturbing s) (.new 2) descriptorReused).any
      fun t => decide (t.writes = [⟨5, some 2, 2⟩, ⟨5, some 0, 0⟩])) = true := by decide +kernel
  obtain ⟨t, ht, hp⟩ := exists_of_exec h
  exact ⟨t, ht, of_decide_eq_true hp, sends_reach_registered ht⟩

/-- A connection is closed after `n` statements of a `Send`, which then goes on. -/
def closedMeanwhile (n : Nat) : List SendOp :=
  [[.connect 5], nexts 0 3, [.Send 1 5], nexts 1 n, [.event 0], nexts 0 2, nexts 1 1].flatten

/-- `ForceCloseConn`, undisturbed. -/
def forcedClose : List SendOp :=
  [[.connect 5], nexts 0 3, [.ForceCloseConn 1 5], nexts 1 13].flatten

/-- A `Send` uses an erased entry, or writes to a connection that is not registered; and
`ForceCloseConn` uses what it has released itself. -/
theorem send_uses_released :
    (∃ t, Runs ConnMap.step (fun _ _ => True) (.new 2) (closedMeanwhile 4) t ∧ t.fault = true) ∧
    (∃ t, Runs ConnMap.step (fun _ _ => True) (.new 2) (closedMeanwhile 6) t ∧
      t.fault = false ∧ t.writes = [⟨5, none, 0⟩]) ∧
    ∃ t, Runs ConnMap.step (fun _ _ => True) (.new 2) forcedClose t ∧ t.fault = true := by
  have herased : ((exec ConnMap.step (fun _ _ => True) (.new 2) (closedMeanwhile 4)).any
      ConnMap.fault) = true := by decide +kernel
  have hwritten : ((exec ConnMap.step (fun _ _ => True) (.new 2) (closedMeanwhile 6)).any
      fun t => decide (t.fault = false ∧ t.writes = [⟨5, none, 0⟩])) = true := by decide +kernel
  have hforced : ((exec ConnMap.step (fun _ _ => True) (.new 2) forcedClose).any
      ConnMap.fault) = true := by decide +kernel
  obtain ⟨t, ht, hp⟩ := exists_of_exec hwritten
  exact ⟨exists_of_exec herased, ⟨t, ht, of_decide_eq_true hp⟩, exists_of_exec hforced⟩

end CppPrivate.Tcp
