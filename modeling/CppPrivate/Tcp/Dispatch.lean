import CppPrivate.Lib.Machine
import CppPrivate.Lib.Monitor
import CppPrivate.Lib.Run

/-! How an accepted connection passes from the master to a worker: through the worker's list, with
a byte on its pipe. The list is the sequence of nodes it represents, each of its calls one step, as
are the sections under the lock of the map. A connection is named by the number of its allocation;
what its memory holds stays when it is released. -/
namespace CppPrivate.Tcp
open Monitor Run

inductive WorkerPc where
  | dispatch  -- in `event_base_dispatch`
  | count  -- `while (m_connList.GetCount() > 0)`
  | head  -- `m_connList.GetHeadAndRemove()`
  | init (c : Nat)  -- `if (pConnInfo->sfd > 0)`, `InitNewConn`
  | store (c : Nat)  -- `m_connMap[pConnInfo->sfd] = pConnInfo`
  | discard (c : Nat)  -- `CloseConn(pConnInfo, NULL)` after a failed `InitNewConn`
  | free (c : Nat)  -- `CloseConn(p->pConnInfo, bev)`, the map entry erased
deriving DecidableEq

/-- A worker; the connections whose events its loop serves are in `bufferevents`. -/
structure CWorker where
  m_connList : List Nat
  pipe : Nat
  m_connMap : List (Int × Nat)
  bufferevents : List Nat
  pc : WorkerPc
deriving DecidableEq

inductive MasterPc where
  | accept
  | publish (tid c : Nat)  -- `m_connList.AddTail(pConnInfo)`
  | notify (tid c : Nat)  -- `write(m_pipeNotify.nSendFd, buf, 1)`
deriving DecidableEq

/-- The master with its workers. `m_sfd` has the field `sfd` of every `CONN_INFO` allocated. -/
structure CTcpMaster where
  m_sfd : List Int
  openFds : List Int
  m_nLastThread : Nat
  pc : MasterPc
  workers : List CWorker
  released : List Nat
deriving DecidableEq

/-- A step of the master (`accept`, `publish`, `notify`) or of the worker `i`. The answers of the
system are arguments. -/
inductive DispatchOp where
  | accept (sfd : Int) (nonblocking allocated : Bool)
  | publish
  | notify (written : Bool)
  | read (i : Nat)
  | count (i : Nat)
  | head (i : Nat)
  | init (i : Nat) (created : Bool)
  | store (i : Nat)
  | discard (i : Nat)
  | erase (i c : Nat)
  | free (i : Nat)
deriving DecidableEq

/-- `map.erase(fd)`. -/
def eraseFd (m : List (Int × Nat)) (fd : Int) : List (Int × Nat) := m.filter fun e => decide (e.1 ≠ fd)

/-- `map[fd] = c`. -/
def insertFd (m : List (Int × Nat)) (fd : Int) (c : Nat) : List (Int × Nat) :=
  (fd, c) :: eraseFd m fd

namespace CTcpMaster

def new (nThreadCount : Nat) : CTcpMaster :=
  ⟨[], [], 0, .accept, List.replicate nThreadCount ⟨[], 0, [], [], .dispatch⟩, []⟩

def sfd (s : CTcpMaster) (c : Nat) : Int := s.m_sfd[c]?.getD 0

def setWorker (s : CTcpMaster) (i : Nat) (w : CWorker) : CTcpMaster :=
  { s with workers := s.workers.set i w }

/-- `CloseConn(pConnInfo, bev)`, with the connection's own `bufferevent`, whose release closes the
descriptor, or with `NULL`. -/
def CloseConn (s : CTcpMaster) (c : Nat) (bev : Bool) : CTcpMaster :=
  if bev then { s with openFds := removeIndex s.openFds (s.sfd c), released := c :: s.released }
  else if s.sfd c > 0 then
    { s with
      openFds := removeIndex s.openFds (s.sfd c)
      m_sfd := s.m_sfd.set c 0
      released := c :: s.released }
  else { s with released := c :: s.released }

/-- `DispatchSfdToWorker` up to the list, for a descriptor that was not open before. -/
def accept (s : CTcpMaster) (sfd : Int) (nonblocking allocated : Bool) : Option CTcpMaster :=
  if s.pc ≠ .accept ∨ sfd < 0 ∨ sfd ∈ s.openFds ∨ s.workers = [] then none
  else if ¬nonblocking then some s  -- closed again
  else
    let tid := (s.m_nLastThread + 1) % s.workers.length
    if ¬allocated then some { s with m_nLastThread := tid }  -- closed again
    else some { s with
      m_sfd := s.m_sfd ++ [sfd]
      openFds := sfd :: s.openFds
      m_nLastThread := tid
      pc := .publish tid s.m_sfd.length }

def publish (s : CTcpMaster) : Option CTcpMaster :=
  match s.pc with
  | .publish tid c => s.workers[tid]?.map fun w =>
    { s.setWorker tid { w with m_connList := w.m_connList ++ [c] } with pc := .notify tid c }
  | _ => none

def notify (s : CTcpMaster) (written : Bool) : Option CTcpMaster :=
  match s.pc with
  | .notify tid c =>
    if written then
      s.workers[tid]?.map fun w => { s.setWorker tid { w with pipe := w.pipe + 1 } with pc := .accept }
    else some { s.CloseConn c false with pc := .accept }
  | _ => none

def stepWorker (s : CTcpMaster) (i : Nat) (w : CWorker) : DispatchOp → Option CTcpMaster
  | .read _ =>
    if w.pc = .dispatch ∧ 0 < w.pipe then
      some (s.setWorker i { w with pipe := w.pipe - 1, pc := .count })
    else none
  | .count _ =>
    if w.pc = .count then
      some (s.setWorker i { w with pc := if w.m_connList.length > 0 then .head else .dispatch })
    else none
  | .head _ =>
    if w.pc = .head then
      match w.m_connList with
      | [] => some (s.setWorker i { w with pc := .dispatch })
      | c :: rest => some (s.setWorker i { w with m_connList := rest, pc := .init c })
    else none
  | .init _ created =>
    match w.pc with
    | .init c =>
      if s.sfd c > 0 then
        if created then
          some (s.setWorker i { w with bufferevents := c :: w.bufferevents, pc := .store c })
        else some (s.setWorker i { w with pc := .discard c })
      else some (s.setWorker i { w with pc := .count })  -- no `else` in the source
    | _ => none
  | .store _ =>
    match w.pc with
    | .store c =>
      some (s.setWorker i { w with m_connMap := insertFd w.m_connMap (s.sfd c) c, pc := .count })
    | _ => none
  | .discard _ =>
    match w.pc with
    | .discard c => some ((s.CloseConn c false).setWorker i { w with pc := .count })
    | _ => none
  | .erase _ c =>
    if w.pc = .dispatch ∧ c ∈ w.bufferevents then
      some (s.setWorker i { w with m_connMap := eraseFd w.m_connMap (s.sfd c), pc := .free c })
    else none
  | .free _ =>
    match w.pc with
    | .free c => some ((s.CloseConn c true).setWorker i
        { w with bufferevents := w.bufferevents.filter fun d => decide (d ≠ c), pc := .dispatch })
    | _ => none
  | _ => none

def step (s : CTcpMaster) (op : DispatchOp) : Option CTcpMaster :=
  match op with
  | .accept sfd nonblocking allocated => s.accept sfd nonblocking allocated
  | .publish => s.publish
  | .notify written => s.notify written
  | .read i | .count i | .head i | .init i _ | .store i | .discard i | .erase i _ | .free i =>
    s.workers[i]?.bind fun w => s.stepWorker i w op

end CTcpMaster

/-- What the master has allocated and not yet put in a list. -/
def MasterPc.hand : MasterPc → List Nat
  | .publish _ c => [c]
  | _ => []

/-- What a worker has taken from its list and not yet put in its map. -/
def WorkerPc.registering : WorkerPc → List Nat
  | .init c | .store c => [c]
  | _ => []

/-- What a worker is about to release. -/
def WorkerPc.releasing : WorkerPc → List Nat
  | .discard c | .free c => [c]
  | _ => []

def WorkerPc.draining : WorkerPc → Bool
  | .dispatch | .free _ => false
  | _ => true

namespace CWorker

def registered (w : CWorker) : List Nat := w.m_connMap.map Prod.snd

def holds (w : CWorker) : List Nat :=
  w.m_connList ++ w.pc.registering ++ w.registered ++ w.pc.releasing

end CWorker

namespace CTcpMaster

def queued (s : CTcpMaster) : List Nat := s.workers.flatMap CWorker.m_connList

def registering (s : CTcpMaster) : List Nat := s.workers.flatMap fun w => w.pc.registering

def registered (s : CTcpMaster) : List Nat := s.workers.flatMap CWorker.registered

def releasing (s : CTcpMaster) : List Nat := s.workers.flatMap fun w => w.pc.releasing

def places (s : CTcpMaster) (c : Nat) : Nat :=
  s.pc.hand.count c + total (fun w => w.holds.count c) s.workers + s.released.count c

theorem places_eq (s : CTcpMaster) (c : Nat) : s.places c = s.pc.hand.count c + s.queued.count c +
    s.registering.count c + s.registered.count c + (s.releasing ++ s.released).count c := by
  have hcount : ∀ f : CWorker → List Nat,
      (s.workers.flatMap f).count c = total (fun w => (f w).count c) s.workers :=
    fun f => List.count_flatMap
  simp only [places, queued, registering, registered, releasing, CWorker.holds, List.count_append,
    hcount, total_add]
  omega

end CTcpMaster

/-- Every connection is in one situation: being dispatched, in a list, being registered, in a map,
or released or about to be. One in a list has a byte on the pipe of its worker, or the worker
empties its list, or the master is about to write the byte. -/
structure InOnePlace (s : CTcpMaster) : Prop where
  one : ∀ c < s.m_sfd.length, s.pc.hand.count c + s.queued.count c + s.registering.count c +
    s.registered.count c + (s.releasing ++ s.released).count c = 1
  releasedOnce : s.released.Nodup
  releasedLast : ∀ c ∈ s.released, c ∉ s.queued ∧ c ∉ s.registered
  notified : ∀ i w, s.workers[i]? = some w → w.m_connList ≠ [] →
    0 < w.pipe ∨ w.pc.draining = true ∨ ∃ c, s.pc = .notify i c

/-- Every byte is written, and no accepted descriptor is 0. -/
def DispatchOp.Sound : DispatchOp → Prop
  | .accept sfd _ _ => sfd ≠ 0
  | .notify written => written = true
  | _ => True

instance : (op : DispatchOp) → Decidable op.Sound
  | .accept sfd _ _ => inferInstanceAs (Decidable (sfd ≠ 0))
  | .notify written => inferInstanceAs (Decidable (written = true))
  | .publish | .read _ | .count _ | .head _ | .init _ _ | .store _ | .discard _ | .erase _ _
  | .free _ => inferInstanceAs (Decidable True)

/-- What the steps keep. The descriptors of connections that are not released are open and tell
them apart, so a map has one entry for each of its connections. -/
structure Owned (s : CTcpMaster) : Prop where
  places : ∀ c, s.places c = if c < s.m_sfd.length then 1 else 0
  open_ : ∀ c < s.m_sfd.length, c ∉ s.released → 0 < s.sfd c ∧ s.sfd c ∈ s.openFds
  apart : ∀ c d, c < s.m_sfd.length → d < s.m_sfd.length → c ∉ s.released → d ∉ s.released →
    s.sfd c = s.sfd d → c = d
  keyed : ∀ w ∈ s.workers, ∀ e ∈ w.m_connMap, e.1 = s.sfd e.2
  alive : ∀ w ∈ s.workers, ∀ c ∈ w.bufferevents,
    c ∈ w.registered ∨ w.pc = .store c ∨ w.pc = .free c
  notified : ∀ i w, s.workers[i]? = some w → w.m_connList ≠ [] →
    0 < w.pipe ∨ w.pc.draining = true ∨ ∃ c, s.pc = .notify i c

namespace Owned
variable {s t : CTcpMaster} {i : Nat} {w w' : CWorker} {c : Nat}

theorem new (nThreadCount : Nat) : Owned (.new nThreadCount) := by
  have hw : ∀ w ∈ (CTcpMaster.new nThreadCount).workers, w = ⟨[], 0, [], [], .dispatch⟩ :=
    fun w hw => List.eq_of_mem_replicate hw
  refine ⟨?_, by simp [CTcpMaster.new], by simp [CTcpMaster.new], ?_, ?_, ?_⟩
  · intro c
    simp [CTcpMaster.places, CTcpMaster.new, MasterPc.hand, total_replicate, CWorker.holds,
      CWorker.registered, WorkerPc.registering, WorkerPc.releasing]
  · intro w hin e he
    rw [hw w hin] at he
    cases he
  · intro w hin c hc
    rw [hw w hin] at hc
    cases hc
  · intro i w hi hne
    rw [hw w (List.mem_of_getElem? hi)] at hne
    exact absurd rfl hne

/-- What a step of one worker changes in the places of a connection. -/
theorem places_setWorker (hw : s.workers[i]? = some w) (w' : CWorker) (c : Nat) :
    (s.setWorker i w').places c + w.holds.count c = s.places c + w'.holds.count c := by
  have htotal : total (fun w => w.holds.count c) (s.workers.set i w') + w.holds.count c =
      total (fun w => w.holds.count c) s.workers + w'.holds.count c := total_set _ w' hw
  simp only [CTcpMaster.places, CTcpMaster.setWorker]
  omega

/-- What is with a worker is allocated and not released. -/
theorem lives (h : Owned s) (hw : s.workers[i]? = some w) (hc : c ∈ w.holds) :
    c < s.m_sfd.length ∧ c ∉ s.released := by
  have hle : w.holds.count c ≤ total (fun w => w.holds.count c) s.workers :=
    le_total (fun w => w.holds.count c) (List.mem_of_getElem? hw)
  have hpos := List.count_pos_iff.mpr hc
  have hplaces := h.places c
  rw [CTcpMaster.places] at hplaces
  constructor
  · by_contra hlt
    rw [if_neg hlt] at hplaces
    omega
  · intro hr
    have hrpos := List.count_pos_iff.mpr hr
    split at hplaces <;> omega

/-- It is with the worker once. -/
theorem holds_once (h : Owned s) (hw : s.workers[i]? = some w) (c : Nat) : w.holds.count c ≤ 1 := by
  have hle : w.holds.count c ≤ total (fun w => w.holds.count c) s.workers :=
    le_total (fun w => w.holds.count c) (List.mem_of_getElem? hw)
  have hplaces := h.places c
  rw [CTcpMaster.places] at hplaces
  split at hplaces <;> omega

/-- And with no other one. -/
theorem holder_unique (h : Owned s) {j : Nat} {v : CWorker} (hw : s.workers[i]? = some w)
    (hv : s.workers[j]? = some v) (hcw : c ∈ w.holds) (hcv : c ∈ v.holds) : i = j := by
  by_contra hij
  have hset := total_set (fun w => w.holds.count c) ⟨[], 0, [], [], .dispatch⟩ hw
  have hle : v.holds.count c ≤ total (fun w => w.holds.count c)
      (s.workers.set i ⟨[], 0, [], [], .dispatch⟩) :=
    le_total (fun w => w.holds.count c)
      (List.mem_of_getElem? ((List.getElem?_set_ne hij).trans hv))
  have hpw := List.count_pos_iff.mpr hcw
  have hpv := List.count_pos_iff.mpr hcv
  have hplaces := h.places c
  rw [CTcpMaster.places] at hplaces
  have hempty : (CWorker.mk [] 0 [] [] .dispatch).holds.count c = 0 := rfl
  split at hplaces <;> omega

/-- What a step of a worker has to keep of its own part. -/
structure Kept (s : CTcpMaster) (i : Nat) (w' : CWorker) : Prop where
  keyed : ∀ e ∈ w'.m_connMap, e.1 = s.sfd e.2
  alive : ∀ c ∈ w'.bufferevents, c ∈ w'.registered ∨ w'.pc = .store c ∨ w'.pc = .free c
  notified : w'.m_connList ≠ [] → 0 < w'.pipe ∨ w'.pc.draining = true ∨ ∃ c, s.pc = .notify i c

theorem kept (h : Owned s) (hw : s.workers[i]? = some w) : Kept s i w :=
  ⟨h.keyed w (List.mem_of_getElem? hw), h.alive w (List.mem_of_getElem? hw), h.notified i w hw⟩

/-- A worker that neither stores nor releases a connection has events of registered ones only. -/
theorem registered_of_alive (h : Owned s) (hw : s.workers[i]? = some w)
    (hpc : ∀ d, w.pc ≠ .store d ∧ w.pc ≠ .free d) : ∀ d ∈ w.bufferevents, d ∈ w.registered := by
  intro d hd
  rcases (h.kept hw).alive d hd with hmem | hstore | hfree
  · exact hmem
  · exact absurd hstore (hpc d).1
  · exact absurd hfree (hpc d).2

/-- The other workers have kept their parts as well. -/
theorem kept_set (h : Owned s) (hkept : Kept s i w') {j : Nat} {v : CWorker}
    (hv : (s.workers.set i w')[j]? = some v) : Kept s j v := by
  obtain ⟨rfl, rfl⟩ | ⟨-, hv⟩ := getElem?_set_cases hv
  · exact hkept
  · exact h.kept hv

theorem of_kept (hplaces : ∀ c, s.places c = if c < s.m_sfd.length then 1 else 0)
    (hopen : ∀ c < s.m_sfd.length, c ∉ s.released → 0 < s.sfd c ∧ s.sfd c ∈ s.openFds)
    (hapart : ∀ c d, c < s.m_sfd.length → d < s.m_sfd.length → c ∉ s.released → d ∉ s.released →
      s.sfd c = s.sfd d → c = d)
    (hkept : ∀ (j : Nat) v, s.workers[j]? = some v → Kept s j v) : Owned s where
  places := hplaces
  open_ := hopen
  apart := hapart
  keyed := fun v hv => by
    obtain ⟨j, hj⟩ := List.getElem?_of_mem hv
    exact (hkept j v hj).keyed
  alive := fun v hv => by
    obtain ⟨j, hj⟩ := List.getElem?_of_mem hv
    exact (hkept j v hj).alive
  notified := fun j v hj => (hkept j v hj).notified

/-- A worker moves a connection among its own places. -/
theorem move (h : Owned s) (hw : s.workers[i]? = some w)
    (hholds : ∀ c, w'.holds.count c = w.holds.count c) (hkept : Kept s i w') :
    Owned (s.setWorker i w') := by
  refine of_kept ?_ h.open_ h.apart fun j v hv => ?_
  · intro c
    have hplaces := h.places c
    have hmoved := places_setWorker hw w' c
    have hc := hholds c
    change (s.setWorker i w').places c = if c < s.m_sfd.length then 1 else 0
    omega
  · have hv' := h.kept_set hkept hv
    exact ⟨hv'.keyed, hv'.alive, hv'.notified⟩

theorem sfd_closeConn {bev : Bool} {d : Nat} (hd : d ≠ c) : (s.CloseConn c bev).sfd d = s.sfd d := by
  unfold CTcpMaster.CloseConn CTcpMaster.sfd
  split
  · rfl
  · split
    · simp only [List.getElem?_set_ne hd.symm]
    · rfl

theorem length_closeConn {bev : Bool} : (s.CloseConn c bev).m_sfd.length = s.m_sfd.length := by
  rw [CTcpMaster.CloseConn]
  split
  · rfl
  · split
    · simp
    · rfl

theorem released_closeConn {bev : Bool} : (s.CloseConn c bev).released = c :: s.released := by
  rw [CTcpMaster.CloseConn]
  split
  · rfl
  · split <;> rfl

theorem rest_closeConn {bev : Bool} : (s.CloseConn c bev).workers = s.workers ∧
    (s.CloseConn c bev).pc = s.pc ∧
    ∀ fd ∈ s.openFds, fd ≠ s.sfd c → fd ∈ (s.CloseConn c bev).openFds := by
  rw [CTcpMaster.CloseConn]
  split
  · exact ⟨rfl, rfl, fun fd hfd hne => mem_removeIndex.mpr ⟨hfd, hne⟩⟩
  · split
    · exact ⟨rfl, rfl, fun fd hfd hne => mem_removeIndex.mpr ⟨hfd, hne⟩⟩
    · exact ⟨rfl, rfl, fun fd hfd _ => hfd⟩

theorem release (h : Owned s) (hw : s.workers[i]? = some w) {bev : Bool}
    (hholds : ∀ d, w'.holds.count d + [c].count d = w.holds.count d) (hkept : Kept s i w') :
    Owned ((s.CloseConn c bev).setWorker i w') := by
  obtain ⟨hworkers, hpc, hfds⟩ : (s.CloseConn c bev).workers = s.workers ∧ _ := rest_closeConn
  have hc : c ∈ w.holds := by
    have := hholds c
    rw [List.count_singleton_self] at this
    exact List.count_pos_iff.mp (by omega)
  obtain ⟨hclt, hcout⟩ := h.lives hw hc
  have hout : ∀ {d}, d ∉ (s.CloseConn c bev).released → d ≠ c ∧ d ∉ s.released := by
    intro d hd
    rw [released_closeConn] at hd
    exact ⟨fun he => hd (he ▸ List.mem_cons_self), fun hr => hd (List.mem_cons_of_mem _ hr)⟩
  refine of_kept ?_ ?_ ?_ fun j v hv => ?_
  · intro d
    have hmoved := places_setWorker hw w' d
    have hd := hholds d
    have hcons : (c :: s.released).count d = [c].count d + s.released.count d := by
      rw [← List.count_append, List.singleton_append]
    have hplaces : ((s.CloseConn c bev).setWorker i w').places d =
        (s.setWorker i w').places d + [c].count d := by
      simp only [CTcpMaster.places, CTcpMaster.setWorker, hworkers, hpc, released_closeConn, hcons]
      omega
    have hlen : ((s.CloseConn c bev).setWorker i w').m_sfd.length = s.m_sfd.length :=
      length_closeConn
    rw [hplaces, hlen, ← h.places d]
    omega
  · intro d hlt hd
    obtain ⟨hne, hd⟩ := hout hd
    have hlt : d < s.m_sfd.length := Nat.lt_of_lt_of_eq hlt length_closeConn
    obtain ⟨hpos, hopen⟩ := h.open_ d hlt hd
    change 0 < (s.CloseConn c bev).sfd d ∧ (s.CloseConn c bev).sfd d ∈ (s.CloseConn c bev).openFds
    rw [sfd_closeConn hne]
    exact ⟨hpos, hfds _ hopen fun he => hne (h.apart d c hlt hclt hd hcout he)⟩
  · intro d e hdlt helt hd he heq
    obtain ⟨hdne, hd⟩ := hout hd
    obtain ⟨hene, he⟩ := hout he
    change (s.CloseConn c bev).sfd d = (s.CloseConn c bev).sfd e at heq
    rw [sfd_closeConn hdne, sfd_closeConn hene] at heq
    exact h.apart d e (Nat.lt_of_lt_of_eq hdlt length_closeConn)
      (Nat.lt_of_lt_of_eq helt length_closeConn) hd he heq
  · have hv : (s.workers.set i w')[j]? = some v := by
      rw [← hworkers]
      exact hv
    have hv' := h.kept_set hkept hv
    refine ⟨fun e he => ?_, hv'.alive, by rw [CTcpMaster.setWorker, hpc]; exact hv'.notified⟩
    -- no map has an entry of the connection that is released
    have hne : e.2 ≠ c := by
      intro hec
      have hmem : c ∈ v.registered := hec ▸ List.mem_map_of_mem he
      have hcv : c ∈ v.holds := by simp [CWorker.holds, hmem]
      obtain ⟨rfl, rfl⟩ | ⟨hij, hv⟩ := getElem?_set_cases hv
      · have hone := h.holds_once hw c
        have hcount := hholds c
        have hpos := List.count_pos_iff.mpr hcv
        rw [List.count_singleton_self] at hcount
        omega
      · exact hij (h.holder_unique hw hv hc hcv)
    change e.1 = (s.CloseConn c bev).sfd e.2
    rw [sfd_closeConn hne]
    exact hv'.keyed e he

theorem eraseFd_of_not_mem {m : List (Int × Nat)} {fd : Int} (h : ∀ e ∈ m, e.1 ≠ fd) :
    eraseFd m fd = m := by
  rw [eraseFd]
  rw [List.filter_eq_self]
  exact fun e he => decide_eq_true (h e he)

/-- The map has no entry under the descriptor of a connection that is not in it. -/
theorem no_key (h : Owned s) (hw : s.workers[i]? = some w) (hc : c ∈ w.holds)
    (hout : c ∉ w.registered) {e : Int × Nat} (he : e ∈ w.m_connMap) : e.1 ≠ s.sfd c := by
  intro hkey
  obtain ⟨hclt, hcr⟩ := h.lives hw hc
  have hmem : e.2 ∈ w.registered := List.mem_map_of_mem he
  have heh : e.2 ∈ w.holds := by simp [CWorker.holds, hmem]
  obtain ⟨helt, her⟩ := h.lives hw heh
  have hsame := h.apart e.2 c helt hclt her hcr
    ((h.keyed w (List.mem_of_getElem? hw) e he).symm.trans hkey)
  exact hout (hsame ▸ hmem)

theorem store (h : Owned s) (hw : s.workers[i]? = some w) (hpc : w.pc = .store c) :
    Owned (s.setWorker i
      { w with m_connMap := insertFd w.m_connMap (s.sfd c) c, pc := .count }) := by
  have hc : c ∈ w.holds := by simp [CWorker.holds, hpc, WorkerPc.registering]
  have hout : c ∉ w.registered := by
    intro hmem
    have hone := h.holds_once hw c
    have hpos := List.count_pos_iff.mpr hmem
    simp only [CWorker.holds, hpc, WorkerPc.registering, List.count_append,
      List.count_singleton_self] at hone
    omega
  have hinsert : insertFd w.m_connMap (s.sfd c) c = (s.sfd c, c) :: w.m_connMap := by
    rw [insertFd, eraseFd_of_not_mem fun e he => h.no_key hw hc hout he]
  have hold := h.kept hw
  rw [hinsert]
  refine h.move hw ?_ ⟨?_, ?_, fun _ => Or.inr (Or.inl rfl)⟩
  · intro d
    have hcons : ((s.sfd c, c) :: w.m_connMap).map Prod.snd = [c] ++ w.registered := rfl
    simp only [CWorker.holds, CWorker.registered, hcons, hpc, WorkerPc.registering,
      WorkerPc.releasing, List.count_append, List.count_nil]
    omega
  · intro e he
    cases List.mem_cons.mp he with
    | inl heq => rw [heq]
    | inr he => exact hold.keyed e he
  · intro d hd
    rcases hold.alive d hd with hmem | hstore | hfree
    · exact Or.inl (List.mem_cons_of_mem _ hmem)
    · rw [hpc] at hstore
      cases hstore
      exact Or.inl List.mem_cons_self
    · rw [hpc] at hfree
      cases hfree

/-- A registered connection has the only entry under its descriptor. -/
theorem registered_split (h : Owned s) (hw : s.workers[i]? = some w) (hc : c ∈ w.registered) :
    ∃ l l', w.m_connMap = l ++ (s.sfd c, c) :: l' ∧ eraseFd w.m_connMap (s.sfd c) = l ++ l' := by
  obtain ⟨e, he, rfl⟩ := List.mem_map.mp hc
  obtain ⟨l, l', hsplit⟩ := List.append_of_mem he
  have hkey := h.keyed w (List.mem_of_getElem? hw) e he
  have hother : ∀ f ∈ l ++ l', f.1 ≠ s.sfd e.2 := by
    intro f hf hfkey
    have hfm : f ∈ w.m_connMap := by
      rw [hsplit]
      exact (List.mem_append.mp hf).elim (fun hl => List.mem_append_left _ hl)
        fun hl => List.mem_append_right _ (List.mem_cons_of_mem _ hl)
    have hin : ∀ g ∈ w.m_connMap, g.2 ∈ w.holds := by
      intro g hg
      have hmem : g.2 ∈ w.registered := List.mem_map_of_mem hg
      simp [CWorker.holds, hmem]
    obtain ⟨hflt, hfr⟩ := h.lives hw (hin f hfm)
    obtain ⟨helt, her⟩ := h.lives hw (hin e he)
    have hsame := h.apart f.2 e.2 hflt helt hfr her
      ((h.keyed w (List.mem_of_getElem? hw) f hfm).symm.trans hfkey)
    -- then the connection would be in the map twice
    have hpos : 0 < ((l ++ l').map Prod.snd).count e.2 :=
      List.count_pos_iff.mpr (hsame ▸ List.mem_map_of_mem hf)
    have hone := h.holds_once hw e.2
    simp only [CWorker.holds, CWorker.registered, hsplit, List.map_append, List.map_cons,
      List.count_append, List.count_cons_self] at hone hpos
    omega
  have hpair : e = (s.sfd e.2, e.2) := Prod.ext hkey rfl
  refine ⟨l, l', by rw [← hpair]; exact hsplit, ?_⟩
  rw [hsplit, eraseFd, List.filter_append, List.filter_cons_of_neg (by simp [hkey]),
    ← List.filter_append]
  exact eraseFd_of_not_mem hother

theorem erase (h : Owned s) (hw : s.workers[i]? = some w) (hpc : w.pc = .dispatch)
    (hc : c ∈ w.bufferevents) : Owned (s.setWorker i
      { w with m_connMap := eraseFd w.m_connMap (s.sfd c), pc := .free c }) := by
  have hold := h.kept hw
  have halive := h.registered_of_alive hw (by simp [hpc])
  obtain ⟨l, l', hsplit, herase⟩ := h.registered_split hw (halive c hc)
  rw [herase]
  refine h.move hw ?_ ⟨?_, ?_, ?_⟩
  · intro d
    simp only [CWorker.holds, CWorker.registered, hsplit, hpc, WorkerPc.registering,
      WorkerPc.releasing, List.map_append, List.map_cons, List.count_append, List.count_nil,
      List.count_cons]
    omega
  · intro e he
    refine hold.keyed e ?_
    rw [hsplit]
    exact (List.mem_append.mp he).elim (fun hl => List.mem_append_left _ hl)
      fun hl => List.mem_append_right _ (List.mem_cons_of_mem _ hl)
  · intro d hd
    have hmem := halive d hd
    by_cases hdc : d = c
    · exact Or.inr (Or.inr (hdc ▸ rfl))
    · left
      simp only [CWorker.registered, hsplit, List.map_append, List.map_cons, List.mem_append,
        List.mem_cons] at hmem ⊢
      exact hmem.imp id fun hmem => hmem.resolve_left hdc
  · intro hne
    exact (hold.notified hne).imp id fun hn => hn.imp (fun hd => by rw [hpc] at hd; cases hd) id

/-- A worker that holds nothing outside of its list and map goes on to such a place. -/
theorem moveOn (h : Owned s) (hw : s.workers[i]? = some w) {pipe : Nat} {pc : WorkerPc}
    (hold : w.pc.registering ++ w.pc.releasing = []) (hnew : pc.registering ++ pc.releasing = [])
    (hnotified : w.m_connList ≠ [] → 0 < pipe ∨ pc.draining = true ∨ ∃ c, s.pc = .notify i c) :
    Owned (s.setWorker i { w with pipe := pipe, pc := pc }) := by
  obtain ⟨hold1, hold2⟩ := List.append_eq_nil_iff.mp hold
  obtain ⟨hnew1, hnew2⟩ := List.append_eq_nil_iff.mp hnew
  have hidle : ∀ d, w.pc ≠ .store d ∧ w.pc ≠ .free d := by
    intro d
    constructor
    · intro hstore
      rw [hstore] at hold1
      cases hold1
    · intro hfree
      rw [hfree] at hold2
      cases hold2
  refine h.move hw ?_ ⟨(h.kept hw).keyed, ?_, hnotified⟩
  · intro c
    simp only [CWorker.holds, CWorker.registered, hold1, hold2, hnew1, hnew2]
  · exact fun c hc => Or.inl (h.registered_of_alive hw hidle c hc)

/-- A drain takes the first connection of the list. -/
theorem pop (h : Owned s) (hw : s.workers[i]? = some w) (hpc : w.pc = .head) {rest : List Nat}
    (hcons : w.m_connList = c :: rest) :
    Owned (s.setWorker i { w with m_connList := rest, pc := .init c }) := by
  refine h.move hw ?_ ⟨(h.kept hw).keyed, ?_, fun _ => Or.inr (Or.inl rfl)⟩
  · intro d
    simp only [CWorker.holds, CWorker.registered, hpc, hcons, WorkerPc.registering,
      WorkerPc.releasing, List.count_append, List.count_nil, List.count_cons]
    omega
  · exact fun d hd => Or.inl (h.registered_of_alive hw (by simp [hpc]) d hd)

/-- `InitNewConn` makes an event for the connection, or fails to. -/
theorem initNewConn (h : Owned s) (hw : s.workers[i]? = some w) (hpc : w.pc = .init c) :
    Owned (s.setWorker i { w with bufferevents := c :: w.bufferevents, pc := .store c }) ∧
      Owned (s.setWorker i { w with pc := .discard c }) := by
  have halive := h.registered_of_alive hw (by simp [hpc])
  refine ⟨h.move hw ?_ ⟨(h.kept hw).keyed, ?_, fun _ => Or.inr (Or.inl rfl)⟩,
    h.move hw ?_ ⟨(h.kept hw).keyed, fun d hd => Or.inl (halive d hd), fun _ => Or.inr (Or.inl rfl)⟩⟩
  · intro d
    simp only [CWorker.holds, CWorker.registered, hpc, WorkerPc.registering, WorkerPc.releasing]
  · intro d hd
    cases List.mem_cons.mp hd with
    | inl heq => exact Or.inr (Or.inl (heq ▸ rfl))
    | inr hd => exact Or.inl (halive d hd)
  · intro d
    simp only [CWorker.holds, CWorker.registered, hpc, WorkerPc.registering, WorkerPc.releasing,
      List.count_append, List.count_nil]
    omega

/-- The connection that a worker is about to release is released. -/
theorem releaseOwn (h : Owned s) (hw : s.workers[i]? = some w) (hpc : w.pc.releasing = [c])
    (hreg : w.pc.registering = []) {pc : WorkerPc} {bev : Bool} {bufferevents : List Nat}
    (hnew : pc.registering ++ pc.releasing = []) (halive : ∀ d ∈ bufferevents, d ∈ w.registered)
    (hnotified : w.m_connList ≠ [] → 0 < w.pipe ∨ pc.draining = true ∨ ∃ d, s.pc = .notify i d) :
    Owned ((s.CloseConn c bev).setWorker i { w with bufferevents := bufferevents, pc := pc }) := by
  obtain ⟨hnew1, hnew2⟩ := List.append_eq_nil_iff.mp hnew
  refine h.release hw ?_ ⟨(h.kept hw).keyed, fun d hd => Or.inl (halive d hd), hnotified⟩
  intro d
  simp only [CWorker.holds, CWorker.registered, hpc, hreg, hnew1, hnew2, List.count_append,
    List.count_nil]
  omega

/-- A step of a worker keeps the places of all connections. -/
theorem stepWorker (h : Owned s) (hw : s.workers[i]? = some w) {op : DispatchOp}
    (hs : s.stepWorker i w op = some t) : Owned t := by
  cases op with
  | read =>
    simp only [CTcpMaster.stepWorker] at hs
    split at hs
    · rename_i hpc
      obtain rfl := Option.some.inj hs
      exact h.moveOn hw (by rw [hpc.1]; rfl) rfl fun _ => Or.inr (Or.inl rfl)
    · cases hs
  | count =>
    simp only [CTcpMaster.stepWorker] at hs
    split at hs
    · rename_i hpc
      obtain rfl := Option.some.inj hs
      refine h.moveOn hw (by rw [hpc]; rfl) (by split <;> rfl) ?_
      intro hne
      rw [if_pos (List.length_pos_of_ne_nil hne)]
      exact Or.inr (Or.inl rfl)
    · cases hs
  | head =>
    simp only [CTcpMaster.stepWorker] at hs
    split at hs
    · rename_i hpc
      split at hs
      · rename_i hnil
        obtain rfl := Option.some.inj hs
        exact h.moveOn hw (by rw [hpc]; rfl) rfl fun hne => absurd hnil hne
      · rename_i c rest hcons
        obtain rfl := Option.some.inj hs
        exact h.pop hw hpc hcons
    · cases hs
  | init j created =>
    simp only [CTcpMaster.stepWorker] at hs
    split at hs
    · rename_i c hpc
      have hc : c ∈ w.holds := by simp [CWorker.holds, hpc, WorkerPc.registering]
      rw [if_pos (h.open_ c (h.lives hw hc).1 (h.lives hw hc).2).1] at hs
      split at hs
      · obtain rfl := Option.some.inj hs
        exact (h.initNewConn hw hpc).1
      · obtain rfl := Option.some.inj hs
        exact (h.initNewConn hw hpc).2
    · cases hs
  | store =>
    simp only [CTcpMaster.stepWorker] at hs
    split at hs
    · rename_i c hpc
      obtain rfl := Option.some.inj hs
      exact h.store hw hpc
    · cases hs
  | discard =>
    simp only [CTcpMaster.stepWorker] at hs
    split at hs
    · rename_i c hpc
      obtain rfl := Option.some.inj hs
      exact h.releaseOwn hw (by rw [hpc]; rfl) (by rw [hpc]; rfl) rfl
        (h.registered_of_alive hw (by simp [hpc])) fun _ => Or.inr (Or.inl rfl)
    · cases hs
  | erase =>
    simp only [CTcpMaster.stepWorker] at hs
    split at hs
    · rename_i hpc
      obtain rfl := Option.some.inj hs
      exact h.erase hw hpc.1 hpc.2
    · cases hs
  | free =>
    simp only [CTcpMaster.stepWorker] at hs
    split at hs
    · rename_i c hpc
      obtain rfl := Option.some.inj hs
      refine h.releaseOwn hw (by rw [hpc]; rfl) (by rw [hpc]; rfl) rfl ?_ ?_
      · intro d hd
        simp only [List.mem_filter, decide_eq_true_eq] at hd
        refine ((h.kept hw).alive d hd.1).resolve_right ?_
        rw [hpc]
        intro hwrites
        cases hwrites with
        | inl hstore => cases hstore
        | inr hfree => exact hd.2 (WorkerPc.free.inj hfree).symm
      · intro hne
        have hn := (h.kept hw).notified hne
        rw [hpc] at hn
        exact hn.imp id fun hn => Or.inr (hn.resolve_left (by simp [WorkerPc.draining]))
    · cases hs
  | accept | publish | notify => cases hs

/-- A new connection has a descriptor that was not open. -/
theorem allocate (h : Owned s) {fd : Int} {tid : Nat} (hpc : s.pc = .accept) (hpos : 0 < fd)
    (hfresh : fd ∉ s.openFds) : Owned { s with
      m_sfd := s.m_sfd ++ [fd]
      openFds := fd :: s.openFds
      m_nLastThread := tid
      pc := .publish tid s.m_sfd.length } := by
  have hold : ∀ {d}, d < s.m_sfd.length → (s.m_sfd ++ [fd])[d]?.getD 0 = s.sfd d := by
    intro d hd
    rw [List.getElem?_append_left hd, CTcpMaster.sfd]
  have hnew : (s.m_sfd ++ [fd])[s.m_sfd.length]?.getD 0 = fd := by simp
  have hcase : ∀ {d}, d < (s.m_sfd ++ [fd]).length → d < s.m_sfd.length ∨ d = s.m_sfd.length := by
    intro d hd
    rw [List.length_append, List.length_singleton] at hd
    omega
  refine of_kept ?_ ?_ ?_ fun j v hv => ?_
  · intro d
    have hplaces := h.places d
    simp only [CTcpMaster.places, hpc, MasterPc.hand, List.count_nil, List.count_cons,
      List.length_append, List.length_singleton, beq_iff_eq] at hplaces ⊢
    split at hplaces <;> split <;> split <;> omega
  · intro d hd hout
    cases hcase hd with
    | inl hd =>
      obtain ⟨h1, h2⟩ := h.open_ d hd hout
      simp only [CTcpMaster.sfd]
      rw [hold hd]
      exact ⟨h1, List.mem_cons_of_mem _ h2⟩
    | inr hd =>
      subst hd
      simp only [CTcpMaster.sfd]
      rw [hnew]
      exact ⟨hpos, List.mem_cons_self⟩
  · intro d e hd he hdout heout heq
    simp only [CTcpMaster.sfd] at heq
    have hopen : ∀ {d}, d < s.m_sfd.length → d ∉ s.released → s.sfd d ≠ fd :=
      fun hd hout he => hfresh (he ▸ (h.open_ _ hd hout).2)
    cases hcase hd with
    | inl hd =>
      cases hcase he with
      | inl he =>
        rw [hold hd, hold he] at heq
        exact h.apart d e hd he hdout heout heq
      | inr he =>
        rw [he, hold hd, hnew] at heq
        exact absurd heq (hopen hd hdout)
    | inr hd =>
      cases hcase he with
      | inl he =>
        rw [hd, hold he, hnew] at heq
        exact absurd heq.symm (hopen he heout)
      | inr he => rw [hd, he]
  · have hk := h.kept hv
    refine ⟨fun e he => ?_, hk.alive, fun hne => (hk.notified hne).imp id fun hn => Or.inl ?_⟩
    · have hmem : e.2 ∈ v.registered := List.mem_map_of_mem he
      have hlt := (h.lives hv (c := e.2) (by simp [CWorker.holds, hmem])).1
      simp only [CTcpMaster.sfd]
      rw [hold hlt]
      exact hk.keyed e he
    · exact hn.resolve_right (by simp [hpc])

theorem accept (h : Owned s) {fd : Int} {nonblocking allocated : Bool} (hfd : fd ≠ 0)
    (hs : s.accept fd nonblocking allocated = some t) : Owned t := by
  rw [CTcpMaster.accept] at hs
  split at hs
  · cases hs
  · rename_i hguard
    simp only [not_or, not_not, Int.not_lt] at hguard
    obtain ⟨hpc, hnonneg, hfresh, -⟩ := hguard
    split at hs
    · exact Option.some.inj hs ▸ h
    · simp only at hs
      split at hs
      · obtain rfl := Option.some.inj hs
        exact ⟨h.places, h.open_, h.apart, h.keyed, h.alive, h.notified⟩
      · obtain rfl := Option.some.inj hs
        exact h.allocate hpc (by omega) hfresh

theorem publish (h : Owned s) (hs : s.publish = some t) : Owned t := by
  rw [CTcpMaster.publish] at hs
  split at hs
  · rename_i tid c hpc
    obtain ⟨w, hw, rfl⟩ := Option.map_eq_some_iff.mp hs
    have hkept : ∀ {j : Nat} {v : CWorker}, s.workers[j]? = some v →
        (∀ e ∈ v.m_connMap, e.1 = s.sfd e.2) ∧
        (∀ c ∈ v.bufferevents, c ∈ v.registered ∨ v.pc = .store c ∨ v.pc = .free c) ∧
        (v.m_connList ≠ [] → 0 < v.pipe ∨ v.pc.draining = true) := by
      intro j v hv
      have hk := h.kept hv
      refine ⟨hk.keyed, hk.alive, fun hne => (hk.notified hne).imp id fun hn => ?_⟩
      exact hn.resolve_right (by simp [hpc])
    refine of_kept ?_ h.open_ h.apart fun j v hv => ?_
    · intro d
      have hplaces := h.places d
      have hmoved := places_setWorker hw { w with m_connList := w.m_connList ++ [c] } d
      simp only [CTcpMaster.places, CTcpMaster.setWorker, CWorker.holds, CWorker.registered, hpc,
        MasterPc.hand, List.count_append, List.count_nil] at hplaces hmoved ⊢
      omega
    · simp only [CTcpMaster.setWorker] at hv
      obtain ⟨rfl, rfl⟩ | ⟨-, hv⟩ := getElem?_set_cases hv
      · exact ⟨(hkept hw).1, (hkept hw).2.1, fun _ => Or.inr (Or.inr ⟨c, rfl⟩)⟩
      · obtain ⟨h1, h2, h3⟩ := hkept hv
        exact ⟨h1, h2, fun hne => (h3 hne).imp id Or.inl⟩
  · cases hs

theorem notify (h : Owned s) (hs : s.notify true = some t) : Owned t := by
  rw [CTcpMaster.notify] at hs
  split at hs
  · rename_i tid c hpc
    rw [if_pos rfl] at hs
    obtain ⟨w, hw, rfl⟩ := Option.map_eq_some_iff.mp hs
    refine of_kept ?_ h.open_ h.apart fun j v hv => ?_
    · intro d
      have hplaces := h.places d
      have hmoved := places_setWorker hw { w with pipe := w.pipe + 1 } d
      simp only [CTcpMaster.places, CTcpMaster.setWorker, CWorker.holds, CWorker.registered, hpc,
        MasterPc.hand, List.count_append, List.count_nil] at hplaces hmoved ⊢
      omega
    · simp only [CTcpMaster.setWorker] at hv
      obtain ⟨rfl, rfl⟩ | ⟨hij, hv⟩ := getElem?_set_cases hv
      · exact ⟨(h.kept hw).keyed, (h.kept hw).alive, fun _ => Or.inl (Nat.succ_pos _)⟩
      · have hk := h.kept hv
        refine ⟨hk.keyed, hk.alive, fun hne => (hk.notified hne).imp id fun hn => Or.inl ?_⟩
        refine hn.resolve_right ?_
        intro hcase
        obtain ⟨c', hc'⟩ := hcase
        rw [hpc] at hc'
        exact hij (MasterPc.notify.inj hc').1
  · cases hs

theorem step (h : Owned s) {op : DispatchOp} (hop : op.Sound) (hs : s.step op = some t) :
    Owned t := by
  cases op with
  | accept fd nonblocking allocated => exact h.accept hop hs
  | publish => exact h.publish hs
  | notify written =>
    obtain rfl : written = true := hop
    exact h.notify hs
  | _ =>
    obtain ⟨w, hw, hs⟩ := Option.bind_eq_some_iff.mp hs
    exact h.stepWorker hw hs

theorem inOnePlace (h : Owned s) : InOnePlace s where
  one := by
    intro c hc
    rw [← s.places_eq, h.places, if_pos hc]
  releasedOnce := by
    rw [List.nodup_iff_count_le_one]
    intro c
    have hplaces := h.places c
    rw [CTcpMaster.places] at hplaces
    split at hplaces <;> omega
  releasedLast := by
    intro c hc
    have hpos := List.count_pos_iff.mpr hc
    have hplaces := h.places c
    rw [s.places_eq, List.count_append] at hplaces
    constructor
    · intro hq
      have hqpos := List.count_pos_iff.mpr hq
      split at hplaces <;> omega
    · intro hr
      have hrpos := List.count_pos_iff.mpr hr
      split at hplaces <;> omega
  notified := h.notified

end Owned

/-- As long as every notification is written and no descriptor is 0, every connection is in one
place, and none is left in a list without a notification. -/
theorem connections_in_one_place {nThreadCount : Nat} {ops : List DispatchOp} {t : CTcpMaster}
    (h : Runs CTcpMaster.step (fun _ op => op.Sound) (.new nThreadCount) ops t) : InOnePlace t :=
  (h.invariant Owned (.new nThreadCount) fun _ _ _ hi hop hs => hi.step hop hs).inOnePlace

/-- Two connections for one of two workers: one drain takes both, one is registered and closed, for
the other no event can be created. -/
theorem connections_in_one_place_drained : ∃ t,
    Runs CTcpMaster.step (fun _ op => op.Sound) (.new 1) [.accept 5 true true, .publish, .notify true,
      .read 0, .accept 6 true true, .publish, .count 0, .head 0, .notify true, .init 0 true, .store 0,
      .count 0, .head 0, .init 0 false, .discard 0, .count 0, .erase 0 0, .free 0, .read 0,
      .count 0] t ∧ InOnePlace t := by
  have h : (exec CTcpMaster.step (fun _ op => op.Sound) (.new 1) [.accept 5 true true, .publish,
      .notify true, .read 0, .accept 6 true true, .publish, .count 0, .head 0, .notify true,
      .init 0 true, .store 0, .count 0, .head 0, .init 0 false, .discard 0, .count 0, .erase 0 0,
      .free 0, .read 0, .count 0]).isSome := by decide +kernel
  obtain ⟨t, ht⟩ := Option.isSome_iff_exists.mp h
  exact ⟨t, runs_of_exec ht, connections_in_one_place (runs_of_exec ht)⟩

/-- After a failed notification the connection is released while it is in the list, and one with
descriptor 0 is taken from the list and forgotten. -/
theorem connection_released_in_list :
    (∃ t, Runs CTcpMaster.step (fun _ _ => True) (.new 1)
        [.accept 5 true true, .publish, .notify false] t ∧
      t.queued = [0] ∧ t.released = [0] ∧ ¬InOnePlace t) ∧
    ∃ t, Runs CTcpMaster.step (fun _ _ => True) (.new 1) [.accept 0 true true, .publish, .notify true,
        .read 0, .count 0, .head 0, .init 0 true] t ∧ ¬InOnePlace t := by
  have hfailed : ((exec CTcpMaster.step (fun _ _ => True) (.new 1)
      [.accept 5 true true, .publish, .notify false]).any fun t =>
      decide (t.queued = [0] ∧ t.released = [0])) = true := by decide
  have hzero : ((exec CTcpMaster.step (fun _ _ => True) (.new 1) [.accept 0 true true, .publish,
      .notify true, .read 0, .count 0, .head 0, .init 0 true]).any fun t =>
      decide (0 < t.m_sfd.length ∧ t.places 0 = 0)) = true := by decide
  constructor
  · obtain ⟨t, ht, hp⟩ := exists_of_exec hfailed
    obtain ⟨hqueued, hreleased⟩ := of_decide_eq_true hp
    refine ⟨t, ht, hqueued, hreleased, fun hone => ?_⟩
    exact (hone.releasedLast 0 (by simp [hreleased])).1 (by simp [hqueued])
  · obtain ⟨t, ht, hp⟩ := exists_of_exec hzero
    obtain ⟨hlt, hplaces⟩ := of_decide_eq_true hp
    refine ⟨t, ht, fun hone => ?_⟩
    have hcount := hone.one 0 hlt
    rw [← t.places_eq, hplaces] at hcount
    cases hcount

end CppPrivate.Tcp
