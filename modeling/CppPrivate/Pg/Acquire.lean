import CppPrivate.Lib.Atomic
import CppPrivate.Pg.Pool
import CppPrivate.Redis.Acquire

/-! `getConnection` statement by statement, with every way out, and what a burst of failed requests
does to either of the two pools. -/
namespace CppPrivate.Pg
open Prog Run CPGConnectionPool

/-- A request, what is answered to it, and what the unset state of a new item is. -/
structure Acquire where
  r : Request
  a : Answer
  eState : ConnState

namespace Acquire

/-- `m_vecConnPool[index]`. -/
def slotAt (index : Int) : Prog CPGConnectionPool (Option Nat) := do
  let s ← get
  ofOption (at? s.m_vecConnPool index)

def read (p : Nat) : Prog CPGConnectionPool ConnItem := do
  let s ← get
  ofOption (s.heap.cell p)

def write (p : Nat) (f : ConnItem → ConnItem) : Prog CPGConnectionPool Unit := do
  let _ ← read p
  modify fun s => { s with heap := s.heap.modify p f }

/-- `new ConnItem`, with the fields that are set before it connects. -/
def newItem (q : Acquire) (index : Int) : Prog CPGConnectionPool Nat := do
  let s ← get
  modify fun s =>
    { s with
      heap := s.heap.alloc
        ⟨q.r.sUrl, CPGClient.new, q.eState, q.a.accessed, q.a.connecting, index, q.r.sUrl⟩ }
  return s.heap.next

def setTimeout (q : Acquire) (p : Nat) : Prog CPGConnectionPool Unit :=
  if q.r.nTimeout > CPGClient.m_nDefaultTimeout then
    write p fun item => { item with PGClient := item.PGClient.setTimeout q.r.nTimeout }
  else return ()

/-- `pItem->PGClient.connect(…)`. -/
def connect (q : Acquire) (p : Nat) : Prog CPGConnectionPool Bool := do
  let item ← read p
  let c := item.PGClient.connect q.r.host q.r.port q.r.username q.r.password q.r.dbName q.r.SSL
    q.a.ok q.a.error
  write p fun item => { item with PGClient := c.1 }
  return c.2

def handOut (p : Nat) : Prog CPGConnectionPool Connection := do
  modify fun s => { s with m_nUsedConnectionCnt := s.m_nUsedConnectionCnt + 1 }
  let item ← read p
  return ⟨some p, item.PGClient.m_sUrl, []⟩

def takeIdle (q : Acquire) (index : Int) : Prog CPGConnectionPool Connection := do
  modify fun s => { s with m_mapUseableConn := fun k =>
    if k = q.r.sUrl then (s.m_mapUseableConn k).map List.tail else s.m_mapUseableConn k }
  let p ← ofOption (← slotAt index)
  write p fun item => { item with eState := .eConn_Used }
  handOut p

/-- A new item that has connected takes the slot. -/
def takeSlot (index : Int) (p : Nat) : Prog CPGConnectionPool Connection := do
  modify fun s => { s with m_listUseableConn := s.m_listUseableConn.tail }
  write p fun item => { item with eState := .eConn_Used }
  modify fun s => { s with m_vecConnPool := s.m_vecConnPool.set index.toNat (some p) }
  handOut p

/-- An item that has not connected is deleted. -/
def giveUp (p : Nat) : Prog CPGConnectionPool Connection := do
  let item ← read p
  modify fun s => { s with heap := s.heap.free p }
  return ⟨none, item.PGClient.m_sUrl, item.PGClient.m_sError⟩

def takeFree (q : Acquire) (index : Int) : Prog CPGConnectionPool Connection := do
  match ← slotAt index with
  | some _ => return noIdle
  | none =>
    let p ← q.newItem index
    q.setTimeout p
    let ok ← q.connect p
    if ok then takeSlot index p else giveUp p

/-- The free list is empty, or its head is tried. -/
def tryFree (q : Acquire) : ListUseabledConnection → Prog CPGConnectionPool Connection
  | [] => return noIdle
  | index :: _ => q.takeFree index

def run (q : Acquire) : Prog CPGConnectionPool Connection := do
  let s ← get
  match s.m_mapUseableConn q.r.sUrl with
  | some (index :: _) => q.takeIdle index
  | _ => q.tryFree s.m_listUseableConn

/-- The slot vector, the free list, the idle lists by key, and the counter. -/
def view (s : CPGConnectionPool) :
    VecConnectionPool × ListUseabledConnection × MapUseabledConnection × UInt32 :=
  (s.m_vecConnPool, s.m_listUseableConn, s.m_mapUseableConn, s.m_nUsedConnectionCnt)

def Nothing : Except Unit Connection → Prop
  | .ok conn => conn.pConnItem = none
  | .error _ => False

variable {q : Acquire} {index : Int} {p : Nat}

theorem quiet_slotAt : Quiet view (slotAt index) := quiet_get.bind fun _ => quiet_ofOption _

theorem quiet_read : Quiet view (read p) := quiet_get.bind fun _ => quiet_ofOption _

theorem quiet_write {f : ConnItem → ConnItem} : Quiet view (write p f) :=
  quiet_read.bind fun _ => quiet_modify fun _ => rfl

theorem quiet_newItem : Quiet view (q.newItem index) := by
  refine quiet_get.bind fun s => Quiet.bind (quiet_modify ?_) fun _ => quiet_pure _
  intro t
  rfl

theorem quiet_setTimeout : Quiet view (q.setTimeout p) := by
  rw [setTimeout]
  split
  · exact quiet_write
  · exact quiet_pure ()

theorem quiet_connect : Quiet view (q.connect p) :=
  quiet_read.bind fun _ => quiet_write.bind fun _ => quiet_pure _

theorem quiet_giveUp : Quiet view (giveUp p) := by
  refine quiet_read.bind fun _ => Quiet.bind (quiet_modify ?_) fun _ => quiet_pure _
  intro t
  rfl

theorem avoids_read : Avoids Threw (read p) := avoids_get.bind fun _ => avoids_ofOption _

theorem avoids_write {f : ConnItem → ConnItem} : Avoids Threw (write p f) :=
  avoids_read.bind fun _ => avoids_modify _

/-- What is handed out is a connection. -/
theorem avoids_handOut : Avoids Nothing (handOut p) := by
  refine (avoids_modify _).bind fun _ => avoids_read.bind fun _ => avoids_pure ?_
  simp [Nothing]

theorem avoids_takeIdle : Avoids Nothing (q.takeIdle index) :=
  (avoids_modify _).bind fun _ => Avoids.bind (avoids_get.bind fun _ => avoids_ofOption _) fun _ =>
    (avoids_ofOption _).bind fun _ => avoids_write.bind fun _ => avoids_handOut

theorem avoids_takeSlot : Avoids Nothing (takeSlot index p) :=
  (avoids_modify _).bind fun _ => avoids_write.bind fun _ => (avoids_modify _).bind fun _ =>
    avoids_handOut

theorem keeps_takeFree : Keeps view Nothing (q.takeFree index) := by
  refine quiet_slotAt.bind fun slot => ?_
  cases slot with
  | some p => exact (quiet_pure _).keeps
  | none =>
    refine quiet_newItem.bind fun p => quiet_setTimeout.bind fun _ => quiet_connect.bind fun ok => ?_
    cases ok with
    | true => exact avoids_takeSlot.keeps
    | false => exact quiet_giveUp.keeps

/-- A request that gets no connection leaves no trace. -/
theorem keeps_run (q : Acquire) : Keeps view Nothing q.run := by
  refine quiet_get.bind fun s => ?_
  split
  · exact avoids_takeIdle.keeps
  · cases s.m_listUseableConn with
    | nil => exact (quiet_pure noIdle).keeps
    | cons index rest => exact keeps_takeFree

/-- A request that comes back without a connection; there is no step otherwise. -/
def fails (s : CPGConnectionPool) (q : Acquire) : Option CPGConnectionPool :=
  match q.run s with
  | some (.ok ⟨none, _, _⟩, t) => some t
  | _ => none

theorem view_fails {s t : CPGConnectionPool} (h : fails s q = some t) : view t = view s := by
  rw [fails] at h
  split at h
  · rename_i hrun
    cases h
    exact keeps_run q s _ t hrun rfl
  · cases h

section Get
variable {s : CPGConnectionPool} {item : ConnItem} {rest : ListUseabledConnection}

theorem slotAt_apply {slot : Option Nat} (h : at? s.m_vecConnPool index = some slot) :
    slotAt index s = some (.ok slot, s) := by
  rw [slotAt, bind_ok (get_apply s), ofOption_apply, h]
  rfl

theorem slotAt_none (h : at? s.m_vecConnPool index = none) : slotAt index s = none := by
  rw [slotAt, bind_ok (get_apply s), ofOption_apply, h]
  rfl

theorem read_apply (h : s.heap.cell p = some item) : read p s = some (.ok item, s) := by
  rw [read, bind_ok (get_apply s), ofOption_apply, h]
  rfl

theorem read_none (h : s.heap.cell p = none) : read p s = none := by
  rw [read, bind_ok (get_apply s), ofOption_apply, h]
  rfl

theorem write_apply {f : ConnItem → ConnItem} (h : s.heap.cell p = some item) :
    write p f s = some (.ok (), { s with heap := s.heap.modify p f }) := by
  rw [write, bind_ok (read_apply h)]
  rfl

theorem handOut_apply (h : s.heap.cell p = some item) : handOut p s =
    some (.ok ⟨some p, item.PGClient.m_sUrl, []⟩,
      { s with m_nUsedConnectionCnt := s.m_nUsedConnectionCnt + 1 }) := by
  rw [handOut, bind_ok (modify_apply s _)]
  exact bind_ok (read_apply h)

/-- The idle item at the head of its list, in one step and in several. -/
theorem takeIdle_apply (h : s.m_mapUseableConn q.r.sUrl = some (index :: rest)) :
    q.takeIdle index s = (s.takeIdle q.r.sUrl index rest).map fun u => (.ok u.2, u.1) := by
  have hmap : (fun k => if k = q.r.sUrl then (s.m_mapUseableConn k).map List.tail
      else s.m_mapUseableConn k) =
        fun k => if k = q.r.sUrl then some rest else s.m_mapUseableConn k := by
    funext k
    split
    · rename_i hk
      rw [hk, h]
      rfl
    · rfl
  rw [takeIdle, CPGConnectionPool.takeIdle]
  rw [bind_ok (modify_apply s _), hmap]
  cases hslot : at? s.m_vecConnPool index with
  | none => exact bind_none (slotAt_none hslot)
  | some slot =>
    refine Eq.trans (bind_ok (slotAt_apply hslot)) ?_
    cases slot with
    | none => exact bind_none rfl
    | some p =>
      refine Eq.trans (bind_ok (ofOption_apply _ _)) ?_
      simp only
      cases hp : s.heap.cell p with
      | none =>
        refine bind_none (bind_none (read_none ?_))
        exact hp
      | some item =>
        refine Eq.trans (bind_ok (write_apply hp)) ?_
        exact Eq.trans (handOut_apply (Heap.modify_self _ hp)) rfl

/-- A write to the item that has just been allocated. -/
theorem write_alloc (h : Heap ConnItem) (f : ConnItem → ConnItem) :
    write h.next f { s with heap := h.alloc item } =
      some (.ok (), { s with heap := h.alloc (f item) }) := by
  rw [write_apply (Heap.alloc_self h item), Heap.modify_alloc]

theorem newItem_apply : q.newItem index s = some (.ok s.heap.next, { s with
    heap := s.heap.alloc
      ⟨q.r.sUrl, CPGClient.new, q.eState, q.a.accessed, q.a.connecting, index, q.r.sUrl⟩ }) := rfl

theorem setTimeout_apply (h : Heap ConnItem) (hnew : item.PGClient = CPGClient.new) :
    q.setTimeout h.next { s with heap := h.alloc item } =
      some (.ok (), { s with heap := h.alloc { item with PGClient := freshClient q.r } }) := by
  rw [setTimeout, freshClient]
  split
  · rw [write_alloc, hnew]
  · rw [← hnew]
    rfl

theorem connect_apply {client : CPGClient} {ok : Bool} (h : Heap ConnItem)
    (hconn : item.PGClient.connect q.r.host q.r.port q.r.username q.r.password q.r.dbName q.r.SSL
      q.a.ok q.a.error = (client, ok)) :
    q.connect h.next { s with heap := h.alloc item } =
      some (.ok ok, { s with heap := h.alloc { item with PGClient := client } }) := by
  rw [connect, bind_ok (read_apply (Heap.alloc_self h item)), hconn]
  exact bind_ok (write_alloc h _)

theorem takeSlot_apply (h : Heap ConnItem) (hfree : s.m_listUseableConn = index :: rest) :
    takeSlot index h.next { s with heap := h.alloc item } =
      some (.ok ⟨some h.next, item.PGClient.m_sUrl, []⟩,
        { s with
          heap := h.alloc { item with eState := .eConn_Used }
          m_listUseableConn := rest
          m_vecConnPool := s.m_vecConnPool.set index.toNat (some h.next)
          m_nUsedConnectionCnt := s.m_nUsedConnectionCnt + 1 }) := by
  rw [takeSlot, bind_ok (modify_apply _ _), hfree]
  have hwrite (f : ConnItem → ConnItem) :
      write h.next f { s with heap := h.alloc item, m_listUseableConn := rest } =
        some (.ok (), { s with heap := h.alloc (f item), m_listUseableConn := rest }) :=
    write_alloc (s := { s with m_listUseableConn := rest }) h f
  refine Eq.trans (bind_ok (hwrite _)) ?_
  refine Eq.trans (bind_ok (modify_apply _ _)) ?_
  exact Eq.trans (handOut_apply (Heap.alloc_self h { item with eState := .eConn_Used })) rfl

/-- The head of the free list, in one step and in several. -/
theorem takeFree_apply (h : s.m_listUseableConn = index :: rest) :
    match s.takeFree q.r q.a with
    | some (t, conn) => ∃ u, q.takeFree index s = some (.ok conn, u) ∧
        (u = t ∨ conn.pConnItem = none ∧ t = s)
    | none => q.takeFree index s = none := by
  rw [CPGConnectionPool.takeFree, takeFree]
  rw [h]
  simp only
  cases hslot : at? s.m_vecConnPool index with
  | none => exact bind_none (slotAt_none hslot)
  | some slot =>
    rw [bind_ok (slotAt_apply hslot)]
    cases slot with
    | some p => exact ⟨s, rfl, Or.inl rfl⟩
    | none =>
      simp only
      cases hconn : (freshClient q.r).connect q.r.host q.r.port q.r.username q.r.password q.r.dbName
        q.r.SSL q.a.ok q.a.error with
      | mk client ok =>
        rw [bind_ok newItem_apply, bind_ok (setTimeout_apply s.heap rfl),
          bind_ok (connect_apply s.heap hconn)]
        cases ok with
        | true => exact ⟨_, takeSlot_apply s.heap h, Or.inl rfl⟩
        | false =>
          refine ⟨_, Eq.trans (bind_ok (read_apply (Heap.alloc_self s.heap _))) rfl, Or.inr ⟨rfl, rfl⟩⟩

theorem tryFree_apply (q : Acquire) (s : CPGConnectionPool) :
    match s.takeFree q.r q.a with
    | some (t, conn) => ∃ u, q.tryFree s.m_listUseableConn s = some (.ok conn, u) ∧
        (u = t ∨ conn.pConnItem = none ∧ t = s)
    | none => q.tryFree s.m_listUseableConn s = none := by
  cases hlist : s.m_listUseableConn with
  | nil =>
    rw [CPGConnectionPool.takeFree, hlist]
    exact ⟨s, rfl, Or.inl rfl⟩
  | cons index rest => exact takeFree_apply hlist

/-- What the statements do is what `CPGConnectionPool.getConnection` says, but for the number of the
item that is deleted again when it does not connect. -/
theorem run_getConnection (q : Acquire) (s : CPGConnectionPool) :
    match s.getConnection q.r q.a with
    | some (t, conn) => ∃ u, q.run s = some (.ok conn, u) ∧
        (u = t ∨ conn.pConnItem = none ∧ t = s)
    | none => q.run s = none := by
  rw [getConnection]
  rw [run, bind_ok (get_apply s)]
  cases hidle : s.m_mapUseableConn q.r.sUrl with
  | none => exact tryFree_apply q s
  | some l =>
    cases l with
    | nil => exact tryFree_apply q s
    | cons index rest =>
      simp only [takeIdle_apply hidle]
      cases s.takeIdle q.r.sUrl index rest with
      | none => rfl
      | some u => exact ⟨u.1, rfl, Or.inl rfl⟩

end Get

end Acquire

/-- In either pool, and from any state, requests that get no connection leave the slots, the lists and
the counter as they are, however many of them there are. -/
theorem failed_requests_keep :
    (∀ (s t : Redis.CRedisClientPool) (requests : List Redis.Acquire),
      Runs Redis.Acquire.fails (fun _ _ => True) s requests t →
        Redis.Acquire.view t = Redis.Acquire.view s) ∧
    ∀ (s t : CPGConnectionPool) (requests : List Acquire),
      Runs Acquire.fails (fun _ _ => True) s requests t → Acquire.view t = Acquire.view s := by
  constructor
  · intro s t requests h
    refine h.invariant (fun u => Redis.Acquire.view u = Redis.Acquire.view s) rfl ?_
    intro u a v hu _ hv
    exact (Redis.Acquire.view_fails hv).trans hu
  · intro s t requests h
    refine h.invariant (fun u => Acquire.view u = Acquire.view s) rfl ?_
    intro u q v hu _ hv
    exact (Acquire.view_fails hv).trans hu

/-- No server answers the first requests. -/
theorem failed_requests_keep_new : ∃ t u,
    Runs Redis.Acquire.fails (fun _ _ => True) .new
      [.getClient [] 6379 [] true .refused true 0 0, .getClusterClient [] [] true .threw true 0 0] t ∧
    Runs Acquire.fails (fun _ _ => True) (.new 0)
      (List.replicate 2 ⟨⟨[], [], [], [], [], 10, 0⟩, ⟨false, [], 0, 0⟩, .eConn_Invalid⟩) u ∧
    Redis.Acquire.view t = Redis.Acquire.view .new ∧ Acquire.view u = Acquire.view (.new 0) := by
  have hredis : ∃ t, Runs Redis.Acquire.fails (fun _ _ => True) .new
      [.getClient [] 6379 [] true .refused true 0 0, .getClusterClient [] [] true .threw true 0 0] t ∧
        (fun _ => true) t = true := exists_of_exec (by decide)
  have hpg : ∃ u, Runs Acquire.fails (fun _ _ => True) (.new 0)
      (List.replicate 2 ⟨⟨[], [], [], [], [], 10, 0⟩, ⟨false, [], 0, 0⟩, .eConn_Invalid⟩) u ∧
        (fun _ => true) u = true := exists_of_exec (by decide)
  obtain ⟨t, ht, -⟩ := hredis
  obtain ⟨u, hu, -⟩ := hpg
  exact ⟨t, u, ht, hu, failed_requests_keep.1 _ _ _ ht, failed_requests_keep.2 _ _ _ hu⟩

end CppPrivate.Pg
