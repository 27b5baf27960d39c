import CppPrivate.Lib.Atomic
import CppPrivate.Redis.Pool

/-! `getClient` and `getClusterClient` statement by statement, with every way out: nothing to use, an
index that `at` refuses, no memory, a connection that fails or throws. -/
namespace CppPrivate.Redis
open Prog Run

inductive Connecting where
  | connected
  | refused
  | threw
deriving DecidableEq

/-- A request, and what happens to it: whether `new` and the copy of the host's name have memory,
how the connection ends, and what the unset index of a new client holds. -/
structure Acquire where
  strHost : Bytes
  client : CRedisClient
  allocated : Bool
  connect : Connecting
  copied : Bool
  m_Index : Int
  now : UInt64

namespace Acquire

def getClient (ip : Bytes) (port : Int) (passwd : Bytes) (allocated : Bool) (connect : Connecting)
    (copied : Bool) (m_Index : Int) (now : UInt64) : Acquire :=
  ⟨CRedisClientPool.createHostString ip port, ⟨false, ip, port, passwd⟩, allocated, connect, copied,
    m_Index, now⟩

def getClusterClient (strHost passwd : Bytes) (allocated : Bool) (connect : Connecting)
    (copied : Bool) (m_Index : Int) (now : UInt64) : Acquire :=
  ⟨strHost, ⟨true, strHost, 0, passwd⟩, allocated, connect, copied, m_Index, now⟩

/-- `m_VecClient.at(i)`. -/
def slotAt (i : Int) : Prog CRedisClientPool (Option Nat) := do
  let s ← get
  throwUnless (at? s.m_VecClient i).isSome
  ofOption (at? s.m_VecClient i)

def setSlot (i : Int) (p : Nat) : Prog CRedisClientPool Unit := do
  let s ← get
  throwUnless (at? s.m_VecClient i).isSome
  modify fun s => { s with m_VecClient := s.m_VecClient.set i.toNat (some p) }

def write (p : Nat) (f : CRedisClientEx → CRedisClientEx) : Prog CRedisClientPool Unit := do
  let s ← get
  let _ ← ofOption (s.heap.cell p)
  modify fun s => { s with heap := s.heap.modify p f }

/-- `new CRedisClientEx(bCluster)`. -/
def newClient (a : Acquire) : Prog CRedisClientPool Nat := do
  throwUnless a.allocated
  let s ← get
  modify fun s =>
    { s with heap := s.heap.alloc ⟨false, 0, a.m_Index, [], ⟨a.client.bCluster, [], 0, []⟩⟩ }
  return s.heap.next

/-- `connectRedis` and `connectClusterRedis`. -/
def connectRedis (a : Acquire) (p : Nat) : Prog CRedisClientPool Bool := do
  write p fun c => { c with m_Client := a.client }
  throwUnless (a.connect ≠ .threw)
  return a.connect = .connected

/-- `listIndex->pop_front()`, where `listIndex` is the list filed under `key`. -/
def pop_front (key : Bytes) : Prog CRedisClientPool Unit :=
  modify fun s => { s with m_MapUseable := fun k =>
    if k = key then (s.m_MapUseable k).map List.tail else s.m_MapUseable k }

def eraseHost (strHost : Bytes) : Prog CRedisClientPool Unit :=
  modify fun s => { s with m_MapUseable := fun k =>
    if k = strHost then none else s.m_MapUseable k }

def handOut (a : Acquire) (key : Bytes) (nUseableIndex : Int) (p : Nat) :
    Prog CRedisClientPool (Option Nat) := do
  write p fun c => { c with m_Index := nUseableIndex }
  write p fun c => { c with m_Used := true }
  pop_front key
  let s ← get
  if listAt s.m_MapUseable key = [] then eraseHost a.strHost
  return some p

def takeSlot (a : Acquire) (key : Bytes) (nUseableIndex : Int) (p : Nat) :
    Prog CRedisClientPool (Option Nat) := do
  setSlot nUseableIndex p
  modify fun s => { s with m_nUsedClientCnt := s.m_nUsedClientCnt + 1 }
  a.handOut key nUseableIndex p

/-- An empty slot. The new client stays allocated when it does not connect. -/
def connectSlot (a : Acquire) (key : Bytes) (nUseableIndex : Int) :
    Prog CRedisClientPool (Option Nat) := do
  let p ← a.newClient
  let ok ← a.connectRedis p
  if ok then
    write p fun c => { c with m_Timestamp := a.now }
    throwUnless a.copied
    write p fun c => { c with m_Host := a.strHost }
    a.takeSlot key nUseableIndex p
  else return none

/-- The block under `try`. -/
def block (a : Acquire) (key : Bytes) (nUseableIndex : Int) :
    Prog CRedisClientPool (Option Nat) := do
  match ← slotAt nUseableIndex with
  | none => a.connectSlot key nUseableIndex
  | some p => a.handOut key nUseableIndex p

def run (a : Acquire) : Prog CRedisClientPool (Option Nat) := do
  let s ← get
  match s.getUseableList a.strHost with
  | none => return none
  | some (_, []) => return none
  | some (key, nUseableIndex :: _) => catchAll (a.block key nUseableIndex) none

/-- The slot vector, the lists by host, the free list among them, and the counter. -/
def view (s : CRedisClientPool) : VecRedisClient × MapUseableHost × UInt32 :=
  (s.m_VecClient, s.m_MapUseable, s.m_nUsedClientCnt)

def Nothing (r : Except Unit (Option Nat)) : Prop := r = .ok none

variable {a : Acquire} {key : Bytes} {i : Int} {p : Nat}

theorem quiet_slotAt : Quiet view (slotAt i) :=
  quiet_get.bind fun _ => (quiet_throwUnless _).bind fun _ => quiet_ofOption _

theorem quiet_write {f : CRedisClientEx → CRedisClientEx} : Quiet view (write p f) :=
  quiet_get.bind fun _ => (quiet_ofOption _).bind fun _ => quiet_modify fun _ => rfl

theorem avoids_write {f : CRedisClientEx → CRedisClientEx} : Avoids Threw (write p f) :=
  avoids_get.bind fun _ => (avoids_ofOption _).bind fun _ => avoids_modify _

theorem quiet_newClient : Quiet view a.newClient := by
  refine (quiet_throwUnless _).bind fun _ => quiet_get.bind fun s => ?_
  refine Quiet.bind (quiet_modify ?_) fun _ => quiet_pure _
  intro t
  rfl

theorem quiet_connectRedis : Quiet view (a.connectRedis p) :=
  quiet_write.bind fun _ => (quiet_throwUnless _).bind fun _ => quiet_pure _

/-- The slot is found before it is written. -/
theorem keeps_setSlot : Keeps view Threw (setSlot i p) :=
  quiet_get.bind fun _ => (quiet_throwUnless _).bind fun _ => (avoids_modify _).keeps

theorem not_nothing : ¬(Nothing (.ok (some p)) ∨ Threw (.ok (some p))) := by
  simp [Nothing, Threw]

/-- From here on nothing can fail. -/
theorem avoids_handOut : Avoids (fun r => Nothing r ∨ Threw r) (a.handOut key i p) := by
  refine avoids_write.bind fun _ => avoids_write.bind fun _ => ?_
  refine (avoids_modify _).bind fun _ => avoids_get.bind fun s => ?_
  split
  · exact (avoids_modify _).bind fun _ => avoids_pure not_nothing
  · exact avoids_pure not_nothing

theorem keeps_takeSlot : Keeps view (fun r => Nothing r ∨ Threw r) (a.takeSlot key i p) :=
  keeps_setSlot.bind_avoids fun _ => (avoids_modify _).bind fun _ => avoids_handOut

theorem keeps_connectSlot : Keeps view (fun r => Nothing r ∨ Threw r) (a.connectSlot key i) := by
  refine quiet_newClient.bind fun p => quiet_connectRedis.bind fun ok => ?_
  cases ok with
  | true =>
    exact quiet_write.bind fun _ => (quiet_throwUnless _).bind fun _ =>
      quiet_write.bind fun _ => keeps_takeSlot
  | false => exact (quiet_pure _).keeps

theorem keeps_block : Keeps view (fun r => Nothing r ∨ Threw r) (a.block key i) := by
  refine quiet_slotAt.bind fun slot => ?_
  cases slot with
  | none => exact keeps_connectSlot
  | some p => exact avoids_handOut.keeps

/-- A request that gets no client leaves no trace. -/
theorem keeps_run (a : Acquire) : Keeps view Nothing a.run := by
  refine quiet_get.bind fun s => ?_
  split
  · exact (quiet_pure _).keeps
  · exact (quiet_pure _).keeps
  · exact keeps_block.catchAll

/-- A request that comes back without a client; there is no step otherwise. -/
def fails (s : CRedisClientPool) (a : Acquire) : Option CRedisClientPool :=
  match a.run s with
  | some (.ok none, t) => some t
  | _ => none

theorem view_fails {s t : CRedisClientPool} (h : fails s a = some t) : view t = view s := by
  rw [fails] at h
  split at h
  · rename_i u hrun
    cases h
    exact keeps_run a s _ t hrun rfl
  · cases h

/-- The connection is made, and there is memory for it. -/
def connected (a : Acquire) : Bool := a.allocated && (a.connect == .connected) && a.copied

section Take
open CRedisClientPool
variable {s : CRedisClientPool} {c : CRedisClientEx} {rest : ListUseableIndex}

theorem write_apply {f : CRedisClientEx → CRedisClientEx} (h : s.heap.cell p = some c) :
    write p f s = some (.ok (), { s with heap := s.heap.modify p f }) := by
  simp only [write, bind_apply, get_apply, ofOption_apply, modify_apply, h, Option.map_some]

theorem write_none {f : CRedisClientEx → CRedisClientEx} (h : s.heap.cell p = none) :
    write p f s = none := by
  simp only [write, bind_apply, get_apply, ofOption_apply, h, Option.map_none]

theorem pop_front_apply : pop_front key s =
    some (.ok (), { s with
      m_MapUseable := fun k =>
        if k = key then (s.m_MapUseable k).map List.tail else s.m_MapUseable k }) := rfl

theorem useable_key (h : s.getUseableList a.strHost = some (key, i :: rest)) :
    s.m_MapUseable key = some (i :: rest) := by
  rw [getUseableList] at h
  split at h
  · obtain ⟨l, hl, he⟩ := Option.map_eq_some_iff.mp h
    cases he
    exact hl
  · rename_i l hl
    cases h
    exact hl

/-- The pop and the erasure together. -/
theorem pop_erase (h : s.m_MapUseable key = some (i :: rest)) (strHost : Bytes) :
    popFront s.m_MapUseable strHost key rest = fun k =>
      if k = strHost ∧ rest = [] then none
      else if k = key then (s.m_MapUseable k).map List.tail else s.m_MapUseable k := by
  unfold popFront
  funext k
  by_cases hk : k = key
  · rw [hk, h]
    rfl
  · simp only [hk, if_false]

theorem handOut_apply (h : s.m_MapUseable key = some (i :: rest)) (hp : s.heap.cell p = some c) :
    a.handOut key i p s = some (.ok (some p), s.handFound a.strHost key rest i p) := by
  rw [handOut]
  rw [bind_ok (write_apply hp), bind_ok (write_apply (Heap.modify_self _ hp)),
    bind_ok pop_front_apply, bind_ok (get_apply _)]
  simp only [listAt, h, if_true, Option.map_some, Option.getD_some, List.tail_cons, handFound,
    pop_erase h, Heap.modify_modify]
  by_cases hrest : rest = []
  · simp only [hrest, if_true, and_true]
    rfl
  · simp only [hrest, if_false, and_false]
    rfl

theorem takeSlot_apply (hslot : at? s.m_VecClient i = some none)
    (h : s.m_MapUseable key = some (i :: rest)) (hp : s.heap.cell p = some c) :
    a.takeSlot key i p s = some (.ok (some p),
      { s with
        m_VecClient := s.m_VecClient.set i.toNat (some p)
        m_nUsedClientCnt := s.m_nUsedClientCnt + 1 }.handFound a.strHost key rest i p) := by
  have hset : setSlot i p s =
      some (.ok (), { s with m_VecClient := s.m_VecClient.set i.toNat (some p) }) := by
    rw [setSlot, bind_ok (get_apply _), bind_ok (t := s) (a := ()), modify_apply]
    rw [throwUnless_apply, hslot]
    rfl
  rw [takeSlot, bind_ok hset, bind_ok (modify_apply _ _)]
  exact handOut_apply h hp

theorem newClient_apply (h : a.allocated = true) : a.newClient s =
    some (.ok s.heap.next, { s with
      heap := s.heap.alloc ⟨false, 0, a.m_Index, [], ⟨a.client.bCluster, [], 0, []⟩⟩ }) := by
  rw [newClient, bind_ok (t := s) (a := ()), bind_ok (get_apply _), bind_ok (modify_apply _ _),
    pure_apply]
  rw [throwUnless_apply, h]
  rfl

/-- A write to the client that has just been allocated. -/
theorem write_alloc (h : Heap CRedisClientEx) (f : CRedisClientEx → CRedisClientEx) :
    write h.next f { s with heap := h.alloc c } = some (.ok (), { s with heap := h.alloc (f c) }) := by
  rw [write_apply (Heap.alloc_self h c), Heap.modify_alloc]

theorem connectRedis_apply (h : Heap CRedisClientEx) :
    a.connectRedis h.next { s with heap := h.alloc c } =
      some (if a.connect = .threw then .error () else .ok (a.connect == .connected),
        { s with heap := h.alloc { c with m_Client := a.client } }) := by
  rw [connectRedis, bind_ok (write_alloc h _), bind_apply, throwUnless_apply]
  cases a.connect <;> rfl

/-- The statements before the slot is taken. -/
theorem connectSlot_apply (ha : a.connected = true) (hslot : at? s.m_VecClient i = some none)
    (h : s.m_MapUseable key = some (i :: rest)) : a.connectSlot key i s =
      some (.ok (some s.heap.next), s.handNew a.strHost key rest i a.client a.now) := by
  simp only [connected, Bool.and_eq_true, beq_iff_eq] at ha
  obtain ⟨⟨hallocated, hconnect⟩, hcopied⟩ := ha
  have hconn := connectRedis_apply (a := a) (s := s)
    (c := ⟨false, 0, a.m_Index, [], ⟨a.client.bCluster, [], 0, []⟩⟩) s.heap
  rw [hconnect] at hconn
  rw [connectSlot, bind_ok (newClient_apply hallocated), bind_ok hconn]
  simp only [beq_self_eq_true, if_true]
  rw [bind_ok (write_alloc s.heap _), bind_ok (a := ()) (by rw [throwUnless_apply, hcopied]; rfl),
    bind_ok (write_alloc s.heap _)]
  refine Eq.trans (takeSlot_apply hslot h (Heap.alloc_self _ _)) ?_
  simp only [handNew, handFound, Heap.modify_alloc]

/-- Without a connection the block returns no client or throws. -/
theorem connectSlot_fails (ha : a.connected = false) (key : Bytes) (i : Int) :
    ∃ r t, a.connectSlot key i s = some (r, t) ∧ (Nothing r ∨ Threw r) := by
  cases hallocated : a.allocated with
  | false =>
    refine ⟨.error (), s, ?_, Or.inr trivial⟩
    rw [connectSlot, newClient, bind_apply, bind_apply, throwUnless_apply, hallocated]
    rfl
  | true =>
    rw [connectSlot, bind_ok (newClient_apply hallocated), bind_apply, connectRedis_apply]
    cases hconnect : a.connect with
    | connected =>
      have hcopied : a.copied = false := by simpa [connected, hallocated, hconnect] using ha
      refine ⟨.error (), { s with heap := s.heap.alloc ⟨false, a.now, a.m_Index, [], a.client⟩ }, ?_,
        Or.inr trivial⟩
      simp only [reduceCtorEq, if_false, beq_self_eq_true, if_true]
      rw [bind_ok (write_alloc s.heap _), bind_apply, throwUnless_apply, hcopied]
      rfl
    | refused => exact ⟨.ok none, _, rfl, Or.inl rfl⟩
    | threw => exact ⟨.error (), _, rfl, Or.inr trivial⟩

theorem slotAt_apply {slot : Option Nat} (h : at? s.m_VecClient i = some slot) :
    slotAt i s = some (.ok slot, s) := by
  rw [slotAt, bind_ok (get_apply s), bind_ok (t := s) (a := ()), ofOption_apply, h]
  · rfl
  · rw [throwUnless_apply, h]
    rfl

theorem block_out (h : at? s.m_VecClient i = none) : a.block key i s = some (.error (), s) := by
  rw [block, slotAt, bind_apply, bind_ok (get_apply s), bind_apply, throwUnless_apply, h]
  rfl

theorem block_empty (h : at? s.m_VecClient i = some none) :
    a.block key i s = a.connectSlot key i s := by
  rw [block, bind_ok (slotAt_apply h)]

theorem block_full (h : at? s.m_VecClient i = some (some p)) :
    a.block key i s = a.handOut key i p s := by
  rw [block, bind_ok (slotAt_apply h)]

theorem run_useable (h : s.getUseableList a.strHost = some (key, i :: rest)) :
    a.run s = (a.block key i s).map fun r => (handled none r.1, r.2) := by
  rw [run, bind_ok (get_apply s), h]
  exact catchAll_apply _ _ _

/-- What the statements do is what `takeClient` says, but for the client that is left behind when no
connection comes about. -/
theorem run_takeClient (a : Acquire) (s : CRedisClientPool) :
    match s.takeClient a.strHost a.client a.connected a.now with
    | some (t, some p) => a.run s = some (.ok (some p), t)
    | some (t, none) => t = s ∧ ∃ u, a.run s = some (.ok none, u)
    | none => a.run s = none := by
  rw [takeClient]
  cases hlist : s.getUseableList a.strHost with
  | none =>
    refine ⟨rfl, s, ?_⟩
    rw [run, bind_ok (get_apply s), hlist]
    rfl
  | some l =>
    obtain ⟨key, l⟩ := l
    cases l with
    | nil =>
      refine ⟨rfl, s, ?_⟩
      rw [run, bind_ok (get_apply s), hlist]
      rfl
    | cons i rest =>
      have hkey := useable_key hlist
      rw [run_useable hlist]
      simp only
      cases hslot : at? s.m_VecClient i with
      | none =>
        rw [block_out hslot]
        exact ⟨rfl, s, rfl⟩
      | some slot =>
        cases slot with
        | some p =>
          rw [block_full hslot]
          cases hp : s.heap.cell p with
          | none =>
            rw [handOut, bind_none (write_none hp)]
            simp only [hp, Option.map_none]
          | some c =>
            rw [handOut_apply hkey hp]
            simp only [hp, Option.map_some, handled]
        | none =>
          rw [block_empty hslot]
          cases ha : a.connected with
          | true =>
            rw [connectSlot_apply ha hslot hkey]
            simp only [if_true, Option.map_some, handled]
          | false =>
            obtain ⟨r, u, hu, hr⟩ := connectSlot_fails (s := s) ha key i
            refine ⟨rfl, u, ?_⟩
            rw [hu]
            cases hr with
            | inl hnothing => rw [hnothing]; rfl
            | inr hthrew =>
              cases r with
              | ok b => cases hthrew
              | error e => rfl

end Take

end Acquire
end CppPrivate.Redis
