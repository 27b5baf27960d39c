import CppPrivate.Lib.Heap
import CppPrivate.Lib.Machine
import CppPrivate.Lib.Run
import CppPrivate.Pg.Client

/-! The PostgreSQL connection pool: the slot vector, the list of free slots and the idle
lists per key. Each call holds the pool's mutex throughout, except `setTimeout`, which is one
store. A call has no result where the source uses a null pointer, a deleted item or a subscript
beyond the vector. -/
namespace CppPrivate.Pg
open Run

inductive ConnState where
  | eConn_Invalid | eConn_Unused | eConn_Used
deriving DecidableEq

structure ConnItem where
  sKey : Bytes
  PGClient : CPGClient
  eState : ConnState
  nLastAccessedTime : UInt64
  nConnectingTime : UInt64
  nPoolIndex : Int
  sUrl : Bytes

structure Connection where
  pConnItem : Option Nat
  sConnectionURL : Bytes
  sError : Bytes

abbrev VecConnectionPool := List (Option Nat)
abbrev ListUseabledConnection := List Int
abbrev MapUseabledConnection := Bytes → Option ListUseabledConnection

structure CPGConnectionPool where
  heap : Heap ConnItem
  m_nTimeout : UInt32
  m_nMaxConnectionCnt : UInt32
  m_nUsedConnectionCnt : UInt32
  m_vecConnPool : VecConnectionPool
  m_mapUseableConn : MapUseabledConnection
  m_listUseableConn : ListUseabledConnection

structure Request where
  host : Bytes
  port : Bytes
  username : Bytes
  password : Bytes
  dbName : Bytes
  nTimeout : UInt32
  SSL : UInt32

/-- The key under which a connection is pooled. -/
def Request.sUrl (r : Request) : Bytes :=
  bytes "postgresql://" ++ r.host ++ bytes ":" ++ r.port ++ bytes "/" ++ r.dbName ++ bytes "?" ++
    bytes "user=" ++ r.username ++ bytes "&password=" ++ r.password

/-- What the server and the clock answer to a request. -/
structure Answer where
  ok : Bool
  error : Bytes
  accessed : UInt64
  connecting : UInt64

namespace CPGConnectionPool

def m_nDefaultTimeout : UInt32 := 60
def m_nDefaultConnectionCnt : UInt32 := 100

/-- The list of idle connections under a key, empty when there is none. -/
def idleAt (m : MapUseabledConnection) (sKey : Bytes) : ListUseabledConnection := (m sKey).getD []

theorem idleAt_update {m : MapUseabledConnection} {key k : Bytes} {l : ListUseabledConnection} :
    idleAt (fun k => if k = key then some l else m k) k = if k = key then l else idleAt m k := by
  unfold idleAt
  split <;> simp_all

theorem idleAt_remove {m : MapUseabledConnection} {key k : Bytes} {i : Int} :
    idleAt (fun k => if k = key then (m k).map (removeIndex · i) else m k) k =
      if k = key then removeIndex (idleAt m k) i else idleAt m k := by
  unfold idleAt
  by_cases hk : k = key
  · simp only [hk, if_true]
    cases m key <;> simp [removeIndex]
  · simp only [hk, if_false]

theorem idleAt_append {m : MapUseabledConnection} {key k : Bytes} {i : Int} :
    idleAt (fun k => if k = key then some (idleAt m k ++ [i]) else m k) k =
      if k = key then idleAt m k ++ [i] else idleAt m k := by
  unfold idleAt
  split <;> simp_all

theorem idleAt_eq {m : MapUseabledConnection} {k : Bytes} {l : ListUseabledConnection}
    (h : m k = some l) : idleAt m k = l := by
  simp [idleAt, h]

section Idle
variable {m : MapUseabledConnection} {key k : Bytes} {i x : Int} {rest : ListUseabledConnection}

/-- What is idle after the head of a list is taken was idle before. -/
theorem mem_idleAt_update (hlist : idleAt m key = i :: rest) (hnd : (idleAt m key).Nodup)
    (hx : x ∈ idleAt (fun k => if k = key then some rest else m k) k) :
    x ∈ idleAt m k ∧ (k = key → x ≠ i) := by
  rw [hlist] at hnd
  rw [idleAt_update] at hx
  split at hx
  · rename_i hk
    subst hk
    refine ⟨by simp [hlist, hx], fun _ he => ?_⟩
    exact (List.nodup_cons.mp hnd).1 (he ▸ hx)
  · rename_i hk
    exact ⟨hx, fun he => absurd he hk⟩

theorem nodup_idleAt_update (hlist : idleAt m key = i :: rest) (hnd : ∀ k, (idleAt m k).Nodup)
    (k : Bytes) : (idleAt (fun k => if k = key then some rest else m k) k).Nodup := by
  rw [idleAt_update]
  split
  · have hhead := hnd key
    rw [hlist] at hhead
    exact (List.nodup_cons.mp hhead).2
  · exact hnd k

theorem mem_idleAt_append
    (hx : x ∈ idleAt (fun k => if k = key then some (idleAt m k ++ [i]) else m k) k) :
    x ∈ idleAt m k ∨ k = key ∧ x = i := by
  rw [idleAt_append] at hx
  split at hx
  · rename_i hk
    exact (List.mem_append.mp hx).imp id fun hx => ⟨hk, List.mem_singleton.mp hx⟩
  · exact Or.inl hx

theorem nodup_idleAt_append (hnew : ∀ k, i ∉ idleAt m k) (hnd : ∀ k, (idleAt m k).Nodup)
    (k : Bytes) : (idleAt (fun k => if k = key then some (idleAt m k ++ [i]) else m k) k).Nodup := by
  rw [idleAt_append]
  split
  · simpa using List.Nodup.concat (hnew k) (hnd k)
  · exact hnd k

theorem mem_idleAt_remove
    (hx : x ∈ idleAt (fun k => if k = key then (m k).map (removeIndex · i) else m k) k) :
    x ∈ idleAt m k ∧ (k = key → x ≠ i) := by
  rw [idleAt_remove] at hx
  split at hx
  · exact ⟨(mem_removeIndex.mp hx).1, fun _ => (mem_removeIndex.mp hx).2⟩
  · rename_i hk
    exact ⟨hx, fun he => absurd he hk⟩

end Idle

/-- The constructor; it leaves the counter of used connections as it finds it. -/
def new (nUsed : UInt32) : CPGConnectionPool where
  heap := Heap.empty
  m_nTimeout := m_nDefaultTimeout
  m_nMaxConnectionCnt := m_nDefaultConnectionCnt
  m_nUsedConnectionCnt := nUsed
  m_vecConnPool := List.replicate m_nDefaultConnectionCnt.toNat none
  m_mapUseableConn := fun _ => none
  m_listUseableConn := (List.range m_nDefaultConnectionCnt.toNat).map fun i : Nat => cInt i

/-- The indices of the loop that enlarges the pool. -/
def growRange (nMax nCount : UInt32) : List Nat :=
  List.range' nMax.toNat (nCount.toNat - nMax.toNat)

def setMaxConnectionCnt (s : CPGConnectionPool) (nCount : UInt32) : CPGConnectionPool :=
  if nCount > s.m_nMaxConnectionCnt then
    { s with
      m_vecConnPool := s.m_vecConnPool ++
        (growRange s.m_nMaxConnectionCnt nCount).map fun _ => none
      m_listUseableConn := s.m_listUseableConn ++
        (growRange s.m_nMaxConnectionCnt nCount).map fun i : Nat => cInt i }
  else s

def setTimeout (s : CPGConnectionPool) (nTimeout : UInt32) : CPGConnectionPool :=
  { s with m_nTimeout := nTimeout }

def noIdle : Connection := ⟨none, [], bytes "PG Connection Pool has not idle connection."⟩

/-- The item at the head of the idle list goes out. -/
def takeIdle (s : CPGConnectionPool) (sUrl : Bytes) (index : Int) (rest : ListUseabledConnection) :
    Option (CPGConnectionPool × Connection) :=
  match at? s.m_vecConnPool index with
  | some (some p) => (s.heap.cell p).map fun item =>
    ({ s with
        heap := s.heap.modify p fun item => { item with eState := .eConn_Used }
        m_nUsedConnectionCnt := s.m_nUsedConnectionCnt + 1
        m_mapUseableConn := fun k => if k = sUrl then some rest else s.m_mapUseableConn k },
      ⟨some p, item.PGClient.m_sUrl, []⟩)
  | _ => none

def freshClient (r : Request) : CPGClient :=
  if r.nTimeout > CPGClient.m_nDefaultTimeout then CPGClient.new.setTimeout r.nTimeout
  else CPGClient.new

/-- The new item, connected, takes the free slot `index` and goes out. -/
def install (s : CPGConnectionPool) (r : Request) (a : Answer) (client : CPGClient) (index : Int)
    (rest : ListUseabledConnection) : CPGConnectionPool × Connection :=
  ({ s with
      heap := s.heap.alloc ⟨r.sUrl, client, .eConn_Used, a.accessed, a.connecting, index, r.sUrl⟩
      m_nUsedConnectionCnt := s.m_nUsedConnectionCnt + 1
      m_vecConnPool := s.m_vecConnPool.set index.toNat (some s.heap.next)
      m_listUseableConn := rest },
    ⟨some s.heap.next, client.m_sUrl, []⟩)

/-- A new connection in the slot at the head of the free list. -/
def takeFree (s : CPGConnectionPool) (r : Request) (a : Answer) :
    Option (CPGConnectionPool × Connection) :=
  match s.m_listUseableConn with
  | [] => some (s, noIdle)
  | index :: rest =>
    match at? s.m_vecConnPool index with
    | none => none
    | some (some _) => some (s, noIdle)
    | some none =>
      match (freshClient r).connect r.host r.port r.username r.password r.dbName r.SSL a.ok a.error with
      | (client, true) => some (s.install r a client index rest)
      | (client, false) => some (s, ⟨none, client.m_sUrl, client.m_sError⟩)

def getConnection (s : CPGConnectionPool) (r : Request) (a : Answer) :
    Option (CPGConnectionPool × Connection) :=
  match s.m_mapUseableConn r.sUrl with
  | some (index :: rest) => s.takeIdle r.sUrl index rest
  | _ => s.takeFree r a

/-- Files an item off its idle list, frees its slot index and deletes it. The slot itself is
left to the caller. -/
def removeConnection (s : CPGConnectionPool) (p : Nat) (item : ConnItem) : CPGConnectionPool :=
  { s with
    heap := s.heap.free p
    m_mapUseableConn := fun k =>
      if k = item.sKey then (s.m_mapUseableConn k).map (removeIndex · item.nPoolIndex)
      else s.m_mapUseableConn k
    m_listUseableConn := s.m_listUseableConn ++ [item.nPoolIndex] }

def returnConnection (s : CPGConnectionPool) (pConnItem : Option Nat) (status : Bool)
    (now : UInt64) : Option CPGConnectionPool :=
  match pConnItem with
  | none => some s
  | some p => (s.heap.cell p).map fun item =>
    let t := { s with
      heap := s.heap.modify p fun item =>
        { item with nLastAccessedTime := now, eState := .eConn_Unused }
      m_nUsedConnectionCnt := s.m_nUsedConnectionCnt - 1 }
    if status then
      { t with m_mapUseableConn := fun k =>
          if k = item.sKey then some (idleAt s.m_mapUseableConn k ++ [item.nPoolIndex])
          else s.m_mapUseableConn k }
    else t.removeConnection p item

/-- What the clock and the server answer while slot `i` is checked. -/
structure Check where
  now : UInt64
  ping : CPGClient.PGPing
  status : Bool

/-- Whether an idle item has not been used for longer than the timeout. The clock is cut to
32 bits before the difference is taken. -/
def timedOut (s : CPGConnectionPool) (item : ConnItem) (now : UInt64) : Bool :=
  now.toUInt32.toUInt64 - item.nLastAccessedTime > s.m_nTimeout.toUInt64

/-- The sweep's work on slot `i`; a ping leaves its traces in the client. -/
def checkSlot (answers : Nat → Check) (s : CPGConnectionPool) (i : Nat) : Option CPGConnectionPool :=
  match s.m_vecConnPool[i]? with
  | some (some p) => (s.heap.cell p).map fun item =>
    let dropped := { s.removeConnection p item with m_vecConnPool := s.m_vecConnPool.set i none }
    if item.eState = .eConn_Unused then
      if s.timedOut item (answers i).now then dropped
      else if !(item.PGClient.ping (answers i).ping).2 || !(answers i).status then dropped
      else
        { s with heap := s.heap.modify p fun item =>
            { item with PGClient := (item.PGClient.ping (answers i).ping).1 } }
    else s
  | _ => some s

def checkConnection (s : CPGConnectionPool) (answers : Nat → Check) : Option CPGConnectionPool :=
  (List.range s.m_vecConnPool.length).foldlM (checkSlot answers) s

end CPGConnectionPool

/-- The pool with its borrowers: one entry of `loans` for each item handed out and not yet
returned. -/
structure System where
  pool : CPGConnectionPool
  loans : List Nat

inductive Op where
  | getConnection (r : Request) (a : Answer)
  | returnConnection (pConnItem : Option Nat) (status : Bool) (now : UInt64)
  | checkConnection (answers : Nat → CPGConnectionPool.Check)
  | setMaxConnectionCnt (nCount : UInt32)
  | setTimeout (nTimeout : UInt32)

namespace System

def new (nUsed : UInt32) : System := ⟨.new nUsed, []⟩

def step (s : System) : Op → Option System
  | .getConnection r a =>
    (s.pool.getConnection r a).map fun u => ⟨u.1, u.2.pConnItem.toList ++ s.loans⟩
  | .returnConnection pConnItem status now =>
    (s.pool.returnConnection pConnItem status now).map
      (⟨·, pConnItem.elim s.loans s.loans.erase⟩)
  | .checkConnection answers => (s.pool.checkConnection answers).map (⟨·, s.loans⟩)
  | .setMaxConnectionCnt nCount => some ⟨s.pool.setMaxConnectionCnt nCount, s.loans⟩
  | .setTimeout nTimeout => some ⟨s.pool.setTimeout nTimeout, s.loans⟩

end System
end CppPrivate.Pg
