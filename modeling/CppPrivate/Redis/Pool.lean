import CppPrivate.Lib.Bytes
import CppPrivate.Lib.Heap
import CppPrivate.Lib.Machine
import CppPrivate.Lib.Run

/-! The Redis client pool: slots, index lists per host, and the clients on loan.
Each call holds the pool's mutex throughout, so the calls of all threads and of the
ticker form one sequence. -/
namespace CppPrivate.Redis
open Run

/-- What `connect` was called with. -/
structure CRedisClient where
  bCluster : Bool
  address : Bytes
  port : Int
  passwd : Bytes

structure CRedisClientEx where
  m_Used : Bool
  m_Timestamp : UInt64
  m_Index : Int
  m_Host : Bytes
  m_Client : CRedisClient

abbrev ListUseableIndex := List Int
abbrev MapUseableHost := Bytes → Option ListUseableIndex
abbrev VecRedisClient := List (Option Nat)

/-- The reserved key of the list of free slots. -/
def nullHost : Bytes := bytes "NULL"

structure CRedisClientPool where
  heap : Heap CRedisClientEx
  m_nCurClientCnt : UInt32
  m_nUsedClientCnt : UInt32
  m_nCurTimeout : UInt32
  m_MapUseable : MapUseableHost
  m_VecClient : VecRedisClient

def m_nDefaultClientCnt : UInt32 := 10
def m_nDefaultTimeout : UInt32 := 300

/-- The list filed under a host, empty when there is none. -/
def listAt (m : MapUseableHost) (strHost : Bytes) : ListUseableIndex := (m strHost).getD []

namespace CRedisClientPool

def new : CRedisClientPool where
  heap := Heap.empty
  m_nCurClientCnt := m_nDefaultClientCnt
  m_nUsedClientCnt := 0
  m_nCurTimeout := m_nDefaultTimeout
  m_MapUseable := fun k =>
    if k = nullHost then some ((List.range m_nDefaultClientCnt.toNat).map fun i : Nat => cInt i)
    else none
  m_VecClient := List.replicate m_nDefaultClientCnt.toNat none

/-- Ports with a text of ten characters or more do not fit `strPort[10]`; they are left out. -/
def createHostString (ip : Bytes) (port : Int) : Bytes := ip ++ bytes ":" ++ decimal port

/-- The list that serves a host, with the key it is filed under. -/
def getUseableList (s : CRedisClientPool) (strHost : Bytes) : Option (Bytes × ListUseableIndex) :=
  match s.m_MapUseable strHost with
  | none => (s.m_MapUseable nullHost).map fun l => (nullHost, l)
  | some l => some (strHost, l)

/-- `listIndex->pop_front()` on the list filed under `key`, and the erasure of the host's
own entry when that leaves the list empty. -/
def popFront (m : MapUseableHost) (strHost key : Bytes) (rest : ListUseableIndex) :
    MapUseableHost := fun k =>
  if k = strHost ∧ rest = [] then none else if k = key then some rest else m k

/-- A new client, connected, takes the empty slot `i` and goes out. -/
def handNew (s : CRedisClientPool) (strHost key : Bytes) (rest : ListUseableIndex) (i : Int)
    (client : CRedisClient) (now : UInt64) : CRedisClientPool :=
  { s with
    heap := s.heap.alloc ⟨true, now, i, strHost, client⟩
    m_VecClient := s.m_VecClient.set i.toNat (some s.heap.next)
    m_nUsedClientCnt := s.m_nUsedClientCnt + 1
    m_MapUseable := popFront s.m_MapUseable strHost key rest }

def handFound (s : CRedisClientPool) (strHost key : Bytes) (rest : ListUseableIndex) (i : Int)
    (p : Nat) : CRedisClientPool :=
  { s with
    heap := s.heap.modify p fun c => { c with m_Index := i, m_Used := true }
    m_MapUseable := popFront s.m_MapUseable strHost key rest }

/-- `getClient` and `getClusterClient` differ in the client they construct and connect.
No result: the slot holds a pointer to a deleted client. -/
def takeClient (s : CRedisClientPool) (strHost : Bytes) (client : CRedisClient)
    (connected : Bool) (now : UInt64) : Option (CRedisClientPool × Option Nat) :=
  match s.getUseableList strHost with
  | none => some (s, none)
  | some (_, []) => some (s, none)
  | some (key, nUseableIndex :: rest) =>
    match at? s.m_VecClient nUseableIndex with
    | none => some (s, none)  -- at() throws, and the handler returns NULL
    | some none =>
      if connected then
        some (s.handNew strHost key rest nUseableIndex client now, some s.heap.next)
      else some (s, none)
    | some (some p) =>
      (s.heap.cell p).map fun _ => (s.handFound strHost key rest nUseableIndex p, some p)

def getClient (s : CRedisClientPool) (ip : Bytes) (port : Int) (passwd : Bytes)
    (connected : Bool) (now : UInt64) : Option (CRedisClientPool × Option Nat) :=
  s.takeClient (createHostString ip port) ⟨false, ip, port, passwd⟩ connected now

def getClusterClient (s : CRedisClientPool) (strHost : Bytes) (passwd : Bytes)
    (connected : Bool) (now : UInt64) : Option (CRedisClientPool × Option Nat) :=
  s.takeClient strHost ⟨true, strHost, 0, passwd⟩ connected now

/-- `push_back` on the list of a host, created if there is none. -/
def pushHost (m : MapUseableHost) (strHost : Bytes) (i : Int) : MapUseableHost := fun k =>
  if k = strHost then some (listAt m strHost ++ [i]) else m k

/-- `push_back` on the list of a host; nothing happens if there is none. -/
def pushFound (m : MapUseableHost) (strHost : Bytes) (i : Int) : MapUseableHost := fun k =>
  if k = strHost then (m strHost).map (· ++ [i]) else m k

/-- `remove` on the list of a host, which is erased when that leaves it empty. -/
def removeFound (m : MapUseableHost) (strHost : Bytes) (i : Int) : MapUseableHost := fun k =>
  if k = strHost then
    (m strHost).bind fun l => if removeIndex l i = [] then none else some (removeIndex l i)
  else m k

/-- The returned code, -1 for a null pointer and 0 otherwise, carries nothing further.
No result: the client was deleted. -/
def returnClient (s : CRedisClientPool) (pClient : Option Nat) (now : UInt64) :
    Option CRedisClientPool :=
  match pClient with
  | none => some s
  | some p => (s.heap.cell p).map fun c =>
    { s with
      heap := s.heap.modify p fun c => { c with m_Used := false, m_Timestamp := now }
      m_MapUseable := pushHost s.m_MapUseable c.m_Host c.m_Index }

/-- Whether the sweep closes a client: it is idle and either unused for too long or dead.
The clock is read once for each slot, the ping is sent only to a client that is not too old. -/
def expired (s : CRedisClientPool) (c : CRedisClientEx) (nCurTime : UInt64) (ping : Bool) : Bool :=
  !c.m_Used && (decide (nCurTime - c.m_Timestamp > s.m_nCurTimeout.toUInt64) || !ping)

def reap (s : CRedisClientPool) (i p : Nat) (c : CRedisClientEx) : CRedisClientPool :=
  { s with
    heap := s.heap.free p
    m_MapUseable := pushFound (removeFound s.m_MapUseable c.m_Host c.m_Index) nullHost c.m_Index
    m_VecClient := s.m_VecClient.set i none
    m_nUsedClientCnt := s.m_nUsedClientCnt - 1 }

def reapSlot (now : Nat → UInt64) (ping : Nat → Bool) (s : CRedisClientPool) (i : Nat) :
    Option CRedisClientPool :=
  match s.m_VecClient[i]? with
  | some (some p) =>
    (s.heap.cell p).map fun c => if s.expired c (now i) (ping i) then s.reap i p c else s
  | _ => some s

/-- The last slot, which is empty, goes. -/
def dropFree (s : CRedisClientPool) : CRedisClientPool :=
  { s with
    m_MapUseable := removeFound s.m_MapUseable nullHost (cInt (s.m_VecClient.length - 1 : Nat))
    m_VecClient := s.m_VecClient.dropLast }

/-- The last slot goes with its idle client `p`. Of the two loops that do this only the one
of `checkConnection` counts the client off. -/
def dropIdle (countOff : Bool) (s : CRedisClientPool) (p : Nat) (c : CRedisClientEx) :
    CRedisClientPool :=
  { s with
    heap := s.heap.free p
    m_nUsedClientCnt := if countOff then s.m_nUsedClientCnt - 1 else s.m_nUsedClientCnt
    m_MapUseable := removeFound s.m_MapUseable c.m_Host (cInt (s.m_VecClient.length - 1 : Nat))
    m_VecClient := s.m_VecClient.dropLast }

/-- One turn of the loop that shortens the vector, with its flag `bPopRes`. -/
def popTail (countOff : Bool) (s : CRedisClientPool) : Option (CRedisClientPool × Bool) :=
  match s.m_VecClient[s.m_VecClient.length - 1]? with
  | some (some p) =>
    (s.heap.cell p).map fun c =>
      if c.m_Used then (s, false) else (s.dropIdle countOff p c, true)
  | _ => some (s.dropFree, true)

/-- The loop itself; every turn but the last shortens the vector, so its length is fuel enough. -/
def shrinkLoop (countOff : Bool) (target : Nat) : Nat → CRedisClientPool → Option CRedisClientPool
  | 0, s => some s
  | fuel + 1, s =>
    if target < s.m_VecClient.length then
      match popTail countOff s with
      | none => none
      | some (s', true) => shrinkLoop countOff target fuel s'
      | some (s', false) => some s'
    else some s

def shrink (countOff : Bool) (target : Nat) (s : CRedisClientPool) : Option CRedisClientPool :=
  shrinkLoop countOff target s.m_VecClient.length s

def checkConnection (s : CRedisClientPool) (now : Nat → UInt64) (ping : Nat → Bool) :
    Option CRedisClientPool :=
  ((List.range s.m_VecClient.length).foldlM (reapSlot now ping) s).bind fun t =>
    t.shrink true t.m_nCurClientCnt.toNat

/-- The values of `i` in the loop that grows the free list. The first one wraps when the
pool has no slot at all. -/
def growRange (nCur nCnt : UInt32) : List Nat :=
  List.range' (nCur - 1).toNat (nCnt.toNat - (nCur - 1).toNat)

def pushFree (m : MapUseableHost) (i : Nat) : MapUseableHost :=
  match m nullHost with
  | none => m
  | some l => if cInt i ∈ l then m else pushFound m nullHost (cInt i)

/-- `int nTmp`: the difference of the sizes, converted from `size_t`. -/
def nTmp (s : CRedisClientPool) (nCnt : UInt32) : Int :=
  cInt ((nCnt.toNat : Int) - s.m_VecClient.length)

def setClientCnt (s : CRedisClientPool) (nCnt : UInt32) : Option CRedisClientPool :=
  if nCnt = s.m_nCurClientCnt then some s
  else if nCnt > s.m_nCurClientCnt then
    some { s with
      m_MapUseable := (growRange s.m_nCurClientCnt nCnt).foldl pushFree s.m_MapUseable
      m_VecClient := s.m_VecClient ++ List.replicate (s.nTmp nCnt).toNat none
      m_nCurClientCnt := nCnt }
  else
    (s.shrink false nCnt.toNat).map fun t => { t with m_nCurClientCnt := nCnt }

def setTimeout (s : CRedisClientPool) (nTimeout : UInt32) : CRedisClientPool :=
  if nTimeout = 0 ∨ nTimeout = s.m_nCurTimeout then s else { s with m_nCurTimeout := nTimeout }

end CRedisClientPool

/-- The pool together with its borrowers: one entry of `loans` for each client handed out
and not yet returned. -/
structure System where
  pool : CRedisClientPool
  loans : List Nat

/-- A call, with what the server and the clock answer during it. -/
inductive Op where
  | getClient (ip : Bytes) (port : Int) (passwd : Bytes) (connected : Bool) (now : UInt64)
  | getClusterClient (strHost passwd : Bytes) (connected : Bool) (now : UInt64)
  | returnClient (pClient : Option Nat) (now : UInt64)
  | checkConnection (now : Nat → UInt64) (ping : Nat → Bool)
  | setClientCnt (nCnt : UInt32)
  | setTimeout (nTimeout : UInt32)

namespace System

def new : System := ⟨.new, []⟩

def lend (s : System) (r : CRedisClientPool × Option Nat) : System :=
  ⟨r.1, r.2.toList ++ s.loans⟩

/-- A borrower returns a client it holds, once. -/
def step (s : System) : Op → Option System
  | .getClient ip port passwd connected now =>
    (s.pool.getClient ip port passwd connected now).map s.lend
  | .getClusterClient strHost passwd connected now =>
    (s.pool.getClusterClient strHost passwd connected now).map s.lend
  | .returnClient none now => (s.pool.returnClient none now).map (⟨·, s.loans⟩)
  | .returnClient (some p) now =>
    if p ∈ s.loans then (s.pool.returnClient (some p) now).map (⟨·, s.loans.erase p⟩) else none
  | .checkConnection now ping => (s.pool.checkConnection now ping).map (⟨·, s.loans⟩)
  | .setClientCnt nCnt => (s.pool.setClientCnt nCnt).map (⟨·, s.loans⟩)
  | .setTimeout nTimeout => some ⟨s.pool.setTimeout nTimeout, s.loans⟩

end System
end CppPrivate.Redis
