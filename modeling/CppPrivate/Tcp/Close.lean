import CppPrivate.Lib.Lifetimes
import CppPrivate.Tcp.Dispatch
import Mathlib.Data.List.Sort

/-! How a worker closes connections, within its own thread. A callback that it calls on the way may
close other connections. What closes a connection on purpose goes on to use its `bufferevent`. -/
namespace CppPrivate.Tcp
open Run

/-- The four objects that are made for a connection. -/
inductive Part where
  | connInfo
  | workerAndConnInfo
  | connection
  | bufferevent
deriving DecidableEq

/-- What the `CONN_INFO` holds; the `bufferevent` goes by the number of its connection. -/
structure ClosingConn where
  sfd : Int
  pClientTcpEvent : Option Nat
  nLastKeepalive : Int
deriving DecidableEq

/-- A worker with the objects of all its connections. `early`: an object was released while its
descriptor was still in the map. -/
structure ClosingWorker where
  conns : List ClosingConn
  m_connMap : List (Int × Nat)
  m_nkeepaliveTimeout : UInt32
  objects : Ledger (Nat × Part)
  early : Bool

/-- What a callback of a connection does: it calls `ForceCloseConn` for one descriptor after the
other, where `OnClose` is what the callback of the connection found does. -/
inductive Callback where
  | done
  | force (nFd : Int) (OnClose next : Callback)

def BEV_EVENT_EOF : UInt16 := 0x10
def BEV_EVENT_ERROR : UInt16 := 0x20
def BEV_EVENT_TIMEOUT : UInt16 := 0x40
def BEV_EVENT_CONNECTED : UInt16 := 0x80
def BEV_EVENT_CONNECTION_KEEPALIVE_TIMEOUT : UInt16 := 0x100
def BEV_EVENT_FORCE_CLOSE_CONNECTION : UInt16 := 0x200

def callsBack (event : UInt16) : Bool :=
  event ≠ BEV_EVENT_CONNECTED ∧ (event &&& BEV_EVENT_TIMEOUT ≠ 0 ∨ event &&& BEV_EVENT_EOF ≠ 0 ∨
    event &&& BEV_EVENT_ERROR ≠ 0 ∨ event = BEV_EVENT_CONNECTION_KEEPALIVE_TIMEOUT ∨
      event = BEV_EVENT_FORCE_CLOSE_CONNECTION)

namespace ClosingWorker

def new (timeout : UInt32) : ClosingWorker := ⟨[], [], timeout, .empty, false⟩

def conn (w : ClosingWorker) (c : Nat) : ClosingConn := w.conns[c]?.getD ⟨0, none, 0⟩

def setConn (w : ClosingWorker) (c : Nat) (k : ClosingConn) : ClosingWorker :=
  { w with conns := w.conns.set c k }

/-- `m_connMap.find(nFd)`. -/
def find (w : ClosingWorker) (nFd : Int) : Option Nat := w.m_connMap.lookup nFd

def use (w : ClosingWorker) (c : Nat) (p : Part) : ClosingWorker :=
  { w with objects := w.objects.use (c, p) }

def release (w : ClosingWorker) (c : Nat) (p : Part) : ClosingWorker :=
  { w with
    objects := w.objects.release (c, p)
    early := w.early || (w.find (w.conn c).sfd).isSome }

/-- The descriptor is closed with the `bufferevent`, or by itself. -/
def freeEvent (w : ClosingWorker) (c bev : Nat) : ClosingWorker :=
  if (w.conn c).pClientTcpEvent = some bev then
    (w.release bev .bufferevent).setConn c { w.conn c with pClientTcpEvent := none }
  else if (w.conn c).sfd > 0 then w.setConn c { w.conn c with sfd := 0 }
  else w

/-- `CloseConn(pConnInfo, bev)`. -/
def freeConn (w : ClosingWorker) (c bev : Nat) : ClosingWorker :=
  (((w.use c .connInfo).freeEvent c bev).release c .connection).release c .connInfo

def CloseConn (w : ClosingWorker) (c bev : Nat) : ClosingWorker :=
  let w := (w.use c .workerAndConnInfo).use c .connInfo
  let w := { w with m_connMap := eraseFd w.m_connMap (w.conn c).sfd }
  let w := w.freeConn c bev
  (w.use c .workerAndConnInfo).release c .workerAndConnInfo

/-- `p->pConnInfo->pConnection->On…`. -/
def callback (call : ClosingWorker → ClosingWorker) (w : ClosingWorker) (c : Nat) : ClosingWorker :=
  call (((w.use c .workerAndConnInfo).use c .connInfo).use c .connection)

def ClientTcpEventCb (call : ClosingWorker → ClosingWorker) (w : ClosingWorker) (bev : Nat)
    (event : UInt16) : ClosingWorker :=
  if event = BEV_EVENT_CONNECTED then w
  else (if callsBack event then callback call w bev else w).CloseConn bev bev

/-- The `cbarg` is that of the connection, and so is the `bufferevent` behind it. -/
def ClientTcpErrorCbCaller (call : ClosingWorker → ClosingWorker) (w : ClosingWorker) (bev : Nat)
    (event : UInt16) : ClosingWorker :=
  (ClientTcpEventCb call (w.use bev .bufferevent) bev event).use bev .bufferevent

def ForceCloseConn (call : ClosingWorker → ClosingWorker) (w : ClosingWorker) (nFd : Int) :
    ClosingWorker :=
  match w.find nFd with
  | some c => ClientTcpErrorCbCaller call (w.use c .connInfo) c BEV_EVENT_FORCE_CLOSE_CONNECTION
  | none => w

end ClosingWorker

def Callback.run : Callback → ClosingWorker → ClosingWorker
  | .done, w => w
  | .force nFd OnClose next, w => next.run (w.ForceCloseConn OnClose.run nFd)

/-- An event of the worker's loop: a connection that has come through the pipe, an event or data at
a connection, the keepalive timer; and the application telling that a connection is in use. -/
inductive ClosingOp where
  | connect (sfd now : Int) (OnConnect : Callback)
  | event (c : Nat) (event : UInt16) (callback : Callback)
  | traffic (c : Nat) (callback : Callback)
  | keepalive (c : Nat) (now : Int)
  | CheckClientKeepalive (nNow : Int) (OnClose : Nat → Callback)

namespace ClosingWorker

def InitNewConn (w : ClosingWorker) (sfd now : Int) : ClosingWorker :=
  let c := w.conns.length
  { w with
    conns := w.conns ++ [⟨sfd, some c, now⟩]
    m_connMap := insertFd w.m_connMap sfd c
    objects := (((w.objects.create (c, .connInfo)).create (c, .bufferevent)).create
      (c, .workerAndConnInfo)).create (c, .connection) }

/-- The connections that have timed out, in the order of their descriptors. -/
def mapTimeout (w : ClosingWorker) (nNow : Int) : List (Int × Nat) :=
  (w.m_connMap.filter fun e =>
    decide (nNow - (w.conn e.2).nLastKeepalive > w.m_nkeepaliveTimeout.toNat)).insertionSort
      fun e f => e.1 ≤ f.1

def sweep (OnClose : Nat → Callback) (w : ClosingWorker) : List (Int × Nat) → ClosingWorker
  | [] => w
  | e :: es => sweep OnClose (ClientTcpErrorCbCaller (OnClose e.2).run (w.use e.2 .connInfo) e.2
      BEV_EVENT_CONNECTION_KEEPALIVE_TIMEOUT) es

/-- A descriptor that the system gives is not open, and events come from `bufferevent`s that have
not been freed. -/
def step (w : ClosingWorker) : ClosingOp → Option ClosingWorker
  | .connect sfd now OnConnect =>
    if sfd > 0 ∧ w.find sfd = none then
      let c := w.conns.length
      some (OnConnect.run (((w.InitNewConn sfd now).use c .connInfo).use c .connection))
    else none
  | .event c event callback =>
    if w.objects.alive (c, .bufferevent) then some (w.ClientTcpEventCb callback.run c event)
    else none
  | .traffic c script =>
    if w.objects.alive (c, .bufferevent) then some (callback script.run w c) else none
  | .keepalive c now =>
    if w.objects.alive (c, .connInfo) then
      some (w.setConn c { w.conn c with nLastKeepalive := now })
    else none
  | .CheckClientKeepalive nNow OnClose => some (w.sweep OnClose (w.mapTimeout nNow))

end ClosingWorker

/-- One of the calls of `ForceCloseConn` finds its descriptor. -/
def Callback.finds (w : ClosingWorker) : Callback → Bool
  | .done => false
  | .force nFd _ next => (w.find nFd).isSome || next.finds w

namespace ClosingWorker

/-- A connection is closed on purpose: by `ForceCloseConn`, or because it has timed out. -/
def closesOnPurpose (w : ClosingWorker) : ClosingOp → Bool
  | .connect sfd now OnConnect => OnConnect.finds (w.InitNewConn sfd now)
  | .event _ event callback => callsBack event && callback.finds w
  | .traffic _ callback => callback.finds w
  | .keepalive _ _ => false
  | .CheckClientKeepalive nNow _ => !(w.mapTimeout nNow).isEmpty

/-- Connections are closed by their own events only. -/
def Clear (w : ClosingWorker) (op : ClosingOp) : Prop := w.closesOnPurpose op = false

instance (w : ClosingWorker) : DecidablePred w.Clear := fun _ => inferInstanceAs (Decidable (_ = _))

/-- The connection is open: in the map, with none of its objects released. -/
def Open (w : ClosingWorker) (c : Nat) : Prop :=
  w.find (w.conn c).sfd = some c ∧ ∀ p, w.objects.released (c, p) = 0

/-- The connection is closed: not in the map, with each of its objects released once. -/
def Closed (w : ClosingWorker) (c : Nat) : Prop :=
  (∀ nFd, w.find nFd ≠ some c) ∧ ∀ p, w.objects.released (c, p) = 1

/-- No object is used or released after its release, or released before its descriptor has been
removed from the map, and each connection is open or closed as a whole. -/
structure Proper (w : ClosingWorker) : Prop where
  unmisused : w.objects.misused = false
  ordered : w.early = false
  whole : ∀ c < w.conns.length, w.Open c ∨ w.Closed c

/-- What the proofs need besides: an open connection has what its close looks for. -/
structure Good (w : ClosingWorker) : Prop where
  unmisused : w.objects.misused = false
  ordered : w.early = false
  keys : (w.m_connMap.map Prod.fst).Nodup
  opened : ∀ nFd c, (nFd, c) ∈ w.m_connMap → c < w.conns.length ∧ (w.conn c).sfd = nFd ∧
    (w.conn c).pClientTcpEvent = some c ∧ ∀ p, w.objects.alive (c, p) = true
  shut : ∀ c < w.conns.length, (∀ nFd, (nFd, c) ∉ w.m_connMap) →
    ∀ p, w.objects.released (c, p) = 1
  fresh : ∀ c, w.conns.length ≤ c → ∀ p,
    w.objects.created (c, p) = false ∧ w.objects.released (c, p) = 0

section Map
variable {m : List (Int × Nat)} {nFd fd : Int} {c d : Nat}

theorem mem_of_lookup (h : m.lookup nFd = some c) : (nFd, c) ∈ m := by
  obtain ⟨l, l', rfl, -⟩ := List.lookup_eq_some_iff.mp h
  simp

theorem lookup_of_mem (hkeys : (m.map Prod.fst).Nodup) (h : (nFd, c) ∈ m) :
    m.lookup nFd = some c := by
  obtain ⟨l, l', rfl⟩ := List.append_of_mem h
  apply List.lookup_eq_some_iff.mpr
  refine ⟨l, l', rfl, ?_⟩
  intro e he
  rw [List.map_append, List.map_cons] at hkeys
  have hne := (List.nodup_append.mp hkeys).2.2 e.1 (List.mem_map_of_mem he) nFd List.mem_cons_self
  simpa using hne.symm

theorem lookup_eq_none (h : ∀ c, (nFd, c) ∉ m) : m.lookup nFd = none := by
  cases hfind : m.lookup nFd with
  | none => rfl
  | some c => exact absurd (mem_of_lookup hfind) (h c)

theorem mem_eraseFd : (nFd, c) ∈ eraseFd m fd ↔ (nFd, c) ∈ m ∧ nFd ≠ fd := by
  simp [eraseFd]

theorem keys_eraseFd (hkeys : (m.map Prod.fst).Nodup) : ((eraseFd m fd).map Prod.fst).Nodup :=
  hkeys.sublist (List.filter_sublist.map Prod.fst)

theorem mem_insertFd : (nFd, c) ∈ insertFd m fd d ↔
    nFd = fd ∧ c = d ∨ (nFd, c) ∈ m ∧ nFd ≠ fd := by
  rw [insertFd, List.mem_cons, mem_eraseFd, Prod.mk.injEq]

theorem keys_insertFd (hkeys : (m.map Prod.fst).Nodup) :
    ((insertFd m fd d).map Prod.fst).Nodup := by
  rw [insertFd, List.map_cons, List.nodup_cons]
  refine ⟨?_, keys_eraseFd hkeys⟩
  intro hmem
  obtain ⟨⟨nFd, c⟩, he, rfl⟩ := List.mem_map.mp hmem
  exact (mem_eraseFd.mp he).2 rfl

end Map

section Quiet
variable {w : ClosingWorker} {c : Nat} {nFd : Int} {p : Part} {script : Callback}

theorem use_eq (h : w.objects.alive (c, p) = true) : w.use c p = w := by
  rw [use, Ledger.use_alive h]

theorem run_quiet (h : script.finds w = false) : script.run w = w := by
  induction script with
  | done => rfl
  | force nFd OnClose next _ ih =>
    rw [Callback.finds, Bool.or_eq_false_iff] at h
    have hnone : w.find nFd = none := by
      rw [← Option.isNone_iff_eq_none, ← Option.not_isSome, h.1]
      rfl
    have hsame : w.ForceCloseConn OnClose.run nFd = w := by rw [ForceCloseConn, hnone]
    rw [Callback.run, hsame, ih h.2]

theorem callback_eq (call : ClosingWorker → ClosingWorker)
    (h : ∀ p, w.objects.alive (c, p) = true) : callback call w c = call w := by
  rw [callback, use_eq (h _), use_eq (h _), use_eq (h _)]

theorem Good.find (hw : Good w) : w.find nFd = some c ↔ (nFd, c) ∈ w.m_connMap :=
  ⟨mem_of_lookup, lookup_of_mem hw.keys⟩

theorem conn_setConn (hc : c < w.conns.length) (k : ClosingConn) (d : Nat) :
    (w.setConn c k).conn d = if d = c then k else w.conn d := by
  rw [conn, setConn]
  split
  · rename_i hdc
    rw [hdc, List.getElem?_set_self hc, Option.getD_some]
  · rename_i hdc
    rw [List.getElem?_set_ne (Ne.symm hdc)]
    rfl

def closed (w : ClosingWorker) (c : Nat) : ClosingWorker :=
  { w.setConn c { w.conn c with pClientTcpEvent := none } with
    m_connMap := eraseFd w.m_connMap (w.conn c).sfd
    objects := (((w.objects.release (c, .bufferevent)).release (c, .connection)).release
      (c, .connInfo)).release (c, .workerAndConnInfo) }

theorem closeConn_eq (hw : Good w) (h : (nFd, c) ∈ w.m_connMap) : w.CloseConn c c = w.closed c := by
  obtain ⟨hc, rfl, hbev, halive⟩ := hw.opened nFd c h
  have herased : (eraseFd w.m_connMap (w.conn c).sfd).lookup (w.conn c).sfd = none :=
    lookup_eq_none fun d hd => (mem_eraseFd.mp hd).2 rfl
  -- the worker after each of the releases
  let e : ClosingWorker := { w with m_connMap := eraseFd w.m_connMap (w.conn c).sfd }
  let e₁ : ClosingWorker := { e with objects := e.objects.release (c, .bufferevent) }
  let e₂ := e₁.setConn c { w.conn c with pClientTcpEvent := none }
  let e₃ : ClosingWorker := { e₂ with objects := e₂.objects.release (c, .connection) }
  let e₄ : ClosingWorker := { e₃ with objects := e₃.objects.release (c, .connInfo) }
  have hrelease : ∀ (u : ClosingWorker) p, u.m_connMap = e.m_connMap →
      (u.conn c).sfd = (w.conn c).sfd →
      u.release c p = { u with objects := u.objects.release (c, p) } := by
    intro u p hmap hsfd
    have hnone : u.find (u.conn c).sfd = none := by rw [find, hmap, hsfd]; exact herased
    rw [release, hnone, Option.isSome_none, Bool.or_false]
  have hsfd : (e₂.conn c).sfd = (w.conn c).sfd := by
    have hset : e₂.conn c = { w.conn c with pClientTcpEvent := none } := by
      have hself := conn_setConn (w := e₁) hc { w.conn c with pClientTcpEvent := none } c
      rw [if_pos rfl] at hself
      exact hself
    rw [hset]
  have hfree : e.freeConn c c = e₄ := by
    have hinfo : e.use c .connInfo = e := use_eq (halive _)
    have hevent : (e.conn c).pClientTcpEvent = some c := hbev
    rw [freeConn, hinfo, freeEvent, if_pos hevent, hrelease e _ rfl rfl]
    exact (congrArg (release · c .connInfo) (hrelease e₂ _ rfl hsfd)).trans
      (hrelease e₃ _ rfl hsfd)
  have hopened : (w.use c .workerAndConnInfo).use c .connInfo = w := by
    rw [use_eq (halive _), use_eq (halive _)]
  have harg : e₄.use c .workerAndConnInfo = e₄ := by
    apply use_eq
    simp [e₄, e₃, e₂, e₁, e, setConn, Ledger.alive_release, halive]
  rw [CloseConn, hopened]
  change ((e.freeConn c c).use c .workerAndConnInfo).release c .workerAndConnInfo = _
  rw [hfree, harg, hrelease e₄ _ rfl hsfd]
  rfl

theorem released_closed (w : ClosingWorker) (c d : Nat) (p : Part) :
    (w.closed c).objects.released (d, p) =
      if d = c then w.objects.released (d, p) + 1 else w.objects.released (d, p) := by
  simp only [closed, Ledger.released_release, Prod.mk.injEq]
  by_cases hd : d = c
  · cases p <;> simp [hd]
  · simp [hd]

theorem misused_closed (h : ∀ p, w.objects.alive (c, p) = true) :
    (w.closed c).objects.misused = w.objects.misused := by
  simp [closed, Ledger.misused_release, Ledger.alive_release, h]

theorem alive_closed {d : Nat} (hd : d ≠ c) :
    (w.closed c).objects.alive (d, p) = w.objects.alive (d, p) := by
  simp [closed, Ledger.alive_release, hd]

theorem conn_closed {d : Nat} (hc : c < w.conns.length) (hd : d ≠ c) :
    (w.closed c).conn d = w.conn d := by
  have hset := conn_setConn hc { w.conn c with pClientTcpEvent := none } d
  rw [if_neg hd] at hset
  exact hset

theorem good_closed (hw : Good w) (h : (nFd, c) ∈ w.m_connMap) : Good (w.closed c) := by
  obtain ⟨hc, rfl, hbev, halive⟩ := hw.opened nFd c h
  have hlen : (w.closed c).conns.length = w.conns.length := List.length_set
  have hother : ∀ fd d, (fd, d) ∈ eraseFd w.m_connMap (w.conn c).sfd → d ≠ c := by
    intro fd d hmem heq
    subst heq
    obtain ⟨hmem, hne⟩ := mem_eraseFd.mp hmem
    exact hne (hw.opened fd d hmem).2.1.symm
  refine ⟨?_, hw.ordered, keys_eraseFd hw.keys, ?_, ?_, ?_⟩
  · rw [misused_closed halive]
    exact hw.unmisused
  · intro fd d hmem
    have hd := hother fd d hmem
    obtain ⟨hlt, hsfd, hevent, hall⟩ := hw.opened fd d (mem_eraseFd.mp hmem).1
    rw [hlen, conn_closed hc hd]
    exact ⟨hlt, hsfd, hevent, fun p => by rw [alive_closed hd]; exact hall p⟩
  · intro d hd hnot p
    rw [released_closed]
    split
    · rename_i hdc
      rw [hdc, (Ledger.alive_iff.mp (halive p)).2]
    · rename_i hdc
      apply hw.shut d (hlen ▸ hd)
      intro fd hmem
      apply hnot fd
      refine mem_eraseFd.mpr ⟨hmem, ?_⟩
      intro heq
      subst heq
      have hfound := lookup_of_mem hw.keys hmem
      rw [lookup_of_mem hw.keys h] at hfound
      exact hdc (Option.some.inj hfound).symm
  · intro d hd p
    rw [hlen] at hd
    rw [released_closed, if_neg (by omega)]
    exact hw.fresh d hd p

theorem Good.open_iff (hw : Good w) (h : (nFd, c) ∈ w.m_connMap) : w.Open c := by
  obtain ⟨-, rfl, -, halive⟩ := hw.opened nFd c h
  exact ⟨hw.find.mpr h, fun p => (Ledger.alive_iff.mp (halive p)).2⟩

theorem Good.closed_of (hw : Good w) (hc : c < w.conns.length)
    (h : ∀ nFd, (nFd, c) ∉ w.m_connMap) : w.Closed c :=
  ⟨fun nFd hfind => h nFd (hw.find.mp hfind), hw.shut c hc h⟩

theorem Good.proper (hw : Good w) : Proper w := by
  refine ⟨hw.unmisused, hw.ordered, ?_⟩
  intro c hc
  by_cases h : ∃ nFd, (nFd, c) ∈ w.m_connMap
  · obtain ⟨nFd, h⟩ := h
    exact Or.inl (hw.open_iff h)
  · exact Or.inr (hw.closed_of hc fun nFd hmem => h ⟨nFd, hmem⟩)

theorem good_connect {sfd now : Int} (hw : Good w) (hfree : w.find sfd = none) :
    Good (w.InitNewConn sfd now) := by
  have hconn : ∀ d, d < w.conns.length → (w.InitNewConn sfd now).conn d = w.conn d := by
    intro d hd
    rw [conn, InitNewConn, List.getElem?_append_left hd]
    rfl
  have hnew : (w.InitNewConn sfd now).conn w.conns.length = ⟨sfd, some w.conns.length, now⟩ := by
    rw [conn, InitNewConn, List.getElem?_concat_length]
    rfl
  have hlen : (w.InitNewConn sfd now).conns.length = w.conns.length + 1 := List.length_append
  have hreleased : (w.InitNewConn sfd now).objects.released = w.objects.released := rfl
  have hcreated : ∀ d p, (w.InitNewConn sfd now).objects.created (d, p) =
      (decide (d = w.conns.length) || w.objects.created (d, p)) := by
    intro d p
    simp only [InitNewConn, Ledger.created_create, Prod.mk.injEq]
    by_cases hd : d = w.conns.length
    · cases p <;> simp [hd]
    · simp [hd]
  have hmap : (w.InitNewConn sfd now).m_connMap = insertFd w.m_connMap sfd w.conns.length := rfl
  refine ⟨hw.unmisused, hw.ordered, keys_insertFd hw.keys, ?_, ?_, ?_⟩
  · intro fd d hmem
    rw [hmap, mem_insertFd] at hmem
    rcases hmem with ⟨rfl, rfl⟩ | ⟨hmem, -⟩
    · rw [hnew]
      refine ⟨by omega, rfl, rfl, fun p => Ledger.alive_iff.mpr ⟨?_, ?_⟩⟩
      · simp [hcreated]
      · rw [hreleased]
        exact (hw.fresh _ (Nat.le_refl _) p).2
    · obtain ⟨hlt, hsfd, hevent, hall⟩ := hw.opened fd d hmem
      rw [hconn d hlt]
      refine ⟨by omega, hsfd, hevent, fun p => Ledger.alive_iff.mpr ?_⟩
      obtain ⟨hc, hr⟩ := Ledger.alive_iff.mp (hall p)
      exact ⟨by simp [hcreated, hc], hr⟩
  · intro d hd hnot p
    rw [hreleased]
    rw [hmap] at hnot
    by_cases hdn : d = w.conns.length
    · exact absurd (mem_insertFd.mpr (Or.inl ⟨rfl, hdn⟩)) (hnot sfd)
    · apply hw.shut d (by omega)
      intro fd hmem
      refine hnot fd (mem_insertFd.mpr (Or.inr ⟨hmem, ?_⟩))
      intro heq
      subst heq
      rw [hw.find.mpr hmem] at hfree
      cases hfree
  · intro d hd p
    obtain ⟨hc, hr⟩ := hw.fresh d (by omega) p
    rw [hcreated, hc, hreleased]
    exact ⟨by simp; omega, hr⟩

/-- The application's note that a connection is in use changes nothing else. -/
theorem good_keepalive (hw : Good w) (now : Int) :
    Good (w.setConn c { w.conn c with nLastKeepalive := now }) := by
  have hlen : (w.setConn c { w.conn c with nLastKeepalive := now }).conns.length =
      w.conns.length := List.length_set
  refine ⟨hw.unmisused, hw.ordered, hw.keys, ?_, ?_, ?_⟩
  · intro fd d hmem
    obtain ⟨hlt, hsfd, hevent, hall⟩ := hw.opened fd d hmem
    rw [hlen]
    refine ⟨hlt, ?_, ?_, hall⟩
    · by_cases hd : d = c
      · subst hd
        rw [conn_setConn hlt, if_pos rfl]
        exact hsfd
      · rw [conn, setConn, List.getElem?_set_ne (Ne.symm hd)]
        exact hsfd
    · by_cases hd : d = c
      · subst hd
        rw [conn_setConn hlt, if_pos rfl]
        exact hevent
      · rw [conn, setConn, List.getElem?_set_ne (Ne.symm hd)]
        exact hevent
  · intro d hd
    exact hw.shut d (hlen ▸ hd)
  · intro d hd
    exact hw.fresh d (hlen ▸ hd)

/-- A `bufferevent` that is alive belongs to an open connection. -/
theorem Good.registered (hw : Good w) (h : w.objects.alive (c, p) = true) :
    ∃ nFd, (nFd, c) ∈ w.m_connMap := by
  obtain ⟨hcreated, hnone⟩ := Ledger.alive_iff.mp h
  by_contra hnot
  by_cases hc : c < w.conns.length
  · rw [hw.shut c hc (fun nFd hmem => hnot ⟨nFd, hmem⟩) p] at hnone
    cases hnone
  · rw [(hw.fresh c (by omega) p).1] at hcreated
    cases hcreated

theorem eventCb_eq {event : UInt16} (hw : Good w) (hmem : (nFd, c) ∈ w.m_connMap)
    (hclear : w.Clear (.event c event script)) (hevent : event ≠ BEV_EVENT_CONNECTED) :
    w.ClientTcpEventCb script.run c event = w.closed c := by
  have hall := (hw.opened nFd c hmem).2.2.2
  have hsame : (if callsBack event then callback script.run w c else w) = w := by
    split
    · rename_i hcalls
      simp only [Clear, closesOnPurpose, hcalls, Bool.true_and] at hclear
      rw [callback_eq _ hall, run_quiet hclear]
    · rfl
  rw [ClientTcpEventCb, if_neg hevent, hsame, closeConn_eq hw hmem]

/-- A step that closes nothing on purpose. -/
theorem good_step {op : ClosingOp} {w' : ClosingWorker} (hw : Good w) (hclear : w.Clear op)
    (h : w.step op = some w') : Good w' := by
  cases op with
  | connect sfd now OnConnect =>
    simp only [step, Option.ite_none_right_eq_some, Option.some.injEq] at h
    obtain ⟨⟨-, hfree⟩, rfl⟩ := h
    have hgood : Good (w.InitNewConn sfd now) := good_connect hw hfree
    have hmem : (sfd, w.conns.length) ∈ (w.InitNewConn sfd now).m_connMap :=
      mem_insertFd.mpr (Or.inl ⟨rfl, rfl⟩)
    obtain ⟨-, -, -, halive⟩ := hgood.opened _ _ hmem
    rw [use_eq (halive _), use_eq (halive _), run_quiet hclear]
    exact hgood
  | event c event script =>
    simp only [step, Option.ite_none_right_eq_some, Option.some.injEq] at h
    obtain ⟨halive, rfl⟩ := h
    obtain ⟨nFd, hmem⟩ := hw.registered halive
    by_cases hevent : event = BEV_EVENT_CONNECTED
    · rw [ClientTcpEventCb, if_pos hevent]
      exact hw
    · rw [eventCb_eq hw hmem hclear hevent]
      exact good_closed hw hmem
  | traffic c script =>
    simp only [step, Option.ite_none_right_eq_some, Option.some.injEq] at h
    obtain ⟨halive, rfl⟩ := h
    obtain ⟨nFd, hmem⟩ := hw.registered halive
    rw [callback_eq _ (hw.opened nFd c hmem).2.2.2, run_quiet hclear]
    exact hw
  | keepalive c now =>
    simp only [step, Option.ite_none_right_eq_some, Option.some.injEq] at h
    obtain ⟨-, rfl⟩ := h
    exact good_keepalive hw now
  | CheckClientKeepalive nNow OnClose =>
    simp only [Clear, closesOnPurpose, Bool.not_eq_false', List.isEmpty_iff] at hclear
    simp only [step, hclear, sweep, Option.some.injEq] at h
    exact h ▸ hw

/-- An event that closes its connection closes it as a whole. -/
theorem closed_of_event {event : UInt16} {w' : ClosingWorker} (hw : Good w)
    (hclear : w.Clear (.event c event script)) (hevent : event ≠ BEV_EVENT_CONNECTED)
    (h : w.step (.event c event script) = some w') : w'.Closed c := by
  simp only [step, Option.ite_none_right_eq_some, Option.some.injEq] at h
  obtain ⟨halive, rfl⟩ := h
  obtain ⟨nFd, hmem⟩ := hw.registered halive
  obtain ⟨hc, hsfd, -, -⟩ := hw.opened nFd c hmem
  rw [eventCb_eq hw hmem hclear hevent]
  apply (good_closed hw hmem).closed_of
  · rw [show (w.closed c).conns.length = w.conns.length from List.length_set]
    exact hc
  · intro fd hleft
    obtain ⟨hbefore, hne⟩ := mem_eraseFd.mp hleft
    exact hne (hw.opened fd c hbefore).2.1.symm

end Quiet

section Later
variable {u v w : ClosingWorker} {c d : Nat} {p : Part} {call : ClosingWorker → ClosingWorker}

/-- The `CONN_INFO` has its `bufferevent`, or this has been released. -/
def Tied (w : ClosingWorker) (c : Nat) : Prop :=
  (w.conn c).pClientTcpEvent = some c ∨ 0 < w.objects.released (c, .bufferevent)

/-- What every piece of the code does at most: it uses and releases objects. -/
def Later (u v : ClosingWorker) : Prop := u.objects.Later v.objects ∧ ∀ c, u.Tied c → v.Tied c

theorem Later.refl (w : ClosingWorker) : Later w w := ⟨Ledger.Later.refl _, fun _ h => h⟩

theorem Later.trans (h : Later u v) (h' : Later v w) : Later u w :=
  ⟨h.1.trans h'.1, fun c hc => h'.2 c (h.2 c hc)⟩

theorem Later.misused (h : Later u v) (hm : u.objects.misused = true) :
    v.objects.misused = true := h.1.1 hm

/-- Where the connections stay as they are, only the objects count. -/
theorem later_objects (hconns : v.conns = u.conns) (h : u.objects.Later v.objects) : Later u v := by
  refine ⟨h, ?_⟩
  intro c hc
  have hconn : v.conn c = u.conn c := by rw [conn, hconns]; rfl
  rw [Tied, hconn]
  cases hc with
  | inl hc => exact Or.inl hc
  | inr hc => exact Or.inr (Nat.lt_of_lt_of_le hc (h.2 _))

theorem later_use : Later w (w.use c p) := later_objects rfl Ledger.later_use

theorem later_release : Later w (w.release c p) := later_objects rfl Ledger.later_release

theorem later_setConn {k : ClosingConn} (h : (w.setConn c k).Tied c ∨ ¬ w.Tied c) :
    Later w (w.setConn c k) := by
  refine ⟨Ledger.Later.refl _, ?_⟩
  intro d hd
  by_cases hdc : d = c
  · subst hdc
    exact h.resolve_right (not_not.mpr hd)
  · have hconn : (w.setConn c k).conn d = w.conn d := by
      rw [conn, setConn, List.getElem?_set_ne (Ne.symm hdc)]
      rfl
    rw [Tied, hconn]
    exact hd

/-- The `bufferevent` is released here, or has been before. -/
theorem later_freeEvent : Later w (w.freeEvent c c) := by
  rw [freeEvent]
  split
  · apply later_release.trans
    apply later_setConn
    refine Or.inl (Or.inr ?_)
    change 0 < (w.objects.release (c, .bufferevent)).released (c, .bufferevent)
    rw [Ledger.released_release, if_pos rfl]
    exact Nat.succ_pos _
  · rename_i hnot
    split
    · apply later_setConn
      by_cases htied : w.Tied c
      · exact Or.inl (Or.inr (htied.resolve_left hnot))
      · exact Or.inr htied
    · exact Later.refl w

theorem released_freeEvent (h : w.Tied c) :
    0 < (w.freeEvent c c).objects.released (c, .bufferevent) := by
  rw [freeEvent]
  split
  · change 0 < (w.objects.release (c, .bufferevent)).released (c, .bufferevent)
    rw [Ledger.released_release, if_pos rfl]
    exact Nat.succ_pos _
  · rename_i hnot
    have hreleased := h.resolve_left hnot
    split
    · exact hreleased
    · exact hreleased

theorem later_freeConn : Later w (w.freeConn c c) :=
  ((later_use.trans later_freeEvent).trans later_release).trans later_release

theorem later_erase {m : List (Int × Nat)} : Later w { w with m_connMap := m } :=
  later_objects rfl (Ledger.Later.refl _)

theorem later_CloseConn : Later w (w.CloseConn c c) :=
  ((((later_use.trans later_use).trans later_erase).trans later_freeConn).trans later_use).trans
    later_release

theorem released_freeConn (h : w.Tied c) :
    0 < (w.freeConn c c).objects.released (c, .bufferevent) := by
  have hused : Later w (w.use c .connInfo) := later_use
  have hfreed := released_freeEvent (hused.2 c h)
  exact Nat.lt_of_lt_of_le hfreed ((later_release.trans later_release).1.2 _)

theorem released_CloseConn (h : w.Tied c) :
    0 < (w.CloseConn c c).objects.released (c, .bufferevent) := by
  have hopened : Later w { (w.use c .workerAndConnInfo).use c .connInfo with
      m_connMap := eraseFd w.m_connMap (w.conn c).sfd } :=
    (later_use.trans later_use).trans later_erase
  have hfreed := released_freeConn (hopened.2 c h)
  exact Nat.lt_of_lt_of_le hfreed ((later_use.trans later_release).1.2 _)

theorem later_callback (hcall : ∀ u, Later u (call u)) : Later w (callback call w c) :=
  ((later_use.trans later_use).trans later_use).trans (hcall _)

theorem later_eventCb {event : UInt16} (hcall : ∀ u, Later u (call u)) :
    Later w (w.ClientTcpEventCb call c event) := by
  rw [ClientTcpEventCb]
  split
  · exact Later.refl w
  · apply Later.trans _ later_CloseConn
    split
    · exact later_callback hcall
    · exact Later.refl w

theorem later_errorCbCaller {event : UInt16} (hcall : ∀ u, Later u (call u)) :
    Later w (w.ClientTcpErrorCbCaller call c event) :=
  (later_use.trans (later_eventCb hcall)).trans later_use

/-- The `bufferevent` is used behind the event callback that has released it. -/
theorem misused_errorCbCaller {event : UInt16} (hcall : ∀ u, Later u (call u)) (h : w.Tied c)
    (hevent : event ≠ BEV_EVENT_CONNECTED) :
    (w.ClientTcpErrorCbCaller call c event).objects.misused = true := by
  have hreleased : 0 < ((w.use c .bufferevent).ClientTcpEventCb call c
      event).objects.released (c, .bufferevent) := by
    rw [ClientTcpEventCb, if_neg hevent]
    apply released_CloseConn
    split
    · exact (later_callback hcall).2 c (later_use.2 c h)
    · exact later_use.2 c h
  apply Ledger.misused_use
  simp [Ledger.alive, Nat.ne_of_gt hreleased]

theorem later_ForceCloseConn {nFd : Int} (hcall : ∀ u, Later u (call u)) :
    Later w (w.ForceCloseConn call nFd) := by
  rw [ForceCloseConn]
  split
  · exact later_use.trans (later_errorCbCaller hcall)
  · exact Later.refl w

/-- By induction on the callback, of which the ones it leads to are parts. -/
theorem later_run (script : Callback) : ∀ w, Later w (script.run w) := by
  induction script with
  | done => exact Later.refl
  | force nFd OnClose next hOnClose hnext =>
    intro w
    exact (later_ForceCloseConn hOnClose).trans (hnext _)

theorem later_sweep (OnClose : Nat → Callback) (es : List (Int × Nat)) :
    Later w (w.sweep OnClose es) := by
  induction es generalizing w with
  | nil => exact Later.refl w
  | cons e es ih => exact (later_use.trans (later_errorCbCaller (later_run _))).trans ih

end Later

section Exact
variable {w w' : ClosingWorker} {c : Nat} {nFd : Int} {script : Callback} {op : ClosingOp}

theorem Good.tied (hw : Good w) (h : (nFd, c) ∈ w.m_connMap) : w.Tied c :=
  Or.inl (hw.opened nFd c h).2.2.1

theorem misused_step (hm : w.objects.misused = true) (h : w.step op = some w') :
    w'.objects.misused = true := by
  cases op with
  | connect sfd now OnConnect =>
    simp only [step, Option.ite_none_right_eq_some, Option.some.injEq] at h
    obtain ⟨-, rfl⟩ := h
    have hconnected : (w.InitNewConn sfd now).objects.misused = true := hm
    exact (later_use.trans (later_use.trans (later_run _ _))).misused hconnected
  | event c event script =>
    simp only [step, Option.ite_none_right_eq_some, Option.some.injEq] at h
    obtain ⟨-, rfl⟩ := h
    exact (later_eventCb (later_run _)).misused hm
  | traffic c script =>
    simp only [step, Option.ite_none_right_eq_some, Option.some.injEq] at h
    obtain ⟨-, rfl⟩ := h
    exact (later_callback (later_run _)).misused hm
  | keepalive c now =>
    simp only [step, Option.ite_none_right_eq_some, Option.some.injEq] at h
    obtain ⟨-, rfl⟩ := h
    exact hm
  | CheckClientKeepalive nNow OnClose =>
    simp only [step, Option.some.injEq] at h
    exact h ▸ (later_sweep OnClose _).misused hm

/-- The first of the calls that finds its descriptor misuses a `bufferevent`. -/
theorem misused_run (hw : Good w) (h : script.finds w = true) :
    (script.run w).objects.misused = true := by
  induction script with
  | done => cases h
  | force nFd OnClose next _ ih =>
    rw [Callback.run]
    cases hfind : w.find nFd with
    | none =>
      have hsame : w.ForceCloseConn OnClose.run nFd = w := by rw [ForceCloseConn, hfind]
      rw [Callback.finds, hfind] at h
      rw [hsame]
      exact ih h
    | some c =>
      apply (later_run next _).misused
      rw [ForceCloseConn, hfind]
      exact misused_errorCbCaller (later_run OnClose) (later_use.2 c (hw.tied (hw.find.mp hfind)))
        (by decide)

/-- A step that closes a connection on purpose misuses its `bufferevent`. -/
theorem misused_of_purpose (hw : Good w) (hclear : ¬ w.Clear op) (h : w.step op = some w') :
    w'.objects.misused = true := by
  rw [Clear, Bool.not_eq_false] at hclear
  cases op with
  | connect sfd now OnConnect =>
    simp only [step, Option.ite_none_right_eq_some, Option.some.injEq] at h
    obtain ⟨⟨-, hfree⟩, rfl⟩ := h
    have hgood : Good (w.InitNewConn sfd now) := good_connect hw hfree
    obtain ⟨-, -, -, halive⟩ := hgood.opened _ _ (mem_insertFd.mpr (Or.inl ⟨rfl, rfl⟩))
    rw [use_eq (halive _), use_eq (halive _)]
    exact misused_run hgood hclear
  | event c event script =>
    simp only [step, Option.ite_none_right_eq_some, Option.some.injEq] at h
    obtain ⟨halive, rfl⟩ := h
    obtain ⟨nFd, hmem⟩ := hw.registered halive
    simp only [closesOnPurpose, Bool.and_eq_true] at hclear
    have hevent : event ≠ BEV_EVENT_CONNECTED := by
      intro heq
      subst heq
      exact absurd hclear.1 (by decide)
    rw [ClientTcpEventCb, if_neg hevent, if_pos hclear.1,
      callback_eq _ (hw.opened nFd c hmem).2.2.2]
    exact later_CloseConn.misused (misused_run hw hclear.2)
  | traffic c script =>
    simp only [step, Option.ite_none_right_eq_some, Option.some.injEq] at h
    obtain ⟨halive, rfl⟩ := h
    obtain ⟨nFd, hmem⟩ := hw.registered halive
    rw [callback_eq _ (hw.opened nFd c hmem).2.2.2]
    exact misused_run hw hclear
  | keepalive c now => cases hclear
  | CheckClientKeepalive nNow OnClose =>
    simp only [step, Option.some.injEq] at h
    subst h
    cases htimeout : w.mapTimeout nNow with
    | nil => simp [closesOnPurpose, htimeout] at hclear
    | cons e es =>
      have hmem : e ∈ w.mapTimeout nNow := htimeout ▸ List.mem_cons_self
      rw [mapTimeout, List.mem_insertionSort, List.mem_filter] at hmem
      apply (later_sweep OnClose es).misused
      exact misused_errorCbCaller (later_run _) (later_use.2 _ (hw.tied hmem.1)) (by decide)

theorem good_new (timeout : UInt32) : Good (new timeout) := by
  refine ⟨rfl, rfl, List.nodup_nil, ?_, ?_, ?_⟩
  · intro nFd c hmem
    cases hmem
  · intro c hc
    cases hc
  · intro c _ p
    exact ⟨rfl, rfl⟩

theorem good {ops : List ClosingOp} {timeout : UInt32} (h : Runs step Clear (new timeout) ops w) :
    Good w :=
  h.invariant Good (good_new timeout) fun _ _ _ hw hc hs => good_step hw hc hs

/-- A run closes connections by their own events only, or it has misused an object. -/
theorem clear_or_misused {ops : List ClosingOp} {timeout : UInt32}
    (h : Runs step (fun _ _ => True) (new timeout) ops w) :
    Runs step Clear (new timeout) ops w ∨ w.objects.misused = true := by
  induction h with
  | nil => exact Or.inl .nil
  | @snoc ops t u op _ _ hs ih =>
    cases ih with
    | inl ih =>
      by_cases hclear : t.Clear op
      · exact Or.inl (ih.snoc hclear hs)
      · exact Or.inr (misused_of_purpose (good ih) hclear hs)
    | inr ih => exact Or.inr (misused_step ih hs)

end Exact

/-- In every run the objects are released once and in order, and not used any more, exactly if
connections are closed by their own events only; and such an event closes its connection. -/
theorem connections_released_once {ops : List ClosingOp} {timeout : UInt32} {w : ClosingWorker}
    (h : Runs step (fun _ _ => True) (new timeout) ops w) :
    (Proper w ↔ Runs step Clear (new timeout) ops w) ∧
      (Proper w → ∀ c event callback w', w.Clear (.event c event callback) →
        event ≠ BEV_EVENT_CONNECTED → w.step (.event c event callback) = some w' →
          Proper w' ∧ w'.Closed c) := by
  have hiff : Proper w ↔ Runs step Clear (new timeout) ops w := by
    constructor
    · intro hproper
      refine (clear_or_misused h).resolve_right ?_
      rw [hproper.unmisused]
      exact Bool.false_ne_true
    · intro hclear
      exact (good hclear).proper
  refine ⟨hiff, ?_⟩
  intro hproper c event callback w' hclear hevent hs
  have hgood := good (hiff.mp hproper)
  exact ⟨(good_step hgood hclear hs).proper, closed_of_event hgood hclear hevent hs⟩

/-- Two connections, of which the callback of the first one asks in vain for a descriptor. -/
def eofOps : List ClosingOp :=
  [.connect 5 0 .done, .connect 6 0 .done, .traffic 0 (.force 9 .done .done),
    .event 0 (BEV_EVENT_EOF ||| 1) (.force 9 .done .done)]

theorem connections_released_once_eof : ∃ w,
    Runs step (fun _ _ => True) (new 150) eofOps w ∧ Proper w ∧ w.m_connMap = [(6, 1)] := by
  have hexec : ((exec step Clear (new 150) eofOps).any fun w =>
      decide (w.m_connMap = [(6, 1)])) = true := by decide
  obtain ⟨w, hw, hcheck⟩ := exists_of_exec hexec
  have hrun : Runs step (fun _ _ => True) (new 150) eofOps w := hw.mono fun _ _ _ => trivial
  exact ⟨w, hrun, (connections_released_once hrun).1.mpr hw, of_decide_eq_true hcheck⟩

/-- The callback of a connection closes the other one, whose `bufferevent` is used afterwards. -/
theorem forced_close_misuses : ∃ w,
    Runs step (fun _ _ => True) (new 150)
      [.connect 5 0 .done, .connect 6 0 .done, .traffic 0 (.force 6 .done .done)] w ∧
      w.objects.misused = true ∧ ¬ Proper w := by
  have hexec : ((exec step (fun _ _ => True) (new 150)
      [.connect 5 0 .done, .connect 6 0 .done, .traffic 0 (.force 6 .done .done)]).any fun w =>
        w.objects.misused) = true := by decide
  obtain ⟨w, hw, hmisused⟩ := exists_of_exec hexec
  refine ⟨w, hw, hmisused, ?_⟩
  intro hproper
  rw [hproper.unmisused] at hmisused
  cases hmisused

end ClosingWorker

end CppPrivate.Tcp
