import CppPrivate.Lib.Lifetimes
import CppPrivate.Lib.Run

/-! Setting up the master and destroying it. The setup can end after any of its steps; the acceptor
is given the `event_base` of the master, and the destructor frees it on behalf of both. -/
namespace CppPrivate.Tcp
open Run

/-- What the master and its parts create, or take for created: `wild` is what a pointer or a
descriptor leads to that has never been set, or is `NULL`. -/
inductive MasterObj where
  | eventBase
  | listenSocket
  | timer
  | timerBase
  | worker (i : Nat)
  | workerBase (i : Nat)
  | notifyPipe (i : Nat)
  | keepalivePipe (i : Nat)
  | timerEvent (i : Nat)
  | wild
deriving DecidableEq

/-- An `event_base`, a worker or a timer. -/
def MasterObj.counts : MasterObj → Bool
  | .eventBase | .timer | .timerBase | .worker _ | .workerBase _ => true
  | _ => false

/-- A worker under setup; its pipes are not initialised by its constructor. -/
structure SetupWorker where
  m_pBase : Option MasterObj
  m_pipeNotify : MasterObj
  m_pipeCheckClientKeepalive : MasterObj
deriving DecidableEq

def SetupWorker.new : SetupWorker := ⟨none, .wild, .wild⟩

/-- The next step of `InitMasterThread`, in the functions it calls. -/
inductive InitPc where
  | version
  | signal
  | base
  | param  -- `new AcceptorCbParam()`
  | assign  -- `m_pEventBase = pBase` in `CAcceptor::Init`
  | listen
  | listenEvent
  | listenAdd
  | timer
  | timerSetup
  | worker (i : Nat)
  | workerBase (i : Nat)
  | notifyPipe (i : Nat)
  | keepalivePipe (i : Nat)
  | addEvent (i : Nat)
  | start
  | returned
deriving DecidableEq

/-- The master; `pEventBase` is the member of its acceptor, and `timerBase` that of its timer. -/
structure SetupMaster where
  m_isCheckKeepalive : Bool
  nWorkerCount : Int
  m_pEventBase : Option MasterObj
  pEventBase : Option MasterObj
  m_listenSocket : Option MasterObj
  m_pEventTimer : Option MasterObj
  timerBase : Option MasterObj
  m_vecTimerParam : List MasterObj
  m_vecWorker : List SetupWorker
  objects : Ledger MasterObj
  pc : InitPc

/-- How a step ends. A `SetupPipe` may fail after it has opened its pipe. -/
structure Answer where
  ok : Bool
  opened : Bool
deriving DecidableEq

namespace SetupMaster

/-- The constructor leaves `m_pEventTimer` as it is found in memory: `NULL`, or anything else. -/
def new (null m_isCheckKeepalive : Bool) (nWorkerCount : Int) : SetupMaster :=
  ⟨m_isCheckKeepalive, nWorkerCount, none, none, none, if null then none else some .wild, none, [],
    [], .empty, .version⟩

def goto (m : SetupMaster) (pc : InitPc) : SetupMaster := { m with pc }

/-- The step is followed by the next one, or `InitMasterThread` returns. -/
def proceed (m : SetupMaster) (ok : Bool) (pc : InitPc) : SetupMaster :=
  m.goto (if ok then pc else .returned)

def create (m : SetupMaster) (o : MasterObj) : SetupMaster := { m with objects := m.objects.create o }

def nThreadCount (m : SetupMaster) : Nat := if m.nWorkerCount < 1 then 1 else m.nWorkerCount.toNat

def setWorker (m : SetupMaster) (i : Nat) (f : SetupWorker → SetupWorker) : SetupMaster :=
  { m with m_vecWorker := m.m_vecWorker.modify i f }

def SetupPipe (m : SetupMaster) (a : Answer) (i : Nat) (pipe : MasterObj)
    (set : SetupWorker → SetupWorker) : SetupMaster :=
  if a.opened then (m.setWorker i set).create pipe else m

/-- `m_pEventTimer->AddEvent(…)`; without an event, `evtimer_add` is called for `NULL`. -/
def AddEvent (m : SetupMaster) (ok : Bool) (i : Nat) : SetupMaster :=
  let objects := m.objects.use .timer
  if ok then
    { m with
      m_vecTimerParam := m.m_vecTimerParam ++ [.timerEvent i]
      objects := objects.create (.timerEvent i) }
  else { m with m_vecTimerParam := m.m_vecTimerParam ++ [.wild], objects := objects.use .wild }

/-- `InitMasterThread`, a step at a time. -/
def step (m : SetupMaster) (a : Answer) : Option SetupMaster :=
  match m.pc with
  | .version => some (m.proceed a.ok .signal)
  | .signal => some (m.proceed a.ok .base)
  | .base =>
    if a.ok then
      some (({ m with m_pEventBase := some .eventBase }.create .eventBase).goto .param)
    else some (m.goto .returned)
  | .param => some (m.proceed a.ok .assign)
  | .assign => some ({ m with pEventBase := m.m_pEventBase }.goto .listen)
  | .listen =>
    if a.ok then
      some (({ m with m_listenSocket := some .listenSocket }.create .listenSocket).goto .listenEvent)
    else some (m.goto .returned)
  | .listenEvent | .listenAdd =>
    if a.ok then
      some (m.goto (if m.pc = .listenEvent then .listenAdd
        else if m.m_isCheckKeepalive then .timer else .worker 0))
    else some ({ m with objects := m.objects.release .listenSocket }.goto .returned)
  | .timer =>
    if a.ok then
      some (({ m with m_pEventTimer := some .timer, timerBase := some .wild }.create .timer).goto
        .timerSetup)
    else some (m.goto .returned)
  | .timerSetup =>
    if a.ok then
      some (({ m with timerBase := some .timerBase }.create .timerBase).goto (.worker 0))
    else some ({ m with timerBase := none }.goto (.worker 0))
  | .worker i =>
    if i < m.nThreadCount then
      if a.ok then
        some (({ m with m_vecWorker := m.m_vecWorker ++ [SetupWorker.new] }.create
          (.worker i)).goto (.workerBase i))
      else some (m.goto .returned)
    else some (m.goto .start)
  | .workerBase i =>
    if a.ok then
      some (((m.setWorker i fun w => { w with m_pBase := some (.workerBase i) }).create
        (.workerBase i)).goto (.notifyPipe i))
    else some (m.goto .returned)
  | .notifyPipe i =>
    some ((m.SetupPipe a i (.notifyPipe i) fun w =>
        { w with m_pipeNotify := .notifyPipe i }).proceed (a.opened && a.ok)
      (if m.m_isCheckKeepalive then .keepalivePipe i else .worker (i + 1)))
  | .keepalivePipe i =>
    some ((m.SetupPipe a i (.keepalivePipe i) fun w =>
        { w with m_pipeCheckClientKeepalive := .keepalivePipe i }).proceed (a.opened && a.ok)
      (.addEvent i))
  | .addEvent i => some ((m.AddEvent a.ok i).goto (.worker (i + 1)))
  | .start => some (m.goto .returned)
  | .returned => none

section Fields
variable (m : SetupMaster) (pc : InitPc) (o : MasterObj) (i : Nat) (f : SetupWorker → SetupWorker)
  (a : Answer)

@[simp] theorem pEventBase_goto : (m.goto pc).pEventBase = m.pEventBase := rfl
@[simp] theorem m_pEventBase_goto : (m.goto pc).m_pEventBase = m.m_pEventBase := rfl
@[simp] theorem pEventBase_proceed (ok : Bool) : (m.proceed ok pc).pEventBase = m.pEventBase := rfl
@[simp] theorem m_pEventBase_proceed (ok : Bool) :
    (m.proceed ok pc).m_pEventBase = m.m_pEventBase := rfl
@[simp] theorem pEventBase_create : (m.create o).pEventBase = m.pEventBase := rfl
@[simp] theorem m_pEventBase_create : (m.create o).m_pEventBase = m.m_pEventBase := rfl
@[simp] theorem pEventBase_setWorker : (m.setWorker i f).pEventBase = m.pEventBase := rfl
@[simp] theorem m_pEventBase_setWorker : (m.setWorker i f).m_pEventBase = m.m_pEventBase := rfl

@[simp] theorem pEventBase_SetupPipe : (m.SetupPipe a i o f).pEventBase = m.pEventBase := by
  unfold SetupPipe
  split <;> simp

@[simp] theorem m_pEventBase_SetupPipe : (m.SetupPipe a i o f).m_pEventBase = m.m_pEventBase := by
  unfold SetupPipe
  split <;> simp

@[simp] theorem pEventBase_AddEvent (ok : Bool) : (m.AddEvent ok i).pEventBase = m.pEventBase := by
  unfold AddEvent
  split <;> rfl

@[simp] theorem m_pEventBase_AddEvent (ok : Bool) :
    (m.AddEvent ok i).m_pEventBase = m.m_pEventBase := by
  unfold AddEvent
  split <;> rfl

end Fields

/-- `if (p) { free(p); p = NULL; }`. -/
def free (l : Ledger MasterObj) : Option MasterObj → Ledger MasterObj
  | some o => l.release o
  | none => l

/-- `delete pWorker`, with its number. -/
def deleteWorker (l : Ledger MasterObj) (e : SetupWorker × Nat) : Ledger MasterObj :=
  let l := free (l.use (.worker e.2)) e.1.m_pBase
  let l := (l.release e.1.m_pipeNotify).release e.1.m_pipeCheckClientKeepalive
  l.release (.worker e.2)

/-- `delete m_pEventTimer`. -/
def deleteTimer (l : Ledger MasterObj) (timerBase : Option MasterObj) (params : List MasterObj) :
    Option MasterObj → Ledger MasterObj
  | some o => (params.foldl Ledger.release (free (l.use o) timerBase)).release o
  | none => l

def Destroy (m : SetupMaster) : Ledger MasterObj :=
  let l := free (free m.objects m.pEventBase) m.m_listenSocket
  let l := m.m_vecWorker.zipIdx.foldl deleteWorker l
  deleteTimer (free l m.m_pEventBase) m.timerBase m.m_vecTimerParam m.m_pEventTimer

/-- Every `event_base`, worker and timer has been freed once, and nothing else. -/
def DestroysRight (m : SetupMaster) : Prop :=
  m.Destroy.misused = false ∧
    ∀ o, o.counts = true → m.Destroy.released o = if m.Destroy.created o then 1 else 0

section Destroy
variable {m m' : SetupMaster} {l : Ledger MasterObj} {o : MasterObj}

theorem later_free (p : Option MasterObj) : l.Later (free l p) := by
  cases p with
  | none => exact Ledger.Later.refl l
  | some o => exact Ledger.later_release

theorem later_deleteWorker (e : SetupWorker × Nat) : l.Later (deleteWorker l e) :=
  (((Ledger.later_use.trans (later_free _)).trans Ledger.later_release).trans
    Ledger.later_release).trans Ledger.later_release

theorem later_deleteWorkers (es : List (SetupWorker × Nat)) :
    l.Later (es.foldl deleteWorker l) := by
  induction es generalizing l with
  | nil => exact Ledger.Later.refl l
  | cons e es ih => exact (later_deleteWorker e).trans ih

theorem later_releases (os : List MasterObj) : l.Later (os.foldl Ledger.release l) := by
  induction os generalizing l with
  | nil => exact Ledger.Later.refl l
  | cons o os ih => exact Ledger.later_release.trans ih

theorem later_deleteTimer (base : Option MasterObj) (params : List MasterObj)
    (timer : Option MasterObj) : l.Later (deleteTimer l base params timer) := by
  cases timer with
  | none => exact Ledger.Later.refl l
  | some o =>
    exact ((Ledger.later_use.trans (later_free _)).trans (later_releases params)).trans
      Ledger.later_release

/-- A timer that is not there is used before it is freed. -/
theorem misused_deleteTimer {base : Option MasterObj} {params : List MasterObj}
    (h : l.alive o = false) : (deleteTimer l base params (some o)).misused = true := by
  have hlater : (l.use o).Later (deleteTimer l base params (some o)) :=
    ((later_free base).trans (later_releases params)).trans Ledger.later_release
  exact hlater.1 (Ledger.misused_use h)

/-- What has been freed once is freed again. -/
theorem misused_free (h : 0 < l.released o) : (free l (some o)).misused = true := by
  have hdead : l.alive o = false := by simp [Ledger.alive, Nat.ne_of_gt h]
  simp [free, Ledger.misused_release, hdead]

/-- What the acceptor and the master both have is freed twice. -/
theorem misused_shared (hacceptor : m.pEventBase = some o) (hmaster : m.m_pEventBase = some o) :
    m.Destroy.misused = true := by
  have hfreed : 0 < (free m.objects (some o)).released o := by
    rw [free, Ledger.released_release, if_pos rfl]
    exact Nat.succ_pos _
  have hkept : (free m.objects (some o)).Later
      (m.m_vecWorker.zipIdx.foldl deleteWorker
        (free (free m.objects (some o)) m.m_listenSocket)) :=
    (later_free m.m_listenSocket).trans (later_deleteWorkers m.m_vecWorker.zipIdx)
  have htwice := misused_free (Nat.lt_of_lt_of_le hfreed (hkept.2 o))
  rw [Destroy, hacceptor, hmaster]
  exact (later_deleteTimer m.timerBase m.m_vecTimerParam m.m_pEventTimer).1 htwice

end Destroy

/-- The acceptor has taken the base of the master. -/
def Shared (m : SetupMaster) : Prop :=
  m.pEventBase = some .eventBase ∧ m.m_pEventBase = some .eventBase

/-- Before that the base, if there is one, is all that has been created. -/
structure Unshared (null : Bool) (m : SetupMaster) : Prop where
  acceptor : m.pEventBase = none
  socket : m.m_listenSocket = none
  timer : m.m_pEventTimer = if null then none else some .wild
  workers : m.m_vecWorker = []
  base : (m.m_pEventBase = none ∧ m.objects = .empty ∧
      m.pc ∈ [InitPc.version, .signal, .base, .returned]) ∨
    (m.m_pEventBase = some .eventBase ∧ m.objects = Ledger.empty.create .eventBase ∧
      m.pc ∈ [InitPc.param, .assign, .returned])

section Setup
variable {m m' : SetupMaster} {a : Answer} {null m_isCheckKeepalive : Bool} {nWorkerCount : Int}

theorem unshared_new : (new null m_isCheckKeepalive nWorkerCount).Unshared null where
  acceptor := rfl
  socket := rfl
  timer := rfl
  workers := rfl
  base := Or.inl ⟨rfl, rfl, List.mem_cons_self⟩

/-- Which steps set the two pointers to the base. -/
theorem bases_step (hs : m.step a = some m') :
    (m'.pEventBase = m.pEventBase ∧ m'.m_pEventBase = m.m_pEventBase) ∨
      (m'.pEventBase = m.pEventBase ∧ m'.m_pEventBase = some .eventBase) ∨
        m'.pEventBase = m.m_pEventBase ∧ m'.m_pEventBase = m.m_pEventBase := by
  revert hs
  fun_cases step m a
  all_goals
    intro hs
    cases hs <;> simp

theorem shared_step (h : m.Shared) (hs : m.step a = some m') : m'.Shared := by
  obtain ⟨hacceptor, hmaster⟩ := h
  cases bases_step hs with
  | inl hkept => exact ⟨hkept.1.trans hacceptor, hkept.2.trans hmaster⟩
  | inr hset =>
    cases hset with
    | inl hnew => exact ⟨hnew.1.trans hacceptor, hnew.2⟩
    | inr htaken => exact ⟨htaken.1.trans hmaster, htaken.2.trans hmaster⟩

theorem Unshared.proceed {pc : InitPc} {ok : Bool} (h : m.Unshared null)
    (hbase : (m.m_pEventBase = none ∧ m.objects = .empty ∧
        pc ∈ [InitPc.version, .signal, .base, .returned]) ∨
      (m.m_pEventBase = some .eventBase ∧ m.objects = Ledger.empty.create .eventBase ∧
        pc ∈ [InitPc.param, .assign, .returned])) : (m.proceed ok pc).Unshared null := by
  refine ⟨h.acceptor, h.socket, h.timer, h.workers, ?_⟩
  cases ok with
  | true => exact hbase
  | false =>
    cases hbase with
    | inl hbefore => exact Or.inl ⟨hbefore.1, hbefore.2.1, by simp [SetupMaster.proceed, goto]⟩
    | inr hafter => exact Or.inr ⟨hafter.1, hafter.2.1, by simp [SetupMaster.proceed, goto]⟩

/-- Up to `assign` the setup creates the base and nothing else. -/
theorem unshared_step (h : m.Unshared null) (hs : m.step a = some m') :
    m'.Unshared null ∨ m'.Shared := by
  cases h.base with
  | inl hbefore =>
    obtain ⟨hnone, hempty, hpc⟩ := hbefore
    left
    simp only [List.mem_cons, List.not_mem_nil, or_false] at hpc
    rcases hpc with hpc | hpc | hpc | hpc
    · simp only [step, hpc, Option.some.injEq] at hs
      exact hs ▸ h.proceed (Or.inl ⟨hnone, hempty, by simp⟩)
    · simp only [step, hpc, Option.some.injEq] at hs
      exact hs ▸ h.proceed (Or.inl ⟨hnone, hempty, by simp⟩)
    · simp only [step, hpc] at hs
      split at hs
      · cases hs
        exact ⟨h.acceptor, h.socket, h.timer, h.workers,
          Or.inr ⟨rfl, by rw [← hempty]; rfl, by simp [goto]⟩⟩
      · cases hs
        exact ⟨h.acceptor, h.socket, h.timer, h.workers, Or.inl ⟨hnone, hempty, by simp [goto]⟩⟩
    · simp [step, hpc] at hs
  | inr hafter =>
    obtain ⟨hsome, hcreated, hpc⟩ := hafter
    simp only [List.mem_cons, List.not_mem_nil, or_false] at hpc
    rcases hpc with hpc | hpc | hpc
    · simp only [step, hpc, Option.some.injEq] at hs
      exact Or.inl (hs ▸ h.proceed (Or.inr ⟨hsome, hcreated, by simp⟩))
    · simp only [step, hpc, Option.some.injEq] at hs
      exact Or.inr (hs ▸ ⟨hsome, hsome⟩)
    · simp [step, hpc] at hs

theorem Unshared.destroy_eq (h : m.Unshared null) : m.Destroy =
    deleteTimer (free m.objects m.m_pEventBase) m.timerBase m.m_vecTimerParam
      (if null then none else some .wild) := by
  rw [Destroy, h.acceptor, h.socket, h.timer, h.workers]
  rfl

theorem Unshared.wild (h : m.Unshared null) :
    (free m.objects m.m_pEventBase).alive .wild = false := by
  cases h.base with
  | inl hbefore =>
    rw [hbefore.1, hbefore.2.1]
    rfl
  | inr hafter =>
    rw [hafter.1, hafter.2.1]
    rfl

/-- Before the base is shared it is all that there is to free. -/
theorem Unshared.destroysRight (h : m.Unshared null) : m.DestroysRight ↔ null = true := by
  cases null with
  | false =>
    have hmisused : m.Destroy.misused = true := by
      rw [h.destroy_eq]
      exact misused_deleteTimer h.wild
    simp [DestroysRight, hmisused]
  | true =>
    rw [DestroysRight, h.destroy_eq]
    cases h.base with
    | inl hbefore =>
      rw [hbefore.1, hbefore.2.1]
      simp [deleteTimer, free, Ledger.empty]
    | inr hafter =>
      rw [hafter.1, hafter.2.1]
      refine iff_of_true ⟨rfl, ?_⟩ rfl
      intro o _
      simp [deleteTimer, free, Ledger.released_release, Ledger.created_create, Ledger.empty]

/-- However far the setup has come, the destructor frees what has been created, each thing once,
exactly if the acceptor does not have the base yet and `m_pEventTimer` was found to be `NULL`. -/
theorem destroysRight_iff {answers : List Answer}
    (h : Runs step (fun _ _ => True) (new null m_isCheckKeepalive nWorkerCount) answers m) :
    m.DestroysRight ↔ m.pEventBase = none ∧ null = true := by
  have hreached : m.Unshared null ∨ m.Shared := by
    refine h.invariant (fun m => m.Unshared null ∨ m.Shared) (Or.inl unshared_new) ?_
    intro t a u ht _ hs
    cases ht with
    | inl hunshared => exact unshared_step hunshared hs
    | inr hshared => exact Or.inr (shared_step hshared hs)
  cases hreached with
  | inl hunshared => simp [hunshared.destroysRight, hunshared.acceptor]
  | inr hshared =>
    have hmisused := misused_shared hshared.1 hshared.2
    simp [DestroysRight, hmisused, hshared.1]

/-- The base has been created, and memory runs out at `new AcceptorCbParam()`. -/
theorem destroysRight_param : ∃ m, Runs step (fun _ _ => True) (new true true 2)
    [⟨true, true⟩, ⟨true, true⟩, ⟨true, true⟩, ⟨false, true⟩] m ∧
      m.m_pEventBase = some .eventBase ∧ m.DestroysRight := by
  have hrun : ∃ m, Runs step (fun _ _ => True) (new true true 2)
      [⟨true, true⟩, ⟨true, true⟩, ⟨true, true⟩, ⟨false, true⟩] m ∧
        (m.m_pEventBase == some .eventBase && m.pEventBase == none) = true :=
    exists_of_exec (by decide)
  obtain ⟨m, hm, hp⟩ := hrun
  simp only [Bool.and_eq_true, beq_iff_eq] at hp
  exact ⟨m, hm, hp.1, (destroysRight_iff hm).mpr ⟨hp.2, rfl⟩⟩

/-- `InitMasterThread` with one worker goes through; the destructor frees the base twice. -/
theorem base_freed_twice : ∃ answers m, Runs step (fun _ _ => True) (new true true 1) answers m ∧
    m.pc = .returned ∧ m.Destroy.released .eventBase = 2 ∧ ¬m.DestroysRight := by
  have hrun : ∃ m, Runs step (fun _ _ => True) (new true true 1)
      (List.replicate 17 ⟨true, true⟩) m ∧
        (m.pc == .returned && m.Destroy.released .eventBase == 2 && m.Destroy.misused) = true :=
    exists_of_exec (by decide)
  obtain ⟨m, hm, hp⟩ := hrun
  simp only [Bool.and_eq_true, beq_iff_eq] at hp
  refine ⟨_, m, hm, hp.1.1, hp.1.2, ?_⟩
  intro hright
  rw [DestroysRight, hp.2] at hright
  cases hright.1

end Setup

end SetupMaster

end CppPrivate.Tcp
