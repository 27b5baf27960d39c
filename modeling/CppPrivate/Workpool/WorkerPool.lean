import CppPrivate.Workpool.Counting

/-! The worker pool: a worker takes one task after the other, executes it, and calls
`TaskCompleteStatus` if this has been set when the pool was started. -/
namespace CppPrivate.Workpool
open CppPrivate.Monitor CppPrivate.Run

/-- How far a worker has come in `Handle`, and whether its task has failed. -/
inductive Phase where
  | idle
  | popped (t : Task)
  | executed (t : Task) (failed : Bool)
  | uncounted (failed : Bool)
  | called (failed : Bool)
deriving DecidableEq

/-- The task has failed, and this has not been counted. -/
def Phase.failing : Phase → Nat
  | .executed _ true | .uncounted true | .called true => 1
  | _ => 0

structure PoolWorker where
  phase : Phase
  /-- `m_taskCompleteStatusFunc` has been set. -/
  wired : Bool
deriving DecidableEq

instance : Station PoolWorker where
  taken x := match x.phase with
    | .popped t => [t]
    | _ => []
  running x := match x.phase with
    | .executed t _ => [t]
    | _ => []

structure PoolState where
  nTaskFailedCount : UInt32
  /-- `m_TaskComleteCallback` has been set. -/
  hasCallback : Bool
  /-- How often the callback has been called. -/
  callbacks : Nat
  /-- How many tasks have been executed with `TaskStatusFailed` since the last reset. -/
  failed : Nat
  /-- How many failures had not been counted at the last reset. -/
  pending : Nat
deriving DecidableEq

abbrev WorkerPool : Type := Manager PoolWorker PoolState

inductive WorkerPoolOp where
  | add (op : AddOp)
  | pop (i : Nat)
  | Execute (i : Nat) (failed : Bool)
  | uncount (i : Nat)
  | callback (i : Nat)
  | complete (i : Nat)
  | skip (i : Nat)
  | ResetTaskFailedCount
  | EnableMaxTaskCount
deriving DecidableEq

namespace WorkerPool

def DefaultWorkerMaxTaskCount : UInt32 := 1000

/-- The constructor and `Init`, with the threads that will call the pool. -/
def new (nWorkerCnt : UInt32) (threads : Nat) : WorkerPool where
  nWorkerCount := nWorkerCnt
  nWorkerIndex := 0
  isEnableMaxTaskCount := false
  nWorkerMaxTaskCount := DefaultWorkerMaxTaskCount
  nTaskCount := 0
  vecWorker := []
  taskHashFunc := none
  mutex := none
  producers := List.replicate threads .idle
  own := ⟨0, false, 0, 0, 0⟩
  called := 0
  returned := []
  completed := 0

def EnableMaxTaskCount (m : WorkerPool) : WorkerPool := { m with isEnableMaxTaskCount := true }

def SetWorkerMaxTaskCount (m : WorkerPool) (nCount : UInt32) : WorkerPool :=
  { m with nWorkerMaxTaskCount := nCount }

def SetTaskHashFunc (m : WorkerPool) (func : Option TaskHashFunc) : WorkerPool :=
  { m with taskHashFunc := func }

def SetTaskCompleteCallback (m : WorkerPool) (callback : Bool) : WorkerPool :=
  { m with own := { m.own with hasCallback := callback } }

def Start (m : WorkerPool) : WorkerPool :=
  { m with vecWorker := m.vecWorker ++
      List.replicate m.nWorkerCount.toNat ⟨[], [], [], ⟨.idle, m.isEnableMaxTaskCount⟩⟩ }

def started (nWorkerCnt max : UInt32) (enabled callback : Bool) (hash : Option TaskHashFunc)
    (threads : Nat) : WorkerPool :=
  let m := (((new nWorkerCnt threads).SetWorkerMaxTaskCount max).SetTaskHashFunc
    hash).SetTaskCompleteCallback callback
  (if enabled then m.EnableMaxTaskCount else m).Start

def setPhase (m : WorkerPool) (i : Nat) (w : Worker PoolWorker) (phase : Phase) : WorkerPool :=
  m.setWorker i { w with state := { w.state with phase } }

def stepWorker (m : WorkerPool) (i : Nat) (w : Worker PoolWorker) :
    WorkerPoolOp → Option WorkerPool
  | .pop _ =>
    match w.queue, w.state.phase with
    | t :: queue, .idle => some (m.setPhase i { w with queue } (.popped t))
    | _, _ => none
  | .Execute _ failed =>
    match w.state.phase with
    | .popped t =>
      some { m.setPhase i { w with executed := w.executed ++ [t] } (.executed t failed) with
        own := { m.own with failed := if failed then m.own.failed + 1 else m.own.failed } }
    | _ => none
  | .uncount _ =>
    match w.state.phase, w.state.wired with
    | .executed _ failed, true =>
      some { m.setPhase i w (.uncounted failed) with
        nTaskCount := m.nTaskCount - 1, completed := m.completed + 1 }
    | _, _ => none
  | .callback _ =>
    match w.state.phase with
    | .uncounted failed =>
      some { m.setPhase i w (.called failed) with
        own := { m.own with callbacks := if m.own.hasCallback then m.own.callbacks + 1
          else m.own.callbacks } }
    | _ => none
  | .complete _ =>
    match w.state.phase with
    | .called failed =>
      some { m.setPhase i w .idle with
        own := { m.own with nTaskFailedCount := if failed then m.own.nTaskFailedCount + 1
          else m.own.nTaskFailedCount } }
    | _ => none
  | .skip _ =>
    match w.state.phase, w.state.wired with
    | .executed _ _, false => some (m.setPhase i w .idle)
    | _, _ => none
  | _ => none

def tally (m : WorkerPool) (f : Phase → Nat) : Nat := total (fun w => f w.state.phase) m.vecWorker

def ResetTaskFailedCount (m : WorkerPool) : WorkerPool :=
  { m with own := { m.own with nTaskFailedCount := 0, failed := 0, pending := m.tally Phase.failing } }

def step (m : WorkerPool) (op : WorkerPoolOp) : Option WorkerPool :=
  match op with
  | .add op => m.stepAdd .pushFirst op
  | .pop i | .Execute i _ | .uncount i | .callback i | .complete i | .skip i =>
    m.vecWorker[i]?.bind fun w => m.stepWorker i w op
  | .ResetTaskFailedCount => some m.ResetTaskFailedCount
  | .EnableMaxTaskCount => some m.EnableMaxTaskCount

inductive Stepped (m : WorkerPool) : WorkerPoolOp → WorkerPool → Prop
  | add {a : AddOp} {m' : WorkerPool} : Manager.AddStep m .pushFirst a m' → Stepped m (.add a) m'
  | pop {i : Nat} {t : Task} {queue pushed executed : List Task} {wired : Bool} :
      m.vecWorker[i]? = some ⟨t :: queue, pushed, executed, ⟨.idle, wired⟩⟩ →
      Stepped m (.pop i) (m.setWorker i ⟨queue, pushed, executed, ⟨.popped t, wired⟩⟩)
  | Execute {i : Nat} {t : Task} {queue pushed executed : List Task} {wired failed : Bool} :
      m.vecWorker[i]? = some ⟨queue, pushed, executed, ⟨.popped t, wired⟩⟩ →
      Stepped m (.Execute i failed)
        { m.setWorker i ⟨queue, pushed, executed ++ [t], ⟨.executed t failed, wired⟩⟩ with
          own := { m.own with failed := if failed then m.own.failed + 1 else m.own.failed } }
  | uncount {i : Nat} {t : Task} {queue pushed executed : List Task} {failed : Bool} :
      m.vecWorker[i]? = some ⟨queue, pushed, executed, ⟨.executed t failed, true⟩⟩ →
      Stepped m (.uncount i)
        { m.setWorker i ⟨queue, pushed, executed, ⟨.uncounted failed, true⟩⟩ with
          nTaskCount := m.nTaskCount - 1, completed := m.completed + 1 }
  | callback {i : Nat} {queue pushed executed : List Task} {wired failed : Bool} :
      m.vecWorker[i]? = some ⟨queue, pushed, executed, ⟨.uncounted failed, wired⟩⟩ →
      Stepped m (.callback i)
        { m.setWorker i ⟨queue, pushed, executed, ⟨.called failed, wired⟩⟩ with
          own := { m.own with callbacks := if m.own.hasCallback then m.own.callbacks + 1
            else m.own.callbacks } }
  | complete {i : Nat} {queue pushed executed : List Task} {wired failed : Bool} :
      m.vecWorker[i]? = some ⟨queue, pushed, executed, ⟨.called failed, wired⟩⟩ →
      Stepped m (.complete i)
        { m.setWorker i ⟨queue, pushed, executed, ⟨.idle, wired⟩⟩ with
          own := { m.own with nTaskFailedCount := if failed then m.own.nTaskFailedCount + 1
            else m.own.nTaskFailedCount } }
  | skip {i : Nat} {t : Task} {queue pushed executed : List Task} {failed : Bool} :
      m.vecWorker[i]? = some ⟨queue, pushed, executed, ⟨.executed t failed, false⟩⟩ →
      Stepped m (.skip i) (m.setWorker i ⟨queue, pushed, executed, ⟨.idle, false⟩⟩)
  | ResetTaskFailedCount : Stepped m .ResetTaskFailedCount m.ResetTaskFailedCount
  | EnableMaxTaskCount : Stepped m .EnableMaxTaskCount m.EnableMaxTaskCount

section Step
variable {m m' : WorkerPool} {op : WorkerPoolOp}

theorem stepped_of_step (h : m.step op = some m') : Stepped m op m' := by
  cases op with
  | add a => exact .add (Manager.addStep_of_stepAdd h)
  | pop i =>
    obtain ⟨⟨queue, pushed, executed, phase, wired⟩, hw, h⟩ := Option.bind_eq_some_iff.mp h
    simp only [stepWorker] at h
    split at h
    · obtain rfl := Option.some.inj h
      exact .pop hw
    · cases h
  | Execute i failed =>
    obtain ⟨⟨queue, pushed, executed, phase, wired⟩, hw, h⟩ := Option.bind_eq_some_iff.mp h
    simp only [stepWorker] at h
    split at h
    · rename_i t
      obtain rfl := Option.some.inj h
      exact .Execute hw
    · cases h
  | uncount i =>
    obtain ⟨⟨queue, pushed, executed, phase, wired⟩, hw, h⟩ := Option.bind_eq_some_iff.mp h
    simp only [stepWorker] at h
    split at h
    · rename_i t failed _ hwired
      obtain rfl := Option.some.inj h
      exact .uncount hw
    · cases h
  | callback i =>
    obtain ⟨⟨queue, pushed, executed, phase, wired⟩, hw, h⟩ := Option.bind_eq_some_iff.mp h
    simp only [stepWorker] at h
    split at h
    · obtain rfl := Option.some.inj h
      exact .callback hw
    · cases h
  | complete i =>
    obtain ⟨⟨queue, pushed, executed, phase, wired⟩, hw, h⟩ := Option.bind_eq_some_iff.mp h
    simp only [stepWorker] at h
    split at h
    · obtain rfl := Option.some.inj h
      exact .complete hw
    · cases h
  | skip i =>
    obtain ⟨⟨queue, pushed, executed, phase, wired⟩, hw, h⟩ := Option.bind_eq_some_iff.mp h
    simp only [stepWorker] at h
    split at h
    · obtain rfl := Option.some.inj h
      exact .skip hw
    · cases h
  | ResetTaskFailedCount =>
    obtain rfl := Option.some.inj h
    exact .ResetTaskFailedCount
  | EnableMaxTaskCount =>
    obtain rfl := Option.some.inj h
    exact .EnableMaxTaskCount

/-- A step is one of a producer, one of a worker, or a store of the pool's own. -/
inductive Kind (m : WorkerPool) : WorkerPoolOp → WorkerPool → Prop
  | add {a : AddOp} {m' : WorkerPool} : Manager.AddStep m .pushFirst a m' → Kind m (.add a) m'
  | quiet {op : WorkerPoolOp} {m' : WorkerPool} : Manager.Serve m .quiet m' → Kind m op m'
  | complete {i : Nat} {w : Worker PoolWorker} {t : Task} {failed : Bool} {m' : WorkerPool} :
      m.vecWorker[i]? = some w → w.state.phase = .executed t failed →
      Manager.Serve m (.complete t) m' → Kind m (.uncount i) m'
  | skip {i : Nat} {w : Worker PoolWorker} {m' : WorkerPool} : m.vecWorker[i]? = some w →
      w.state.wired = false → Manager.Serve m .forget m' → Kind m (.skip i) m'
  | store {op : WorkerPoolOp} {own : PoolState} {enabled : Bool} :
      Kind m op { m with own, isEnableMaxTaskCount := enabled }

theorem kind_of_step (h : m.step op = some m') : Kind m op m' := by
  cases stepped_of_step h with
  | add h => exact .add h
  | pop hw => exact .quiet (.move hw (.pop rfl rfl rfl) (by simp))
  | Execute hw => exact .quiet (.move hw (.execute rfl rfl rfl) (by simp))
  | uncount hw => exact .complete hw rfl (.complete hw (.complete rfl rfl))
  | callback hw => exact .quiet (.move hw (.keep rfl rfl) (by simp))
  | complete hw => exact .quiet (.move hw (.keep rfl rfl) (by simp))
  | skip hw => exact .skip hw rfl (.move hw (.forget rfl (Nat.zero_le _)) (by simp))
  | ResetTaskFailedCount => exact .store
  | EnableMaxTaskCount => exact .store

open Manager in
theorem sound_step (hm : Sound .pushFirst m) (h : m.step op = some m') : Sound .pushFirst m' := by
  cases kind_of_step h with
  | add h => exact sound_add hm h
  | quiet h => exact sound_serve hm h
  | complete _ _ h => exact sound_serve hm h
  | skip _ _ h => exact sound_serve hm h
  | store =>
    refine ⟨hm.locked, hm.called, hm.tallied, ⟨hm.served.order, hm.served.completed⟩, ?_⟩
    intro ho
    cases ho

/-- The callback of every worker is as `Start` has set it. -/
def Wired (b : Bool) (m : WorkerPool) : Prop := ∀ w ∈ m.vecWorker, w.state.wired = b

theorem Wired.set {b : Bool} {i : Nat} {w : Worker PoolWorker} (v : Worker PoolWorker)
    (hm : Wired b m) (hw : m.vecWorker[i]? = some w) (hv : v.state.wired = w.state.wired) :
    ∀ u ∈ m.vecWorker.set i v, u.state.wired = b := by
  intro u hu
  cases List.mem_or_eq_of_mem_set hu with
  | inl hu => exact hm u hu
  | inr hu => rw [hu, hv]; exact hm w (List.mem_of_getElem? hw)

theorem wired_step {b : Bool} (hm : Wired b m) (h : m.step op = some m') : Wired b m' := by
  cases stepped_of_step h with
  | add h =>
    cases h with
    | push _ hw => exact hm.set _ hw rfl
    | AddTask => exact hm
    | lock => exact hm
    | full => exact hm
    | check => exact hm
    | pass => exact hm
    | wake => exact hm
    | count => exact hm
    | leave => exact hm
  | pop hw => exact hm.set _ hw rfl
  | Execute hw => exact hm.set _ hw rfl
  | uncount hw => exact hm.set _ hw rfl
  | callback hw => exact hm.set _ hw rfl
  | complete hw => exact hm.set _ hw rfl
  | skip hw => exact hm.set _ hw rfl
  | ResetTaskFailedCount => exact hm
  | EnableMaxTaskCount => exact hm

end Step

section Run
variable {n max : UInt32} {enabled callback : Bool} {hash : Option TaskHashFunc} {threads : Nat}

theorem started_workers {w : Worker PoolWorker}
    (h : w ∈ (started n max enabled callback hash threads).vecWorker) :
    w = ⟨[], [], [], ⟨.idle, enabled⟩⟩ := by
  cases enabled with
  | true => exact List.eq_of_mem_replicate h
  | false => exact List.eq_of_mem_replicate h

theorem fresh_started : Manager.Fresh (started n max enabled callback hash threads) := by
  refine ⟨?_, ?_, ?_, ?_, ?_, ?_⟩
  · cases enabled <;> rfl
  · cases enabled <;> rfl
  · intro x hx
    cases enabled <;> exact List.eq_of_mem_replicate hx
  · intro w hw
    rw [started_workers hw]
    exact ⟨rfl, rfl, rfl, rfl, rfl⟩
  · cases enabled <;> rfl
  · cases enabled <;> rfl

theorem wired {C : WorkerPool → WorkerPoolOp → Prop} {m : WorkerPool} {ops : List WorkerPoolOp}
    (h : Runs step C (started n max enabled callback hash threads) ops m) : Wired enabled m := by
  apply h.invariant (Wired enabled)
  · intro w hw
    rw [started_workers hw]
  · intro m op m' hm _ hs
    exact wired_step hm hs

theorem sound {C : WorkerPool → WorkerPoolOp → Prop} {m : WorkerPool} {ops : List WorkerPoolOp}
    (h : Runs step C (started n max enabled callback hash threads) ops m) :
    Manager.Sound .pushFirst m := by
  apply h.invariant (Manager.Sound .pushFirst)
  · apply Manager.sound_fresh fresh_started
    intro ho
    cases ho
  · intro m op m' hm _ hs
    exact sound_step hm hs

end Run

end WorkerPool

end CppPrivate.Workpool
