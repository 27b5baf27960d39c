import CppPrivate.Lib.Machine
import CppPrivate.Lib.Run

/-! The wait group manager: producers add tasks to the queues of the workers, workers execute
them, and a thread waits for a counter to fall to zero. Every access to a counter or a queue is a
step of its own. -/
namespace CppPrivate.Public

/-- How far a producer has come in `AddTask`, and the task it adds. -/
inductive Producer where
  | idle
  | called (t : Nat)
  | waiting (t worker : Nat)
  | selected (t worker : Nat)
  | checked (t worker : Nat)
  | pushed (t : Nat)
  | counted (t : Nat)
  | added (t : Nat)
deriving DecidableEq

/-- How far a worker has come in `Handle`, and whether its task has failed. -/
inductive Phase where
  | idle
  | popped (t : Nat)
  | executed (t : Nat) (failed : Bool)
  | uncounted (t : Nat) (failed : Bool)
  | done (failed : Bool)
deriving DecidableEq

structure Worker where
  queue : List Nat
  phase : Phase
deriving DecidableEq

/-- The manager with its workers, its wait group and the threads that call it. A task is known by
the number of the call of `AddTask` that brings it. -/
structure WaitGroupWorkerMgr (τ : Type*) where
  nWorkerCount : UInt32
  nWorkerIndex : UInt32
  isEnableMaxTaskCount : Bool
  nWorkerMaxTaskCount : UInt32
  nTaskCount : UInt32
  nTaskFailedCount : UInt32
  vecWorker : List Worker
  mutex : Option τ
  /-- The counter of the wait group. -/
  nCounter : Int
  producers : τ → Producer
  /-- In a call of `Wait`, the tasks whose `AddTask` had returned before it. -/
  waiter : Option (List Nat)
  /-- What has happened to the tasks so far. -/
  called : Nat
  added : List Nat
  returned : List Nat
  finished : List (Nat × Bool)
  done : List Nat

inductive WaitGroupOp (τ : Type*) where
  | AddTask (p : τ)
  | lock (p : τ)
  | check (p : τ)
  | wake (p : τ)
  | push (p : τ)
  | count (p : τ)
  | Add (p : τ)
  | leave (p : τ)
  | pop (i : Nat)
  | Execute (i : Nat) (failed : Bool)
  | uncount (i : Nat)
  | Done (i : Nat)
  | complete (i : Nat)
  | Wait
  | waited
  | ResetTaskFailedCount
  | ResetTaskCount
  | Reset
deriving DecidableEq

namespace WaitGroupWorkerMgr
variable {τ : Type*} [DecidableEq τ]

/-- A manager after `Init` with `n` workers and `Start`. -/
def new (n : UInt32) (isEnableMaxTaskCount : Bool) (nWorkerMaxTaskCount : UInt32) :
    WaitGroupWorkerMgr τ where
  nWorkerCount := n
  nWorkerIndex := 0
  isEnableMaxTaskCount
  nWorkerMaxTaskCount
  nTaskCount := 0
  nTaskFailedCount := 0
  vecWorker := List.replicate n.toNat ⟨[], .idle⟩
  mutex := none
  nCounter := 0
  producers := fun _ => .idle
  waiter := none
  called := 0
  added := []
  returned := []
  finished := []
  done := []

def setProducer (m : WaitGroupWorkerMgr τ) (p : τ) (x : Producer) : WaitGroupWorkerMgr τ :=
  { m with producers := Function.update m.producers p x }

def setWorker (m : WaitGroupWorkerMgr τ) (i : Nat) (w : Worker) : WaitGroupWorkerMgr τ :=
  { m with vecWorker := m.vecWorker.set i w }

def nextIndex (m : WaitGroupWorkerMgr τ) : UInt32 :=
  if m.nWorkerIndex + 1 ≥ m.nWorkerCount then 0 else m.nWorkerIndex + 1

/-- The producer has to wait until there are fewer tasks. -/
def isFull (m : WaitGroupWorkerMgr τ) : Bool :=
  m.isEnableMaxTaskCount && decide (m.nTaskCount > m.nWorkerMaxTaskCount * m.nWorkerCount)

/-- The steps of `AddTask`. While it waits for the queues it gives the mutex back. -/
def stepProducer (m : WaitGroupWorkerMgr τ) : WaitGroupOp τ → Option (WaitGroupWorkerMgr τ)
  | .AddTask p =>
    match m.producers p with
    | .idle => some { m.setProducer p (.called m.called) with called := m.called + 1 }
    | _ => none
  | .lock p =>
    match m.producers p, m.mutex with
    | .called t, none =>
      -- beyond the last worker the access is out of bounds
      if m.nextIndex.toNat < m.vecWorker.length then
        some { m.setProducer p (.selected t m.nextIndex.toNat) with
          nWorkerIndex := m.nextIndex, mutex := some p }
      else none
    | _, _ => none
  | .check p =>
    match m.producers p with
    | .selected t i =>
      if m.isFull then some { m.setProducer p (.waiting t i) with mutex := none }
      else some (m.setProducer p (.checked t i))
    | _ => none
  | .wake p =>
    match m.producers p, m.mutex with
    | .waiting t i, none => some { m.setProducer p (.selected t i) with mutex := some p }
    | _, _ => none
  | .push p =>
    match m.producers p with
    | .checked t i =>
      m.vecWorker[i]?.map fun w =>
        (m.setProducer p (.pushed t)).setWorker i { w with queue := w.queue ++ [t] }
    | _ => none
  | .count p =>
    match m.producers p with
    | .pushed t => some { m.setProducer p (.counted t) with nTaskCount := m.nTaskCount + 1 }
    | _ => none
  | .Add p =>
    match m.producers p with
    | .counted t =>
      some { m.setProducer p (.added t) with
        nCounter := cInt (m.nCounter + 1), added := m.added ++ [t] }
    | _ => none
  | .leave p =>
    match m.producers p with
    | .added t =>
      some { m.setProducer p .idle with mutex := none, returned := m.returned ++ [t] }
    | _ => none
  | _ => none

/-- The steps of `Handle`, down to the end of `TaskCompleteStatus`. -/
def stepWorker (m : WaitGroupWorkerMgr τ) : WaitGroupOp τ → Option (WaitGroupWorkerMgr τ)
  | .pop i =>
    match m.vecWorker[i]? with
    | some ⟨t :: queue, .idle⟩ => some (m.setWorker i ⟨queue, .popped t⟩)
    | _ => none
  | .Execute i failed =>
    match m.vecWorker[i]? with
    | some ⟨queue, .popped t⟩ =>
      some { m.setWorker i ⟨queue, .executed t failed⟩ with
        finished := m.finished ++ [(t, failed)] }
    | _ => none
  | .uncount i =>
    match m.vecWorker[i]? with
    | some ⟨queue, .executed t failed⟩ =>
      some { m.setWorker i ⟨queue, .uncounted t failed⟩ with nTaskCount := m.nTaskCount - 1 }
    | _ => none
  | .Done i =>
    match m.vecWorker[i]? with
    | some ⟨queue, .uncounted t failed⟩ =>
      some { m.setWorker i ⟨queue, .done failed⟩ with
        nCounter := cInt (m.nCounter - 1), done := m.done ++ [t] }
    | _ => none
  | .complete i =>
    match m.vecWorker[i]? with
    | some ⟨queue, .done failed⟩ =>
      some { m.setWorker i ⟨queue, .idle⟩ with
        nTaskFailedCount := if failed then m.nTaskFailedCount + 1 else m.nTaskFailedCount }
    | _ => none
  | _ => none

/-- The steps of the thread that waits, and the stores of `Reset`. -/
def stepWaiter (m : WaitGroupWorkerMgr τ) : WaitGroupOp τ → Option (WaitGroupWorkerMgr τ)
  | .Wait => if m.waiter = none then some { m with waiter := some m.returned } else none
  | .waited => if m.waiter ≠ none ∧ m.nCounter ≤ 0 then some { m with waiter := none } else none
  | .ResetTaskFailedCount => some { m with nTaskFailedCount := 0 }
  | .ResetTaskCount => some { m with nTaskCount := 0 }
  | .Reset => some { m with nCounter := 0 }
  | _ => none

def step (m : WaitGroupWorkerMgr τ) (op : WaitGroupOp τ) : Option (WaitGroupWorkerMgr τ) :=
  match op with
  | .AddTask _ | .lock _ | .check _ | .wake _ | .push _ | .count _ | .Add _ | .leave _ =>
    m.stepProducer op
  | .pop _ | .Execute _ _ | .uncount _ | .Done _ | .complete _ => m.stepWorker op
  | .Wait | .waited | .ResetTaskFailedCount | .ResetTaskCount | .Reset => m.stepWaiter op

inductive Stepped (m : WaitGroupWorkerMgr τ) : WaitGroupOp τ → WaitGroupWorkerMgr τ → Prop
  | AddTask {p : τ} : m.producers p = .idle →
      Stepped m (.AddTask p) { m.setProducer p (.called m.called) with called := m.called + 1 }
  | lock {p : τ} {t : Nat} : m.producers p = .called t → m.mutex = none →
      Stepped m (.lock p) { m.setProducer p (.selected t m.nextIndex.toNat) with
        nWorkerIndex := m.nextIndex, mutex := some p }
  | full {p : τ} {t i : Nat} : m.producers p = .selected t i →
      Stepped m (.check p) { m.setProducer p (.waiting t i) with mutex := none }
  | check {p : τ} {t i : Nat} : m.producers p = .selected t i →
      Stepped m (.check p) (m.setProducer p (.checked t i))
  | wake {p : τ} {t i : Nat} : m.producers p = .waiting t i → m.mutex = none →
      Stepped m (.wake p) { m.setProducer p (.selected t i) with mutex := some p }
  | push {p : τ} {t i : Nat} {w : Worker} : m.producers p = .checked t i →
      m.vecWorker[i]? = some w → Stepped m (.push p)
        ((m.setProducer p (.pushed t)).setWorker i { w with queue := w.queue ++ [t] })
  | count {p : τ} {t : Nat} : m.producers p = .pushed t →
      Stepped m (.count p) { m.setProducer p (.counted t) with nTaskCount := m.nTaskCount + 1 }
  | Add {p : τ} {t : Nat} : m.producers p = .counted t →
      Stepped m (.Add p) { m.setProducer p (.added t) with
        nCounter := cInt (m.nCounter + 1), added := m.added ++ [t] }
  | leave {p : τ} {t : Nat} : m.producers p = .added t →
      Stepped m (.leave p) { m.setProducer p .idle with
        mutex := none, returned := m.returned ++ [t] }
  | pop {i t : Nat} {queue : List Nat} : m.vecWorker[i]? = some ⟨t :: queue, .idle⟩ →
      Stepped m (.pop i) (m.setWorker i ⟨queue, .popped t⟩)
  | Execute {i t : Nat} {queue : List Nat} {failed : Bool} :
      m.vecWorker[i]? = some ⟨queue, .popped t⟩ →
      Stepped m (.Execute i failed) { m.setWorker i ⟨queue, .executed t failed⟩ with
        finished := m.finished ++ [(t, failed)] }
  | uncount {i t : Nat} {queue : List Nat} {failed : Bool} :
      m.vecWorker[i]? = some ⟨queue, .executed t failed⟩ →
      Stepped m (.uncount i) { m.setWorker i ⟨queue, .uncounted t failed⟩ with
        nTaskCount := m.nTaskCount - 1 }
  | Done {i t : Nat} {queue : List Nat} {failed : Bool} :
      m.vecWorker[i]? = some ⟨queue, .uncounted t failed⟩ →
      Stepped m (.Done i) { m.setWorker i ⟨queue, .done failed⟩ with
        nCounter := cInt (m.nCounter - 1), done := m.done ++ [t] }
  | complete {i : Nat} {queue : List Nat} {failed : Bool} :
      m.vecWorker[i]? = some ⟨queue, .done failed⟩ →
      Stepped m (.complete i) { m.setWorker i ⟨queue, .idle⟩ with
        nTaskFailedCount := if failed then m.nTaskFailedCount + 1 else m.nTaskFailedCount }
  | Wait : m.waiter = none → Stepped m .Wait { m with waiter := some m.returned }
  | waited {l : List Nat} : m.waiter = some l → m.nCounter ≤ 0 →
      Stepped m .waited { m with waiter := none }
  | ResetTaskFailedCount : Stepped m .ResetTaskFailedCount { m with nTaskFailedCount := 0 }
  | ResetTaskCount : Stepped m .ResetTaskCount { m with nTaskCount := 0 }
  | Reset : Stepped m .Reset { m with nCounter := 0 }

theorem stepped_of_step {m m' : WaitGroupWorkerMgr τ} {op : WaitGroupOp τ}
    (h : m.step op = some m') : Stepped m op m' := by
  cases op with
  | AddTask p =>
    simp only [step, stepProducer] at h
    split at h
    · rename_i hp
      obtain rfl := Option.some.inj h
      exact .AddTask hp
    · cases h
  | lock p =>
    simp only [step, stepProducer] at h
    split at h
    · rename_i t hp hm
      split at h
      · obtain rfl := Option.some.inj h
        exact .lock hp hm
      · cases h
    · cases h
  | check p =>
    simp only [step, stepProducer] at h
    split at h
    · rename_i t i hp
      split at h
      · obtain rfl := Option.some.inj h
        exact .full hp
      · obtain rfl := Option.some.inj h
        exact .check hp
    · cases h
  | wake p =>
    simp only [step, stepProducer] at h
    split at h
    · rename_i t i hp hm
      obtain rfl := Option.some.inj h
      exact .wake hp hm
    · cases h
  | push p =>
    simp only [step, stepProducer] at h
    split at h
    · rename_i t i hp
      obtain ⟨w, hw, rfl⟩ := Option.map_eq_some_iff.mp h
      exact .push hp hw
    · cases h
  | count p =>
    simp only [step, stepProducer] at h
    split at h
    · rename_i t hp
      obtain rfl := Option.some.inj h
      exact .count hp
    · cases h
  | Add p =>
    simp only [step, stepProducer] at h
    split at h
    · rename_i t hp
      obtain rfl := Option.some.inj h
      exact .Add hp
    · cases h
  | leave p =>
    simp only [step, stepProducer] at h
    split at h
    · rename_i t hp
      obtain rfl := Option.some.inj h
      exact .leave hp
    · cases h
  | pop i =>
    simp only [step, stepWorker] at h
    split at h
    · rename_i t queue hw
      obtain rfl := Option.some.inj h
      exact .pop hw
    · cases h
  | Execute i failed =>
    simp only [step, stepWorker] at h
    split at h
    · rename_i queue t hw
      obtain rfl := Option.some.inj h
      exact .Execute hw
    · cases h
  | uncount i =>
    simp only [step, stepWorker] at h
    split at h
    · rename_i queue t failed hw
      obtain rfl := Option.some.inj h
      exact .uncount hw
    · cases h
  | Done i =>
    simp only [step, stepWorker] at h
    split at h
    · rename_i queue t failed hw
      obtain rfl := Option.some.inj h
      exact .Done hw
    · cases h
  | complete i =>
    simp only [step, stepWorker] at h
    split at h
    · rename_i queue failed hw
      obtain rfl := Option.some.inj h
      exact .complete hw
    · cases h
  | Wait =>
    simp only [step, stepWaiter] at h
    split at h
    · rename_i hw
      obtain rfl := Option.some.inj h
      exact .Wait hw
    · cases h
  | waited =>
    simp only [step, stepWaiter] at h
    split at h
    · rename_i hw
      obtain ⟨l, hl⟩ := Option.ne_none_iff_exists'.mp hw.1
      obtain rfl := Option.some.inj h
      exact .waited hl hw.2
    · cases h
  | ResetTaskFailedCount =>
    obtain rfl := Option.some.inj h
    exact .ResetTaskFailedCount
  | ResetTaskCount =>
    obtain rfl := Option.some.inj h
    exact .ResetTaskCount
  | Reset =>
    obtain rfl := Option.some.inj h
    exact .Reset

end WaitGroupWorkerMgr

end CppPrivate.Public
