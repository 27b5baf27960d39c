import CppPrivate.Lib.Monitor
import CppPrivate.Lib.Run

/-! What the managers of the worker pool have in common: their workers with their queues, and
`AddTask`, which picks a worker, waits for the limit, and pushes and counts the task. -/
namespace CppPrivate.Workpool
open CppPrivate.Monitor

/-- A task, known by the number of the call of `AddTask` that brings it, and the key of the call. -/
structure Task where
  id : Nat
  key : Option (List UInt8)
deriving DecidableEq

/-- How far a producer has come in `AddTask`, with its task and the index of the worker. -/
inductive Producer where
  | idle
  | called (t : Task)
  | selected (t : Task) (i : Nat)
  | waiting (t : Task) (i : Nat)
  | checked (t : Task) (i : Nat)
  | pushed (t : Task) (i : Nat)
  | counted (t : Task) (i : Nat)
deriving DecidableEq

/-- A worker, with the tasks that have been pushed to it and executed by it so far. -/
structure Worker (α : Type*) where
  queue : List Task
  pushed : List Task
  executed : List Task
  state : α
deriving DecidableEq

abbrev TaskHashFunc : Type := List UInt8 → Int32 → Option Int32

/-- A manager with its workers of state `α`, the threads that call it, and what else it keeps. -/
structure Manager (α ε : Type*) where
  nWorkerCount : UInt32
  nWorkerIndex : UInt32
  isEnableMaxTaskCount : Bool
  nWorkerMaxTaskCount : UInt32
  nTaskCount : UInt32
  vecWorker : List (Worker α)
  taskHashFunc : Option TaskHashFunc
  mutex : Option Nat
  producers : List Producer
  own : ε
  /-- How many calls of `AddTask` have begun. -/
  called : Nat
  /-- The tasks whose `AddTask` has returned. -/
  returned : List Task
  /-- How many completion callbacks have lowered the count. -/
  completed : Nat

/-- Whether `AddTask` pushes the task before it counts it, or after. -/
inductive Order where
  | pushFirst
  | countFirst
deriving DecidableEq

/-- Where a producer stands when it is to push its task, to count it, and to return. -/
def Order.toPush (o : Order) (t : Task) (i : Nat) : Producer :=
  match o with
  | .pushFirst => .checked t i
  | .countFirst => .counted t i

def Order.toCount (o : Order) (t : Task) (i : Nat) : Producer :=
  match o with
  | .pushFirst => .pushed t i
  | .countFirst => .checked t i

def Order.toLeave (o : Order) (t : Task) (i : Nat) : Producer :=
  match o with
  | .pushFirst => .counted t i
  | .countFirst => .pushed t i

inductive AddOp where
  | AddTask (p : Nat) (key : Option (List UInt8))
  | lock (p : Nat)
  | check (p : Nat)
  | wake (p : Nat)
  | push (p : Nat)
  | count (p : Nat)
  | leave (p : Nat)
deriving DecidableEq

namespace Manager
variable {α ε : Type*}

def setProducer (m : Manager α ε) (p : Nat) (x : Producer) : Manager α ε :=
  { m with producers := m.producers.set p x }

def setWorker (m : Manager α ε) (i : Nat) (w : Worker α) : Manager α ε :=
  { m with vecWorker := m.vecWorker.set i w }

def GetTaskCount (m : Manager α ε) : UInt32 := m.nTaskCount

def nextIndex (m : Manager α ε) : UInt32 :=
  if m.nWorkerIndex + 1 ≥ m.nWorkerCount then 0 else m.nWorkerIndex + 1

/-- The index of the worker for a task, and the index of the last worker served in turn. -/
def select (m : Manager α ε) (t : Task) : Option (UInt32 × UInt32) :=
  match t.key, m.taskHashFunc with
  | some key, some hash =>
    (hash key m.nWorkerCount.toInt32).map fun pos =>
      (if pos.toUInt32 ≥ m.nWorkerCount then 0 else pos.toUInt32, m.nWorkerIndex)
  | _, _ => some (m.nextIndex, m.nextIndex)

def isFull (m : Manager α ε) : Bool :=
  decide (m.nTaskCount > m.nWorkerMaxTaskCount * m.nWorkerCount)

/-- The steps of `AddTask`. While it waits for the limit it gives the mutex back. -/
def stepAdd (m : Manager α ε) (o : Order) : AddOp → Option (Manager α ε)
  | .AddTask p key =>
    match m.producers[p]? with
    | some .idle => some { m.setProducer p (.called ⟨m.called, key⟩) with called := m.called + 1 }
    | _ => none
  | .lock p =>
    match m.producers[p]?, m.mutex with
    | some (.called t), none =>
      (m.select t).bind fun r =>
        -- beyond the last worker the access is out of bounds
        if r.1.toNat < m.vecWorker.length then
          some { m.setProducer p (.selected t r.1.toNat) with nWorkerIndex := r.2, mutex := some p }
        else none
    | _, _ => none
  | .check p =>
    match m.producers[p]? with
    | some (.selected t i) =>
      if m.isEnableMaxTaskCount then
        if m.isFull then some { m.setProducer p (.waiting t i) with mutex := none }
        else some (m.setProducer p (.checked t i))
      else
        match o with
        | .pushFirst => some (m.setProducer p (.checked t i))
        | .countFirst => some (m.setProducer p (.counted t i))
    | _ => none
  | .wake p =>
    match m.producers[p]?, m.mutex with
    | some (.waiting t i), none => some { m.setProducer p (.selected t i) with mutex := some p }
    | _, _ => none
  | .push p =>
    match m.producers[p]?, o with
    | some (.checked t i), .pushFirst | some (.counted t i), .countFirst =>
      m.vecWorker[i]?.map fun w => (m.setProducer p (.pushed t i)).setWorker i
        { w with queue := w.queue ++ [t], pushed := w.pushed ++ [t] }
    | _, _ => none
  | .count p =>
    match m.producers[p]?, o with
    | some (.pushed t i), .pushFirst | some (.checked t i), .countFirst =>
      some { m.setProducer p (.counted t i) with nTaskCount := m.nTaskCount + 1 }
    | _, _ => none
  | .leave p =>
    match m.producers[p]?, o with
    | some (.counted t _), .pushFirst | some (.pushed t _), .countFirst =>
      some { m.setProducer p .idle with mutex := none, returned := m.returned ++ [t] }
    | _, _ => none

inductive AddStep (m : Manager α ε) (o : Order) : AddOp → Manager α ε → Prop
  | AddTask {p : Nat} {key : Option (List UInt8)} : m.producers[p]? = some .idle →
      AddStep m o (.AddTask p key)
        { m.setProducer p (.called ⟨m.called, key⟩) with called := m.called + 1 }
  | lock {p : Nat} {t : Task} {r : UInt32 × UInt32} : m.producers[p]? = some (.called t) →
      m.mutex = none → m.select t = some r → r.1.toNat < m.vecWorker.length →
      AddStep m o (.lock p)
        { m.setProducer p (.selected t r.1.toNat) with nWorkerIndex := r.2, mutex := some p }
  | full {p i : Nat} {t : Task} : m.producers[p]? = some (.selected t i) →
      m.isEnableMaxTaskCount = true → m.isFull = true →
      AddStep m o (.check p) { m.setProducer p (.waiting t i) with mutex := none }
  | check {p i : Nat} {t : Task} : m.producers[p]? = some (.selected t i) →
      (m.isEnableMaxTaskCount = true → m.isFull = false) →
      m.isEnableMaxTaskCount = true ∨ o = .pushFirst →
      AddStep m o (.check p) (m.setProducer p (.checked t i))
  | pass {p i : Nat} {t : Task} : m.producers[p]? = some (.selected t i) →
      m.isEnableMaxTaskCount = false → o = .countFirst →
      AddStep m o (.check p) (m.setProducer p (.counted t i))
  | wake {p i : Nat} {t : Task} : m.producers[p]? = some (.waiting t i) → m.mutex = none →
      AddStep m o (.wake p) { m.setProducer p (.selected t i) with mutex := some p }
  | push {p i : Nat} {t : Task} {w : Worker α} : m.producers[p]? = some (o.toPush t i) →
      m.vecWorker[i]? = some w →
      AddStep m o (.push p) ((m.setProducer p (.pushed t i)).setWorker i
        { w with queue := w.queue ++ [t], pushed := w.pushed ++ [t] })
  | count {p i : Nat} {t : Task} : m.producers[p]? = some (o.toCount t i) →
      AddStep m o (.count p)
        { m.setProducer p (.counted t i) with nTaskCount := m.nTaskCount + 1 }
  | leave {p i : Nat} {t : Task} : m.producers[p]? = some (o.toLeave t i) →
      AddStep m o (.leave p)
        { m.setProducer p .idle with mutex := none, returned := m.returned ++ [t] }

variable {m m' : Manager α ε} {o : Order} {op : AddOp}

theorem addStep_of_stepAdd (h : m.stepAdd o op = some m') : AddStep m o op m' := by
  cases op with
  | AddTask p key =>
    simp only [stepAdd] at h
    split at h
    · rename_i hp
      obtain rfl := Option.some.inj h
      exact .AddTask hp
    · cases h
  | lock p =>
    simp only [stepAdd] at h
    split at h
    · rename_i t hp hm
      obtain ⟨r, hr, h⟩ := Option.bind_eq_some_iff.mp h
      split at h
      · rename_i hlt
        obtain rfl := Option.some.inj h
        exact .lock hp hm hr hlt
      · cases h
    · cases h
  | check p =>
    simp only [stepAdd] at h
    split at h
    · rename_i t i hp
      split at h
      · rename_i henabled
        split at h
        · rename_i hfull
          obtain rfl := Option.some.inj h
          exact .full hp henabled hfull
        · rename_i hfull
          obtain rfl := Option.some.inj h
          exact .check hp (fun _ => Bool.eq_false_iff.mpr hfull) (Or.inl henabled)
      · rename_i henabled
        have henabled : m.isEnableMaxTaskCount = false := Bool.eq_false_iff.mpr henabled
        cases o with
        | pushFirst =>
          obtain rfl := Option.some.inj h
          refine .check hp ?_ (Or.inr rfl)
          intro htrue
          rw [henabled] at htrue
          cases htrue
        | countFirst =>
          obtain rfl := Option.some.inj h
          exact .pass hp henabled rfl
    · cases h
  | wake p =>
    simp only [stepAdd] at h
    split at h
    · rename_i t i hp hm
      obtain rfl := Option.some.inj h
      exact .wake hp hm
    · cases h
  | push p =>
    simp only [stepAdd] at h
    split at h
    · rename_i t i hp
      obtain ⟨w, hw, rfl⟩ := Option.map_eq_some_iff.mp h
      exact .push hp hw
    · rename_i t i hp
      obtain ⟨w, hw, rfl⟩ := Option.map_eq_some_iff.mp h
      exact .push hp hw
    · cases h
  | count p =>
    simp only [stepAdd] at h
    split at h
    · rename_i t i hp
      obtain rfl := Option.some.inj h
      exact .count hp
    · rename_i t i hp
      obtain rfl := Option.some.inj h
      exact .count hp
    · cases h
  | leave p =>
    simp only [stepAdd] at h
    split at h
    · rename_i t i hp
      obtain rfl := Option.some.inj h
      exact .leave hp
    · rename_i t i hp
      obtain rfl := Option.some.inj h
      exact .leave hp
    · cases h

end Manager

end CppPrivate.Workpool
