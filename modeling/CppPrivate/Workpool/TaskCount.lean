import CppPrivate.Public.TaskCount
import CppPrivate.Workpool.BatchWorkerMgr
import CppPrivate.Workpool.WorkerPool

/-! The task counter of the three managers. A manager that pushes a task before it counts it may
see the task completed in between, and its counter, an unsigned number, then falls below zero. -/
namespace CppPrivate.Workpool
open CppPrivate.Monitor CppPrivate.Run CppPrivate.Public

namespace Manager
variable {α ε : Type*} {m m' : Manager α ε} {op : AddOp}

def outstanding (m : Manager α ε) : Nat := m.accepted - m.completed

def Pushing (m : Manager α ε) : Prop := ∃ x ∈ m.producers, x.place = .pushed

instance : Decidable m.Pushing := inferInstanceAs (Decidable (∃ _ ∈ _, _ = _))

/-- The counter is not short by more tasks than there are. -/
def Backed (m : Manager α ε) : Prop :=
  m.places Order.pushFirst.uncounted + m.completed ≤ m.accepted

theorem Backed.move {p : Nat} {x y : Producer} (hm : Backed m) (h : m.producers[p]? = some x)
    (hy : Order.pushFirst.uncounted y.place = 0) :
    Backed (m.setProducer p y) := by
  have hset := places_set Order.pushFirst.uncounted h y
  unfold Backed at *
  change (m.setProducer p y).places _ + m.completed ≤ m.accepted
  omega

theorem backed_add (hm : Backed m) (h : AddStep m .pushFirst op m') : Backed m' := by
  cases h with
  | @push p i t w hp hw =>
    have hset := places_set Order.pushFirst.uncounted hp (.pushed t i)
    have haccepted := accepted_push (m := m.setProducer p (.pushed t i)) t hw
    unfold Backed at *
    rw [haccepted]
    change (m.setProducer p (.pushed t i)).places _ + m.completed ≤ m.accepted + 1
    have hone : Order.pushFirst.uncounted Place.pushed = 1 := rfl
    simp only [Producer.place] at hset
    omega
  | AddTask hp => exact hm.move hp rfl
  | lock hp => exact hm.move hp rfl
  | full hp => exact hm.move hp rfl
  | check hp => exact hm.move hp rfl
  | pass _ _ ho => cases ho
  | wake hp => exact hm.move hp rfl
  | count hp => exact hm.move hp rfl
  | leave hp => exact hm.move hp rfl

theorem pushing_of_uncounted (h : 0 < m.places Order.pushFirst.uncounted) : m.Pushing := by
  obtain ⟨x, hx, hpos⟩ := exists_of_total_pos h
  refine ⟨x, hx, ?_⟩
  cases x with
  | pushed => rfl
  | _ => cases hpos

theorem uncounted_le_one (hm : Locked m) : m.places Order.pushFirst.uncounted ≤ 1 := by
  apply Nat.le_trans _ hm.one
  apply places_mono
  intro c
  cases c <;> decide

section
variable [Station α] {e : Event}

theorem backed_serve (hm : Sound .pushFirst m) (hb : Backed m)
    (hkeeps : ∀ t, e = .complete t → m.Pushing → 1 < m.outstanding) (h : Serve m e m') :
    Backed m' := by
  have hserved := completed_load (served_serve hm.served h)
  obtain ⟨hprod, -, -, haccepted, -⟩ := serve_frame h
  have hplaces : m'.places Order.pushFirst.uncounted = m.places Order.pushFirst.uncounted := by
    rw [places, hprod]
    rfl
  unfold Backed at *
  rw [hplaces]
  cases h with
  | move =>
    rw [haccepted]
    exact hb
  | @complete _ _ _ t =>
    have hone := uncounted_le_one hm.locked
    by_cases hnone : m.places Order.pushFirst.uncounted = 0
    · omega
    · have hmore := hkeeps t rfl (pushing_of_uncounted (Nat.pos_of_ne_zero hnone))
      rw [haccepted]
      change _ + (m.completed + 1) ≤ m.accepted
      rw [outstanding] at hmore
      omega

/-- A manager that counts after the push counts right if it is never short by more tasks than there
are. -/
theorem count_le_called (hm : Sound .pushFirst m) (hb : Backed m) :
    m.GetTaskCount.toNat + m.completed ≤ m.called := by
  have htally := hm.tallied
  have hcalled := hm.called
  have hlt := m.nTaskCount.toNat_lt
  have hnone : m.places Order.pushFirst.precounted = 0 := places_eq_zero fun c => rfl
  rw [Backed] at hb
  rw [Tallied] at htally
  rw [Called] at hcalled
  rw [hnone] at htally
  rw [GetTaskCount]
  omega

/-- A manager that counts before the push counts right in every state. -/
theorem count_le_called_first (hm : Sound .countFirst m) :
    m.GetTaskCount.toNat + m.completed ≤ m.called := by
  have htally := hm.tallied
  have hcalled := hm.called
  have hle := completed_load hm.served
  have hlt := m.nTaskCount.toNat_lt
  have hnone : m.places Order.countFirst.uncounted = 0 := places_eq_zero fun c => rfl
  have hahead : m.places Order.countFirst.precounted ≤ m.places Order.countFirst.ahead := by
    apply places_mono
    intro c
    cases c <;> decide
  rw [Tallied] at htally
  rw [Called] at hcalled
  rw [hnone] at htally
  rw [GetTaskCount]
  omega

end

end Manager

namespace WorkerPool
open Manager
variable {n max : UInt32} {callback : Bool} {hash : Option TaskHashFunc} {threads : Nat}
  {m m' : WorkerPool} {op : WorkerPoolOp} {ops : List WorkerPoolOp}

/-- While a producer has pushed a task and not yet counted it, no worker completes the last one. -/
def KeepsOne (m : WorkerPool) : WorkerPoolOp → Prop
  | .uncount _ => m.Pushing → 1 < m.outstanding
  | _ => True

instance (m : WorkerPool) : DecidablePred (KeepsOne m) := fun
  | .uncount _ => inferInstanceAs (Decidable (_ → _))
  | .add _ | .pop _ | .Execute _ _ | .callback _ | .complete _ | .skip _ | .ResetTaskFailedCount
  | .EnableMaxTaskCount => isTrue trivial

theorem backed_step (hm : Sound .pushFirst m) (hb : Backed m) (hkeeps : KeepsOne m op)
    (h : m.step op = some m') : Backed m' := by
  cases kind_of_step h with
  | add h => exact backed_add hb h
  | quiet h => exact backed_serve hm hb (by simp) h
  | complete _ _ h => exact backed_serve hm hb (fun _ _ => hkeeps) h
  | skip _ _ h => exact backed_serve hm hb (by simp) h
  | store => exact hb

/-- If no worker is that fast, the pool counts no more tasks than there are. -/
theorem taskCount_le (h : Runs step KeepsOne (started n max true callback hash threads) ops m) :
    m.GetTaskCount.toNat + m.completed ≤ m.called := by
  refine count_le_called (sound h) ?_
  apply h.invariant_with (Sound .pushFirst) Backed
  · rw [Backed, fresh_started.places _ rfl, fresh_started.completed]
    exact Nat.zero_le _
  · exact sound
  · intro m op m' hm hb hkeeps hs
    exact backed_step hm hb hkeeps hs

end WorkerPool

theorem BatchWorkerMgr.taskCount_le {n max : UInt32} {state : BatchMgrState}
    {hash : Option TaskHashFunc} {threads : Nat} {m : BatchWorkerMgr} {ops : List BatchMgrOp}
    {C : BatchWorkerMgr → BatchMgrOp → Prop}
    (h : Runs step C (started n max state true hash threads) ops m) :
    m.GetTaskCount.toNat + m.completed ≤ m.called :=
  Manager.count_le_called_first (sound h)

/-- The counter of each manager is at most the number of tasks that have been called for and not
completed: in every run of the manager that counts first, and in the runs of the other two where no
worker is faster than the producer. -/
theorem taskCount_bounded {τ : Type*} [DecidableEq τ] :
    (∀ (n max : UInt32) (callback : Bool) (hash : Option TaskHashFunc) (threads : Nat)
      (ops : List WorkerPoolOp) (m : WorkerPool),
      Runs WorkerPool.step WorkerPool.KeepsOne
        (WorkerPool.started n max true callback hash threads) ops m →
      m.GetTaskCount.toNat + m.completed ≤ m.called) ∧
    (∀ (n max : UInt32) (state : BatchMgrState) (hash : Option TaskHashFunc) (threads : Nat)
      (ops : List BatchMgrOp) (m : BatchWorkerMgr),
      Runs BatchWorkerMgr.step (fun _ _ => True)
        (BatchWorkerMgr.started n max state true hash threads) ops m →
      m.GetTaskCount.toNat + m.completed ≤ m.called) ∧
    ∀ (n max : UInt32) (ops : List (WaitGroupOp τ)) (m : WaitGroupWorkerMgr τ),
      Runs WaitGroupWorkerMgr.step WaitGroupWorkerMgr.KeepsOne
        (WaitGroupWorkerMgr.new n true max) ops m →
      m.GetTaskCount.toNat + m.completed ≤ m.called :=
  ⟨fun _ _ _ _ _ _ _ h => WorkerPool.taskCount_le h,
    fun _ _ _ _ _ _ _ h => BatchWorkerMgr.taskCount_le h,
    fun _ _ _ _ h => WaitGroupWorkerMgr.taskCount_le h⟩

/-- A task is added and taken by the worker of the pool; it is counted before it is completed. -/
def countedOps : List WorkerPoolOp :=
  [.add (.AddTask 0 none), .add (.lock 0), .add (.check 0), .add (.push 0), .pop 0,
   .Execute 0 false, .add (.count 0), .uncount 0]

def countedBatchOps : List BatchMgrOp :=
  [.add (.AddTask 0 none), .add (.lock 0), .add (.check 0), .add (.count 0), .add (.push 0)]

def countedWaitOps : List (WaitGroupOp Unit) :=
  [.AddTask (), .lock (), .check (), .push (), .count (), .pop 0, .Execute 0 false, .uncount 0]

theorem taskCount_bounded_counted :
    (∃ m, Runs WorkerPool.step WorkerPool.KeepsOne (WorkerPool.started 1 1 true false none 1)
      countedOps m ∧ m.completed = 1 ∧ m.GetTaskCount.toNat + m.completed ≤ m.called) ∧
    (∃ m, Runs BatchWorkerMgr.step (fun _ _ => True)
      (BatchWorkerMgr.started 1 1 ⟨8, 0, true⟩ true none 1) countedBatchOps m ∧
      m.GetTaskCount = 1 ∧ m.GetTaskCount.toNat + m.completed ≤ m.called) ∧
    ∃ m, Runs WaitGroupWorkerMgr.step WaitGroupWorkerMgr.KeepsOne
      (WaitGroupWorkerMgr.new 1 true 1) countedWaitOps m ∧
      m.completed = 1 ∧ m.GetTaskCount.toNat + m.completed ≤ m.called := by
  have hpool : ((exec WorkerPool.step WorkerPool.KeepsOne
      (WorkerPool.started 1 1 true false none 1) countedOps).any
        fun m => decide (m.completed = 1)) = true := by decide
  have hbatch : ((exec BatchWorkerMgr.step (fun _ _ => True)
      (BatchWorkerMgr.started 1 1 ⟨8, 0, true⟩ true none 1) countedBatchOps).any
        fun m => decide (m.GetTaskCount = 1)) = true := by decide
  have hwait : ((exec WaitGroupWorkerMgr.step WaitGroupWorkerMgr.KeepsOne
      (WaitGroupWorkerMgr.new 1 true 1) countedWaitOps).any
        fun m => decide (m.completed = 1)) = true := by decide
  obtain ⟨m, hm, hone⟩ := exists_of_exec hpool
  obtain ⟨b, hb, hcount⟩ := exists_of_exec hbatch
  obtain ⟨g, hg, hdone⟩ := exists_of_exec hwait
  obtain ⟨h1, h2, h3⟩ := taskCount_bounded (τ := Unit)
  exact ⟨⟨m, hm, of_decide_eq_true hone, h1 _ _ _ _ _ _ _ hm⟩,
    ⟨b, hb, of_decide_eq_true hcount, h2 _ _ _ _ _ _ _ hb⟩,
    ⟨g, hg, of_decide_eq_true hdone, h3 _ _ _ _ hg⟩⟩

/-- The worker pops, executes and completes the task before its producer counts it. -/
def overtakenPoolOps : List WorkerPoolOp :=
  [.add (.AddTask 0 none), .add (.lock 0), .add (.check 0), .add (.push 0), .pop 0,
   .Execute 0 false, .uncount 0]

def overtakenWaitOps : List (WaitGroupOp Unit) :=
  [.AddTask (), .lock (), .check (), .push (), .pop 0, .Execute 0 false, .uncount 0]

theorem taskCount_wraps :
    (∃ m, Runs WorkerPool.step (fun _ _ => True) (WorkerPool.started 1 10 true false none 1)
      overtakenPoolOps m ∧ m.called = 1 ∧ m.completed = 1 ∧ m.GetTaskCount = 4294967295) ∧
    ∃ m, Runs WaitGroupWorkerMgr.step (fun _ _ => True) (WaitGroupWorkerMgr.new 1 true 10)
      overtakenWaitOps m ∧ m.called = 1 ∧ m.completed = 1 ∧ m.GetTaskCount = 4294967295 := by
  have hpool : ((exec WorkerPool.step (fun _ _ => True)
      (WorkerPool.started 1 10 true false none 1) overtakenPoolOps).any fun m =>
        decide (m.called = 1 ∧ m.completed = 1 ∧ m.GetTaskCount = 4294967295)) = true := by decide
  have hwait : ((exec WaitGroupWorkerMgr.step (fun _ _ => True)
      (WaitGroupWorkerMgr.new 1 true 10) overtakenWaitOps).any fun m =>
        decide (m.called = 1 ∧ m.completed = 1 ∧ m.GetTaskCount = 4294967295)) = true := by decide
  obtain ⟨m, hm, hcounts⟩ := exists_of_exec hpool
  obtain ⟨g, hg, hcounts'⟩ := exists_of_exec hwait
  exact ⟨⟨m, hm, of_decide_eq_true hcounts⟩, ⟨g, hg, of_decide_eq_true hcounts'⟩⟩

end CppPrivate.Workpool
