import CppPrivate.Lib.Monitor
import CppPrivate.Public.Waiting

/-! The task counter of the wait group manager. A task is pushed before it is counted, and a worker
may complete it in between. -/
namespace CppPrivate.Public
open CppPrivate.Monitor CppPrivate.Run

/-- The task that a worker has popped and not yet completed. -/
def Phase.uncompleted : Phase → List Nat
  | .popped t | .executed t _ => [t]
  | _ => []

/-- A worker that has completed its task and not yet counted it as done. -/
def Phase.ending : Phase → Nat
  | .uncounted _ _ => 1
  | _ => 0

def Worker.uncompleted (w : Worker) : List Nat := w.phase.uncompleted ++ w.queue

def Producer.inside : Producer → Bool
  | .selected _ _ | .checked _ _ | .pushed _ | .counted _ | .added _ => true
  | _ => false

/-- The task that a producer has pushed and not yet counted. -/
def Producer.pushedTask : Producer → Option Nat
  | .pushed t => some t
  | _ => none

namespace WaitGroupWorkerMgr
variable {τ : Type*} {m m' : WaitGroupWorkerMgr τ} {op : WaitGroupOp τ}
  {ops : List (WaitGroupOp τ)}

def GetTaskCount (m : WaitGroupWorkerMgr τ) : UInt32 := m.nTaskCount

/-- The tasks that have been pushed and not yet completed. -/
def uncompleted (m : WaitGroupWorkerMgr τ) : List Nat := m.vecWorker.flatMap Worker.uncompleted

/-- How many completion callbacks have lowered the task counter. -/
def completed (m : WaitGroupWorkerMgr τ) : Nat :=
  m.done.length + total (fun w => w.phase.ending) m.vecWorker

/-- The task that the holder of the mutex has pushed and not yet counted. -/
def pushing (m : WaitGroupWorkerMgr τ) : Option Nat :=
  m.mutex.bind fun p => (m.producers p).pushedTask

def Locked (m : WaitGroupWorkerMgr τ) : Prop :=
  ∀ p, (m.producers p).inside = true → m.mutex = some p

/-- The counter, in 32 bits, is short of the tasks not yet completed by the one that is still to be
counted. -/
structure Booked (m : WaitGroupWorkerMgr τ) : Prop where
  tallied : (m.nTaskCount.toNat + m.pushing.toList.length) % 2 ^ 32 = m.uncompleted.length % 2 ^ 32
  backed : m.pushing.toList.length ≤ m.uncompleted.length

/-- The counter is not set back, and while a producer has pushed a task and not yet counted it, no
worker completes the last task. -/
def KeepsOne (m : WaitGroupWorkerMgr τ) : WaitGroupOp τ → Prop
  | .uncount _ => m.pushing ≠ none → 1 < m.uncompleted.length
  | .ResetTaskCount => False
  | _ => True

instance (m : WaitGroupWorkerMgr τ) : DecidablePred (KeepsOne m) := fun
  | .uncount _ => inferInstanceAs (Decidable (_ → _))
  | .ResetTaskCount => isFalse id
  | .AddTask _ | .lock _ | .check _ | .wake _ | .push _ | .count _ | .Add _ | .leave _ | .pop _
  | .Execute _ _ | .Done _ | .complete _ | .Wait | .waited | .ResetTaskFailedCount
  | .Reset => isTrue trivial

/-- The tasks pushed are completed or not. -/
theorem completed_add (m : WaitGroupWorkerMgr τ) :
    m.completed + m.uncompleted.length = m.placed.length := by
  have hworkers : total (fun w => w.phase.ending) m.vecWorker + m.uncompleted.length =
      m.inFlight.length := by
    rw [uncompleted, inFlight, List.length_flatMap, List.length_flatMap]
    change _ + total _ m.vecWorker = total _ m.vecWorker
    rw [← total_add]
    apply total_congr
    intro w _
    simp only [Worker.tasks, Worker.uncompleted, List.length_append]
    cases w.phase with
    | uncounted =>
      simp only [Phase.ending, Phase.uncompleted, Phase.tasks, List.length_nil, List.length_singleton]
      omega
    | idle => exact Nat.zero_add _
    | popped => exact Nat.zero_add _
    | executed => exact Nat.zero_add _
    | done => exact Nat.zero_add _
  rw [completed, placed, List.length_append, Nat.add_assoc, hworkers]

/-- No more tasks have been pushed than calls have begun. -/
theorem placed_le_called (hm : Distinct m) : m.placed.length ≤ m.called := by
  have hsub : m.placed ⊆ List.range m.called := by
    intro t ht
    exact List.mem_range.mpr (hm.lt_called t ht)
  have hle := (hm.nodup.subperm hsub).length_le
  rwa [List.length_range] at hle

theorem uncompleted_set {i : Nat} {w : Worker} (w' : Worker) (h : m.vecWorker[i]? = some w) :
    ((m.setWorker i w').uncompleted ++ w.uncompleted).Perm (m.uncompleted ++ w'.uncompleted) :=
  flatMap_set_perm Worker.uncompleted w' h

/-- A worker that keeps its tasks keeps the tasks not yet completed. -/
theorem uncompleted_same {i : Nat} {w w' : Worker} (h : m.vecWorker[i]? = some w)
    (hw : w'.uncompleted = w.uncompleted) : (m.setWorker i w').uncompleted.Perm m.uncompleted := by
  have hset := uncompleted_set w' h
  rw [hw] at hset
  exact (List.perm_append_right_iff w.uncompleted).mp hset

/-- What a step does to the counter, to the task that is being added and to the others. -/
inductive Books (m : WaitGroupWorkerMgr τ) : WaitGroupOp τ → WaitGroupWorkerMgr τ → Prop
  | quiet {op : WaitGroupOp τ} {m' : WaitGroupWorkerMgr τ} : m'.nTaskCount = m.nTaskCount →
      m'.pushing = m.pushing → m'.uncompleted.Perm m.uncompleted → Books m op m'
  | push {p : τ} {t : Nat} {m' : WaitGroupWorkerMgr τ} : m'.nTaskCount = m.nTaskCount →
      m.pushing = none → m'.pushing = some t → m'.uncompleted.Perm (t :: m.uncompleted) →
      Books m (.push p) m'
  | count {p : τ} {t : Nat} {m' : WaitGroupWorkerMgr τ} : m'.nTaskCount = m.nTaskCount + 1 →
      m.pushing = some t → m'.pushing = none → m'.uncompleted = m.uncompleted →
      Books m (.count p) m'
  | uncount {i t : Nat} {m' : WaitGroupWorkerMgr τ} : m'.nTaskCount = m.nTaskCount - 1 →
      m'.pushing = m.pushing → m.uncompleted.Perm (t :: m'.uncompleted) → Books m (.uncount i) m'

theorem booked_step (hm : Booked m) (hkeeps : KeepsOne m op) (h : Books m op m') : Booked m' := by
  have htally := hm.tallied
  have hback := hm.backed
  cases h with
  | quiet hcount hpushing hperm =>
    refine ⟨?_, ?_⟩
    · rw [hcount, hpushing, hperm.length_eq]
      exact htally
    · rw [hpushing, hperm.length_eq]
      exact hback
  | push hcount hnone hpushing hperm =>
    have hlength := hperm.length_eq
    simp only [hnone, Option.toList_none, List.length_nil, List.length_cons] at htally hlength
    refine ⟨?_, ?_⟩
    · simp only [hcount, hpushing, Option.toList_some, List.length_cons, List.length_nil]
      omega
    · simp only [hpushing, Option.toList_some, List.length_cons, List.length_nil]
      omega
  | count hcount hsome hnone hsame =>
    simp only [hsome, Option.toList_some, List.length_nil, List.length_cons] at htally
    refine ⟨?_, ?_⟩
    · rw [hcount, hnone, hsame, UInt32.toNat_add]
      simp only [Option.toList_none, List.length_nil, UInt32.toNat_one]
      omega
    · rw [hnone]
      exact Nat.zero_le _
  | uncount hcount hpushing hperm =>
    have hlt := m.nTaskCount.toNat_lt
    have hlength := hperm.length_eq
    rw [List.length_cons] at hlength
    refine ⟨?_, ?_⟩
    · rw [hcount, hpushing, UInt32.toNat_sub, UInt32.toNat_one]
      omega
    · rw [hpushing]
      cases hp : m.pushing with
      | none => exact Nat.zero_le _
      | some t =>
        have hmore : 1 < m.uncompleted.length := hkeeps (by simp [hp])
        simp only [Option.toList_some, List.length_cons, List.length_nil]
        omega

/-- The counter does not exceed the tasks that have been called for and not completed. -/
theorem booked_le (hd : Distinct m) (hm : Booked m) :
    m.nTaskCount.toNat + m.completed ≤ m.called := by
  have htally := hm.tallied
  have hback := hm.backed
  have hadd := completed_add m
  have hle := placed_le_called hd
  have hlt := m.nTaskCount.toNat_lt
  omega

theorem pushing_free (h : m.mutex = none) : m.pushing = none := by
  rw [pushing, h]
  rfl

/-- The task that is being added is the one of the producer that holds the mutex. -/
theorem pushing_holder {p : τ} (h : m.mutex = some p) :
    m.pushing = (m.producers p).pushedTask := by
  rw [pushing, h]
  rfl

theorem booked_new {n max : UInt32} {enabled : Bool} :
    Booked (new n enabled max : WaitGroupWorkerMgr τ) := by
  have hnone : (new n enabled max : WaitGroupWorkerMgr τ).uncompleted = [] := by
    simp [new, uncompleted, Worker.uncompleted, Phase.uncompleted]
  refine ⟨?_, ?_⟩
  · rw [hnone]
    rfl
  · exact Nat.zero_le _

variable [DecidableEq τ]

theorem pushing_stay {p : τ} {x : Producer} (hp : (m.producers p).pushedTask = none)
    (hx : x.pushedTask = none) : (m.setProducer p x).pushing = m.pushing := by
  change (m.mutex.bind fun q => (Function.update m.producers p x q).pushedTask) = m.pushing
  rw [pushing]
  congr 1
  funext q
  by_cases hq : q = p
  · rw [hq, Function.update_self, hx, hp]
  · rw [Function.update_of_ne hq]

theorem pushing_enter {p : τ} {x : Producer} (h : m.mutex = none) (hx : x.pushedTask = none) :
    (Function.update m.producers p x p).pushedTask = m.pushing := by
  rw [Function.update_self, hx, pushing_free h]

theorem Locked.stay {p : τ} {x : Producer} (hm : Locked m) (hx : x.inside = (m.producers p).inside) :
    Locked (m.setProducer p x) := by
  intro q hq
  change (Function.update m.producers p x q).inside = true at hq
  by_cases hqp : q = p
  · rw [hqp, Function.update_self, hx] at hq
    rw [hqp]
    exact hm p hq
  · rw [Function.update_of_ne hqp] at hq
    exact hm q hq

theorem Locked.enter {p : τ} {x : Producer} (hm : Locked m) (hfree : m.mutex = none) (q : τ)
    (hq : (Function.update m.producers p x q).inside = true) : some p = some q := by
  by_cases hqp : q = p
  · rw [hqp]
  · rw [Function.update_of_ne hqp] at hq
    have hheld := hm q hq
    rw [hfree] at hheld
    cases hheld

theorem Locked.exit {p : τ} {x : Producer} (hm : Locked m) (hp : (m.producers p).inside = true)
    (hx : x.inside = false) (q : τ) :
    (Function.update m.producers p x q).inside ≠ true := by
  intro hq
  by_cases hqp : q = p
  · rw [hqp, Function.update_self, hx] at hq
    cases hq
  · rw [Function.update_of_ne hqp] at hq
    have hsame := (hm p hp).symm.trans (hm q hq)
    exact hqp (Option.some.inj hsame).symm

theorem locked_step (hm : Locked m) (h : m.step op = some m') : Locked m' := by
  cases stepped_of_step h with
  | AddTask hp => exact hm.stay (by rw [hp]; rfl)
  | lock hp hfree => exact fun q hq => hm.enter hfree q hq
  | full hp => exact fun q hq => absurd hq (hm.exit (by rw [hp]; rfl) rfl q)
  | check hp => exact hm.stay (by rw [hp]; rfl)
  | wake hp hfree => exact fun q hq => hm.enter hfree q hq
  | push hp => exact hm.stay (by rw [hp]; rfl)
  | count hp => exact hm.stay (by rw [hp]; rfl)
  | Add hp => exact hm.stay (by rw [hp]; rfl)
  | leave hp => exact fun q hq => absurd hq (hm.exit (by rw [hp]; rfl) rfl q)
  | pop => exact hm
  | Execute => exact hm
  | uncount => exact hm
  | Done => exact hm
  | complete => exact hm
  | Wait => exact hm
  | waited => exact hm
  | ResetTaskFailedCount => exact hm
  | ResetTaskCount => exact hm
  | Reset => exact hm

theorem books_step (hm : Locked m) (hop : op ≠ .ResetTaskCount) (h : m.step op = some m') :
    Books m op m' := by
  cases stepped_of_step h with
  | AddTask hp => exact .quiet rfl (pushing_stay (by rw [hp]; rfl) rfl) (.refl _)
  | lock hp hfree => exact .quiet rfl (pushing_enter hfree rfl) (.refl _)
  | @full p t i hp =>
    have hheld : m.mutex = some p := hm p (by rw [hp]; rfl)
    refine .quiet rfl ?_ (.refl _)
    rw [pushing_holder hheld, hp]
    rfl
  | check hp => exact .quiet rfl (pushing_stay (by rw [hp]; rfl) rfl) (.refl _)
  | wake hp hfree => exact .quiet rfl (pushing_enter hfree rfl) (.refl _)
  | @push p t i w hp hw =>
    have hheld : m.mutex = some p := hm p (by rw [hp]; rfl)
    refine .push (t := t) rfl ?_ ?_ ?_
    · rw [pushing_holder hheld, hp]
      rfl
    · change (m.mutex.bind fun q => (Function.update m.producers p (.pushed t) q).pushedTask) = _
      rw [hheld, Option.bind_some, Function.update_self]
      rfl
    · have hset := uncompleted_set { w with queue := w.queue ++ [t] } hw
      have htasks : Worker.uncompleted { w with queue := w.queue ++ [t] } = w.uncompleted ++ [t] :=
        (List.append_assoc _ _ _).symm
      rw [htasks] at hset
      apply (List.perm_append_right_iff w.uncompleted).mp
      apply hset.trans
      rw [← List.append_assoc]
      exact List.perm_append_comm
  | @count p t hp =>
    have hheld : m.mutex = some p := hm p (by rw [hp]; rfl)
    refine .count (t := t) rfl ?_ ?_ rfl
    · rw [pushing_holder hheld, hp]
      rfl
    · change (m.mutex.bind fun q => (Function.update m.producers p (.counted t) q).pushedTask) = _
      rw [hheld, Option.bind_some, Function.update_self]
      rfl
  | Add hp => exact .quiet rfl (pushing_stay (by rw [hp]; rfl) rfl) (.refl _)
  | @leave p t hp =>
    have hheld : m.mutex = some p := hm p (by rw [hp]; rfl)
    refine .quiet rfl ?_ (.refl _)
    rw [pushing_holder hheld, hp]
    rfl
  | pop hw => exact .quiet rfl rfl (uncompleted_same hw rfl)
  | Execute hw => exact .quiet rfl rfl (uncompleted_same hw rfl)
  | @uncount i t queue failed hw =>
    refine .uncount (t := t) rfl rfl ?_
    have hset := uncompleted_set ⟨queue, .uncounted t failed⟩ hw
    apply (List.perm_append_right_iff queue).mp
    apply hset.symm.trans
    exact List.perm_middle
  | Done hw => exact .quiet rfl rfl (uncompleted_same hw rfl)
  | complete hw => exact .quiet rfl rfl (uncompleted_same hw rfl)
  | Wait => exact .quiet rfl rfl (.refl _)
  | waited => exact .quiet rfl rfl (.refl _)
  | ResetTaskFailedCount => exact .quiet rfl rfl (.refl _)
  | ResetTaskCount => exact absurd rfl hop
  | Reset => exact .quiet rfl rfl (.refl _)

section Run
variable {n max : UInt32} {enabled : Bool}

theorem locked {C : WaitGroupWorkerMgr τ → WaitGroupOp τ → Prop}
    (h : Runs step C (new n enabled max) ops m) : Locked m := by
  apply h.invariant Locked
  · intro p hp
    cases hp
  · intro m op m' hm _ hs
    exact locked_step hm hs

/-- If no worker is that fast, the manager counts no more tasks than there are. -/
theorem taskCount_le (h : Runs step KeepsOne (new n enabled max) ops m) :
    m.GetTaskCount.toNat + m.completed ≤ m.called := by
  have hd : Distinct m :=
    h.invariant Distinct (distinct_new n enabled max) fun _ _ _ hm _ hs => distinct_step hm hs
  refine booked_le hd ?_
  apply h.invariant_with Locked Booked booked_new
  · exact locked
  · intro m op m' hl hm hkeeps hs
    refine booked_step hm hkeeps (books_step hl ?_ hs)
    intro hop
    rw [hop] at hkeeps
    exact hkeeps

end Run

end WaitGroupWorkerMgr

end CppPrivate.Public
