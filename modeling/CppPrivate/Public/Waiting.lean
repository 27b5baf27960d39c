import CppPrivate.Public.WaitGroup
import Mathlib.Data.List.Perm.Subperm

/-! What a call of `Wait` waits for. The counter is raised after the task has been handed to a
worker, which may lower it first, so that the tasks of other calls are counted too few. -/
namespace CppPrivate.Public
open CppPrivate.Run

/-- The task that a worker has popped and not yet counted as done. -/
def Phase.tasks : Phase → List Nat
  | .popped t | .executed t _ | .uncounted t _ => [t]
  | _ => []

def Worker.tasks (w : Worker) : List Nat := w.phase.tasks ++ w.queue

/-- The task that a worker has executed and not yet counted as done, with its status. -/
def Phase.result : Phase → Option (Nat × Bool)
  | .executed t failed | .uncounted t failed => some (t, failed)
  | _ => none

/-- The task that a producer has not yet pushed. -/
def Producer.ahead : Producer → Option Nat
  | .called t | .waiting t _ | .selected t _ | .checked t _ => some t
  | _ => none

namespace WaitGroupWorkerMgr
variable {τ : Type*} {m m' : WaitGroupWorkerMgr τ} {op : WaitGroupOp τ}
  {ops : List (WaitGroupOp τ)}

/-- The tasks that have been pushed and not yet counted as done. -/
def inFlight (m : WaitGroupWorkerMgr τ) : List Nat := m.vecWorker.flatMap Worker.tasks

/-- The tasks that have been pushed: those counted as done and those in flight. -/
def placed (m : WaitGroupWorkerMgr τ) : List Nat := m.done ++ m.inFlight

/-- A worker that keeps its tasks keeps the tasks in flight. -/
theorem inFlight_same {i : Nat} {w w' : Worker} (h : m.vecWorker[i]? = some w)
    (hw : w'.tasks = w.tasks) : (m.setWorker i w').inFlight.Perm m.inFlight := by
  have hset := flatMap_set_perm Worker.tasks w' h
  rw [hw] at hset
  exact (List.perm_append_right_iff w.tasks).mp hset

theorem inFlight_push {i t : Nat} {w : Worker} (h : m.vecWorker[i]? = some w) :
    (m.setWorker i { w with queue := w.queue ++ [t] }).inFlight.Perm (t :: m.inFlight) := by
  have hset := flatMap_set_perm Worker.tasks { w with queue := w.queue ++ [t] } h
  have htasks : Worker.tasks { w with queue := w.queue ++ [t] } = w.tasks ++ [t] :=
    (List.append_assoc _ _ _).symm
  rw [htasks] at hset
  apply (List.perm_append_right_iff w.tasks).mp
  apply hset.trans
  rw [← List.append_assoc]
  exact List.perm_append_comm

theorem inFlight_Done {i t : Nat} {queue : List Nat} {failed : Bool}
    (h : m.vecWorker[i]? = some ⟨queue, .uncounted t failed⟩) :
    m.inFlight.Perm (t :: (m.setWorker i ⟨queue, .done failed⟩).inFlight) := by
  have hset := flatMap_set_perm Worker.tasks ⟨queue, .done failed⟩ h
  apply (List.perm_append_right_iff queue).mp
  apply hset.symm.trans
  exact List.perm_middle

/-- A step that takes up no task and pushes none leaves the places alone, as a set. -/
def KeepsPlaces (m m' : WaitGroupWorkerMgr τ) : Prop :=
  m'.called = m.called ∧ m'.placed.Perm m.placed ∧
    ∀ p, (m'.producers p).ahead = (m.producers p).ahead

theorem keeps_worker (hcalled : m'.called = m.called) (hdone : m'.done = m.done)
    (hflight : m'.inFlight.Perm m.inFlight) (hproducers : m'.producers = m.producers) :
    KeepsPlaces m m' := by
  refine ⟨hcalled, ?_, ?_⟩
  · simp only [placed, hdone]
    exact hflight.append_left _
  · intro p
    rw [hproducers]

theorem placed_new (n : UInt32) (enabled : Bool) (max : UInt32) :
    (new n enabled max : WaitGroupWorkerMgr τ).placed = [] := by
  simp [new, placed, inFlight, Worker.tasks, Phase.tasks]

/-- Tasks are known by their numbers: each of them is in one place. -/
structure Distinct (m : WaitGroupWorkerMgr τ) : Prop where
  nodup : m.placed.Nodup
  lt_called : ∀ t ∈ m.placed, t < m.called
  ahead : ∀ p t, (m.producers p).ahead = some t → t < m.called ∧ t ∉ m.placed
  ahead_inj : ∀ p q t, (m.producers p).ahead = some t → (m.producers q).ahead = some t → p = q

theorem distinct_new (n : UInt32) (enabled : Bool) (max : UInt32) :
    Distinct (new n enabled max : WaitGroupWorkerMgr τ) := by
  refine ⟨?_, ?_, ?_, ?_⟩
  · rw [placed_new]
    exact .nil
  · rw [placed_new]
    intro t ht
    cases ht
  · intro p t hp
    cases hp
  · intro p q t hp
    cases hp

theorem Distinct.keeps (hm : Distinct m) (h : KeepsPlaces m m') : Distinct m' := by
  obtain ⟨hcalled, hplaced, hprod⟩ := h
  refine ⟨?_, ?_, ?_, ?_⟩
  · exact hplaced.nodup_iff.mpr hm.nodup
  · intro t ht
    rw [hcalled]
    exact hm.lt_called t (hplaced.mem_iff.mp ht)
  · intro p t hp
    rw [hprod] at hp
    rw [hcalled, hplaced.mem_iff]
    exact hm.ahead p t hp
  · intro p q t hp hq
    rw [hprod] at hp hq
    exact hm.ahead_inj p q t hp hq

/-- What a worker leaves behind: a task has finished before it is counted as done. -/
structure WorkersTracked (m : WaitGroupWorkerMgr τ) : Prop where
  executed : ∀ (i : Nat) (w : Worker), m.vecWorker[i]? = some w → ∀ r, w.phase.result = some r →
    r ∈ m.finished
  done : ∀ t ∈ m.done, ∃ failed, (t, failed) ∈ m.finished

/-- A worker that takes up no result leaves those taken up so far. -/
theorem WorkersTracked.setWorker {i : Nat} (w' : Worker) (hm : WorkersTracked m)
    (hresult : ∀ r, w'.phase.result = some r → r ∈ m'.finished)
    (hvec : m'.vecWorker = m.vecWorker.set i w') (hfinished : m.finished ⊆ m'.finished)
    (hdone : ∀ t ∈ m'.done, ∃ failed, (t, failed) ∈ m'.finished) : WorkersTracked m' := by
  refine ⟨?_, hdone⟩
  intro j v hv r hr
  rw [hvec] at hv
  obtain ⟨rfl, rfl⟩ | ⟨-, hv⟩ := getElem?_set_cases hv
  · exact hresult r hr
  · exact hfinished (hm.executed j v hv r hr)

theorem WorkersTracked.finish {failed : Bool} {t : Nat} (hm : WorkersTracked m) :
    ∀ u ∈ m.done, ∃ f, (u, f) ∈ m.finished ++ [(t, failed)] := by
  intro u hu
  obtain ⟨f, hf⟩ := hm.done u hu
  exact ⟨f, List.mem_append_left _ hf⟩

/-- The counter of the wait group, an `int`, is the tasks counted up less those counted down. -/
def Counted (m : WaitGroupWorkerMgr τ) : Prop :=
  m.nCounter = cInt ((m.added.length : Int) - m.done.length)

theorem counted_new {n max : UInt32} {enabled : Bool} :
    Counted (new n enabled max : WaitGroupWorkerMgr τ) := by
  simp [Counted, new, cInt]

/-- Every task that has been counted down has been counted up before, and fewer than `2^31` of
the tasks counted up have not been counted down. -/
def Settled (m : WaitGroupWorkerMgr τ) : Prop :=
  (∀ t ∈ m.done, t ∈ m.added) ∧ m.added.length < m.done.length + 2 ^ 31

instance (m : WaitGroupWorkerMgr τ) : Decidable (Settled m) := inferInstanceAs (Decidable (_ ∧ _))

/-- A counter that has fallen to zero leaves no task that has been counted up. -/
theorem added_done (hdistinct : Distinct m) (hcounted : Counted m) (hsettled : Settled m)
    (h : m.nCounter ≤ 0) : ∀ t ∈ m.added, t ∈ m.done := by
  have hnodup : m.done.Nodup := (List.nodup_append.mp hdistinct.nodup).1
  have hsub : m.done.Subperm m.added := hnodup.subperm hsettled.1
  have hle := hsub.length_le
  have hcount : m.nCounter = ((m.added.length - m.done.length : Nat) : Int) := by
    have hlt := hsettled.2
    rw [show m.nCounter = _ from hcounted, ← Int.ofNat_sub hle]
    exact cInt_of_lt (by omega)
  have hperm : m.done.Perm m.added := hsub.perm_of_length_le (by omega)
  intro t ht
  exact hperm.mem_iff.mpr ht

def Resets : WaitGroupOp τ → Prop
  | .ResetTaskFailedCount | .ResetTaskCount | .Reset => True
  | _ => False

instance : DecidablePred (Resets (τ := τ)) := fun
  | .ResetTaskFailedCount | .ResetTaskCount | .Reset => isTrue trivial
  | .AddTask _ | .lock _ | .check _ | .wake _ | .push _ | .count _ | .Add _ | .leave _ | .pop _
  | .Execute _ _ | .uncount _ | .Done _ | .complete _ | .Wait | .waited => isFalse id

variable [DecidableEq τ]

theorem ahead_update {p : τ} {x : Producer} (h : x.ahead = (m.producers p).ahead) (q : τ) :
    (Function.update m.producers p x q).ahead = (m.producers q).ahead := by
  by_cases hq : q = p
  · rw [hq, Function.update_self, h]
  · rw [Function.update_of_ne hq]

theorem keeps_producer {p : τ} {x : Producer} (h : x.ahead = (m.producers p).ahead)
    (hcalled : m'.called = m.called) (hdone : m'.done = m.done)
    (hworker : m'.vecWorker = m.vecWorker)
    (hproducers : m'.producers = Function.update m.producers p x) : KeepsPlaces m m' := by
  refine ⟨hcalled, ?_, ?_⟩
  · simp only [placed, inFlight, hdone, hworker]
    exact .refl _
  · rw [hproducers]
    exact ahead_update h

/-- What a step does to the places of the tasks. -/
theorem places_step (h : m.step op = some m') :
    (∃ p, (m.producers p).ahead = none ∧ m'.called = m.called + 1 ∧ m'.placed = m.placed ∧
      m'.producers = Function.update m.producers p (.called m.called)) ∨
    (∃ p t, (m.producers p).ahead = some t ∧ m'.called = m.called ∧
      m'.placed.Perm (t :: m.placed) ∧
      m'.producers = Function.update m.producers p (.pushed t)) ∨
    KeepsPlaces m m' := by
  cases stepped_of_step h with
  | AddTask hp => exact Or.inl ⟨_, by rw [hp]; rfl, rfl, rfl, rfl⟩
  | push hp hw =>
    refine Or.inr (Or.inl ⟨_, _, by rw [hp]; rfl, rfl, ?_, rfl⟩)
    exact ((inFlight_push hw).append_left m.done).trans List.perm_middle
  | Done hw =>
    refine Or.inr (Or.inr ⟨rfl, ?_, fun _ => rfl⟩)
    simp only [placed, List.append_assoc]
    exact ((inFlight_Done hw).append_left m.done).symm
  | lock hp => exact Or.inr (Or.inr (keeps_producer (by rw [hp]; rfl) rfl rfl rfl rfl))
  | full hp => exact Or.inr (Or.inr (keeps_producer (by rw [hp]; rfl) rfl rfl rfl rfl))
  | check hp => exact Or.inr (Or.inr (keeps_producer (by rw [hp]; rfl) rfl rfl rfl rfl))
  | wake hp => exact Or.inr (Or.inr (keeps_producer (by rw [hp]; rfl) rfl rfl rfl rfl))
  | count hp => exact Or.inr (Or.inr (keeps_producer (by rw [hp]; rfl) rfl rfl rfl rfl))
  | Add hp => exact Or.inr (Or.inr (keeps_producer (by rw [hp]; rfl) rfl rfl rfl rfl))
  | leave hp => exact Or.inr (Or.inr (keeps_producer (by rw [hp]; rfl) rfl rfl rfl rfl))
  | pop hw => exact Or.inr (Or.inr (keeps_worker rfl rfl (inFlight_same hw rfl) rfl))
  | Execute hw => exact Or.inr (Or.inr (keeps_worker rfl rfl (inFlight_same hw rfl) rfl))
  | uncount hw => exact Or.inr (Or.inr (keeps_worker rfl rfl (inFlight_same hw rfl) rfl))
  | complete hw => exact Or.inr (Or.inr (keeps_worker rfl rfl (inFlight_same hw rfl) rfl))
  | Wait => exact Or.inr (Or.inr (keeps_worker rfl rfl (.refl _) rfl))
  | waited => exact Or.inr (Or.inr (keeps_worker rfl rfl (.refl _) rfl))
  | ResetTaskFailedCount => exact Or.inr (Or.inr (keeps_worker rfl rfl (.refl _) rfl))
  | ResetTaskCount => exact Or.inr (Or.inr (keeps_worker rfl rfl (.refl _) rfl))
  | Reset => exact Or.inr (Or.inr (keeps_worker rfl rfl (.refl _) rfl))

/-- What a producer has ahead after one producer has moved: its new task, or what it had. -/
theorem ahead_moved {p q : τ} {x : Producer} {t : Nat}
    (hprod : m'.producers = Function.update m.producers p x)
    (h : (m'.producers q).ahead = some t) :
    (q = p ∧ x.ahead = some t) ∨ (q ≠ p ∧ (m.producers q).ahead = some t) := by
  rw [hprod] at h
  by_cases hq : q = p
  · rw [hq, Function.update_self] at h
    exact Or.inl ⟨hq, h⟩
  · rw [Function.update_of_ne hq] at h
    exact Or.inr ⟨hq, h⟩

/-- A task that is taken up has a number of its own. -/
theorem Distinct.called {p : τ} (hm : Distinct m) (hcalled : m'.called = m.called + 1)
    (hplaced : m'.placed = m.placed)
    (hprod : m'.producers = Function.update m.producers p (.called m.called)) : Distinct m' := by
  refine ⟨?_, ?_, ?_, ?_⟩
  · rw [hplaced]
    exact hm.nodup
  · intro t ht
    rw [hplaced] at ht
    rw [hcalled]
    exact Nat.lt_succ_of_lt (hm.lt_called t ht)
  · intro q t hq
    rw [hplaced, hcalled]
    cases ahead_moved hprod hq with
    | inl hq =>
      obtain rfl : m.called = t := Option.some.inj hq.2
      refine ⟨Nat.lt_succ_self _, ?_⟩
      intro ht
      exact absurd (hm.lt_called _ ht) (Nat.lt_irrefl _)
    | inr hq =>
      obtain ⟨hlt, hnot⟩ := hm.ahead q t hq.2
      exact ⟨Nat.lt_succ_of_lt hlt, hnot⟩
  · intro q r t hq hr
    have hold : ∀ q, (m.producers q).ahead = some t → m.called ≠ t := by
      intro q hq
      exact Nat.ne_of_gt (hm.ahead q t hq).1
    cases ahead_moved hprod hq with
    | inl hq =>
      cases ahead_moved hprod hr with
      | inl hr => rw [hq.1, hr.1]
      | inr hr => exact absurd (Option.some.inj hq.2) (hold r hr.2)
    | inr hq =>
      cases ahead_moved hprod hr with
      | inl hr => exact absurd (Option.some.inj hr.2) (hold q hq.2)
      | inr hr => exact hm.ahead_inj q r t hq.2 hr.2

/-- A task that is pushed is in its worker's place and ahead of no producer. -/
theorem Distinct.pushed {p : τ} {t : Nat} (hm : Distinct m)
    (hahead : (m.producers p).ahead = some t) (hcalled : m'.called = m.called)
    (hplaced : m'.placed.Perm (t :: m.placed))
    (hprod : m'.producers = Function.update m.producers p (.pushed t)) : Distinct m' := by
  have hfresh := hm.ahead p t hahead
  have hold : ∀ q u, (m'.producers q).ahead = some u → q ≠ p ∧ (m.producers q).ahead = some u := by
    intro q u hq
    cases ahead_moved hprod hq with
    | inl hq => cases hq.2
    | inr hq => exact hq
  refine ⟨?_, ?_, ?_, ?_⟩
  · exact hplaced.nodup_iff.mpr (List.nodup_cons.mpr ⟨hfresh.2, hm.nodup⟩)
  · intro u hu
    rw [hcalled]
    cases List.mem_cons.mp (hplaced.mem_iff.mp hu) with
    | inl heq => rw [heq]; exact hfresh.1
    | inr hu => exact hm.lt_called u hu
  · intro q u hq
    obtain ⟨hqp, hq⟩ := hold q u hq
    obtain ⟨hlt, hnot⟩ := hm.ahead q u hq
    rw [hcalled]
    refine ⟨hlt, ?_⟩
    intro hu
    cases List.mem_cons.mp (hplaced.mem_iff.mp hu) with
    | inl heq =>
      subst heq
      exact hqp (hm.ahead_inj q p u hq hahead)
    | inr hu => exact hnot hu
  · intro q r u hq hr
    exact hm.ahead_inj q r u (hold q u hq).2 (hold r u hr).2

theorem distinct_step (hm : Distinct m) (h : m.step op = some m') : Distinct m' := by
  rcases places_step h with ⟨p, -, hcalled, hplaced, hprod⟩ |
    ⟨p, t, hahead, hcalled, hplaced, hprod⟩ | hkeeps
  · exact hm.called hcalled hplaced hprod
  · exact hm.pushed hahead hcalled hplaced hprod
  · exact hm.keeps hkeeps

/-- What a producer leaves behind: the counter is raised before a call of `AddTask` returns. -/
structure ProducersTracked (m : WaitGroupWorkerMgr τ) : Prop where
  added : ∀ p t, m.producers p = .added t → t ∈ m.added
  returned : ∀ t ∈ m.returned, t ∈ m.added
  waiter : ∀ l, m.waiter = some l → ∀ t ∈ l, t ∈ m.added

theorem update_added {p q : τ} {x : Producer} {t : Nat} (hx : ∀ t, x ≠ .added t)
    (h : Function.update m.producers p x q = .added t) : m.producers q = .added t := by
  by_cases hq : q = p
  · rw [hq, Function.update_self] at h
    exact absurd h (hx t)
  · rw [Function.update_of_ne hq] at h
    exact h

theorem ProducersTracked.move {p : τ} {x : Producer} (hm : ProducersTracked m)
    (hx : ∀ t, x ≠ .added t) (hproducers : m'.producers = Function.update m.producers p x)
    (hadded : m'.added = m.added) (hreturned : m'.returned = m.returned)
    (hwaiter : m'.waiter = m.waiter) : ProducersTracked m' := by
  refine ⟨?_, ?_, ?_⟩
  · intro q t hq
    rw [hproducers] at hq
    rw [hadded]
    exact hm.added q t (update_added hx hq)
  · rw [hadded, hreturned]
    exact hm.returned
  · rw [hadded, hwaiter]
    exact hm.waiter

theorem producersTracked_step (hm : ProducersTracked m) (h : m.step op = some m') :
    ProducersTracked m' := by
  cases stepped_of_step h with
  | AddTask => exact hm.move (by simp) rfl rfl rfl rfl
  | lock => exact hm.move (by simp) rfl rfl rfl rfl
  | full => exact hm.move (by simp) rfl rfl rfl rfl
  | check => exact hm.move (by simp) rfl rfl rfl rfl
  | wake => exact hm.move (by simp) rfl rfl rfl rfl
  | push => exact hm.move (by simp) rfl rfl rfl rfl
  | count => exact hm.move (by simp) rfl rfl rfl rfl
  | @Add p t hp =>
    refine ⟨?_, ?_, ?_⟩
    · intro q u hq
      change Function.update m.producers p (.added t) q = .added u at hq
      by_cases hqp : q = p
      · rw [hqp, Function.update_self] at hq
        cases hq
        exact List.mem_append_right _ (List.mem_singleton_self _)
      · rw [Function.update_of_ne hqp] at hq
        exact List.mem_append_left _ (hm.added q u hq)
    · intro u hu
      exact List.mem_append_left _ (hm.returned u hu)
    · intro l hl u hu
      exact List.mem_append_left _ (hm.waiter l hl u hu)
  | @leave p t hp =>
    refine ⟨?_, ?_, hm.waiter⟩
    · intro q u hq
      exact hm.added q u (update_added (by simp) hq)
    · intro u hu
      cases List.mem_append.mp hu with
      | inl hu => exact hm.returned u hu
      | inr hu =>
        rw [List.mem_singleton.mp hu]
        exact hm.added p t hp
  | Wait =>
    refine ⟨hm.added, hm.returned, ?_⟩
    intro l hl
    obtain rfl := Option.some.inj hl
    exact hm.returned
  | waited =>
    refine ⟨hm.added, hm.returned, ?_⟩
    intro l hl
    cases hl
  | pop => exact ⟨hm.added, hm.returned, hm.waiter⟩
  | Execute => exact ⟨hm.added, hm.returned, hm.waiter⟩
  | uncount => exact ⟨hm.added, hm.returned, hm.waiter⟩
  | Done => exact ⟨hm.added, hm.returned, hm.waiter⟩
  | complete => exact ⟨hm.added, hm.returned, hm.waiter⟩
  | ResetTaskFailedCount => exact ⟨hm.added, hm.returned, hm.waiter⟩
  | ResetTaskCount => exact ⟨hm.added, hm.returned, hm.waiter⟩
  | Reset => exact ⟨hm.added, hm.returned, hm.waiter⟩

theorem workersTracked_step (hm : WorkersTracked m) (h : m.step op = some m') :
    WorkersTracked m' := by
  cases stepped_of_step h with
  | @push p t i w hp hw =>
    exact hm.setWorker { w with queue := w.queue ++ [t] } (hm.executed i w hw) rfl
      (List.Subset.refl _) hm.done
  | @pop i t queue hw =>
    refine hm.setWorker ⟨queue, .popped t⟩ ?_ rfl (List.Subset.refl _) hm.done
    intro r hr
    cases hr
  | @Execute i t queue failed hw =>
    refine hm.setWorker ⟨queue, .executed t failed⟩ ?_ rfl (List.subset_append_left _ _) hm.finish
    intro r hr
    obtain rfl := Option.some.inj hr
    exact List.mem_append_right _ (List.mem_singleton_self _)
  | @uncount i t queue failed hw =>
    have hresult := hm.executed i ⟨queue, .executed t failed⟩ hw
    exact hm.setWorker ⟨queue, .uncounted t failed⟩ hresult rfl (List.Subset.refl _) hm.done
  | @Done i t queue failed hw =>
    refine hm.setWorker ⟨queue, .done failed⟩ ?_ rfl (List.Subset.refl _) ?_
    · intro r hr
      cases hr
    · intro u hu
      cases List.mem_append.mp hu with
      | inl hu => exact hm.done u hu
      | inr hu =>
        rw [List.mem_singleton.mp hu]
        exact ⟨failed, hm.executed _ _ hw _ rfl⟩
  | @complete i queue failed hw =>
    refine hm.setWorker ⟨queue, .idle⟩ ?_ rfl (List.Subset.refl _) hm.done
    intro r hr
    cases hr
  | AddTask => exact ⟨hm.executed, hm.done⟩
  | lock => exact ⟨hm.executed, hm.done⟩
  | full => exact ⟨hm.executed, hm.done⟩
  | check => exact ⟨hm.executed, hm.done⟩
  | wake => exact ⟨hm.executed, hm.done⟩
  | count => exact ⟨hm.executed, hm.done⟩
  | Add => exact ⟨hm.executed, hm.done⟩
  | leave => exact ⟨hm.executed, hm.done⟩
  | Wait => exact ⟨hm.executed, hm.done⟩
  | waited => exact ⟨hm.executed, hm.done⟩
  | ResetTaskFailedCount => exact ⟨hm.executed, hm.done⟩
  | ResetTaskCount => exact ⟨hm.executed, hm.done⟩
  | Reset => exact ⟨hm.executed, hm.done⟩

theorem counted_step (hm : Counted m) (hreset : op ≠ .Reset) (h : m.step op = some m') :
    Counted m' := by
  cases stepped_of_step h with
  | @Add p t =>
    change cInt (m.nCounter + 1) = cInt (((m.added ++ [t]).length : Int) - m.done.length)
    rw [show m.nCounter = _ from hm, cInt_add, List.length_append, List.length_singleton]
    congr 1
    omega
  | @Done i t =>
    change cInt (m.nCounter + -1) = cInt ((m.added.length : Int) - (m.done ++ [t]).length)
    rw [show m.nCounter = _ from hm, cInt_add, List.length_append, List.length_singleton]
    congr 1
    omega
  | Reset => exact absurd rfl hreset
  | AddTask => exact hm
  | lock => exact hm
  | full => exact hm
  | check => exact hm
  | wake => exact hm
  | push => exact hm
  | count => exact hm
  | leave => exact hm
  | pop => exact hm
  | Execute => exact hm
  | uncount => exact hm
  | complete => exact hm
  | Wait => exact hm
  | waited => exact hm
  | ResetTaskFailedCount => exact hm
  | ResetTaskCount => exact hm

/-- A run from a manager that has been started, without a call of `Reset`. -/
abbrev NoResetRun (m m' : WaitGroupWorkerMgr τ) (ops : List (WaitGroupOp τ)) : Prop :=
  Runs step (fun _ op => ¬ Resets op) m ops m'

section Run
variable {n max : UInt32} {enabled : Bool}

theorem distinct (h : NoResetRun (new n enabled max) m ops) : Distinct m :=
  h.invariant Distinct (distinct_new n enabled max) fun _ _ _ hm _ hs => distinct_step hm hs

theorem producersTracked (h : NoResetRun (new n enabled max) m ops) : ProducersTracked m := by
  apply h.invariant ProducersTracked
  · refine ⟨?_, ?_, ?_⟩
    · intro p t hp
      cases hp
    · intro t ht
      cases ht
    · intro l hl
      cases hl
  · intro m op m' hm _ hs
    exact producersTracked_step hm hs

theorem workersTracked (h : NoResetRun (new n enabled max) m ops) : WorkersTracked m := by
  apply h.invariant WorkersTracked
  · refine ⟨?_, ?_⟩
    · intro i w hw r hr
      obtain rfl := List.eq_of_mem_replicate (List.mem_of_getElem? hw)
      cases hr
    · intro t ht
      cases ht
  · intro m op m' hm _ hs
    exact workersTracked_step hm hs

theorem counted (h : NoResetRun (new n enabled max) m ops) : Counted m := by
  apply h.invariant Counted counted_new
  intro m op m' hm hop hs
  apply counted_step hm _ hs
  intro heq
  rw [heq] at hop
  exact hop trivial

end Run

/-- When `Wait` returns in a state that is settled, every task whose call of `AddTask` had
returned before it has been executed. -/
theorem wait_waits {n max : UInt32} {enabled : Bool}
    (h : NoResetRun (new n enabled max) m ops) (hsettled : Settled m)
    (hwaited : m.step .waited = some m') :
    ∃ l, m.waiter = some l ∧ ∀ t ∈ l, ∃ failed, (t, failed) ∈ m.finished := by
  cases stepped_of_step hwaited with
  | @waited l hl hcount =>
    refine ⟨l, hl, ?_⟩
    intro t ht
    have hadded : t ∈ m.added := (producersTracked h).waiter l hl t ht
    have hdone : t ∈ m.done := added_done (distinct h) (counted h) hsettled hcount t hadded
    exact (workersTracked h).done t hdone

def roundOps : List (WaitGroupOp Unit) :=
  [.AddTask (), .lock (), .check (), .push (), .count (), .Add (), .leave (), .pop 1,
   .AddTask (), .lock (), .check (), .push (), .count (), .Wait, .Execute 1 false, .Add (),
   .leave (), .pop 0, .Execute 0 true, .uncount 0, .Done 0, .complete 0, .uncount 1, .Done 1]

theorem wait_waits_round : ∃ (m m' : WaitGroupWorkerMgr Unit) (ops : List (WaitGroupOp Unit)),
    NoResetRun (new 2 true 10) m ops ∧ Settled m ∧ m.step .waited = some m' ∧
      ∃ l, m.waiter = some l ∧ ∀ t ∈ l, ∃ failed, (t, failed) ∈ m.finished := by
  have hexec : ((exec step (fun _ op => ¬ Resets op) (new 2 true 10) roundOps).any fun m =>
      decide (Settled m) && (m.step .waited).isSome) = true := by decide
  obtain ⟨m, hrun, hcheck⟩ := exists_of_exec hexec
  obtain ⟨hsettled, hsome⟩ := Bool.and_eq_true_iff.mp hcheck
  obtain ⟨m', hm'⟩ := Option.isSome_iff_exists.mp hsome
  exact ⟨m, m', roundOps, hrun, of_decide_eq_true hsettled, hm',
    wait_waits hrun (of_decide_eq_true hsettled) hm'⟩

/-- The worker of a second task counts it down before its producer counts it up, and the first
task, which has been added but not executed, is counted too few. -/
def overtakenOps : List (WaitGroupOp Bool) :=
  [.AddTask false, .lock false, .check false, .push false, .count false, .Add false, .leave false,
   .Wait, .AddTask true, .lock true, .check true, .push true, .pop 0, .Execute 0 false, .uncount 0,
   .Done 0]

theorem wait_returns_early :
    ∃ (m m' : WaitGroupWorkerMgr Bool) (ops : List (WaitGroupOp Bool)) (l : List Nat) (t : Nat),
      NoResetRun (new 2 false 10) m ops ∧ m.step .waited = some m' ∧
        m.waiter = some l ∧ t ∈ l ∧ ∀ failed, (t, failed) ∉ m.finished := by
  have hexec : ((exec step (fun _ op => ¬ Resets op) (new 2 false 10) overtakenOps).any fun m =>
      (m.step .waited).isSome && decide (m.waiter = some [0]) &&
        decide (∀ failed, (0, failed) ∉ m.finished)) = true := by decide
  obtain ⟨m, hrun, hcheck⟩ := exists_of_exec hexec
  obtain ⟨hcheck, hfinished⟩ := Bool.and_eq_true_iff.mp hcheck
  obtain ⟨hsome, hwaiter⟩ := Bool.and_eq_true_iff.mp hcheck
  obtain ⟨m', hm'⟩ := Option.isSome_iff_exists.mp hsome
  exact ⟨m, m', overtakenOps, [0], 0, hrun, hm', of_decide_eq_true hwaiter,
    List.mem_singleton_self 0, of_decide_eq_true hfinished⟩

end WaitGroupWorkerMgr

end CppPrivate.Public
