import CppPrivate.Public.Waiting

/-! The failed tasks of a manager. A worker raises the count of failed tasks after it has counted
its task as done, so that a failure can still be on its way when no task is left. -/
namespace CppPrivate.Public
open CppPrivate.Run

def Phase.fails : Phase → Bool
  | .executed _ failed | .uncounted _ failed | .done failed => failed
  | _ => false

/-- The task that a producer has not yet counted up. -/
def Producer.unadded : Producer → Option Nat
  | .idle | .added _ => none
  | .called t | .waiting t _ | .selected t _ | .checked t _ | .pushed t | .counted t => some t

namespace WaitGroupWorkerMgr

section One
variable {m m' : WaitGroupWorkerMgr Unit} {op : WaitGroupOp Unit}

/-- The tasks of one producer are counted up and pushed in the order of their numbers. -/
structure InOrder (m : WaitGroupWorkerMgr Unit) : Prop where
  added : m.added ++ (m.producers ()).unadded.toList = List.range m.called
  placed : (m.placed ++ (m.producers ()).ahead.toList).Perm (List.range m.called)

theorem inOrder_new (n : UInt32) (enabled : Bool) (max : UInt32) :
    InOrder (new n enabled max) := by
  refine ⟨rfl, ?_⟩
  rw [placed_new]
  exact .refl _

theorem added_kept {p : Unit} {x y : Producer} (hm : InOrder m) (hp : m.producers p = y)
    (hprod : m'.producers = Function.update m.producers p x) (hx : x.unadded = y.unadded)
    (hadded : m'.added = m.added) (hcalled : m'.called = m.called) :
    m'.added ++ (m'.producers ()).unadded.toList = List.range m'.called := by
  have hself : m'.producers () = x := by
    rw [hprod]
    exact Function.update_self p x m.producers
  rw [hself, hx, ← hp, hadded, hcalled]
  exact hm.added

theorem added_step (hm : InOrder m) (h : m.step op = some m') :
    m'.added ++ (m'.producers ()).unadded.toList = List.range m'.called := by
  cases stepped_of_step h with
  | @AddTask p hp =>
    have hadded : m.added ++ (m.producers p).unadded.toList = List.range m.called := hm.added
    rw [hp] at hadded
    simp only [Producer.unadded, Option.toList_none, List.append_nil] at hadded
    simp [setProducer, Producer.unadded, hadded, List.range_succ]
  | @Add p t hp =>
    have hadded : m.added ++ (m.producers p).unadded.toList = List.range m.called := hm.added
    rw [hp] at hadded
    simpa [setProducer, Producer.unadded] using hadded
  | lock hp => exact added_kept hm hp rfl rfl rfl rfl
  | full hp => exact added_kept hm hp rfl rfl rfl rfl
  | check hp => exact added_kept hm hp rfl rfl rfl rfl
  | wake hp => exact added_kept hm hp rfl rfl rfl rfl
  | push hp => exact added_kept hm hp rfl rfl rfl rfl
  | count hp => exact added_kept hm hp rfl rfl rfl rfl
  | leave hp => exact added_kept hm hp rfl rfl rfl rfl
  | pop => exact hm.added
  | Execute => exact hm.added
  | uncount => exact hm.added
  | Done => exact hm.added
  | complete => exact hm.added
  | Wait => exact hm.added
  | waited => exact hm.added
  | ResetTaskFailedCount => exact hm.added
  | ResetTaskCount => exact hm.added
  | Reset => exact hm.added

theorem inOrder_step (hm : InOrder m) (h : m.step op = some m') : InOrder m' := by
  refine ⟨added_step hm h, ?_⟩
  have hold := hm.placed
  rcases places_step h with ⟨p, hnone, hcalled, hplaced, hprod⟩ |
    ⟨p, t, hahead, hcalled, hplaced, hprod⟩ | ⟨hcalled, hplaced, hprod⟩
  · rw [hnone, Option.toList_none, List.append_nil] at hold
    rw [hplaced, hprod, hcalled, List.range_succ]
    simp only [Function.update_self]
    exact hold.append_right _
  · rw [hahead] at hold
    rw [hprod, hcalled]
    simp only [Function.update_self, Producer.ahead, Option.toList_none, List.append_nil]
    exact hplaced.trans ((List.perm_append_singleton t m.placed).symm.trans hold)
  · rw [hprod, hcalled]
    exact (hplaced.append_right _).trans hold

end One

variable {τ : Type*} {m m' : WaitGroupWorkerMgr τ} {op : WaitGroupOp τ}

def executing (m : WaitGroupWorkerMgr τ) : List Nat :=
  m.vecWorker.flatMap fun w => (w.phase.result.map Prod.fst).toList

/-- A task is executed once, and before it is counted as done. -/
def ResultsTracked (m : WaitGroupWorkerMgr τ) : Prop :=
  (m.finished.map Prod.fst).Perm (m.done ++ m.executing)

def pending (m : WaitGroupWorkerMgr τ) : Nat := m.vecWorker.countP fun w => w.phase.fails

/-- The failed tasks from a number on. -/
def failuresFrom (m : WaitGroupWorkerMgr τ) (first : Nat) : Nat :=
  m.finished.countP fun r => r.2 && decide (first ≤ r.1)

/-- The failures from a number on have been counted, or are to be counted. -/
def FailuresCounted (first : Nat) (m : WaitGroupWorkerMgr τ) : Prop :=
  ∃ k, m.nTaskFailedCount = UInt32.ofNat k ∧ k + m.pending = m.failuresFrom first

theorem executing_set {i : Nat} {w : Worker} (w' : Worker) (h : m.vecWorker[i]? = some w) :
    ((m.setWorker i w').executing ++ (w.phase.result.map Prod.fst).toList).Perm
      (m.executing ++ (w'.phase.result.map Prod.fst).toList) :=
  flatMap_set_perm (fun w : Worker => (w.phase.result.map Prod.fst).toList) w' h

theorem pending_set {i : Nat} {w : Worker} (w' : Worker) (h : m.vecWorker[i]? = some w) :
    (m.setWorker i w').pending + w.phase.fails.toNat = m.pending + w'.phase.fails.toNat := by
  obtain ⟨hlt, hw⟩ := List.getElem?_eq_some_iff.mp h
  have hpos : w.phase.fails → 0 < m.pending := by
    intro hf
    exact List.countP_pos_iff.mpr ⟨w, List.mem_of_getElem? h, hf⟩
  simp only [setWorker, pending, List.countP_set hlt, hw] at hpos ⊢
  cases hf : w.phase.fails with
  | false => cases w'.phase.fails <;> simp
  | true =>
    have hle := hpos hf
    cases w'.phase.fails with
    | false => simp; omega
    | true => simp; omega

/-- A worker that keeps its result, or has none before and after, keeps the results. -/
theorem ResultsTracked.setWorker {i : Nat} {w : Worker} (w' : Worker) (hm : ResultsTracked m)
    (hw : m.vecWorker[i]? = some w) (hvec : m'.vecWorker = m.vecWorker.set i w')
    (hresult : w'.phase.result = w.phase.result) (hfinished : m'.finished = m.finished)
    (hdone : m'.done = m.done) : ResultsTracked m' := by
  have hset := executing_set w' hw
  rw [hresult] at hset
  have hsame : m'.executing.Perm m.executing := by
    rw [executing, hvec]
    exact (List.perm_append_right_iff _).mp hset
  rw [ResultsTracked, hfinished, hdone]
  exact hm.trans (hsame.symm.append_left m.done)

theorem resultsTracked_step [DecidableEq τ] (hm : ResultsTracked m) (h : m.step op = some m') :
    ResultsTracked m' := by
  cases stepped_of_step h with
  | @push p t i w hp hw =>
    exact hm.setWorker { w with queue := w.queue ++ [t] } hw rfl rfl rfl rfl
  | @pop i t queue hw => exact hm.setWorker ⟨queue, .popped t⟩ hw rfl rfl rfl rfl
  | @uncount i t queue failed hw =>
    exact hm.setWorker ⟨queue, .uncounted t failed⟩ hw rfl rfl rfl rfl
  | @complete i queue failed hw => exact hm.setWorker ⟨queue, .idle⟩ hw rfl rfl rfl rfl
  | @Execute i t queue failed hw =>
    have hset := executing_set ⟨queue, .executed t failed⟩ hw
    simp only [Phase.result, Option.map_none, Option.toList_none, List.append_nil, Option.map_some,
      Option.toList_some] at hset
    have hmap := hm.append_right [t]
    rw [List.append_assoc] at hmap
    simp only [ResultsTracked, List.map_append]
    exact hmap.trans (hset.symm.append_left m.done)
  | @Done i t queue failed hw =>
    have hset := executing_set ⟨queue, .done failed⟩ hw
    simp only [Phase.result, Option.map_none, Option.toList_none, List.append_nil, Option.map_some,
      Option.toList_some] at hset
    have hmove := (hset.symm.trans List.perm_append_comm).append_left m.done
    simp only [ResultsTracked, List.append_assoc]
    exact hm.trans hmove
  | AddTask => exact hm
  | lock => exact hm
  | full => exact hm
  | check => exact hm
  | wake => exact hm
  | count => exact hm
  | Add => exact hm
  | leave => exact hm
  | Wait => exact hm
  | waited => exact hm
  | ResetTaskFailedCount => exact hm
  | ResetTaskCount => exact hm
  | Reset => exact hm

theorem failuresFrom_finish {first t : Nat} {failed : Bool} (hfirst : first ≤ t)
    (hfinished : m'.finished = m.finished ++ [(t, failed)]) :
    m'.failuresFrom first = m.failuresFrom first + failed.toNat := by
  cases failed <;> simp [failuresFrom, hfinished, hfirst]

/-- A worker whose phase is to count the same failures leaves the counts alone. -/
theorem FailuresCounted.setWorker {first i : Nat} {w : Worker} (w' : Worker)
    (hm : FailuresCounted first m) (hw : m.vecWorker[i]? = some w)
    (hvec : m'.vecWorker = m.vecWorker.set i w') (hfails : w'.phase.fails = w.phase.fails)
    (hfinished : m'.finished = m.finished)
    (hcount : m'.nTaskFailedCount = m.nTaskFailedCount) : FailuresCounted first m' := by
  obtain ⟨k, hk, hsum⟩ := hm
  have hset := pending_set w' hw
  have hpending : m'.pending = (m.setWorker i w').pending := congrArg (List.countP _) hvec
  rw [hfails] at hset
  refine ⟨k, hcount.trans hk, ?_⟩
  rw [failuresFrom, hfinished, ← failuresFrom, ← hsum]
  omega

theorem failuresCounted_step [DecidableEq τ] {first : Nat} (hm : FailuresCounted first m)
    (hflight : ∀ t ∈ m.inFlight, first ≤ t) (hreset : op ≠ .ResetTaskFailedCount)
    (h : m.step op = some m') : FailuresCounted first m' := by
  cases stepped_of_step h with
  | @push p t i w hp hw =>
    exact hm.setWorker { w with queue := w.queue ++ [t] } hw rfl rfl rfl rfl
  | @pop i t queue hw => exact hm.setWorker ⟨queue, .popped t⟩ hw rfl rfl rfl rfl
  | @uncount i t queue failed hw =>
    exact hm.setWorker ⟨queue, .uncounted t failed⟩ hw rfl rfl rfl rfl
  | @Done i t queue failed hw => exact hm.setWorker ⟨queue, .done failed⟩ hw rfl rfl rfl rfl
  | @Execute i t queue failed hw =>
    obtain ⟨k, hk, hsum⟩ := hm
    have hset := pending_set ⟨queue, .executed t failed⟩ hw
    have hfirst : first ≤ t := by
      apply hflight
      exact List.mem_flatMap.mpr ⟨_, List.mem_of_getElem? hw, List.mem_cons_self⟩
    refine ⟨k, hk, ?_⟩
    rw [failuresFrom_finish hfirst rfl, ← hsum]
    change k + (m.setWorker i ⟨queue, .executed t failed⟩).pending = _
    simp only [Phase.fails, Bool.toNat_false, add_zero] at hset
    omega
  | @complete i queue failed hw =>
    obtain ⟨k, hk, hsum⟩ := hm
    have hset := pending_set ⟨queue, .idle⟩ hw
    refine ⟨k + failed.toNat, ?_, ?_⟩
    · change (if failed then m.nTaskFailedCount + 1 else m.nTaskFailedCount) = _
      rw [hk]
      cases failed with
      | false => rfl
      | true => exact (UInt32.ofNat_add k 1).symm
    · change _ + (m.setWorker i ⟨queue, .idle⟩).pending = m.failuresFrom first
      simp only [Phase.fails, Bool.toNat_false, add_zero] at hset
      omega
  | ResetTaskFailedCount => exact absurd rfl hreset
  | AddTask => exact hm
  | lock => exact hm
  | full => exact hm
  | check => exact hm
  | wake => exact hm
  | count => exact hm
  | Add => exact hm
  | leave => exact hm
  | Wait => exact hm
  | waited => exact hm
  | ResetTaskCount => exact hm
  | Reset => exact hm

theorem inFlight_nil {i : Nat} {w : Worker} (w' : Worker) (hm : m.inFlight = [])
    (hw : m.vecWorker[i]? = some w) (htasks : w'.tasks = w.tasks)
    (hvec : m'.vecWorker = m.vecWorker.set i w') : m'.inFlight = [] := by
  have hsame := inFlight_same hw htasks
  rw [hm] at hsame
  rw [inFlight, hvec]
  exact hsame.eq_nil

/-- A manager without tasks stays so until a producer pushes one. -/
theorem inFlight_step [DecidableEq τ] (hm : m.inFlight = []) (h : m.step op = some m') :
    m'.inFlight = [] ∨ ∃ p, op = .push p := by
  cases stepped_of_step h with
  | @push p => exact Or.inr ⟨p, rfl⟩
  | pop hw => exact Or.inl (inFlight_nil ⟨_, .popped _⟩ hm hw rfl rfl)
  | Execute hw => exact Or.inl (inFlight_nil ⟨_, .executed _ _⟩ hm hw rfl rfl)
  | uncount hw => exact Or.inl (inFlight_nil ⟨_, .uncounted _ _⟩ hm hw rfl rfl)
  | complete hw => exact Or.inl (inFlight_nil ⟨_, .idle⟩ hm hw rfl rfl)
  | Done hw =>
    have hflight := inFlight_Done hw
    rw [hm] at hflight
    exact absurd hflight.nil_eq (List.cons_ne_nil _ _).symm
  | AddTask => exact Or.inl hm
  | lock => exact Or.inl hm
  | full => exact Or.inl hm
  | check => exact Or.inl hm
  | wake => exact Or.inl hm
  | count => exact Or.inl hm
  | Add => exact Or.inl hm
  | leave => exact Or.inl hm
  | Wait => exact Or.inl hm
  | waited => exact Or.inl hm
  | ResetTaskFailedCount => exact Or.inl hm
  | ResetTaskCount => exact Or.inl hm
  | Reset => exact Or.inl hm

/-- Tasks are never taken back, neither by producers nor by workers. -/
theorem grows_step [DecidableEq τ] (h : m.step op = some m') :
    m.called ≤ m'.called ∧ m.done ⊆ m'.done := by
  cases stepped_of_step h with
  | AddTask => exact ⟨Nat.le_succ _, List.Subset.refl _⟩
  | Done => exact ⟨Nat.le_refl _, List.subset_append_left _ _⟩
  | lock => exact ⟨Nat.le_refl _, List.Subset.refl _⟩
  | full => exact ⟨Nat.le_refl _, List.Subset.refl _⟩
  | check => exact ⟨Nat.le_refl _, List.Subset.refl _⟩
  | wake => exact ⟨Nat.le_refl _, List.Subset.refl _⟩
  | push => exact ⟨Nat.le_refl _, List.Subset.refl _⟩
  | count => exact ⟨Nat.le_refl _, List.Subset.refl _⟩
  | Add => exact ⟨Nat.le_refl _, List.Subset.refl _⟩
  | leave => exact ⟨Nat.le_refl _, List.Subset.refl _⟩
  | pop => exact ⟨Nat.le_refl _, List.Subset.refl _⟩
  | Execute => exact ⟨Nat.le_refl _, List.Subset.refl _⟩
  | uncount => exact ⟨Nat.le_refl _, List.Subset.refl _⟩
  | complete => exact ⟨Nat.le_refl _, List.Subset.refl _⟩
  | Wait => exact ⟨Nat.le_refl _, List.Subset.refl _⟩
  | waited => exact ⟨Nat.le_refl _, List.Subset.refl _⟩
  | ResetTaskFailedCount => exact ⟨Nat.le_refl _, List.Subset.refl _⟩
  | ResetTaskCount => exact ⟨Nat.le_refl _, List.Subset.refl _⟩
  | Reset => exact ⟨Nat.le_refl _, List.Subset.refl _⟩

/-- A worker of a manager without tasks has none. -/
theorem tasks_nil {w : Worker} (hm : m.inFlight = []) (hw : w ∈ m.vecWorker) : w.tasks = [] :=
  List.flatMap_eq_nil_iff.mp hm w hw

theorem executing_nil (hm : m.inFlight = []) : m.executing = [] := by
  apply List.flatMap_eq_nil_iff.mpr
  intro w hw
  have htasks := tasks_nil hm hw
  obtain ⟨queue, phase⟩ := w
  cases phase with
  | executed t failed => cases htasks
  | uncounted t failed => cases htasks
  | idle => rfl
  | popped t => rfl
  | done failed => rfl

theorem pending_nil (hm : m.inFlight = []) (hdone : ∀ w ∈ m.vecWorker, w.phase ≠ .done true) :
    m.pending = 0 := by
  apply List.countP_eq_zero.mpr
  intro w hw
  have htasks := tasks_nil hm hw
  have hphase := hdone w hw
  obtain ⟨queue, phase⟩ := w
  cases phase with
  | executed t failed => cases htasks
  | uncounted t failed => cases htasks
  | idle => exact Bool.false_ne_true
  | popped t => exact Bool.false_ne_true
  | done failed =>
    cases failed with
    | false => exact Bool.false_ne_true
    | true => exact absurd rfl hphase

end WaitGroupWorkerMgr

end CppPrivate.Public
