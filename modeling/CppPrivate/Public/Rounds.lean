import CppPrivate.Public.Failures

/-! Rounds of one producer: it adds tasks, waits, reads the count of failed tasks and resets the
manager. The failures of a round are read in full if none is on its way at the read. -/
namespace CppPrivate.Public
open CppPrivate.Run

/-- How far the producer has come in its round. -/
inductive Main where
  | adding
  | waiting
  | waited
  | read (nTaskFailedCount : UInt32)
  | failedReset
  | countReset
deriving DecidableEq

/-- The manager in the rounds of its producer, with the number of the first task of the round. -/
structure Rounds where
  mgr : WaitGroupWorkerMgr Unit
  main : Main
  first : Nat

inductive RoundOp where
  | mgr (op : WaitGroupOp Unit)
  | GetTaskFailedCount
deriving DecidableEq

def WaitGroupOp.isWorker {τ : Type*} : WaitGroupOp τ → Bool
  | .pop _ | .Execute _ _ | .uncount _ | .Done _ | .complete _ => true
  | _ => false

/-- The thread of the producer makes its calls one after another. -/
def Main.next (x : Main) (idle : Bool) : WaitGroupOp Unit → Option Main
  | .pop _ | .Execute _ _ | .uncount _ | .Done _ | .complete _ => some x
  | .AddTask _ | .lock _ | .check _ | .wake _ | .push _ | .count _ | .Add _ | .leave _ =>
    if x = .adding then some .adding else none
  | .Wait => if x = .adding ∧ idle then some .waiting else none
  | .waited => if x = .waiting then some .waited else none
  | .ResetTaskFailedCount => if let .read _ := x then some .failedReset else none
  | .ResetTaskCount => if x = .failedReset then some .countReset else none
  | .Reset => if x = .countReset then some .adding else none

namespace Rounds
open WaitGroupWorkerMgr

def new (n : UInt32) (isEnableMaxTaskCount : Bool) (nWorkerMaxTaskCount : UInt32) : Rounds where
  mgr := WaitGroupWorkerMgr.new n isEnableMaxTaskCount nWorkerMaxTaskCount
  main := .adding
  first := 0

/-- A round ends where the count of failed tasks is reset. -/
def step (s : Rounds) : RoundOp → Option Rounds
  | .GetTaskFailedCount =>
    if s.main = .waited then some { s with main := .read s.mgr.nTaskFailedCount } else none
  | .mgr op =>
    match s.main.next (s.mgr.producers () = .idle) op, s.mgr.step op with
    | some main, some mgr =>
      some ⟨mgr, main, if op = .ResetTaskFailedCount then s.mgr.called else s.first⟩
    | _, _ => none

/-- The tasks that have been added since the last call of `Reset`. -/
def round (s : Rounds) : List Nat := List.range' s.first (s.mgr.called - s.first)

/-- No worker that has counted a failed task as done is still to count the failure. -/
def Still (m : WaitGroupWorkerMgr Unit) : Prop := ∀ w ∈ m.vecWorker, w.phase ≠ .done true

instance (m : WaitGroupWorkerMgr Unit) : Decidable (Still m) :=
  inferInstanceAs (Decidable (∀ _ ∈ _, _))

/-- The count of failed tasks is read when no failure is on its way. -/
def ReadsStill (s : Rounds) (op : RoundOp) : Prop :=
  op = .GetTaskFailedCount → Still s.mgr ∧ s.round.length < 2 ^ 31

instance (s : Rounds) (op : RoundOp) : Decidable (ReadsStill s op) :=
  inferInstanceAs (Decidable (_ → _))

variable {s s' : Rounds} {op : WaitGroupOp Unit}

theorem step_mgr (h : s.step (.mgr op) = some s') :
    s.main.next (s.mgr.producers () = .idle) op = some s'.main ∧ s.mgr.step op = some s'.mgr ∧
      s'.first = if op = .ResetTaskFailedCount then s.mgr.called else s.first := by
  simp only [step] at h
  split at h
  · rename_i main mgr hnext hstep
    obtain rfl := Option.some.inj h
    exact ⟨hnext, hstep, rfl⟩
  · cases h

theorem step_read {r : Rounds} (h : s.step .GetTaskFailedCount = some r) :
    s.main = .waited ∧ r = { s with main := .read s.mgr.nTaskFailedCount } := by
  simp only [step] at h
  split at h
  · rename_i hmain
    exact ⟨hmain, (Option.some.inj h).symm⟩
  · cases h

/-- What holds in every phase of a round that starts with the task `first`. -/
structure Tracked (first : Nat) (m : WaitGroupWorkerMgr Unit) : Prop where
  inOrder : InOrder m
  results : ResultsTracked m
  counted : Counted m
  le_called : first ≤ m.called
  before : ∀ t < first, t ∈ m.done
  failures : FailuresCounted first m

namespace Tracked
variable {first : Nat} {m m' : WaitGroupWorkerMgr Unit}

theorem placed (hm : Tracked first m) : m.placed.Nodup ∧ ∀ t ∈ m.placed, t < m.called := by
  have hperm := hm.inOrder.placed
  have hnodup := (hperm.nodup_iff.mpr List.nodup_range)
  refine ⟨(List.nodup_append.mp hnodup).1, ?_⟩
  intro t ht
  exact List.mem_range.mp (hperm.mem_iff.mp (List.mem_append_left _ ht))

/-- The tasks in flight belong to the round. -/
theorem inFlight (hm : Tracked first m) : ∀ t ∈ m.inFlight, first ≤ t := by
  intro t ht
  apply Nat.le_of_not_lt
  intro hlt
  have hdisjoint := (List.nodup_append.mp hm.placed.1).2.2
  exact hdisjoint t (hm.before t hlt) t ht rfl

theorem step (hm : Tracked first m) (hop : op ≠ .Reset) (hop' : op ≠ .ResetTaskFailedCount)
    (h : m.step op = some m') : Tracked first m' := by
  obtain ⟨hcalled, hdone⟩ := grows_step h
  refine ⟨inOrder_step hm.inOrder h, resultsTracked_step hm.results h, counted_step hm.counted hop h,
    Nat.le_trans hm.le_called hcalled, ?_, failuresCounted_step hm.failures hm.inFlight hop' h⟩
  intro t ht
  exact hdone (hm.before t ht)

/-- With no call of `AddTask` under way, every task has been counted up, and either been counted
as done or is in flight. -/
theorem idle (hm : Tracked first m) (hidle : m.producers () = .idle) :
    m.added = List.range m.called ∧ m.placed.Perm (List.range m.called) := by
  have hadded := hm.inOrder.added
  have hplaced := hm.inOrder.placed
  rw [hidle] at hadded hplaced
  simp only [Producer.unadded, Producer.ahead, Option.toList_none, List.append_nil] at hadded hplaced
  exact ⟨hadded, hplaced⟩

/-- When the counter has fallen to zero after fewer than `2^31` tasks, none is in flight. -/
theorem waited (hm : Tracked first m) (hidle : m.producers () = .idle) (hcount : m.nCounter ≤ 0)
    (hlt : m.called - first < 2 ^ 31) : m.inFlight = [] := by
  obtain ⟨hadded, hplaced⟩ := hm.idle hidle
  have hlength : m.done.length + m.inFlight.length = m.called := by
    rw [← List.length_append, ← List.length_range (n := m.called)]
    exact hplaced.length_eq
  have hfirst : first ≤ m.done.length := by
    rw [← List.length_range (n := first)]
    apply (List.Nodup.subperm List.nodup_range _).length_le
    intro t ht
    exact hm.before t (List.mem_range.mp ht)
  have hcounter : m.nCounter = (m.inFlight.length : Nat) := by
    rw [show m.nCounter = _ from hm.counted, hadded, List.length_range, ← hlength]
    rw [← cInt_of_lt (n := m.inFlight.length) (by omega)]
    congr 1
    omega
  apply List.eq_nil_of_length_eq_zero
  omega

end Tracked

/-- No call of `AddTask` is under way, no task is in flight, and no failure is to be counted. -/
structure Quiet (m : WaitGroupWorkerMgr Unit) : Prop where
  idle : m.producers () = .idle
  inFlight : m.inFlight = []
  pending : m.pending = 0

def InPhase (s : Rounds) : Main → Prop
  | .adding => True
  | .waiting => s.mgr.producers () = .idle
  | .waited => s.mgr.producers () = .idle ∧ (s.round.length < 2 ^ 31 → s.mgr.inFlight = [])
  | .read n => Quiet s.mgr ∧ s.round.length < 2 ^ 31 ∧ n = s.mgr.nTaskFailedCount
  | .failedReset | .countReset => Quiet s.mgr

structure Sound (s : Rounds) : Prop where
  tracked : Tracked s.first s.mgr
  phase : s.InPhase s.main

/-- A worker leaves the producer alone. -/
theorem worker_producers {m m' : WaitGroupWorkerMgr Unit} (hop : op.isWorker)
    (h : m.step op = some m') : m'.producers = m.producers ∧ m'.called = m.called := by
  cases stepped_of_step h with
  | pop => exact ⟨rfl, rfl⟩
  | Execute => exact ⟨rfl, rfl⟩
  | uncount => exact ⟨rfl, rfl⟩
  | Done => exact ⟨rfl, rfl⟩
  | complete => exact ⟨rfl, rfl⟩
  | _ => cases hop

theorem worker_inFlight {m m' : WaitGroupWorkerMgr Unit} (hop : op.isWorker)
    (hm : m.inFlight = []) (h : m.step op = some m') : m'.inFlight = [] := by
  cases inFlight_step hm h with
  | inl hnil => exact hnil
  | inr hpush =>
    obtain ⟨p, rfl⟩ := hpush
    cases hop

/-- Without tasks and failures, a worker can only become idle. -/
theorem worker_quiet {m m' : WaitGroupWorkerMgr Unit} (hop : op.isWorker) (hm : Quiet m)
    (h : m.step op = some m') : Quiet m' ∧ m'.nTaskFailedCount = m.nTaskFailedCount := by
  have hkeep := worker_producers hop h
  have hidle : m'.producers () = .idle := by
    rw [hkeep.1]
    exact hm.idle
  have hnil := worker_inFlight hop hm.inFlight h
  cases stepped_of_step h with
  | pop hw => cases tasks_nil hm.inFlight (List.mem_of_getElem? hw)
  | Execute hw => cases tasks_nil hm.inFlight (List.mem_of_getElem? hw)
  | uncount hw => cases tasks_nil hm.inFlight (List.mem_of_getElem? hw)
  | Done hw => cases tasks_nil hm.inFlight (List.mem_of_getElem? hw)
  | @complete i queue failed hw =>
    have hpending := pending_set ⟨queue, .idle⟩ hw
    rw [hm.pending] at hpending
    simp only [Phase.fails, Bool.toNat_false, add_zero] at hpending
    cases failed with
    | false => exact ⟨⟨hidle, hnil, hpending⟩, rfl⟩
    | true => cases hpending
  | _ => cases hop

theorem next_worker {x : Main} {idle : Bool} (hop : op.isWorker) : x.next idle op = some x := by
  cases op <;> first | rfl | cases hop

theorem inPhase_worker (hop : op.isWorker) (hs : s.InPhase s.main)
    (hstep : s.mgr.step op = some s'.mgr) (hfirst : s'.first = s.first) : s'.InPhase s.main := by
  obtain ⟨hproducers, hcalled⟩ := worker_producers hop hstep
  have hround : s'.round = s.round := by rw [round, round, hfirst, hcalled]
  cases hmain : s.main with
  | adding => trivial
  | waiting =>
    rw [hmain] at hs
    rw [InPhase, hproducers]
    exact hs
  | waited =>
    rw [hmain] at hs
    rw [InPhase, hproducers, hround]
    refine ⟨hs.1, ?_⟩
    intro hlt
    exact worker_inFlight hop (hs.2 hlt) hstep
  | read n =>
    rw [hmain] at hs
    obtain ⟨hquiet, hcount⟩ := worker_quiet hop hs.1 hstep
    rw [InPhase, hround, hcount]
    exact ⟨hquiet, hs.2⟩
  | failedReset =>
    rw [hmain] at hs
    exact (worker_quiet hop hs hstep).1
  | countReset =>
    rw [hmain] at hs
    exact (worker_quiet hop hs hstep).1

section Quiet
variable {first : Nat} {m m' : WaitGroupWorkerMgr Unit}

/-- In a quiet manager every task has been executed and counted as done. -/
theorem Tracked.done (hm : Tracked first m) (hquiet : Quiet m) :
    m.done.Perm (List.range m.called) := by
  have hplaced := (hm.idle hquiet.idle).2
  rw [WaitGroupWorkerMgr.placed, hquiet.inFlight, List.append_nil] at hplaced
  exact hplaced

theorem Tracked.finished (hm : Tracked first m) (hquiet : Quiet m) :
    (m.finished.map Prod.fst).Perm (List.range m.called) := by
  have hresults : (m.finished.map Prod.fst).Perm (m.done ++ m.executing) := hm.results
  rw [executing_nil hquiet.inFlight, List.append_nil] at hresults
  exact hresults.trans (hm.done hquiet)

/-- The next round starts without failures. -/
theorem Tracked.resetFailed (hm : Tracked first m) (hquiet : Quiet m) :
    Tracked m.called { m with nTaskFailedCount := 0 } := by
  refine ⟨⟨hm.inOrder.added, hm.inOrder.placed⟩, hm.results, hm.counted, Nat.le_refl _, ?_, 0, rfl, ?_⟩
  · intro t ht
    exact (hm.done hquiet).mem_iff.mpr (List.mem_range.mpr ht)
  · change 0 + m.pending = m.failuresFrom m.called
    rw [hquiet.pending]
    apply Eq.symm
    apply List.countP_eq_zero.mpr
    intro r hr
    have hmem := (hm.finished hquiet).mem_iff.mp (List.mem_map_of_mem hr)
    have hlt := List.mem_range.mp hmem
    simp only [Bool.and_eq_true, decide_eq_true_eq, not_and]
    omega

theorem Tracked.reset (hm : Tracked first m) (hquiet : Quiet m) :
    Tracked first { m with nCounter := 0 } := by
  refine ⟨⟨hm.inOrder.added, hm.inOrder.placed⟩, hm.results, ?_, hm.le_called, hm.before, hm.failures⟩
  have hadded := congrArg List.length (hm.idle hquiet.idle).1
  have hdone := (hm.done hquiet).length_eq
  simp only [Counted, hadded, hdone, sub_self]
  rfl

end Quiet

theorem sound_worker (hs : Sound s) (hop : op.isWorker) (h : s.step (.mgr op) = some s') :
    Sound s' := by
  obtain ⟨hnext, hstep, hfirst⟩ := step_mgr h
  have hreset : op ≠ .Reset ∧ op ≠ .ResetTaskFailedCount := by
    refine ⟨?_, ?_⟩
    · intro heq
      rw [heq] at hop
      cases hop
    · intro heq
      rw [heq] at hop
      cases hop
  rw [if_neg hreset.2] at hfirst
  rw [next_worker hop] at hnext
  refine ⟨?_, ?_⟩
  · rw [hfirst]
    exact hs.tracked.step hreset.1 hreset.2 hstep
  · rw [← Option.some.inj hnext]
    exact inPhase_worker hop hs.phase hstep hfirst

/-- While tasks are added nothing is known but what holds in every phase. -/
theorem sound_adding (hs : Sound s) (hmain : s'.main = .adding) (hop : op ≠ .Reset)
    (hop' : op ≠ .ResetTaskFailedCount) (h : s.step (.mgr op) = some s') : Sound s' := by
  obtain ⟨-, hstep, hfirst⟩ := step_mgr h
  rw [if_neg hop'] at hfirst
  refine ⟨?_, ?_⟩
  · rw [hfirst]
    exact hs.tracked.step hop hop' hstep
  · rw [hmain]
    trivial

theorem next_adding {x y : Main} (h : (if x = .adding then some Main.adding else none) = some y) :
    y = .adding := by
  split at h
  · exact (Option.some.inj h).symm
  · cases h

/-- A call that the main thread makes only where it has come to it. -/
theorem step_main {cond : Prop} [Decidable cond] {y : Main}
    (hnext : s.main.next (s.mgr.producers () = .idle) op = if cond then some y else none)
    (hop : op ≠ .ResetTaskFailedCount) (h : s.step (.mgr op) = some s') :
    ∃ mgr, cond ∧ s.mgr.step op = some mgr ∧ s' = ⟨mgr, y, s.first⟩ := by
  obtain ⟨hmain, hstep, hfirst⟩ := step_mgr h
  obtain ⟨mgr, main, first⟩ := s'
  rw [hnext] at hmain
  obtain ⟨hcond, hy⟩ := Option.ite_none_right_eq_some.mp hmain
  rw [if_neg hop] at hfirst
  obtain rfl : y = main := Option.some.inj hy
  obtain rfl : first = s.first := hfirst
  exact ⟨mgr, hcond, hstep, rfl⟩

theorem sound_Wait (hs : Sound s) (h : s.step (.mgr .Wait) = some s') : Sound s' := by
  obtain ⟨mgr, hcond, hstep, rfl⟩ := step_main rfl (by simp) h
  refine ⟨hs.tracked.step (by simp) (by simp) hstep, ?_⟩
  have hidle := of_decide_eq_true hcond.2
  cases stepped_of_step hstep with
  | Wait => exact hidle

theorem sound_waited (hs : Sound s) (h : s.step (.mgr .waited) = some s') : Sound s' := by
  obtain ⟨mgr, hmain, hstep, rfl⟩ := step_main rfl (by simp) h
  have hidle := hs.phase
  rw [hmain] at hidle
  refine ⟨hs.tracked.step (by simp) (by simp) hstep, ?_⟩
  cases stepped_of_step hstep with
  | waited hl hcount =>
    refine ⟨hidle, ?_⟩
    intro hlt
    simp only [round, List.length_range'] at hlt
    exact hs.tracked.waited hidle hcount hlt

theorem sound_resetFailed (hs : Sound s) (h : s.step (.mgr .ResetTaskFailedCount) = some s') :
    Sound s' := by
  obtain ⟨hnext, hstep, hfirst⟩ := step_mgr h
  obtain ⟨mgr, main, first⟩ := s'
  obtain rfl : first = s.mgr.called := hfirst
  cases hmain : s.main with
  | read n =>
    rw [hmain] at hnext
    obtain rfl := Option.some.inj hnext
    have hphase := hs.phase
    rw [hmain] at hphase
    cases stepped_of_step hstep with
    | ResetTaskFailedCount =>
      refine ⟨hs.tracked.resetFailed hphase.1, ?_⟩
      exact ⟨hphase.1.idle, hphase.1.inFlight, hphase.1.pending⟩
  | _ =>
    rw [hmain] at hnext
    cases hnext

theorem sound_resetCount (hs : Sound s) (h : s.step (.mgr .ResetTaskCount) = some s') :
    Sound s' := by
  obtain ⟨mgr, hmain, hstep, rfl⟩ := step_main rfl (by simp) h
  have hquiet := hs.phase
  rw [hmain] at hquiet
  refine ⟨hs.tracked.step (by simp) (by simp) hstep, ?_⟩
  cases stepped_of_step hstep with
  | ResetTaskCount => exact ⟨hquiet.idle, hquiet.inFlight, hquiet.pending⟩

theorem sound_reset (hs : Sound s) (h : s.step (.mgr .Reset) = some s') : Sound s' := by
  obtain ⟨mgr, hmain, hstep, rfl⟩ := step_main rfl (by simp) h
  have hquiet := hs.phase
  rw [hmain] at hquiet
  cases stepped_of_step hstep with
  | Reset => exact ⟨hs.tracked.reset hquiet, trivial⟩

theorem sound_mgr (hs : Sound s) (h : s.step (.mgr op) = some s') : Sound s' := by
  obtain ⟨hnext, hstep, hfirst⟩ := step_mgr h
  cases op with
  | pop i => exact sound_worker hs rfl h
  | Execute i failed => exact sound_worker hs rfl h
  | uncount i => exact sound_worker hs rfl h
  | Done i => exact sound_worker hs rfl h
  | complete i => exact sound_worker hs rfl h
  | AddTask p => exact sound_adding hs (next_adding hnext) (by simp) (by simp) h
  | lock p => exact sound_adding hs (next_adding hnext) (by simp) (by simp) h
  | check p => exact sound_adding hs (next_adding hnext) (by simp) (by simp) h
  | wake p => exact sound_adding hs (next_adding hnext) (by simp) (by simp) h
  | push p => exact sound_adding hs (next_adding hnext) (by simp) (by simp) h
  | count p => exact sound_adding hs (next_adding hnext) (by simp) (by simp) h
  | Add p => exact sound_adding hs (next_adding hnext) (by simp) (by simp) h
  | leave p => exact sound_adding hs (next_adding hnext) (by simp) (by simp) h
  | Wait => exact sound_Wait hs h
  | waited => exact sound_waited hs h
  | ResetTaskFailedCount => exact sound_resetFailed hs h
  | ResetTaskCount => exact sound_resetCount hs h
  | Reset => exact sound_reset hs h

theorem sound_read (hs : Sound s) (hstill : ReadsStill s .GetTaskFailedCount)
    (h : s.step .GetTaskFailedCount = some s') : Sound s' := by
  obtain ⟨hmain, rfl⟩ := step_read h
  obtain ⟨hdone, hlt⟩ := hstill rfl
  obtain ⟨hidle, hwaited⟩ : s.InPhase .waited := hmain ▸ hs.phase
  refine ⟨hs.tracked, ?_⟩
  have hquiet : Quiet s.mgr := ⟨hidle, hwaited hlt, pending_nil (hwaited hlt) hdone⟩
  exact ⟨hquiet, hlt, rfl⟩

variable {n max : UInt32} {enabled : Bool} {ops : List RoundOp}

theorem sound_new : Sound (new n enabled max) := by
  have hflight : (WaitGroupWorkerMgr.new n enabled max : WaitGroupWorkerMgr Unit).inFlight = [] :=
    (List.append_eq_nil_iff.mp (placed_new n enabled max)).2
  refine ⟨⟨inOrder_new n enabled max, ?_, counted_new, Nat.le_refl _, ?_, 0, rfl, ?_⟩, trivial⟩
  · have hnone := executing_nil hflight
    rw [ResultsTracked]
    exact hnone ▸ .refl _
  · intro t ht
    cases ht
  · rw [Nat.zero_add]
    apply pending_nil hflight
    intro w hw
    rw [List.eq_of_mem_replicate hw]
    exact Phase.noConfusion

theorem sound (h : Runs step ReadsStill (new n enabled max) ops s) : Sound s := by
  apply h.invariant Sound sound_new
  intro s op s' hs hstill hstep
  cases op with
  | mgr op => exact sound_mgr hs hstep
  | GetTaskFailedCount => exact sound_read hs hstill hstep

/-- The tasks of a quiet round that have failed are those found among all the results. -/
theorem failuresFrom_round (htracked : Tracked s.first s.mgr) (hquiet : Quiet s.mgr) :
    s.mgr.failuresFrom s.first =
      (s.round.filter fun t => decide ((t, true) ∈ s.mgr.finished)).length := by
  have hfinished := htracked.finished hquiet
  rw [failuresFrom, List.countP_eq_length_filter, ← List.length_map Prod.fst]
  apply List.Perm.length_eq
  apply (List.perm_ext_iff_of_nodup _ _).mpr
  · intro t
    simp only [List.mem_map, List.mem_filter, Bool.and_eq_true, decide_eq_true_eq, round,
      List.mem_range'_1]
    constructor
    · intro hcase
      obtain ⟨⟨u, failed⟩, ⟨hr, rfl, hfirst⟩, rfl⟩ := hcase
      have hmem := hfinished.mem_iff.mp (List.mem_map_of_mem hr)
      have hlt := List.mem_range.mp hmem
      refine ⟨⟨hfirst, ?_⟩, hr⟩
      omega
    · intro hcase
      obtain ⟨⟨hfirst, -⟩, hr⟩ := hcase
      exact ⟨(t, true), ⟨hr, rfl, hfirst⟩, rfl⟩
  · exact (hfinished.nodup_iff.mpr List.nodup_range).sublist (List.filter_sublist.map _)
  · exact List.Nodup.filter _ List.nodup_range'

/-- If in each round no failure is on its way when the count of failed tasks is read, every task
of the round has been executed by then, and the count is that of its failed tasks. -/
theorem failed_count_of_round (h : Runs step ReadsStill (new n enabled max) ops s) {k : UInt32}
    (hmain : s.main = .read k) :
    (∀ t ∈ s.round, ∃ failed, (t, failed) ∈ s.mgr.finished) ∧
      k.toNat = (s.round.filter fun t => decide ((t, true) ∈ s.mgr.finished)).length := by
  have hs := sound h
  obtain ⟨hquiet, hlt, hcount⟩ : s.InPhase (.read k) := hmain ▸ hs.phase
  refine ⟨?_, ?_⟩
  · intro t ht
    have hround := List.mem_range'_1.mp ht
    have hmem : t ∈ s.mgr.finished.map Prod.fst := by
      apply (hs.tracked.finished hquiet).mem_iff.mpr
      exact List.mem_range.mpr (by omega)
    obtain ⟨⟨u, failed⟩, hr, rfl⟩ := List.mem_map.mp hmem
    exact ⟨failed, hr⟩
  · have hround := failuresFrom_round hs.tracked hquiet
    have hle := List.length_filter_le (fun t => decide ((t, true) ∈ s.mgr.finished)) s.round
    obtain ⟨c, hc, hsum⟩ := hs.tracked.failures
    rw [hquiet.pending, Nat.add_zero, hround] at hsum
    rw [hcount, hc, ← hsum, UInt32.toNat_ofNat']
    apply Nat.mod_eq_of_lt
    omega

/-- A task is added, given to the only worker, executed and counted as done. -/
def taskOps (failed : Bool) : List RoundOp :=
  [.AddTask (), .lock (), .check (), .push (), .count (), .Add (), .leave (), .pop 0,
    .Execute 0 failed, .uncount 0, .Done 0].map .mgr

/-- A round with a failed task and a reset, and one with a task that does not fail. -/
def twoRounds : List RoundOp :=
  taskOps true ++ [.mgr (.complete 0), .mgr .Wait, .mgr .waited, .GetTaskFailedCount,
    .mgr .ResetTaskFailedCount, .mgr .ResetTaskCount, .mgr .Reset] ++
    taskOps false ++ [.mgr .Wait, .mgr .waited, .GetTaskFailedCount]

theorem failed_count_of_two_rounds : ∃ (s : Rounds) (k : UInt32),
    Runs step ReadsStill (new 1 true 10) twoRounds s ∧ s.main = .read k ∧ k = 0 ∧
      (∀ t ∈ s.round, ∃ failed, (t, failed) ∈ s.mgr.finished) ∧
      k.toNat = (s.round.filter fun t => decide ((t, true) ∈ s.mgr.finished)).length := by
  have hexec : ((exec step ReadsStill (new 1 true 10) twoRounds).any fun s =>
      decide (s.main = .read 0)) = true := by decide
  obtain ⟨s, hrun, hmain⟩ := exists_of_exec hexec
  have hread := of_decide_eq_true hmain
  exact ⟨s, 0, hrun, hread, rfl, failed_count_of_round hrun hread⟩

/-- The count is read before the worker raises it: the failure is missed, and the next round, in
which no task fails, reads it. -/
def lateRounds : List RoundOp :=
  taskOps true ++ [.mgr .Wait, .mgr .waited, .GetTaskFailedCount, .mgr .ResetTaskFailedCount,
    .mgr (.complete 0), .mgr .ResetTaskCount, .mgr .Reset] ++
    taskOps false ++ [.mgr .Wait, .mgr .waited, .GetTaskFailedCount]

theorem failure_charged_to_next_round :
    (∃ (s : Rounds), Runs step (fun _ _ => True) (new 1 false 10) (lateRounds.take 14) s ∧
      s.main = .read 0 ∧
      (s.round.filter fun t => decide ((t, true) ∈ s.mgr.finished)).length = 1) ∧
    ∃ (s : Rounds), Runs step (fun _ _ => True) (new 1 false 10) lateRounds s ∧
      s.main = .read 1 ∧
      (s.round.filter fun t => decide ((t, true) ∈ s.mgr.finished)).length = 0 := by
  constructor
  · have hexec : ((exec step (fun _ _ => True) (new 1 false 10) (lateRounds.take 14)).any fun s =>
        decide (s.main = .read 0) && decide
          ((s.round.filter fun t => decide ((t, true) ∈ s.mgr.finished)).length = 1)) = true := by
      decide
    obtain ⟨s, hrun, hcheck⟩ := exists_of_exec hexec
    obtain ⟨hmain, hlength⟩ := Bool.and_eq_true_iff.mp hcheck
    exact ⟨s, hrun, of_decide_eq_true hmain, of_decide_eq_true hlength⟩
  · have hexec : ((exec step (fun _ _ => True) (new 1 false 10) lateRounds).any fun s =>
        decide (s.main = .read 1) && decide
          ((s.round.filter fun t => decide ((t, true) ∈ s.mgr.finished)).length = 0)) = true := by
      decide
    obtain ⟨s, hrun, hcheck⟩ := exists_of_exec hexec
    obtain ⟨hmain, hlength⟩ := Bool.and_eq_true_iff.mp hcheck
    exact ⟨s, hrun, of_decide_eq_true hmain, of_decide_eq_true hlength⟩

end Rounds

end CppPrivate.Public
