import CppPrivate.Public.TimeTicker
import CppPrivate.Workpool.Manager

/-! The threads of the workers of a pool. They are detached; the destructor of the pool tells the
workers to stop and destroys them, whatever their threads do. -/
namespace CppPrivate.Workpool
open CppPrivate.Run CppPrivate.Public

/-- How far a thread has come in `Run`, and in `Handle` and `pop` below it. -/
inductive ThreadPhase where
  | test
  | pop
  | blocked
  | Execute (t : Task)
  | report
  | close
  | left
deriving DecidableEq

structure Threaded where
  isEnable : Bool
  queue : List Task
  phase : ThreadPhase
deriving DecidableEq

/-- How far the owner has come in the loop of `Stop`, which the destructor runs first. -/
inductive PoolOwner where
  | running
  | stopping (i : Nat) (last : Bool)
  | destructed
deriving DecidableEq

structure Detached where
  nWorkerCount : UInt32
  vecWorker : List Threaded
  owner : PoolOwner
  /-- A thread has made a step on its worker after the destructor of the pool had returned. -/
  touched : Bool
deriving DecidableEq

inductive DetachedOp where
  | SetWorkerCount (n : UInt32)
  | Start
  | AddTask (i : Nat) (t : Task)
  | Stop
  | destruct
  | owner
  | thread (i : Nat)
deriving DecidableEq

/-- The next step of the thread is one on its worker. The end of `Execute` is not. -/
def ThreadPhase.touches : ThreadPhase → Bool
  | .Execute _ | .left => false
  | _ => true

/-- The steps of `Run`. A thread that waits in `pop` may wake up at any time. -/
def Threaded.step (w : Threaded) : Option Threaded :=
  match w.phase, w.queue with
  | .test, _ => some { w with phase := if w.isEnable then .pop else .close }
  | .pop, [] => some { w with phase := .blocked }
  | .pop, t :: queue => some { w with queue, phase := .Execute t }
  | .blocked, _ => some { w with phase := .pop }
  | .Execute _, _ => some { w with phase := .report }
  | .report, _ => some { w with phase := .test }
  | .close, _ => some { w with phase := .left }
  | .left, _ => none

namespace Detached

/-- A pool after `Init` with `n` workers. -/
def new (n : UInt32) : Detached := ⟨n, [], .running, false⟩

/-- The next step of the owner in `Stop`. The destructor clears the vector after it. -/
def stepOwner (m : Detached) : Option Detached :=
  match m.owner with
  | .stopping i last =>
    if i < m.nWorkerCount.toNat then
      m.vecWorker[i]?.map fun w => { m with
        vecWorker := m.vecWorker.set i { w with isEnable := false }
        owner := .stopping (i + 1) last }
    else some { m with owner := if last then .destructed else .running }
  | _ => none

def step (m : Detached) : DetachedOp → Option Detached
  | .SetWorkerCount n =>
    if m.owner = .running then some { m with nWorkerCount := n } else none
  | .Start =>
    if m.owner = .running then some { m with
      vecWorker := m.vecWorker ++ List.replicate m.nWorkerCount.toNat ⟨true, [], .test⟩ }
    else none
  | .AddTask i t =>
    if m.owner = .running then m.vecWorker[i]?.map fun w =>
      { m with vecWorker := m.vecWorker.set i { w with queue := w.queue ++ [t] } }
    else none
  | .Stop => if m.owner = .running then some { m with owner := .stopping 0 false } else none
  | .destruct => if m.owner = .running then some { m with owner := .stopping 0 true } else none
  | .owner => m.stepOwner
  | .thread i =>
    m.vecWorker[i]?.bind fun w => w.step.map fun v => { m with
      vecWorker := m.vecWorker.set i v
      touched := m.touched || w.phase.touches && decide (m.owner = .destructed) }

/-- Whatever follows, no thread makes a step on its destroyed worker. -/
def Untouched (m : Detached) : Prop :=
  ∀ ops m', Runs step (fun _ _ => True) m ops m' → m'.touched = false

/-- There is a worker `i`, and it has the property. -/
def At (m : Detached) (i : Nat) (p : Threaded → Prop) : Prop := ∃ w, m.vecWorker[i]? = some w ∧ p w

/-- The owner has cleared the flag of the worker `i`, in `Stop` or in the destructor. -/
def Cleared (n : UInt32) (i : Nat) (ops : List DetachedOp) : Prop :=
  Happened step (fun _ _ => True) (new n) (fun _ m op => op = .owner ∧
    ∃ last, m.owner = .stopping i last ∧ i < m.nWorkerCount.toNat) ops

/-- Its thread has tested the flag since. -/
def Noticed (n : UInt32) (i : Nat) (ops : List DetachedOp) : Prop :=
  Happened step (fun _ _ => True) (new n) (fun pre m op => op = .thread i ∧
    m.At i (·.phase = .test) ∧ Cleared n i pre) ops

/-- It has taken the step after that as well, in which it leaves `Run`. -/
def Finished (n : UInt32) (i : Nat) (ops : List DetachedOp) : Prop :=
  Happened step (fun _ _ => True) (new n) (fun pre _ op => op = .thread i ∧ Noticed n i pre) ops

inductive Changed (m : Detached) : DetachedOp → List Threaded → Prop
  | none {op : DetachedOp} : (∀ i, op ≠ .thread i) →
      (op = .owner → ∀ i last, m.owner = .stopping i last → m.nWorkerCount.toNat ≤ i) →
      Changed m op m.vecWorker
  | start : Changed m .Start
      (m.vecWorker ++ List.replicate m.nWorkerCount.toNat ⟨true, [], .test⟩)
  | push {i : Nat} {t : Task} {w : Threaded} : m.vecWorker[i]? = some w →
      Changed m (.AddTask i t) (m.vecWorker.set i { w with queue := w.queue ++ [t] })
  | clear {i : Nat} {last : Bool} {w : Threaded} : m.owner = .stopping i last →
      i < m.nWorkerCount.toNat → m.vecWorker[i]? = some w →
      Changed m .owner (m.vecWorker.set i { w with isEnable := false })
  | thread {i : Nat} {w v : Threaded} : m.vecWorker[i]? = some w → w.step = some v →
      Changed m (.thread i) (m.vecWorker.set i v)

/-- The worker `i` waits for a task, and the destructor has been called. -/
def Waiting (i : Nat) (m : Detached) : Prop :=
  (∃ w, m.vecWorker[i]? = some w ∧ w.queue = [] ∧ (w.phase = .pop ∨ w.phase = .blocked)) ∧
    (m.owner = .destructed ∨ ∃ k, m.owner = .stopping k true)

variable {m m' : Detached} {op : DetachedOp} {ops : List DetachedOp} {i : Nat} {w v : Threaded}

theorem changed_of_step (h : m.step op = some m') : Changed m op m'.vecWorker := by
  cases op with
  | SetWorkerCount n =>
    simp only [step, Option.ite_none_right_eq_some, Option.some.injEq] at h
    obtain ⟨-, rfl⟩ := h
    exact .none nofun nofun
  | Start =>
    simp only [step, Option.ite_none_right_eq_some, Option.some.injEq] at h
    obtain ⟨-, rfl⟩ := h
    exact .start
  | AddTask i t =>
    simp only [step, Option.ite_none_right_eq_some, Option.map_eq_some_iff] at h
    obtain ⟨-, w, hw, rfl⟩ := h
    exact .push hw
  | Stop =>
    simp only [step, Option.ite_none_right_eq_some, Option.some.injEq] at h
    obtain ⟨-, rfl⟩ := h
    exact .none nofun nofun
  | destruct =>
    simp only [step, Option.ite_none_right_eq_some, Option.some.injEq] at h
    obtain ⟨-, rfl⟩ := h
    exact .none nofun nofun
  | owner =>
    simp only [step, stepOwner] at h
    split at h
    · rename_i i last howner
      split at h
      · rename_i hlt
        obtain ⟨w, hw, rfl⟩ := Option.map_eq_some_iff.mp h
        exact .clear howner hlt hw
      · rename_i hge
        cases h
        refine .none nofun fun _ j last' hj => ?_
        rw [howner] at hj
        cases hj
        exact Nat.le_of_not_lt hge
    · cases h
  | thread i =>
    obtain ⟨w, hw, h⟩ := Option.bind_eq_some_iff.mp h
    obtain ⟨v, hv, rfl⟩ := Option.map_eq_some_iff.mp h
    exact .thread hw hv

section At
variable {p : Threaded → Prop} {j : Nat}

theorem at_self (hw : m.vecWorker[i]? = some w) : m.At i p ↔ p w := by
  simp [At, hw]

theorem at_start {k : Nat} {u : Threaded} (hvec : m'.vecWorker = m.vecWorker ++ List.replicate k u)
    (hu : ¬ p u) : m'.At i p ↔ m.At i p := by
  rw [At, At, hvec]
  constructor
  · intro h
    obtain ⟨w, hw, hp⟩ := h
    rw [List.getElem?_append] at hw
    split at hw
    · exact ⟨w, hw, hp⟩
    · rw [List.eq_of_mem_replicate (List.mem_of_getElem? hw)] at hp
      exact absurd hp hu
  · intro h
    obtain ⟨w, hw, hp⟩ := h
    exact ⟨w, by rw [List.getElem?_append_left (List.getElem?_eq_some_iff.mp hw).1, hw], hp⟩

theorem at_set (hw : m.vecWorker[j]? = some w) (hvec : m'.vecWorker = m.vecWorker.set j v) :
    m'.At i p ↔ if j = i then p v else m.At i p := by
  rw [At, At, hvec]
  by_cases hij : j = i
  · subst hij
    have hlen := (List.getElem?_eq_some_iff.mp hw).1
    simp [List.getElem?_set_self hlen]
  · rw [List.getElem?_set_ne hij, if_neg hij]

/-- Another property of the worker does not change. -/
theorem at_set_of_iff (hw : m.vecWorker[j]? = some w) (hvec : m'.vecWorker = m.vecWorker.set j v)
    (hp : p v ↔ p w) : m'.At i p ↔ m.At i p := by
  rw [at_set hw hvec]
  split
  · rename_i hij
    subst hij
    rw [at_self hw, hp]
  · rfl

end At

theorem step_isEnable (h : w.step = some v) : v.isEnable = w.isEnable := by
  obtain ⟨isEnable, queue, phase⟩ := w
  cases phase with
  | pop => cases queue <;> (cases h; rfl)
  | left => cases h
  | _ =>
    cases h
    rfl

/-- A thread comes to its end when it finds the flag cleared, and leaves in the step after that. -/
theorem step_phase (h : w.step = some v) :
    ((v.phase = .close ∨ v.phase = .left) ↔
      (w.phase = .close ∨ w.phase = .left) ∨ w.phase = .test ∧ w.isEnable = false) ∧
    (v.phase = .left ↔ w.phase = .close) ∧ w.phase ≠ .left := by
  obtain ⟨isEnable, queue, phase⟩ := w
  cases phase with
  | test =>
    cases h
    cases isEnable <;> simp
  | pop => cases queue <;> (cases h; simp)
  | left => cases h
  | _ =>
    cases h
    simp

theorem cleared_iff {n : UInt32} (h : Runs step (fun _ _ => True) (new n) ops m) :
    Cleared n i ops ↔ m.At i (·.isEnable = false) := by
  induction h with
  | nil => simp [Cleared, not_happened_nil, At, new]
  | @snoc ops m m' op hr _ hs ih =>
    rw [Cleared, happened_snoc hr]
    refine (or_congr_left ih).trans ?_
    have hc := changed_of_step hs
    generalize hvec : m'.vecWorker = v at hc
    cases hc with
    | none _ howner =>
      simp only [At, hvec]
      refine or_iff_left fun hclear => ?_
      obtain ⟨hop, last, hi, hlt⟩ := hclear
      exact Nat.not_lt.mpr (howner hop i last hi) hlt
    | start => simp [at_start hvec]
    | push hw => simp [at_set_of_iff (p := (·.isEnable = false)) hw hvec Iff.rfl]
    | @clear j last w hj hlt hw =>
      rw [at_set hw hvec, hj]
      by_cases hij : j = i
      · subst hij
        simp [hlt]
      · simp [hij]
    | thread hw hv =>
      have hsame := at_set_of_iff (i := i) (p := (·.isEnable = false)) hw hvec (by rw [step_isEnable hv])
      simp [hsame]

theorem noticed_iff {n : UInt32} (h : Runs step (fun _ _ => True) (new n) ops m) :
    Noticed n i ops ↔ m.At i fun w => w.phase = .close ∨ w.phase = .left := by
  induction h with
  | nil => simp [Noticed, not_happened_nil, At, new]
  | @snoc ops m m' op hr _ hs ih =>
    rw [Noticed, happened_snoc hr]
    refine (or_congr_left ih).trans ?_
    have hc := changed_of_step hs
    generalize hvec : m'.vecWorker = v at hc
    cases hc with
    | none hthread => simp [At, hvec, hthread]
    | start => simp [at_start hvec]
    | push hw =>
      simp [at_set_of_iff (p := fun w => w.phase = .close ∨ w.phase = .left) hw hvec Iff.rfl]
    | clear _ _ hw =>
      simp [at_set_of_iff (p := fun w => w.phase = .close ∨ w.phase = .left) hw hvec Iff.rfl]
    | @thread j w v hw hv =>
      rw [at_set hw hvec, cleared_iff hr]
      by_cases hij : j = i
      · subst hij
        simp only [at_self hw, if_true, true_and]
        exact (step_phase hv).1.symm
      · simp [hij]

theorem finished_iff {n : UInt32} (h : Runs step (fun _ _ => True) (new n) ops m) :
    Finished n i ops ↔ m.At i (·.phase = .left) := by
  induction h with
  | nil => simp [Finished, not_happened_nil, At, new]
  | @snoc ops m m' op hr _ hs ih =>
    rw [Finished, happened_snoc hr]
    refine (or_congr_left ih).trans ?_
    have hc := changed_of_step hs
    generalize hvec : m'.vecWorker = v at hc
    cases hc with
    | none hthread => simp [At, hvec, hthread]
    | start => simp [at_start hvec]
    | push hw => simp [at_set_of_iff (p := (·.phase = .left)) hw hvec Iff.rfl]
    | clear _ _ hw => simp [at_set_of_iff (p := (·.phase = .left)) hw hvec Iff.rfl]
    | @thread j w v hw hv =>
      rw [at_set hw hvec, noticed_iff hr]
      by_cases hij : j = i
      · subst hij
        obtain ⟨-, hleft, hne⟩ := step_phase hv
        simp [at_self hw, hleft, hne]
      · simp [hij]

theorem touched_step (hm : m.owner ≠ .destructed → m.touched = false) (h : m.step op = some m') :
    m'.owner ≠ .destructed → m'.touched = false := by
  cases op with
  | SetWorkerCount n =>
    simp only [step, Option.ite_none_right_eq_some, Option.some.injEq] at h
    obtain ⟨-, rfl⟩ := h
    exact hm
  | Start =>
    simp only [step, Option.ite_none_right_eq_some, Option.some.injEq] at h
    obtain ⟨-, rfl⟩ := h
    exact hm
  | AddTask i t =>
    simp only [step, Option.ite_none_right_eq_some, Option.map_eq_some_iff] at h
    obtain ⟨-, w, -, rfl⟩ := h
    exact hm
  | Stop =>
    simp only [step, Option.ite_none_right_eq_some, Option.some.injEq] at h
    obtain ⟨hrun, rfl⟩ := h
    exact fun _ => hm (by simp [hrun])
  | destruct =>
    simp only [step, Option.ite_none_right_eq_some, Option.some.injEq] at h
    obtain ⟨hrun, rfl⟩ := h
    exact fun _ => hm (by simp [hrun])
  | owner =>
    simp only [step, stepOwner] at h
    split at h
    · rename_i i last howner
      have hfalse : m.touched = false := hm (by simp [howner])
      split at h
      · obtain ⟨w, -, rfl⟩ := Option.map_eq_some_iff.mp h
        exact fun _ => hfalse
      · cases h
        exact fun _ => hfalse
    · cases h
  | thread i =>
    obtain ⟨w, -, h⟩ := Option.bind_eq_some_iff.mp h
    obtain ⟨v, -, rfl⟩ := Option.map_eq_some_iff.mp h
    intro hne
    have hne : m.owner ≠ .destructed := hne
    simp [hm hne, hne]

theorem untouched_before {n : UInt32} (h : Runs step (fun _ _ => True) (new n) ops m) :
    m.owner ≠ .destructed → m.touched = false := by
  apply h.invariant fun m : Detached => m.owner ≠ .destructed → m.touched = false
  · exact fun _ => rfl
  · intro m op m' hm _ hs
    exact touched_step hm hs

/-- When the destructor has returned and every thread has left, nothing happens any more. -/
theorem step_left (howner : m.owner = .destructed) (hleft : ∀ w ∈ m.vecWorker, w.phase = .left) :
    m.step op = none := by
  cases op with
  | SetWorkerCount n => simp [step, howner]
  | Start => simp [step, howner]
  | AddTask i t => simp [step, howner]
  | Stop => simp [step, howner]
  | destruct => simp [step, howner]
  | owner => simp [step, stepOwner, howner]
  | thread i =>
    cases hw : m.vecWorker[i]? with
    | none => simp [step, hw]
    | some w =>
      have hphase := hleft w (List.mem_of_getElem? hw)
      simp [step, hw, Threaded.step, hphase]

theorem run_left (howner : m.owner = .destructed) (hleft : ∀ w ∈ m.vecWorker, w.phase = .left)
    (h : Runs step (fun _ _ => True) m ops m') : m' = m :=
  h.of_stuck fun _ => step_left howner hleft

theorem step_isSome (hne : w.phase ≠ .left) : ∃ v, w.step = some v := by
  obtain ⟨isEnable, queue, phase⟩ := w
  cases phase with
  | pop => cases queue <;> exact ⟨_, rfl⟩
  | left => exact absurd rfl hne
  | _ => exact ⟨_, rfl⟩

theorem step_thread (hw : m.vecWorker[i]? = some w) (hv : w.step = some v) :
    m.step (.thread i) = some { m with
      vecWorker := m.vecWorker.set i v
      touched := m.touched || w.phase.touches && decide (m.owner = .destructed) } := by
  rw [step, hw, Option.bind_some, hv]
  rfl

theorem touches_of_touches (howner : m.owner = .destructed) (hw : m.vecWorker[i]? = some w)
    (htouches : w.phase.touches = true) :
    ∃ ops m', Runs step (fun _ _ => True) m ops m' ∧ m'.touched = true := by
  have hne : w.phase ≠ .left := by
    intro heq
    rw [heq] at htouches
    cases htouches
  obtain ⟨v, hv⟩ := step_isSome hne
  exact ⟨_, _, Runs.nil.snoc trivial (step_thread hw hv), by simp [htouches, howner]⟩

/-- A thread that has not left makes a step on its worker, at the latest when it has executed its
task. -/
theorem touches_of_not_left (howner : m.owner = .destructed) (hw : m.vecWorker[i]? = some w)
    (hne : w.phase ≠ .left) :
    ∃ ops m', Runs step (fun _ _ => True) m ops m' ∧ m'.touched = true := by
  by_cases htouches : w.phase.touches = true
  · exact touches_of_touches howner hw htouches
  · cases hphase : w.phase with
    | Execute t =>
      have hv : w.step = some { w with phase := .report } := by simp [Threaded.step, hphase]
      have hlen := (List.getElem?_eq_some_iff.mp hw).1
      obtain ⟨ops, u, hrun, htouched⟩ := touches_of_touches (m := { m with
        vecWorker := m.vecWorker.set i { w with phase := .report }
        touched := m.touched || w.phase.touches && decide (m.owner = .destructed) }) howner
        (List.getElem?_set_self hlen) rfl
      exact ⟨_, u, Runs.cons trivial (step_thread hw hv) hrun, htouched⟩
    | left => exact absurd hphase hne
    | _ => exact absurd (by rw [hphase]; rfl) htouches

theorem finished_all {n : UInt32} (h : Runs step (fun _ _ => True) (new n) ops m) :
    (∀ i < m.vecWorker.length, Finished n i ops) ↔ ∀ w ∈ m.vecWorker, w.phase = .left := by
  rw [List.forall_mem_iff_getElem]
  refine forall_congr' fun i => forall_congr' fun hi => ?_
  rw [finished_iff h, at_self (List.getElem?_eq_getElem hi)]

/-- The workers are left alone after the destructor has returned exactly if every thread had left
its loop when the destructor was about to clear the vector, hence exactly if each of them had tested
the flag after it was cleared, and had taken one more step. -/
theorem untouched_iff {n : UInt32} {k : Nat} (h : Runs step (fun _ _ => True) (new n) ops m)
    (hlast : m.owner = .stopping k true) (hk : m.nWorkerCount.toNat ≤ k)
    (hs : m.step .owner = some m') :
    m'.Untouched ↔ ∀ i < m.vecWorker.length, Finished n i ops := by
  simp only [step, stepOwner, hlast, if_neg (Nat.not_lt.mpr hk), if_true, Option.some.injEq] at hs
  subst hs
  rw [finished_all h]
  constructor
  · intro huntouched w hw
    by_contra hne
    obtain ⟨i, hi⟩ := List.getElem?_of_mem hw
    obtain ⟨ops', u, hrun, htouched⟩ := touches_of_not_left (m := { m with
      owner := .destructed }) rfl hi hne
    rw [huntouched ops' u hrun] at htouched
    cases htouched
  · intro hleft ops' u hrun
    rw [run_left (m := { m with owner := .destructed }) rfl hleft hrun]
    have hbefore : m.touched = false := untouched_before h (by simp [hlast])
    exact hbefore

/-- A worker that waits on an empty queue when the destructor is called waits on: the owner adds no
task any more. -/
theorem waiting_step (hm : Waiting i m) (h : m.step op = some m') : Waiting i m' := by
  obtain ⟨⟨w, hw, hqueue, hphase⟩, howner⟩ := hm
  have hrun : m.owner ≠ .running := by
    rcases howner with howner | ⟨k, howner⟩ <;> simp [howner]
  have hlen := (List.getElem?_eq_some_iff.mp hw).1
  -- a step of one thread, or of the owner, on the worker `j`
  have hset : ∀ (j : Nat) (u v : Threaded), m.vecWorker[j]? = some u →
      (j = i → v.queue = [] ∧ (v.phase = .pop ∨ v.phase = .blocked)) →
      ∃ w, (m.vecWorker.set j v)[i]? = some w ∧ w.queue = [] ∧
        (w.phase = .pop ∨ w.phase = .blocked) := by
    intro j u v _ hv
    by_cases hij : j = i
    · subst hij
      exact ⟨v, List.getElem?_set_self hlen, hv rfl⟩
    · exact ⟨w, by rw [List.getElem?_set_ne hij]; exact hw, hqueue, hphase⟩
  cases op with
  | SetWorkerCount n => simp [step, hrun] at h
  | Start => simp [step, hrun] at h
  | AddTask j t => simp [step, hrun] at h
  | Stop => simp [step, hrun] at h
  | destruct => simp [step, hrun] at h
  | owner =>
    rcases howner with howner | ⟨k, howner⟩
    · simp [step, stepOwner, howner] at h
    · simp only [step, stepOwner, howner] at h
      split at h
      · obtain ⟨u, hu, rfl⟩ := Option.map_eq_some_iff.mp h
        refine ⟨hset k u { u with isEnable := false } hu ?_, Or.inr ⟨k + 1, rfl⟩⟩
        intro heq
        subst heq
        obtain rfl := Option.some.inj (hu.symm.trans hw)
        exact ⟨hqueue, hphase⟩
      · obtain rfl := Option.some.inj h
        exact ⟨⟨w, hw, hqueue, hphase⟩, Or.inl rfl⟩
  | thread j =>
    obtain ⟨u, hu, h⟩ := Option.bind_eq_some_iff.mp h
    obtain ⟨v, hv, rfl⟩ := Option.map_eq_some_iff.mp h
    refine ⟨hset j u v hu ?_, howner⟩
    intro heq
    subst heq
    obtain rfl := Option.some.inj (hu.symm.trans hw)
    cases hphase with
    | inl hpop =>
      simp only [Threaded.step, hpop, hqueue, Option.some.injEq] at hv
      subst hv
      exact ⟨rfl, Or.inr rfl⟩
    | inr hblocked =>
      simp only [Threaded.step, hblocked, Option.some.injEq] at hv
      subst hv
      exact ⟨hqueue, Or.inl rfl⟩

/-- Hence its thread makes a step on the destroyed worker in no matter which run. -/
theorem waiting_touched (hm : Waiting i m) (h : Runs step (fun _ _ => True) m ops m')
    (howner : m'.owner = .destructed) : ¬ m'.Untouched := by
  have hwaiting : Waiting i m' :=
    h.invariant (Waiting i) hm fun _ _ _ hm _ hs => waiting_step hm hs
  obtain ⟨⟨w, hw, -, hphase⟩, -⟩ := hwaiting
  have hne : w.phase ≠ .left := by
    rcases hphase with hphase | hphase <;> simp [hphase]
  obtain ⟨ops', u, hrun, htouched⟩ := touches_of_not_left howner hw hne
  intro huntouched
  rw [huntouched ops' u hrun] at htouched
  cases htouched

end Detached

/-- The threads of a pool and of a ticker leave the destroyed objects alone exactly if, before the
last step of the destructor, each of them has tested the flag after it had been cleared, and a
worker's has taken the step after that. -/
theorem detached_untouched (n : UInt32) :
    (∀ (ops : List DetachedOp) (m m' : Detached) (k : Nat),
      Runs Detached.step (fun _ _ => True) (Detached.new n) ops m →
      m.owner = .stopping k true → m.nWorkerCount.toNat ≤ k → m.step .owner = some m' →
      (m'.Untouched ↔ ∀ i < m.vecWorker.length, Detached.Finished n i ops)) ∧
    ∀ (ops : List TickerOp) (m m' : TimeTicker),
      Runs TimeTicker.step (fun _ _ => True) TimeTicker.new ops m →
      m.owner = .locked true → m.step .owner = some m' →
      (m'.Untouched ↔ ∀ i < m.threads.length, TimeTicker.Noticed i ops) :=
  ⟨fun _ _ _ _ h hlast hk hs => Detached.untouched_iff h hlast hk hs,
    fun _ _ _ h hlast hs => TimeTicker.untouched_iff h hlast hs⟩

/-- The worker executes a task and sees that it has been stopped before the pool is destroyed. -/
def leftOps : List DetachedOp :=
  [.Start, .thread 0, .AddTask 0 ⟨0, none⟩, .thread 0, .Stop, .owner, .owner, .thread 0, .thread 0,
   .thread 0, .thread 0, .destruct, .owner]

def leftTickerOps : List TickerOp :=
  [.start, .thread 0, .thread 0, .thread 0, .stop, .owner, .owner, .thread 0, .thread 0, .destruct,
   .owner]

theorem detached_untouched_left :
    (∃ m m', Runs Detached.step (fun _ _ => True) (Detached.new 1) leftOps m ∧
      m.step .owner = some m' ∧ m'.owner = .destructed ∧ m'.vecWorker.length = 1 ∧
        m'.Untouched) ∧
    ∃ m m', Runs TimeTicker.step (fun _ _ => True) TimeTicker.new leftTickerOps m ∧
      m.step .owner = some m' ∧ m'.owner = .destructed ∧ m'.threads.length = 1 ∧
        m'.Untouched := by
  have hpool : ((exec Detached.step (fun _ _ => True) (Detached.new 1) leftOps).any fun m =>
      decide (m.owner = .stopping 1 true ∧ m.nWorkerCount.toNat ≤ 1 ∧
        (∀ w ∈ m.vecWorker, w.phase = .left)) && (m.step .owner).any fun m' =>
          decide (m'.owner = .destructed ∧ m'.vecWorker.length = 1)) = true := by decide
  have hticker : ((exec TimeTicker.step (fun _ _ => True) TimeTicker.new leftTickerOps).any fun m =>
      decide (m.owner = .locked true ∧ (∀ x ∈ m.threads, x = .left)) && (m.step .owner).any
        fun m' => decide (m'.owner = .destructed ∧ m'.threads.length = 1)) = true := by decide
  obtain ⟨m, hm, hcheck⟩ := exists_of_exec hpool
  obtain ⟨hstate, hstep⟩ := Bool.and_eq_true_iff.mp hcheck
  obtain ⟨hlast, hk, hleft⟩ := of_decide_eq_true hstate
  obtain ⟨m', hm', hend⟩ := (Option.any_eq_true _ _).mp hstep
  obtain ⟨hd, hlength⟩ := of_decide_eq_true hend
  obtain ⟨g, hg, hcheck'⟩ := exists_of_exec hticker
  obtain ⟨hstate', hstep'⟩ := Bool.and_eq_true_iff.mp hcheck'
  obtain ⟨hlast', hleft'⟩ := of_decide_eq_true hstate'
  obtain ⟨g', hg', hend'⟩ := (Option.any_eq_true _ _).mp hstep'
  obtain ⟨hd', hlength'⟩ := of_decide_eq_true hend'
  obtain ⟨h1, h2⟩ := detached_untouched 1
  exact ⟨⟨m, m', hm, hm', hd, hlength, (h1 _ _ _ _ hm hlast hk hm').mpr ((Detached.finished_all hm).mpr hleft)⟩,
    ⟨g, g', hg, hg', hd', hlength', (h2 _ _ _ hg hlast' hg').mpr ((TimeTicker.noticed_all hg).mpr hleft')⟩⟩

/-- The worker executes a task, and the ticker sleeps, when the destructor is called. -/
theorem detached_touched :
    (∃ m, Runs Detached.step (fun _ _ => True) (Detached.new 1)
      [.Start, .AddTask 0 ⟨0, none⟩, .thread 0, .thread 0, .destruct, .owner, .owner, .thread 0] m ∧
        m.owner = .destructed ∧ ∃ m', m.step (.thread 0) = some m' ∧ m'.touched = true) ∧
    ∃ m, Runs TimeTicker.step (fun _ _ => True) TimeTicker.new
      [.start, .thread 0, .thread 0, .thread 0, .destruct, .owner, .owner, .thread 0] m ∧
        m.owner = .destructed ∧ ∃ m', m.step (.thread 0) = some m' ∧ m'.touched = true := by
  have hpool : ((exec Detached.step (fun _ _ => True) (Detached.new 1)
      [.Start, .AddTask 0 ⟨0, none⟩, .thread 0, .thread 0, .destruct, .owner, .owner,
        .thread 0]).any fun m => decide (m.owner = .destructed) &&
          (m.step (.thread 0)).any fun m' => m'.touched) = true := by decide
  have hticker : ((exec TimeTicker.step (fun _ _ => True) TimeTicker.new
      [.start, .thread 0, .thread 0, .thread 0, .destruct, .owner, .owner, .thread 0]).any fun m =>
        decide (m.owner = .destructed) && (m.step (.thread 0)).any fun m' => m'.touched) = true := by
    decide
  obtain ⟨m, hm, hcheck⟩ := exists_of_exec hpool
  obtain ⟨hd, hstep⟩ := Bool.and_eq_true_iff.mp hcheck
  obtain ⟨m', hm', htouched⟩ := (Option.any_eq_true _ _).mp hstep
  obtain ⟨g, hg, hcheck'⟩ := exists_of_exec hticker
  obtain ⟨hd', hstep'⟩ := Bool.and_eq_true_iff.mp hcheck'
  obtain ⟨g', hg', htouched'⟩ := (Option.any_eq_true _ _).mp hstep'
  exact ⟨⟨m, hm, of_decide_eq_true hd, m', hm', htouched⟩,
    ⟨g, hg, of_decide_eq_true hd', g', hg', htouched'⟩⟩

end CppPrivate.Workpool
