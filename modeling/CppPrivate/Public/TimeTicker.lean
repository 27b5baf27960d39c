import CppPrivate.Lib.Run

/-! The thread of a `TimeTicker`. It is detached, and looks whether it is to go on only after it has
slept; the destructor does not wait for it. -/
namespace CppPrivate.Public
open CppPrivate.Run

inductive TickerPhase where
  | test
  | lock
  | timers
  | sleep
  | left
deriving DecidableEq

/-- How far the owner has come in `stop`, which the destructor calls last. -/
inductive TickerOwner where
  | running
  | stored (last : Bool)
  | locked (last : Bool)
  | destructed
deriving DecidableEq

inductive TickerHolder where
  | owner
  | thread (i : Nat)
deriving DecidableEq

structure TimeTicker where
  isEnable : Bool
  mutex : Option TickerHolder
  threads : List TickerPhase
  owner : TickerOwner
  /-- A thread has made a step on the ticker after its destructor had returned. -/
  touched : Bool
deriving DecidableEq

inductive TickerOp where
  | start
  | stop
  | destruct
  | owner
  | thread (i : Nat)
deriving DecidableEq

namespace TimeTicker

def new : TimeTicker := ⟨false, none, [], .running, false⟩

/-- Every step of a thread but the end of its sleep is one on the ticker. -/
def setThread (m : TimeTicker) (i : Nat) (x : TickerPhase) (touches : Bool) : TimeTicker :=
  { m with
    threads := m.threads.set i x
    touched := m.touched || touches && decide (m.owner = .destructed) }

/-- The steps of `run`. The callbacks of the timers are called while the mutex is held. -/
def stepThread (m : TimeTicker) (i : Nat) : TickerPhase → Option TimeTicker
  | .test => some (m.setThread i (if m.isEnable then .lock else .left) true)
  | .lock =>
    match m.mutex with
    | none => some { m.setThread i .timers true with mutex := some (.thread i) }
    | some _ => none
  | .timers => some { m.setThread i .sleep true with mutex := none }
  | .sleep => some (m.setThread i .test false)
  | .left => none

/-- The steps of `stop`: it stores the flag, takes the mutex, and clears the timers. -/
def stepOwner (m : TimeTicker) : Option TimeTicker :=
  match m.owner, m.mutex with
  | .stored last, none => some { m with owner := .locked last, mutex := some .owner }
  | .locked last, _ =>
    some { m with owner := if last then .destructed else .running, mutex := none }
  | _, _ => none

def step (m : TimeTicker) : TickerOp → Option TimeTicker
  | .start =>
    if m.owner = .running then some { m with isEnable := true, threads := m.threads ++ [.test] }
    else none
  | .stop =>
    if m.owner = .running then some { m with isEnable := false, owner := .stored false } else none
  | .destruct =>
    if m.owner = .running then some { m with isEnable := false, owner := .stored true } else none
  | .owner => m.stepOwner
  | .thread i => m.threads[i]?.bind (m.stepThread i)

/-- Whatever follows, no thread makes a step on the destroyed ticker. -/
def Untouched (m : TimeTicker) : Prop :=
  ∀ ops m', Runs step (fun _ _ => True) m ops m' → m'.touched = false

/-- The flag has been cleared, by `stop` or by the destructor, and not set again. -/
def Stopped (ops : List TickerOp) : Prop :=
  ∃ pre op post, ops = pre ++ op :: post ∧ (op = .stop ∨ op = .destruct) ∧ .start ∉ post

/-- The thread `i` has tested the flag after it had been cleared for good. -/
def Noticed (i : Nat) (ops : List TickerOp) : Prop :=
  Happened step (fun _ _ => True) new
    (fun pre m op => op = .thread i ∧ m.threads[i]? = some .test ∧ Stopped pre) ops

/-- What a step does to the flag and to the threads. -/
inductive Moved (m m' : TimeTicker) : TickerOp → Prop
  | start : m'.isEnable = true → m'.threads = m.threads ++ [.test] → Moved m m' .start
  | clear {op : TickerOp} : op = .stop ∨ op = .destruct → m'.isEnable = false →
      m'.threads = m.threads → Moved m m' op
  | owner : m'.isEnable = m.isEnable → m'.threads = m.threads → Moved m m' .owner
  | thread {i : Nat} {x y : TickerPhase} : m.threads[i]? = some x → x ≠ .left →
      (y = .left ↔ x = .test ∧ m.isEnable = false) → m'.isEnable = m.isEnable →
      m'.threads = m.threads.set i y → Moved m m' (.thread i)

variable {m m' : TimeTicker} {op : TickerOp} {ops : List TickerOp} {i : Nat} {x : TickerPhase}

theorem moved_of_step (h : m.step op = some m') : Moved m m' op := by
  cases op with
  | start =>
    simp only [step, Option.ite_none_right_eq_some, Option.some.injEq] at h
    obtain ⟨-, rfl⟩ := h
    exact .start rfl rfl
  | stop =>
    simp only [step, Option.ite_none_right_eq_some, Option.some.injEq] at h
    obtain ⟨-, rfl⟩ := h
    exact .clear (.inl rfl) rfl rfl
  | destruct =>
    simp only [step, Option.ite_none_right_eq_some, Option.some.injEq] at h
    obtain ⟨-, rfl⟩ := h
    exact .clear (.inr rfl) rfl rfl
  | owner =>
    simp only [step, stepOwner] at h
    split at h
    · cases h
      exact .owner rfl rfl
    · cases h
      exact .owner rfl rfl
    · cases h
  | thread i =>
    obtain ⟨x, hx, h⟩ := Option.bind_eq_some_iff.mp h
    cases x with
    | test =>
      cases h
      refine .thread hx nofun ?_ rfl rfl
      by_cases hflag : m.isEnable = true <;> simp [hflag]
    | lock =>
      simp only [stepThread] at h
      split at h
      · cases h
        exact .thread hx nofun (by simp) rfl rfl
      · cases h
    | timers =>
      cases h
      exact .thread hx nofun (by simp) rfl rfl
    | sleep =>
      cases h
      exact .thread hx nofun (by simp) rfl rfl
    | left => cases h

theorem stopped_snoc :
    Stopped (ops ++ [op]) ↔ (op = .stop ∨ op = .destruct) ∨ op ≠ .start ∧ Stopped ops := by
  constructor
  · intro h
    obtain ⟨pre, o, post, heq, ho, hpost⟩ := h
    cases List.eq_nil_or_concat post with
    | inl hnil =>
      subst hnil
      obtain ⟨-, hlast⟩ := List.append_inj' heq rfl
      cases hlast
      exact .inl ho
    | inr hconcat =>
      obtain ⟨post, o', rfl⟩ := hconcat
      have heq' : ops ++ [op] = (pre ++ o :: post) ++ [o'] := by simpa using heq
      obtain ⟨rfl, hlast⟩ := List.append_inj' heq' rfl
      cases hlast
      simp only [List.concat_eq_append, List.mem_append, List.mem_singleton, not_or] at hpost
      exact .inr ⟨Ne.symm hpost.2, pre, o, post, rfl, ho, hpost.1⟩
  · intro h
    obtain hop | ⟨hne, pre, o, post, rfl, ho, hpost⟩ := h
    · exact ⟨ops, op, [], rfl, hop, List.not_mem_nil⟩
    · refine ⟨pre, o, post ++ [op], by simp, ho, ?_⟩
      simp only [List.mem_append, List.mem_singleton, not_or]
      exact ⟨hpost, Ne.symm hne⟩

/-- As soon as there is a thread the flag says whether the ticker has been stopped. -/
theorem flag_iff (h : Runs step (fun _ _ => True) new ops m) :
    m.threads ≠ [] → (m.isEnable = false ↔ Stopped ops) := by
  apply h.history fun ops (m : TimeTicker) => m.threads ≠ [] → (m.isEnable = false ↔ Stopped ops)
  · exact fun hne => absurd rfl hne
  · intro ops m op m' ih _ hs
    rw [stopped_snoc]
    cases moved_of_step hs with
    | start hflag _ => simp [hflag]
    | clear hop hflag _ => simp [hop, hflag]
    | owner hflag hthreads => simpa [hflag, hthreads] using ih
    | @thread i x y hx _ _ hflag hthreads =>
      have hne : m.threads ≠ [] := List.ne_nil_of_mem (List.mem_of_getElem? hx)
      simpa [hflag] using fun _ => ih hne

/-- A thread leaves when it tests the flag after it has been cleared for good, and only then. -/
theorem noticed_iff (h : Runs step (fun _ _ => True) new ops m) :
    Noticed i ops ↔ m.threads[i]? = some .left := by
  induction h with
  | nil => simp [Noticed, not_happened_nil, new]
  | @snoc ops m m' op hr _ hs ih =>
    rw [Noticed, happened_snoc hr]
    refine (or_congr_left ih).trans ?_
    cases moved_of_step hs with
    | start _ hthreads =>
      rw [hthreads, List.getElem?_append]
      split
      · simp
      · rename_i hge
        rw [List.getElem?_eq_none (Nat.le_of_not_lt hge), List.getElem?_singleton]
        simp
    | clear hop _ hthreads =>
      rw [hthreads]
      obtain rfl | rfl := hop <;> simp
    | owner _ hthreads => simp [hthreads]
    | @thread j x y hx hne hleft _ hthreads =>
      rw [hthreads]
      by_cases hij : j = i
      · subst hij
        have hflag := flag_iff hr (List.ne_nil_of_mem (List.mem_of_getElem? hx))
        have hlen := (List.getElem?_eq_some_iff.mp hx).1
        simp [hx, List.getElem?_set_self hlen, hne, hleft, hflag]
      · rw [List.getElem?_set_ne hij]
        simp [hij]


theorem setThread_touched {touches : Bool} (hm : m.owner ≠ .destructed → m.touched = false) :
    (m.setThread i x touches).owner ≠ .destructed → (m.setThread i x touches).touched = false := by
  intro hne
  have hne : m.owner ≠ .destructed := hne
  change (m.touched || touches && decide (m.owner = .destructed)) = false
  rw [hm hne, decide_eq_false hne, Bool.and_false, Bool.or_false]

theorem touched_step (hm : m.owner ≠ .destructed → m.touched = false) (h : m.step op = some m') :
    m'.owner ≠ .destructed → m'.touched = false := by
  cases op with
  | start =>
    simp only [step, Option.ite_none_right_eq_some, Option.some.injEq] at h
    obtain ⟨-, rfl⟩ := h
    exact hm
  | stop =>
    simp only [step, Option.ite_none_right_eq_some, Option.some.injEq] at h
    obtain ⟨hrun, rfl⟩ := h
    exact fun _ => hm (by simp [hrun])
  | destruct =>
    simp only [step, Option.ite_none_right_eq_some, Option.some.injEq] at h
    obtain ⟨hrun, rfl⟩ := h
    exact fun _ => hm (by simp [hrun])
  | owner =>
    simp only [step, stepOwner] at h
    split at h
    · rename_i hstored _
      cases h
      exact fun _ => hm (by simp [hstored])
    · rename_i hlocked
      cases h
      exact fun _ => hm (by simp [hlocked])
    · cases h
  | thread i =>
    obtain ⟨x, -, h⟩ := Option.bind_eq_some_iff.mp h
    cases x with
    | test =>
      cases h
      exact setThread_touched hm
    | lock =>
      simp only [stepThread] at h
      split at h
      · cases h
        exact setThread_touched (i := i) (x := .timers) hm
      · cases h
    | timers =>
      cases h
      exact setThread_touched (i := i) (x := .sleep) hm
    | sleep =>
      cases h
      exact setThread_touched hm
    | left => cases h

/-- When the destructor has returned and every thread has left, nothing happens any more. -/
theorem step_left (howner : m.owner = .destructed) (hleft : ∀ x ∈ m.threads, x = .left) :
    m.step op = none := by
  cases op with
  | start => simp [step, howner]
  | stop => simp [step, howner]
  | destruct => simp [step, howner]
  | owner => simp [step, stepOwner, howner]
  | thread i =>
    cases hx : m.threads[i]? with
    | none => simp [step, hx]
    | some x =>
      obtain rfl := hleft x (List.mem_of_getElem? hx)
      simp [step, hx, stepThread]

theorem run_left (howner : m.owner = .destructed) (hleft : ∀ x ∈ m.threads, x = .left)
    (h : Runs step (fun _ _ => True) m ops m') : m' = m :=
  h.of_stuck fun _ => step_left howner hleft

/-- A thread that has not left makes a step on the ticker, at the latest when it has slept. -/
theorem touches_of_not_left (howner : m.owner = .destructed) (hmutex : m.mutex = none)
    (hx : m.threads[i]? = some x) (hne : x ≠ .left) :
    ∃ ops m', Runs step (fun _ _ => True) m ops m' ∧ m'.touched = true := by
  have hone : ∀ {m' : TimeTicker} {y : TickerPhase} (u : TimeTicker), m'.threads[i]? = some y →
      m'.stepThread i y = some u → u.touched = true →
      ∃ ops u, Runs step (fun _ _ => True) m' ops u ∧ u.touched = true := by
    intro m' y u hy hu htouched
    have hstep : m'.step (.thread i) = some u := by
      rw [step, hy]
      exact hu
    exact ⟨_, u, Runs.nil.snoc trivial hstep, htouched⟩
  cases x with
  | test => exact hone _ hx rfl (by simp [setThread, howner])
  | lock =>
    refine hone { m.setThread i .timers true with mutex := some (.thread i) } hx ?_ ?_
    · simp [stepThread, hmutex]
    · simp [setThread, howner]
  | timers => exact hone _ hx rfl (by simp [setThread, howner])
  | sleep =>
    have hlen := (List.getElem?_eq_some_iff.mp hx).1
    have hwake : m.step (.thread i) = some (m.setThread i .test false) := by
      rw [step, hx]
      rfl
    have hawake : (m.setThread i .test false).threads[i]? = some .test := List.getElem?_set_self hlen
    obtain ⟨ops, u, hrun, htouched⟩ := hone ((m.setThread i .test false).setThread i
      (if m.isEnable then .lock else .left) true) hawake rfl (by simp [setThread, howner])
    exact ⟨_, u, Runs.cons trivial hwake hrun, htouched⟩
  | left => exact absurd rfl hne

theorem untouched_before (h : Runs step (fun _ _ => True) new ops m) :
    m.owner ≠ .destructed → m.touched = false := by
  apply h.invariant fun m : TimeTicker => m.owner ≠ .destructed → m.touched = false
  · exact fun _ => rfl
  · intro m op m' hm _ hs
    exact touched_step hm hs

theorem noticed_all (h : Runs step (fun _ _ => True) new ops m) :
    (∀ i < m.threads.length, Noticed i ops) ↔ ∀ x ∈ m.threads, x = .left := by
  rw [List.forall_mem_iff_getElem]
  refine forall_congr' fun i => forall_congr' fun hi => ?_
  rw [noticed_iff h, List.getElem?_eq_getElem hi, Option.some.injEq]

/-- The ticker is left alone after its destructor has returned exactly if every thread had left its
loop when the destructor was about to give the mutex back, hence exactly if each of them had tested
the flag after it was cleared. -/
theorem untouched_iff (h : Runs step (fun _ _ => True) new ops m) (hlast : m.owner = .locked true)
    (hs : m.step .owner = some m') : m'.Untouched ↔ ∀ i < m.threads.length, Noticed i ops := by
  simp only [step, stepOwner, hlast, if_true, Option.some.injEq] at hs
  subst hs
  rw [noticed_all h]
  constructor
  · intro huntouched x hx
    by_contra hne
    obtain ⟨i, hi⟩ := List.getElem?_of_mem hx
    obtain ⟨ops', u, hrun, htouched⟩ := touches_of_not_left (m := { m with
      owner := .destructed, mutex := none }) rfl rfl hi hne
    rw [huntouched ops' u hrun] at htouched
    cases htouched
  · intro hleft ops' u hrun
    rw [run_left (m := { m with owner := .destructed, mutex := none }) rfl hleft hrun]
    have hbefore : m.touched = false := untouched_before h (by simp [hlast])
    exact hbefore

end TimeTicker

end CppPrivate.Public
