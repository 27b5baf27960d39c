import CppPrivate.Lib.Machine
import CppPrivate.Lib.Monitor
import CppPrivate.Lib.Run

/-! The wait group. `Done` lowers the counter and notifies without the mutex, so that a thread
which has just found the counter above zero may go to sleep after the last notification. -/
namespace CppPrivate.Public
open CppPrivate.Monitor CppPrivate.Run

/-- How far a thread has come: in `Done` it has lowered the counter, and has found it at zero; in
`Wait` it is on its way to the mutex, has it, and has found the counter above zero. -/
inductive Point where
  | idle
  | lowered
  | notifying
  | entering
  | locked
  | preparing
deriving DecidableEq

/-- In `Done`, the notification or the test before it is still to come. -/
def Point.finishes : Point → Nat
  | .lowered | .notifying => 1
  | _ => 0

/-- In `Wait`, the counter has been found above zero and the thread does not sleep yet. -/
def Point.prepares : Point → Nat
  | .preparing => 1
  | _ => 0

/-- The wait group with the threads that call it. -/
structure WaitGroup where
  counter : Int
  mutex : Option Nat
  threads : List (Thread Unit Point)
deriving DecidableEq

inductive WaitGroupStep where
  | Add (i : Nat) (count : Int)
  | Done (i : Nat)
  | load (i : Nat)
  | notify (i : Nat)
  | Wait (i : Nat)
  | lock (i : Nat)
  | test (i : Nat)
  | block (i : Nat)
  | wake (i : Nat)
deriving DecidableEq

namespace WaitGroup

def new (n : Nat) : WaitGroup := ⟨0, none, List.replicate n ⟨.running, .idle⟩⟩

def setPoint (m : WaitGroup) (i : Nat) (p : Point) : WaitGroup :=
  { m with threads := m.threads.set i ⟨.running, p⟩ }

def stepDone (m : WaitGroup) : WaitGroupStep → Option WaitGroup
  | .Done i =>
    match m.threads[i]? with
    | some ⟨.running, .idle⟩ => some { m.setPoint i .lowered with counter := cInt (m.counter - 1) }
    | _ => none
  | .load i =>
    match m.threads[i]? with
    | some ⟨.running, .lowered⟩ =>
      some (m.setPoint i (if m.counter ≤ 0 then .notifying else .idle))
    | _ => none
  | .notify i =>
    match m.threads[i]? with
    | some ⟨.running, .notifying⟩ =>
      some { m with threads := notifyAll () (m.setPoint i .idle).threads }
    | _ => none
  | _ => none

def stepWait (m : WaitGroup) : WaitGroupStep → Option WaitGroup
  | .Wait i =>
    match m.threads[i]? with
    | some ⟨.running, .idle⟩ => some (if m.counter ≤ 0 then m else m.setPoint i .entering)
    | _ => none
  | .lock i =>
    match m.threads[i]?, m.mutex with
    | some ⟨.running, .entering⟩, none | some ⟨.woken _, .entering⟩, none =>
      some { m.setPoint i .locked with mutex := some i }
    | _, _ => none
  | .test i =>
    match m.threads[i]? with
    | some ⟨.running, .locked⟩ =>
      some (if m.counter ≤ 0 then { m.setPoint i .idle with mutex := none }
        else m.setPoint i .preparing)
    | _ => none
  | .block i =>
    match m.threads[i]? with
    | some ⟨.running, .preparing⟩ =>
      some { m with threads := m.threads.set i ⟨.blocked (), .entering⟩, mutex := none }
    | _ => none
  | .wake i =>
    match m.threads[i]? with
    | some ⟨.blocked _, p⟩ => some { m with threads := m.threads.set i ⟨.woken (), p⟩ }
    | _ => none
  | _ => none

def step (m : WaitGroup) (op : WaitGroupStep) : Option WaitGroup :=
  match op with
  | .Add i count =>
    match m.threads[i]? with
    | some ⟨.running, .idle⟩ => some { m with counter := cInt (m.counter + count) }
    | _ => none
  | .Done _ | .load _ | .notify _ => m.stepDone op
  | .Wait _ | .lock _ | .test _ | .block _ | .wake _ => m.stepWait op

def finishing (m : WaitGroup) : Nat := total (fun t => t.own.finishes) m.threads

def preparing (m : WaitGroup) : Nat := total (fun t => t.own.prepares) m.threads

/-- The threads that sleep in `Wait` and have not been woken. -/
def asleep (m : WaitGroup) : Nat := total (Thread.blocked ()) m.threads

/-- The counter is down, no `Done` is to notify, and a thread sleeps. -/
def Lost (m : WaitGroup) : Prop := m.counter ≤ 0 ∧ m.finishing = 0 ∧ 0 < m.asleep

/-- What a step must not do: the last `Done` must not notify while a thread is about to sleep, and
no `Add` may bring the counter down while a thread sleeps or is about to. -/
def Careful (m : WaitGroup) : WaitGroupStep → Prop
  | .notify _ => m.preparing = 0 ∨ 0 < m.counter ∨ 1 < m.finishing
  | .Add _ count => m.preparing + m.asleep = 0 ∨ 0 < cInt (m.counter + count) ∨ 0 < m.finishing
  | _ => True

instance (m : WaitGroup) : DecidablePred m.Careful
  | .notify _ => inferInstanceAs (Decidable (_ ∨ _ ∨ _))
  | .Add _ _ => inferInstanceAs (Decidable (_ ∨ _ ∨ _))
  | .Done _ | .load _ | .Wait _ | .lock _ | .test _ | .block _ | .wake _ => isTrue trivial

/-- A thread that sleeps or is about to will be told of. -/
def Alert (m : WaitGroup) : Prop := 0 < m.preparing + m.asleep → 0 < m.counter ∨ 0 < m.finishing

section Step
variable {m m' : WaitGroup} {i : Nat} {t u : Thread Unit Point} {op : WaitGroupStep}

theorem counts_set (h : m.threads[i]? = some t) (m' : WaitGroup) (u : Thread Unit Point)
    (hm : m'.threads = m.threads.set i u) :
    m'.finishing + t.own.finishes = m.finishing + u.own.finishes ∧
      m'.preparing + t.own.prepares = m.preparing + u.own.prepares ∧
        m'.asleep + t.blocked () = m.asleep + u.blocked () := by
  simp only [finishing, preparing, asleep, hm]
  exact ⟨total_set (fun t => t.own.finishes) u h, total_set (fun t => t.own.prepares) u h,
    total_set (Thread.blocked ()) u h⟩

theorem Alert.mono (hm : Alert m) (hcounter : m'.counter = m.counter)
    (hf : m.finishing ≤ m'.finishing)
    (hw : m'.preparing + m'.asleep ≤ m.preparing + m.asleep) : Alert m' := by
  intro hpos
  have := hm (by omega)
  omega

theorem alert_stepDone (hc : Careful m op) (h : m.stepDone op = some m') : Alert m' := by
  cases op with
  | Done i =>
    simp only [stepDone] at h
    split at h
    · rename_i ht
      obtain ⟨h1, -, -⟩ := counts_set ht m' ⟨.running, .lowered⟩ (by cases h; rfl)
      simp only [Point.finishes] at h1
      exact fun _ => Or.inr (by omega)
    · cases h
  | load i =>
    simp only [stepDone] at h
    split at h
    · rename_i ht
      by_cases hle : m.counter ≤ 0
      · -- this thread is still to notify
        rw [if_pos hle] at h
        obtain rfl := Option.some.inj h
        obtain ⟨h1, -, -⟩ := counts_set ht (m.setPoint i .notifying) ⟨.running, .notifying⟩ rfl
        have hself : 1 ≤ m.finishing :=
          le_total (fun t => t.own.finishes) (List.mem_of_getElem? ht)
        simp only [Point.finishes] at h1
        exact fun _ => Or.inr (by omega)
      · obtain rfl := Option.some.inj h
        exact fun _ => Or.inl (Int.not_le.mp hle)
    · cases h
  | notify i =>
    simp only [stepDone] at h
    split at h
    · rename_i ht
      obtain rfl := Option.some.inj h
      obtain ⟨h1, h2, -⟩ := counts_set ht (m.setPoint i .idle) ⟨.running, .idle⟩ rfl
      have hn : Notified () (m.setPoint i .idle).threads _ := notifyAll_notified
      have hf := hn.own Point.finishes
      have hp := hn.own Point.prepares
      have ha : total (Thread.blocked ()) (notifyAll () (m.setPoint i .idle).threads) = 0 :=
        notifyAll_blocked
      simp only [Alert, Careful, finishing, preparing, asleep, Point.finishes, Point.prepares] at *
      omega
    · cases h
  | _ => cases h

theorem alert_stepWait (hm : Alert m) (h : m.stepWait op = some m') : Alert m' := by
  cases op with
  | Wait i =>
    simp only [stepWait] at h
    split at h
    · obtain rfl := Option.some.inj h
      by_cases hle : m.counter ≤ 0
      · rwa [if_pos hle]
      · rw [if_neg hle]
        exact fun _ => Or.inl (Int.not_le.mp hle)
    · cases h
  | lock i =>
    simp only [stepWait] at h
    split at h
    · rename_i ht _
      obtain rfl := Option.some.inj h
      obtain ⟨h1, h2, h3⟩ := counts_set ht (m.setPoint i .locked) ⟨.running, .locked⟩ rfl
      simp only [Point.finishes, Point.prepares, Thread.blocked_running] at h1 h2 h3
      have hquiet : Alert (m.setPoint i .locked) := hm.mono rfl (by omega) (by omega)
      exact hquiet
    · rename_i ht _
      obtain rfl := Option.some.inj h
      obtain ⟨h1, h2, h3⟩ := counts_set ht (m.setPoint i .locked) ⟨.running, .locked⟩ rfl
      simp only [Point.finishes, Point.prepares, Thread.blocked_running, Thread.blocked_woken] at h1 h2 h3
      have hquiet : Alert (m.setPoint i .locked) := hm.mono rfl (by omega) (by omega)
      exact hquiet
    · cases h
  | test i =>
    simp only [stepWait] at h
    split at h
    · rename_i ht
      obtain rfl := Option.some.inj h
      by_cases hle : m.counter ≤ 0
      · rw [if_pos hle]
        obtain ⟨h1, h2, h3⟩ := counts_set ht (m.setPoint i .idle) ⟨.running, .idle⟩ rfl
        simp only [Point.finishes, Point.prepares, Thread.blocked_running] at h1 h2 h3
        have hquiet : Alert (m.setPoint i .idle) := hm.mono rfl (by omega) (by omega)
        exact hquiet
      · rw [if_neg hle]
        exact fun _ => Or.inl (Int.not_le.mp hle)
    · cases h
  | block i =>
    simp only [stepWait] at h
    split at h
    · rename_i ht
      obtain ⟨h1, h2, h3⟩ := counts_set ht m' ⟨.blocked (), .entering⟩ (by cases h; rfl)
      simp [Point.finishes, Point.prepares] at h1 h2 h3
      exact hm.mono (by cases h; rfl) (by omega) (by omega)
    · cases h
  | wake i =>
    simp only [stepWait] at h
    split at h
    · rename_i p ht
      obtain ⟨h1, h2, h3⟩ := counts_set ht m' ⟨.woken (), p⟩ (by cases h; rfl)
      simp at h1 h2 h3
      exact hm.mono (by cases h; rfl) (by omega) (by omega)
    · cases h
  | _ => cases h

theorem alert_step (hm : Alert m) (hc : Careful m op) (h : m.step op = some m') : Alert m' := by
  cases op with
  | Add i count =>
    simp only [step] at h
    split at h
    · obtain rfl := Option.some.inj h
      intro hpos
      simp only [Careful] at hc
      change 0 < m.preparing + m.asleep at hpos
      change 0 < cInt (m.counter + count) ∨ 0 < m.finishing
      omega
    · cases h
  | Done i => exact alert_stepDone hc h
  | load i => exact alert_stepDone hc h
  | notify i => exact alert_stepDone hc h
  | Wait i => exact alert_stepWait hm (show m.stepWait (.Wait i) = some m' from h)
  | lock i => exact alert_stepWait hm (show m.stepWait (.lock i) = some m' from h)
  | test i => exact alert_stepWait hm (show m.stepWait (.test i) = some m' from h)
  | block i => exact alert_stepWait hm (show m.stepWait (.block i) = some m' from h)
  | wake i => exact alert_stepWait hm (show m.stepWait (.wake i) = some m' from h)

end Step

section Run
variable {n : Nat} {m m' : WaitGroup} {op : WaitGroupStep} {ops : List WaitGroupStep}

theorem alert_new (n : Nat) : Alert (new n) := by
  simp [Alert, preparing, asleep, new, total_replicate, Point.prepares]

/-- In a careful run no wake-up is lost. -/
theorem no_lost_wakeup (h : Runs step Careful (new n) ops m) : ¬ m.Lost := by
  have hm : Alert m := by
    apply h.invariant Alert (alert_new n)
    intro m op m' hm hc hs
    exact alert_step hm hc hs
  intro hlost
  obtain ⟨hcounter, hdone, hasleep⟩ := hlost
  have := hm (by omega)
  omega

/-- Done to a waiting thread, the wake-up is there when the counter is down. -/
def wokenOps : List WaitGroupStep :=
  [.Add 0 1, .Wait 1, .lock 1, .test 1, .block 1, .Done 0, .load 0, .notify 0]

theorem no_lost_wakeup_woken : ∃ m, Runs step Careful (new 2) wokenOps m ∧ m.counter ≤ 0 ∧
    m.finishing = 0 ∧ (∃ t ∈ m.threads, t.wait = .woken ()) ∧ ¬ m.Lost := by
  have hexec : ((exec step Careful (new 2) wokenOps).any fun m => decide (m.counter ≤ 0 ∧
      m.finishing = 0 ∧ ∃ t ∈ m.threads, t.wait = .woken ())) = true := by decide
  obtain ⟨m, hrun, hcheck⟩ := exists_of_exec hexec
  obtain ⟨hcounter, hdone, hwoken⟩ := of_decide_eq_true hcheck
  exact ⟨m, hrun, hcounter, hdone, hwoken, no_lost_wakeup hrun⟩

/-- The thread 1 finds the counter above zero, the thread 0 lowers it and notifies, and the
thread 1 goes to sleep. -/
def lostOps : List WaitGroupStep :=
  [.Add 0 1, .Wait 1, .lock 1, .test 1, .Done 0, .load 0, .notify 0, .block 1]

theorem wakeup_lost : ∃ (n : Nat) (ops : List WaitGroupStep) (m : WaitGroup),
    Runs step (fun _ _ => True) (new n) ops m ∧ m.Lost := by
  have hexec : ((exec step (fun _ _ => True) (new 2) lostOps).any fun m => decide (m.counter ≤ 0 ∧
      m.finishing = 0 ∧ 0 < m.asleep)) = true := by decide
  obtain ⟨m, hrun, hcheck⟩ := exists_of_exec hexec
  have hlost := of_decide_eq_true hcheck
  exact ⟨2, lostOps, m, hrun, hlost⟩

end Run

end WaitGroup

end CppPrivate.Public
