import CppPrivate.Public.Ticks
import Mathlib.Logic.Function.Basic

/-! The callbacks of the timers of a `TimeTicker`, which may call the ticker again. `run` executes
them while it holds the mutex, and the functions that a callback may call take it. -/
namespace CppPrivate.Public
open CppPrivate.Run

/-- What a thread of `run` does with a callback. -/
inductive Inside where
  | no
  | running
  /-- It is in a call of the ticker, and goes on when that has returned. -/
  | waits (c : Nat)
deriving DecidableEq

structure Reentry where
  ticks : Ticks
  inside : Nat → Inside

inductive ReentryOp where
  /-- A step that is not one of a callback. -/
  | other (op : TickOp)
  /-- `Execute` is called. -/
  | execute (i : Nat)
  /-- A function of the ticker is called from the callback. -/
  | called (i : Nat) (op : TickOp)
  | returned (i : Nat)
  /-- The callback is at its end, and `run` goes on. -/
  | executed (i : Nat) (now : UInt64)

/-- The public functions that take the mutex. -/
def TickOp.locks : TickOp → Bool
  | .addTimer .. | .addTimerAfter .. | .addTimerPtr _ | .stop => true
  | .start | .call _ | .thread .. => false

/-- The timer whose callback the thread executes next. -/
def Ticks.executes (m : Ticks) (i : Nat) : Option Timer :=
  match m.threads[i]? with
  | some (.list _ mapIt nCurTime listIt) =>
    (m.m_mapTimer[mapIt]?.bind fun x => x.2[listIt]?).filter fun p =>
      !(nCurTime < p.m_nNextTime) && p.callback
  | _ => none

namespace Reentry

def new : Reentry := ⟨.new, fun _ => .no⟩

def setInside (m : Reentry) (i : Nat) (x : Inside) : Reentry :=
  { m with inside := Function.update m.inside i x }

/-- A thread in a callback makes no other step, and none goes past an `Execute`. -/
def free (m : Reentry) : TickOp → Bool
  | .thread i _ => m.inside i = .no ∧ m.ticks.executes i = none
  | _ => true

def step (m : Reentry) : ReentryOp → Option Reentry
  | .other op =>
    if m.free op then (m.ticks.step op).map fun ticks => { m with ticks := ticks } else none
  | .execute i =>
    if m.inside i = .no ∧ (m.ticks.executes i).isSome then some (m.setInside i .running) else none
  | .called i op =>
    if m.inside i = .running ∧ op.locks then
      (m.ticks.step op).map fun ticks =>
        { m.setInside i (.waits m.ticks.calls.length) with ticks := ticks }
    else none
  | .returned i =>
    match m.inside i with
    | .waits c =>
      match m.ticks.calls[c]? with
      | some .returned => some (m.setInside i .running)
      | _ => none
    | _ => none
  | .executed i now =>
    if m.inside i = .running then
      (m.ticks.step (.thread i now)).map fun ticks => { m.setInside i .no with ticks := ticks }
    else none

def Waiting (m : Reentry) (c : Nat) : Prop :=
  ∃ k, m.ticks.calls[c]? = some k ∧ k ≠ .returned

/-- A thread waits for the mutex that it holds. -/
def SelfWait (m : Reentry) : Prop :=
  ∃ i c, m.inside i = .waits c ∧ m.Waiting c ∧ m.ticks.m_mutex = some i

end Reentry

namespace Ticks
variable {m m' : Ticks} {op : TickOp} {i : Nat} {x : TickPhase}

/-- A call goes on while no thread holds the mutex. -/
theorem stepCall_free {c : Nat} {k : TickCall} (h : m.stepCall c k = some m') :
    m.m_mutex = none ∧ m'.threads = m.threads := by
  cases k with
  | adding t =>
    simp only [stepCall] at h
    split at h
    · rename_i hmutex
      cases h
      exact ⟨hmutex, rfl⟩
    · cases h
  | stopping =>
    simp only [stepCall] at h
    split at h
    · rename_i hmutex
      cases h
      exact ⟨hmutex, rfl⟩
    · cases h
  | returned => cases h

theorem stepThread_threads {now : UInt64} (h : m.stepThread i now x = some m') :
    ∃ y, m'.threads = m.threads.set i y := by
  cases x with
  | test =>
    cases h
    exact ⟨_, rfl⟩
  | lock =>
    simp only [stepThread] at h
    split at h
    · cases h
      exact ⟨_, rfl⟩
    · cases h
  | entry pass mapIt =>
    simp only [stepThread] at h
    split at h
    · cases h
      exact ⟨_, rfl⟩
    · cases h
      exact ⟨_, rfl⟩
  | list pass mapIt nCurTime listIt =>
    obtain ⟨y, -, h⟩ := Option.map_eq_some_iff.mp h
    split at h
    · subst h
      exact ⟨_, rfl⟩
    · subst h
      rw [visit]
      split
      · exact ⟨_, rfl⟩
      · split
        · exact ⟨_, rfl⟩
        · exact ⟨_, rfl⟩
  | sleep =>
    cases h
    exact ⟨_, rfl⟩
  | left => cases h

/-- Only its own steps move a thread. -/
theorem threads_step (h : m.step op = some m') (hop : ∀ now, op ≠ .thread i now)
    (hx : m.threads[i]? = some x) : m'.threads[i]? = some x := by
  cases op with
  | addTimer nDuration now =>
    cases h
    exact hx
  | addTimerAfter nAfterTime nDuration now =>
    cases h
    exact hx
  | addTimerPtr pTimer =>
    cases h
    exact hx
  | start =>
    cases h
    have hlt := (List.getElem?_eq_some_iff.mp hx).1
    exact (List.getElem?_append_left hlt).trans hx
  | stop =>
    cases h
    exact hx
  | call c =>
    obtain ⟨k, -, h⟩ := Option.bind_eq_some_iff.mp h
    rw [(stepCall_free h).2]
    exact hx
  | thread j now =>
    have hne : j ≠ i := fun he => hop now (by rw [he])
    obtain ⟨y, -, h⟩ := Option.bind_eq_some_iff.mp h
    obtain ⟨z, hz⟩ := stepThread_threads h
    rw [hz, List.getElem?_set_ne hne]
    exact hx

/-- A call that has to take the mutex comes to it. -/
theorem locks_step (h : m.step op = some m') (hop : op.locks) :
    m'.m_mutex = m.m_mutex ∧ ∃ k, m'.calls = m.calls ++ [k] ∧ k ≠ .returned := by
  cases op with
  | addTimer nDuration now =>
    cases h
    exact ⟨rfl, _, rfl, nofun⟩
  | addTimerAfter nAfterTime nDuration now =>
    cases h
    exact ⟨rfl, _, rfl, nofun⟩
  | addTimerPtr pTimer =>
    cases h
    exact ⟨rfl, _, rfl, nofun⟩
  | stop =>
    cases h
    exact ⟨rfl, _, rfl, nofun⟩
  | start => cases hop
  | call c => cases hop
  | thread j now => cases hop

structure Blocked (m m' : Ticks) : Prop where
  mutex : m'.m_mutex = m.m_mutex
  timers : m'.m_mapTimer = m.m_mapTimer
  fired : m'.fired = m.fired
  calls : ∀ (c : Nat) (k : TickCall), m.calls[c]? = some k → m'.calls[c]? = some k

theorem Blocked.refl (m : Ticks) : Blocked m m := ⟨rfl, rfl, rfl, fun _ _ h => h⟩

theorem Blocked.trans {m'' : Ticks} (h : Blocked m m') (h' : Blocked m' m'') : Blocked m m'' where
  mutex := h'.mutex.trans h.mutex
  timers := h'.timers.trans h.timers
  fired := h'.fired.trans h.fired
  calls := fun c k hk => h'.calls c k (h.calls c k hk)

theorem blocked_call (m : Ticks) (k : TickCall) (c : Nat) (k' : TickCall)
    (hk : m.calls[c]? = some k') : (m.calls ++ [k])[c]? = some k' := by
  have hlt := (List.getElem?_eq_some_iff.mp hk).1
  exact (List.getElem?_append_left hlt).trans hk

theorem blocked_step (hm : m.Valid) (hi : m.m_mutex = some i) (h : m.step op = some m')
    (hop : ∀ now, op ≠ .thread i now) : Blocked m m' := by
  cases op with
  | addTimer nDuration now =>
    cases h
    exact ⟨rfl, rfl, rfl, blocked_call m _⟩
  | addTimerAfter nAfterTime nDuration now =>
    cases h
    exact ⟨rfl, rfl, rfl, blocked_call m _⟩
  | addTimerPtr pTimer =>
    cases h
    exact ⟨rfl, rfl, rfl, blocked_call m _⟩
  | start =>
    cases h
    exact ⟨rfl, rfl, rfl, fun _ _ hk => hk⟩
  | stop =>
    cases h
    exact ⟨rfl, rfl, rfl, blocked_call m _⟩
  | call c =>
    obtain ⟨k, -, h⟩ := Option.bind_eq_some_iff.mp h
    rw [(stepCall_free h).1] at hi
    cases hi
  | thread j now =>
    have hne : j ≠ i := fun he => hop now (by rw [he])
    obtain ⟨y, hy, h⟩ := Option.bind_eq_some_iff.mp h
    have hpass : ∀ p, y.pass? ≠ some p := by
      intro p hp
      have hj := (hm.holder j y p hy hp).1
      rw [hi] at hj
      exact hne (Option.some.inj hj).symm
    cases y with
    | test =>
      cases h
      exact ⟨rfl, rfl, rfl, fun _ _ hk => hk⟩
    | lock =>
      simp only [stepThread, hi] at h
      cases h
    | entry pass mapIt => exact absurd rfl (hpass pass)
    | list pass mapIt nCurTime listIt => exact absurd rfl (hpass pass)
    | sleep =>
      cases h
      exact ⟨rfl, rfl, rfl, fun _ _ hk => hk⟩
    | left => cases h

end Ticks

namespace Reentry
variable {m m' : Reentry} {op : ReentryOp} {ops : List ReentryOp} {i c : Nat}

inductive Stepped (m : Reentry) : ReentryOp → Reentry → Prop
  | other {op : TickOp} {ticks : Ticks} : m.free op → m.ticks.step op = some ticks →
      Stepped m (.other op) { m with ticks := ticks }
  | execute {i : Nat} : m.inside i = .no → (m.ticks.executes i).isSome →
      Stepped m (.execute i) (m.setInside i .running)
  | called {i : Nat} {op : TickOp} {ticks : Ticks} : m.inside i = .running → op.locks →
      m.ticks.step op = some ticks →
      Stepped m (.called i op) { m.setInside i (.waits m.ticks.calls.length) with ticks := ticks }
  | returned {i c : Nat} : m.inside i = .waits c → m.ticks.calls[c]? = some .returned →
      Stepped m (.returned i) (m.setInside i .running)
  | executed {i : Nat} {now : UInt64} {ticks : Ticks} : m.inside i = .running →
      m.ticks.step (.thread i now) = some ticks →
      Stepped m (.executed i now) { m.setInside i .no with ticks := ticks }

theorem stepped (hs : m.step op = some m') : Stepped m op m' := by
  cases op with
  | other op =>
    simp only [step, Option.ite_none_right_eq_some, Option.map_eq_some_iff] at hs
    obtain ⟨hfree, ticks, hticks, rfl⟩ := hs
    exact .other hfree hticks
  | execute i =>
    simp only [step, Option.ite_none_right_eq_some, Option.some.injEq] at hs
    obtain ⟨⟨hno, hexec⟩, rfl⟩ := hs
    exact .execute hno hexec
  | called i op =>
    simp only [step, Option.ite_none_right_eq_some, Option.map_eq_some_iff] at hs
    obtain ⟨⟨hrun, hlocks⟩, ticks, hticks, rfl⟩ := hs
    exact .called hrun hlocks hticks
  | returned i =>
    simp only [step] at hs
    split at hs
    · rename_i c hwaits
      split at hs
      · rename_i hcall
        cases hs
        exact .returned hwaits hcall
      · cases hs
    · cases hs
  | executed i now =>
    simp only [step, Option.ite_none_right_eq_some, Option.map_eq_some_iff] at hs
    obtain ⟨hrun, ticks, hticks, rfl⟩ := hs
    exact .executed hrun hticks

/-- A thread in a callback is in a pass, and so it holds the mutex. -/
structure Held (m : Reentry) : Prop where
  valid : m.ticks.Valid
  inside : ∀ i, m.inside i ≠ .no →
    ∃ x p, m.ticks.threads[i]? = some x ∧ x.pass? = some p

theorem Held.mutex (h : m.Held) (hi : m.inside i ≠ .no) : m.ticks.m_mutex = some i := by
  obtain ⟨x, p, hx, hp⟩ := h.inside i hi
  exact (h.valid.holder i x p hx hp).1

theorem held_new : Held new := ⟨Ticks.Valid.new, fun _ h => absurd rfl h⟩

theorem executes_pass {m : Ticks} (h : (m.executes i).isSome) :
    ∃ x p, m.threads[i]? = some x ∧ x.pass? = some p := by
  rw [Ticks.executes] at h
  split at h
  · rename_i pass mapIt nCurTime listIt hx
    exact ⟨_, pass, hx, rfl⟩
  · cases h

theorem inside_self (m : Reentry) (i : Nat) (x : Inside) : (m.setInside i x).inside i = x :=
  Function.update_self _ _ _

theorem inside_other {j : Nat} (h : j ≠ i) (x : Inside) :
    (m.setInside i x).inside j = m.inside j := Function.update_of_ne h _ _

theorem setInside_ne {x : Inside} {j : Nat} (h : (m.setInside i x).inside j ≠ .no) :
    (j = i ∧ x ≠ .no) ∨ (j ≠ i ∧ m.inside j ≠ .no) := by
  by_cases hj : j = i
  · subst hj
    rw [inside_self] at h
    exact Or.inl ⟨rfl, h⟩
  · rw [inside_other hj] at h
    exact Or.inr ⟨hj, h⟩

/-- Each step is one of the ticker or leaves it as it is, and a callback stays in its pass. -/
theorem held_step (h : m.Held) (hs : m.step op = some m') : m'.Held := by
  cases stepped hs with
  | @other op ticks hfree hticks =>
    refine ⟨h.valid.step hticks, fun i hi => ?_⟩
    obtain ⟨x, p, hx, hp⟩ := h.inside i hi
    refine ⟨x, p, Ticks.threads_step hticks ?_ hx, hp⟩
    intro now he
    subst he
    exact hi (of_decide_eq_true hfree).1
  | execute hno hexec =>
    refine ⟨h.valid, fun j hj => ?_⟩
    cases setInside_ne hj with
    | inl hself =>
      rw [hself.1]
      exact executes_pass hexec
    | inr hother => exact h.inside j hother.2
  | called hrun hlocks hticks =>
    refine ⟨h.valid.step hticks, fun j hj => ?_⟩
    have hin : m.inside j ≠ .no := by
      cases setInside_ne hj with
      | inl hself =>
        rw [hself.1, hrun]
        exact nofun
      | inr hother => exact hother.2
    obtain ⟨x, p, hx, hp⟩ := h.inside j hin
    refine ⟨x, p, Ticks.threads_step hticks ?_ hx, hp⟩
    intro now he
    subst he
    cases hlocks
  | returned hwaits _ =>
    refine ⟨h.valid, fun j hj => ?_⟩
    cases setInside_ne hj with
    | inl hself =>
      refine h.inside j ?_
      rw [hself.1, hwaits]
      exact nofun
    | inr hother => exact h.inside j hother.2
  | executed _ hticks =>
    refine ⟨h.valid.step hticks, fun j hj => ?_⟩
    cases setInside_ne hj with
    | inl hself => exact absurd rfl hself.2
    | inr hother =>
      obtain ⟨x, p, hx, hp⟩ := h.inside j hother.2
      refine ⟨x, p, Ticks.threads_step hticks ?_ hx, hp⟩
      intro now' he
      exact hother.1 (TickOp.thread.inj he).1.symm

theorem held_run (h : Runs step (fun _ _ => True) new ops m) : m.Held :=
  h.invariant Held held_new fun _ _ _ h _ hs => held_step h hs

/-- A callback that calls the ticker waits for the mutex that its thread holds. -/
theorem selfWait_called (h : m.Held) {op : TickOp} (hs : m.step (.called i op) = some m') :
    m'.SelfWait := by
  obtain - | - | ⟨hrun, hlocks, hticks⟩ | - | - := stepped hs
  obtain ⟨hmutex, k, hcalls, hk⟩ := Ticks.locks_step hticks hlocks
  have hholds := h.mutex (i := i) (by rw [hrun]; exact nofun)
  refine ⟨i, m.ticks.calls.length, Function.update_self _ _ _, ⟨k, ?_, hk⟩, ?_⟩
  · rw [hcalls, List.getElem?_concat_length]
  · exact hmutex.trans hholds

/-- Only a call from its callback makes a thread wait. -/
theorem not_waits_step (h : ∀ i c, m.inside i ≠ .waits c) (hop : ∀ i o, op ≠ .called i o)
    (hs : m.step op = some m') : ∀ i c, m'.inside i ≠ .waits c := by
  have hset : ∀ {i : Nat} {x : Inside}, (∀ c, x ≠ .waits c) →
      ∀ j c, (m.setInside i x).inside j ≠ .waits c := by
    intro i x hx j c
    by_cases hj : j = i
    · rw [hj, inside_self]
      exact hx c
    · rw [inside_other hj]
      exact h j c
  cases stepped hs with
  | other _ _ => exact h
  | execute _ _ => exact hset nofun
  | called _ _ _ => exact absurd rfl (hop _ _)
  | returned _ _ => exact hset nofun
  | executed _ _ => exact hset nofun

theorem not_waits_run (h : Runs step (fun _ _ => True) new ops m)
    (hops : ∀ i o, ReentryOp.called i o ∉ ops) : ∀ i c, m.inside i ≠ .waits c := by
  have hnew : ∀ i c, new.inside i ≠ .waits c := fun _ c h =>
    nomatch (show Inside.no = .waits c from h)
  refine h.history (fun ops m => (∀ i o, ReentryOp.called i o ∉ ops) →
    ∀ i c, m.inside i ≠ .waits c) (fun _ => hnew) ?_ hops
  intro ops m op m' ih _ hs hops
  refine not_waits_step (ih fun i o hmem => hops i o (List.mem_append_left _ hmem)) ?_ hs
  intro i o he
  exact hops i o (List.mem_append_right _ (List.mem_singleton.mpr he.symm))

/-- A thread that waits for itself does so for ever: no other call returns, and no timer fires. -/
theorem selfWait_step (h : m.Held) (hwait : m.SelfWait) (hs : m.step op = some m') :
    m'.SelfWait ∧ Ticks.Blocked m.ticks m'.ticks := by
  obtain ⟨i, c, hi, ⟨k, hk, hne⟩, hmutex⟩ := hwait
  have hkept : ∀ {n : Reentry}, n.inside i = .waits c → Ticks.Blocked m.ticks n.ticks →
      n.SelfWait ∧ Ticks.Blocked m.ticks n.ticks :=
    fun hn hb => ⟨⟨i, c, hn, ⟨k, hb.calls c k hk, hne⟩, hb.mutex.trans hmutex⟩, hb⟩
  -- every other thread is outside of its callbacks
  have hother : ∀ j, m.inside j ≠ .no → j = i := fun j hj =>
    Option.some.inj ((h.mutex hj).symm.trans hmutex)
  have hrunning : ∀ j, m.inside j ≠ .running := by
    intro j hj
    have hi' := hother j (by rw [hj]; exact nofun)
    rw [hi', hi] at hj
    cases hj
  cases stepped hs with
  | @other op ticks hfree hticks =>
    refine hkept hi (Ticks.blocked_step h.valid hmutex hticks fun now he => ?_)
    subst he
    have hno := (of_decide_eq_true hfree).1
    rw [hi] at hno
    cases hno
  | @execute j hno hexec =>
    obtain ⟨x, p, hx, hp⟩ := executes_pass hexec
    have hj : j = i := Option.some.inj ((h.valid.holder j x p hx hp).1.symm.trans hmutex)
    rw [hj, hi] at hno
    cases hno
  | @called j _ _ hrun _ _ => exact absurd hrun (hrunning j)
  | @returned j c' hwaits hcall =>
    have hj := hother j (by rw [hwaits]; exact nofun)
    rw [hj, hi] at hwaits
    cases hwaits
    rw [hk] at hcall
    exact absurd (Option.some.inj hcall) hne
  | @executed j _ _ hrun _ => exact absurd hrun (hrunning j)

theorem selfWait_run (h : m.Held) (hwait : m.SelfWait) (hr : Runs step (fun _ _ => True) m ops m') :
    m'.SelfWait ∧ Ticks.Blocked m.ticks m'.ticks := by
  have hall : m'.Held ∧ m'.SelfWait ∧ Ticks.Blocked m.ticks m'.ticks := by
    refine hr.invariant (fun n => n.Held ∧ n.SelfWait ∧ Ticks.Blocked m.ticks n.ticks)
      ⟨h, hwait, Ticks.Blocked.refl _⟩ ?_
    intro n op n' hn _ hs
    obtain ⟨hwait', hblocked⟩ := selfWait_step hn.1 hn.2.1 hs
    exact ⟨held_step hn.1 hs, hwait', hn.2.2.trans hblocked⟩
  exact hall.2

/-- In a run of the ticker no thread waits for the mutex that it holds exactly if no callback calls
a function that takes it. -/
theorem never_selfWait_iff (h : Runs step (fun _ _ => True) new ops m) :
    (∀ pre n, pre <+: ops → Runs step (fun _ _ => True) new pre n → ¬ n.SelfWait) ↔
      ∀ i op, ReentryOp.called i op ∉ ops := by
  constructor
  · intro hnever i op hmem
    obtain ⟨pre, u, v, hpre, hr, hc, hs⟩ := h.through hmem
    exact hnever _ v hpre (hr.snoc hc hs) (selfWait_called (held_run hr) hs)
  · intro hops pre n hpre hr hwait
    obtain ⟨i, c, hi, -⟩ := hwait
    exact not_waits_run hr (fun j o hmem => hops j o (hpre.subset hmem)) i c hi

/-- A timer is added, and a thread comes to its callback. -/
def firstCallback : List ReentryOp :=
  [.other (.addTimer 5 100), .other (.call 0), .other .start, .other (.thread 0 0),
    .other (.thread 0 0), .other (.thread 0 100), .execute 0]

theorem never_selfWait_once : ∃ m,
    Runs step (fun _ _ => True) new (firstCallback ++ [.executed 0 0]) m ∧
      ∀ pre n, pre <+: firstCallback ++ [.executed 0 0] →
        Runs step (fun _ _ => True) new pre n → ¬ n.SelfWait := by
  have h : (exec step (fun _ _ => True) new (firstCallback ++ [.executed 0 0])).isSome := by decide
  obtain ⟨m, hm⟩ := Option.isSome_iff_exists.mp h
  refine ⟨m, runs_of_exec hm, (never_selfWait_iff (runs_of_exec hm)).mpr fun i op hmem => ?_⟩
  simp [firstCallback] at hmem

/-- The callback adds another timer. -/
theorem exists_selfWait : ¬ ∀ ops m, Runs step (fun _ _ => True) new ops m → ¬ m.SelfWait := by
  intro h
  have hexec : (exec step (fun _ _ => True) new
      (firstCallback ++ [.called 0 (.addTimer 5 100)])).isSome := by decide
  obtain ⟨m, hm⟩ := Option.isSome_iff_exists.mp hexec
  obtain ⟨pre, u, v, -, hr, hc, hs⟩ := (runs_of_exec hm).through
    (List.mem_append_right firstCallback (List.mem_singleton.mpr rfl))
  exact h _ v (hr.snoc hc hs) (selfWait_called (held_run hr) hs)

end Reentry
end CppPrivate.Public
