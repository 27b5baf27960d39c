import Mathlib.Data.List.Basic

/-! Runs of a partial step function. A step with no result (a use of a deleted
object, an access out of bounds) ends every run through it. -/
namespace CppPrivate.Run
variable {σ ω : Type*}

/-- The calls `ops` lead from `s` to `t`, and each call meets `C` in the state it is made in. -/
inductive Runs (step : σ → ω → Option σ) (C : σ → ω → Prop) (s : σ) : List ω → σ → Prop
  | nil : Runs step C s [] s
  | snoc {ops : List ω} {t u : σ} {op : ω} :
      Runs step C s ops t → C t op → step t op = some u → Runs step C s (ops ++ [op]) u

variable {step : σ → ω → Option σ} {C D : σ → ω → Prop} {s t u : σ} {ops : List ω}

/-- A relation between the calls made so far and the state reached, kept by every step. -/
theorem Runs.history (I : List ω → σ → Prop) (h0 : I [] s)
    (hs : ∀ ops t op u, I ops t → C t op → step t op = some u → I (ops ++ [op]) u)
    (h : Runs step C s ops t) : I ops t := by
  induction h with
  | nil => exact h0
  | snoc _ hc hstep ih => exact hs _ _ _ _ ih hc hstep

theorem Runs.invariant (I : σ → Prop) (h0 : I s)
    (hs : ∀ t op u, I t → C t op → step t op = some u → I u)
    (h : Runs step C s ops t) : I t :=
  h.history (fun _ => I) h0 (fun _ => hs)

theorem Runs.mono (hcd : ∀ t op, C t op → D t op) (h : Runs step C s ops t) :
    Runs step D s ops t := by
  induction h with
  | nil => exact .nil
  | snoc _ hc hstep ih => exact ih.snoc (hcd _ _ hc) hstep

/-- Two invariants of one run, the second one resting on the first. -/
theorem Runs.invariant_with (I J : σ → Prop) (h0 : J s)
    (hI : ∀ {ops t}, Runs step C s ops t → I t)
    (hs : ∀ t op u, I t → J t → C t op → step t op = some u → J u)
    (h : Runs step C s ops t) : J t := by
  induction h with
  | nil => exact h0
  | snoc hr hc hstep ih => exact hs _ _ _ (hI hr) ih hc hstep

theorem Runs.cons {op : ω} (hc : C s op) (hs : step s op = some t)
    (h : Runs step C t ops u) : Runs step C s (op :: ops) u := by
  induction h with
  | nil => exact Runs.nil.snoc hc hs
  | snoc _ hc' hs' ih => exact ih.snoc hc' hs'

/-- A run has no step at all, or a first one. -/
theorem Runs.split (h : Runs step C s ops t) : (ops = [] ∧ t = s) ∨
    ∃ op l u, ops = op :: l ∧ C s op ∧ step s op = some u ∧ Runs step C u l t := by
  induction h with
  | nil => exact Or.inl ⟨rfl, rfl⟩
  | @snoc ops t v op hr hc hstep ih =>
    right
    cases ih with
    | inl ih =>
      obtain ⟨rfl, rfl⟩ := ih
      exact ⟨op, [], v, rfl, hc, hstep, .nil⟩
    | inr ih =>
      obtain ⟨op', l, u, rfl, hc', hstep', hl⟩ := ih
      exact ⟨op', l ++ [op], u, rfl, hc', hstep', hl.snoc hc hstep⟩

theorem Runs.append {ops' : List ω} (h : Runs step C s ops t) (h' : Runs step C t ops' u) :
    Runs step C s (ops ++ ops') u := by
  induction h' with
  | nil => rw [List.append_nil]; exact h
  | snoc _ hc hstep ih =>
    rw [← List.append_assoc]
    exact ih.snoc hc hstep

/-- What a run does, it does from a state that it reaches. -/
theorem Runs.through {op : ω} (h : Runs step C s ops t) (hop : op ∈ ops) :
    ∃ pre u v, pre ++ [op] <+: ops ∧ Runs step C s pre u ∧ C u op ∧ step u op = some v := by
  induction h with
  | nil => cases hop
  | @snoc ops t v last hr hc hstep ih =>
    cases List.mem_append.mp hop with
    | inl hop =>
      obtain ⟨pre, u, v, hpre, h⟩ := ih hop
      exact ⟨pre, u, v, List.IsPrefix.trans hpre (List.prefix_append _ _), h⟩
    | inr hop =>
      rw [List.mem_singleton.mp hop]
      exact ⟨ops, t, v, List.prefix_rfl, hr, hc, hstep⟩

/-- From a state without a step no run goes on. -/
theorem Runs.of_stuck (h : Runs step C s ops t) (hstuck : ∀ op, step s op = none) : t = s := by
  cases h.split with
  | inl hnil => exact hnil.2
  | inr hcons =>
    obtain ⟨op, -, u, -, -, hstep, -⟩ := hcons
    rw [hstuck op] at hstep
    cases hstep

theorem Runs.snoc_inv {op : ω} (h : Runs step C s (ops ++ [op]) u) :
    ∃ t, Runs step C s ops t ∧ C t op ∧ step t op = some u := by
  generalize hl : ops ++ [op] = l at h
  cases h with
  | nil => simp at hl
  | snoc hr hc hs =>
    obtain ⟨rfl, hop⟩ := List.append_inj' hl rfl
    cases hop
    exact ⟨_, hr, hc, hs⟩

/-- The calls determine the state they lead to. -/
theorem Runs.unique (h : Runs step C s ops t) (h' : Runs step C s ops u) : t = u := by
  induction h generalizing u with
  | nil =>
    cases h'.split with
    | inl hnil => exact hnil.2.symm
    | inr hcons =>
      obtain ⟨op, l, v, hl, -⟩ := hcons
      cases hl
  | snoc _ _ hs ih =>
    obtain ⟨v, hr, -, hs'⟩ := h'.snoc_inv
    rw [ih hr, hs'] at hs
    exact (Option.some.inj hs).symm

/-- On the way a step has been made that meets `P`, which sees the steps before it. -/
def Happened (step : σ → ω → Option σ) (C : σ → ω → Prop) (s : σ) (P : List ω → σ → ω → Prop)
    (ops : List ω) : Prop :=
  ∃ pre t op, pre ++ [op] <+: ops ∧ Runs step C s pre t ∧ P pre t op

section Happened
variable {P : List ω → σ → ω → Prop}

theorem not_happened_nil : ¬ Happened step C s P [] := by
  intro h
  obtain ⟨pre, t, op, hpre, -⟩ := h
  simp at hpre

theorem happened_snoc {op : ω} (h : Runs step C s ops t) :
    Happened step C s P (ops ++ [op]) ↔ Happened step C s P ops ∨ P ops t op := by
  constructor
  · intro hsome
    obtain ⟨pre, u, op', hpre, hr, hp⟩ := hsome
    cases List.prefix_concat_iff.mp hpre with
    | inl heq =>
      obtain ⟨rfl, hop⟩ := List.append_inj' heq rfl
      cases hop
      rw [h.unique hr]
      exact .inr hp
    | inr hpre => exact .inl ⟨pre, u, op', hpre, hr, hp⟩
  · intro hcase
    cases hcase with
    | inl hsome =>
      obtain ⟨pre, u, op', hpre, hrest⟩ := hsome
      exact ⟨pre, u, op', hpre.trans (List.prefix_append _ _), hrest⟩
    | inr hp => exact ⟨ops, t, op, List.prefix_rfl, h, hp⟩

end Happened

/-- A state can take one step at most. -/
def Deterministic (step : σ → ω → Option σ) : Prop :=
  ∀ s op op' t t', step s op = some t → step s op' = some t' → op = op' ∧ t = t'

/-- Of two runs of a deterministic program one goes on where the other has stopped. -/
theorem Runs.linear {ops' : List ω} (hdet : Deterministic step) (h : Runs step C s ops t)
    (h' : Runs step C s ops' u) :
    (∃ l, ops' = ops ++ l ∧ Runs step C t l u) ∨ ∃ l, ops = ops' ++ l ∧ Runs step C u l t := by
  induction h with
  | nil => exact Or.inl ⟨ops', rfl, h'⟩
  | @snoc ops t v op hr hc hstep ih =>
    cases ih with
    | inr ih =>
      obtain ⟨l, rfl, hl⟩ := ih
      exact Or.inr ⟨l ++ [op], List.append_assoc _ _ _, hl.snoc hc hstep⟩
    | inl ih =>
      obtain ⟨l, rfl, hl⟩ := ih
      -- the other run stops here as well, or goes on with the same step
      cases hl.split with
      | inl hnil =>
        obtain ⟨rfl, rfl⟩ := hnil
        exact Or.inr ⟨[op], by rw [List.append_nil], Runs.nil.snoc hc hstep⟩
      | inr hcons =>
        obtain ⟨op', l', w, rfl, -, hstep', hl'⟩ := hcons
        obtain ⟨rfl, rfl⟩ := hdet _ _ _ _ _ hstep hstep'
        exact Or.inl ⟨l', by rw [List.append_assoc]; rfl, hl'⟩

/-- Whichever of the steps in `C` are taken, `P` comes to hold, and until then there is one. -/
inductive Eventually (step : σ → ω → Option σ) (C : σ → ω → Prop) (P : σ → Prop) : σ → Prop
  | now {s : σ} : P s → Eventually step C P s
  | later {s : σ} : (∃ op t, C s op ∧ step s op = some t) →
      (∀ op t, C s op → step s op = some t → Eventually step C P t) → Eventually step C P s

/-- A measure that each step makes smaller leads to `P` where no state but one with `P` is
stuck. -/
theorem eventually_of_measure {α : Type*} {r : α → α → Prop} (hr : WellFounded r)
    (measure : σ → α) {P : σ → Prop} (I : σ → Prop)
    (hstep : ∀ s op t, I s → ¬ P s → C s op → step s op = some t →
      I t ∧ r (measure t) (measure s))
    (hmore : ∀ s, I s → ¬ P s → ∃ op t, C s op ∧ step s op = some t) (hs : I s) :
    Eventually step C P s := by
  generalize hm : measure s = m
  induction m using hr.induction generalizing s with
  | _ m ih =>
    by_cases hp : P s
    · exact .now hp
    · refine .later (hmore s hs hp) ?_
      intro op t hop ht
      obtain ⟨ht', hlt⟩ := hstep s op t hs hp hop ht
      exact ih (measure t) (hm ▸ hlt) ht' rfl

/-- A loop over a list keeps what each of its rounds keeps. -/
theorem foldlM_invariant (I : σ → Prop) (hI : ∀ s op t, I s → step s op = some t → I t)
    (h : ops.foldlM step s = some t) (hs : I s) : I t := by
  induction ops generalizing s with
  | nil => exact Option.some.inj h ▸ hs
  | cons op ops ih =>
    rw [List.foldlM_cons] at h
    obtain ⟨u, hu, hr⟩ := Option.bind_eq_some_iff.mp h
    exact ih hr (hI s op u hs hu)

/-- A loop whose rounds are defined under an invariant they keep is defined. -/
theorem foldlM_isSome (I : σ → Prop) (hI : ∀ s op t, I s → step s op = some t → I t)
    (hdef : ∀ s op, I s → (step s op).isSome) (hs : I s) : (ops.foldlM step s).isSome := by
  induction ops generalizing s with
  | nil => rfl
  | cons op ops ih =>
    obtain ⟨u, hu⟩ := Option.isSome_iff_exists.mp (hdef s op hs)
    rw [List.foldlM_cons, hu]
    exact ih (hI s op u hs hu)

theorem foldlM_fixed (h : ∀ op ∈ ops, step s op = some s) : ops.foldlM step s = some s := by
  induction ops with
  | nil => rfl
  | cons op ops ih =>
    rw [List.foldlM_cons, h op List.mem_cons_self]
    exact ih fun op' hop => h op' (List.mem_cons_of_mem op hop)

/-- The run of a list of calls, undefined as soon as a call is undefined or breaks `C`. -/
def exec (step : σ → ω → Option σ) (C : σ → ω → Prop) [∀ s op, Decidable (C s op)] :
    σ → List ω → Option σ
  | s, [] => some s
  | s, op :: ops => if C s op then (step s op).bind (exec step C · ops) else none

theorem runs_of_exec [∀ s op, Decidable (C s op)] (h : exec step C s ops = some t) :
    Runs step C s ops t := by
  induction ops generalizing s with
  | nil =>
    simp only [exec, Option.some.injEq] at h
    exact h ▸ .nil
  | cons op ops ih =>
    simp only [exec] at h
    split at h
    · rename_i hc
      obtain ⟨v, hv, hr⟩ := Option.bind_eq_some_iff.mp h
      exact Runs.cons hc hv (ih hr)
    · cases h

/-- A list of calls that leads to a state with the property `p`. -/
theorem exists_of_exec [∀ s op, Decidable (C s op)] {p : σ → Bool}
    (h : (exec step C s ops).any p = true) : ∃ t, Runs step C s ops t ∧ p t = true := by
  obtain ⟨t, ht, hp⟩ := (Option.any_eq_true _ _).mp h
  exact ⟨t, runs_of_exec ht, hp⟩

end CppPrivate.Run
