import Mathlib.Data.List.Basic

/-! Readers of input that comes in pieces. A step takes something from the front of what is there,
wants more, or fails; what it does with an input it does with a longer one as well. -/
namespace CppPrivate.Incremental

/-- What one step of a reader does: it goes on in a state, with results, and leaves the rest of
the input. -/
inductive Outcome (σ β ρ ε : Type*) where
  | took (s : σ) (out : List ρ) (rest : List β)
  | wants
  | failed (e : ε)

variable {σ β ρ ε : Type*} {step : σ → List β → Outcome σ β ρ ε} {s t u : σ} {l m r q : List β}
  {o o' : List ρ} {e : ε}

/-- More input changes nothing about a step that has been taken, and each step takes some. -/
structure Stable (step : σ → List β → Outcome σ β ρ ε) : Prop where
  took : ∀ {s l t o r}, step s l = .took t o r → ∀ m, step s (l ++ m) = .took t o (r ++ m)
  failed : ∀ {s l e}, step s l = .failed e → ∀ m, step s (l ++ m) = .failed e
  shorter : ∀ {s l t o r}, step s l = .took t o r → r.length < l.length

/-- Steps that lead from one state to another, with all their results. -/
inductive Took (step : σ → List β → Outcome σ β ρ ε) : σ → List β → List ρ → σ → List β → Prop
  | nil (s : σ) (l : List β) : Took step s l [] s l
  | cons {s t u : σ} {l r q : List β} {o o' : List ρ} :
      step s l = .took t o r → Took step t r o' u q → Took step s l (o ++ o') u q

def Stops (step : σ → List β → Outcome σ β ρ ε) (s : σ) (l : List β) : Prop :=
  ∀ t o r, step s l ≠ .took t o r

theorem stops_of_wants (h : step s l = .wants) : Stops step s l := by
  intro t o r ht
  rw [h] at ht
  cases ht

theorem stops_of_failed (h : step s l = .failed e) : Stops step s l := by
  intro t o r ht
  rw [h] at ht
  cases ht

namespace Took

theorem single (h : step s l = .took t o r) : Took step s l o t r := by
  simpa using cons h (nil t r)

theorem trans (h : Took step s l o t r) (h' : Took step t r o' u q) :
    Took step s l (o ++ o') u q := by
  induction h with
  | nil => exact h'
  | cons hstep _ ih =>
    rw [List.append_assoc]
    exact cons hstep (ih h')

/-- What has been taken from an input is taken from a longer one. -/
theorem append (hs : Stable step) (h : Took step s l o t r) (m : List β) :
    Took step s (l ++ m) o t (r ++ m) := by
  induction h with
  | nil => exact nil _ _
  | cons hstep _ ih => exact cons (hs.took hstep m) ih

theorem length_le (hs : Stable step) (h : Took step s l o t r) : r.length ≤ l.length := by
  induction h with
  | nil => exact Nat.le_refl _
  | cons hstep _ ih => exact Nat.le_trans ih (Nat.le_of_lt (hs.shorter hstep))

/-- Of two ways from one state one leads to where the other goes on. -/
theorem comparable (h : Took step s l o t r) (h' : Took step s l o' u q) :
    (∃ more, o' = o ++ more ∧ Took step t r more u q) ∨
      ∃ more, o = o' ++ more ∧ Took step u q more t r := by
  induction h generalizing o' with
  | nil => exact .inl ⟨o', rfl, h'⟩
  | cons hstep htail ih =>
    cases h' with
    | nil => exact .inr ⟨_, rfl, .cons hstep htail⟩
    | cons hstep' htail' =>
      rw [hstep] at hstep'
      cases hstep'
      obtain ⟨more, rfl, hmore⟩ | ⟨more, rfl, hmore⟩ := ih htail'
      · exact .inl ⟨more, (List.append_assoc _ _ _).symm, hmore⟩
      · exact .inr ⟨more, (List.append_assoc _ _ _).symm, hmore⟩

/-- Steps that have come to an end go on where any others have come to. -/
theorem linear (h : Took step s l o t r) (h' : Took step s l o' u q) (hstop : Stops step u q) :
    ∃ more, o' = o ++ more ∧ Took step t r more u q := by
  obtain hmore | ⟨more, rfl, hmore⟩ := h.comparable h'
  · exact hmore
  · cases hmore with
    | nil => exact ⟨[], by rw [List.append_nil, List.append_nil], .nil _ _⟩
    | cons hstep _ => exact absurd hstep (hstop _ _ _)

/-- There is one end only, and it has one list of results. -/
theorem unique (h : Took step s l o t r) (h' : Took step s l o' u q) (hstop : Stops step t r)
    (hstop' : Stops step u q) : o = o' ∧ t = u ∧ r = q := by
  obtain ⟨more, rfl, hmore⟩ := h.linear h' hstop'
  cases hmore with
  | nil => exact ⟨(List.append_nil o).symm, rfl, rfl⟩
  | cons hstep _ => exact absurd hstep (hstop _ _ _)

/-- The results after an input are among those after a longer one. -/
theorem prefix_of_append (hs : Stable step) (h : Took step s l o t r)
    (h' : Took step s (l ++ m) o' u q) (hstop : Stops step u q) : o <+: o' := by
  obtain ⟨more, hmore, -⟩ := (h.append hs m).linear h' hstop
  exact ⟨more, hmore.symm⟩

end Took

end CppPrivate.Incremental
