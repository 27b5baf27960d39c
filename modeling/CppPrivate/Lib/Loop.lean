import Mathlib.Data.List.Basic

/-! Loops. A round of a loop goes on with another state or leaves with a result; whether the loop
ends is a question about all its rounds. -/
namespace CppPrivate.Loop

inductive Round (σ ρ : Type*) where
  | next (s : σ)
  | done (r : ρ)

variable {σ ρ : Type*} {step : σ → Round σ ρ} {s t : σ} {r r' : ρ}

/-- The loop leaves with `r` after finitely many rounds. -/
inductive Ends (step : σ → Round σ ρ) : σ → ρ → Prop
  | done {s : σ} {r : ρ} : step s = .done r → Ends step s r
  | next {s t : σ} {r : ρ} : step s = .next t → Ends step t r → Ends step s r

def Terminates (step : σ → Round σ ρ) (s : σ) : Prop := ∃ r, Ends step s r

theorem Ends.unique (h : Ends step s r) (h' : Ends step s r') : r = r' := by
  induction h with
  | done hstep =>
    cases h' with
    | done hstep' =>
      rw [hstep] at hstep'
      cases hstep'
      rfl
    | next hstep' _ =>
      rw [hstep] at hstep'
      cases hstep'
  | next hstep _ ih =>
    cases h' with
    | done hstep' =>
      rw [hstep] at hstep'
      cases hstep'
    | next hstep' h' =>
      rw [hstep] at hstep'
      cases hstep'
      exact ih h'

/-- A round does not change the result. -/
theorem ends_next_iff (hstep : step s = .next t) : Ends step s r ↔ Ends step t r := by
  constructor
  · intro h
    cases h with
    | done hstep' =>
      rw [hstep] at hstep'
      cases hstep'
    | next hstep' h =>
      rw [hstep] at hstep'
      cases hstep'
      exact h
  · exact .next hstep

theorem ends_done_iff (hstep : step s = .done r') : Ends step s r ↔ r = r' :=
  ⟨fun h => h.unique (.done hstep), fun h => .done (h ▸ hstep)⟩

theorem terminates_next_iff (hstep : step s = .next t) :
    Terminates step s ↔ Terminates step t :=
  exists_congr fun _ => ends_next_iff hstep

/-- A measure that gets smaller each round ends the loop. -/
theorem terminates_of_measure (I : σ → Prop) (measure : σ → Nat)
    (hnext : ∀ s t, I s → step s = .next t → I t ∧ measure t < measure s) (hs : I s) :
    Terminates step s := by
  generalize hn : measure s = n
  induction n using Nat.strongRecOn generalizing s with
  | ind n ih =>
    cases hstep : step s with
    | done r => exact ⟨r, .done hstep⟩
    | next t =>
      obtain ⟨ht, hlt⟩ := hnext s t hs hstep
      obtain ⟨r, hr⟩ := ih (measure t) (hn ▸ hlt) ht rfl
      exact ⟨r, .next hstep hr⟩

/-- Where every round goes on the loop does not end. -/
theorem not_terminates (I : σ → Prop) (hnext : ∀ s, I s → ∃ t, step s = .next t ∧ I t)
    (hs : I s) : ¬ Terminates step s := by
  intro hend
  obtain ⟨r, h⟩ := hend
  induction h with
  | done hstep =>
    obtain ⟨t, hstep', -⟩ := hnext _ hs
    rw [hstep] at hstep'
    cases hstep'
  | next hstep _ ih =>
    obtain ⟨t, hstep', ht⟩ := hnext _ hs
    rw [hstep] at hstep'
    cases hstep'
    exact ih ht

inductive Reaches (step : σ → Round σ ρ) (s : σ) : σ → Prop
  | refl : Reaches step s s
  | tail {t u : σ} : Reaches step s t → step t = .next u → Reaches step s u

theorem Reaches.terminates (h : Reaches step s t) (hs : Terminates step s) :
    Terminates step t := by
  induction h with
  | refl => exact hs
  | tail _ hstep ih => exact (terminates_next_iff hstep).mp ih

theorem Reaches.ends (h : Reaches step s t) (ht : Ends step t r) : Ends step s r := by
  induction h with
  | refl => exact ht
  | tail _ hstep ih => exact ih (.next hstep ht)

theorem Reaches.trans {u : σ} (h : Reaches step s t) (h' : Reaches step t u) : Reaches step s u := by
  induction h' with
  | refl => exact h
  | tail _ hstep ih => exact ih.tail hstep

theorem Reaches.once (hstep : step s = .next t) : Reaches step s t := .tail .refl hstep

/-- A loop that gets smaller except where it stays ends exactly if it comes to no state in which it
stays. -/
theorem terminates_iff_of_measure (I stays : σ → Prop) (measure : σ → Nat)
    (hnext : ∀ s t, I s → step s = .next t → I t ∧ (¬ stays s → measure t < measure s))
    (hstays : ∀ s, I s → stays s → ∃ t, step s = .next t ∧ stays t) (hs : I s) :
    Terminates step s ↔ ∀ t, Reaches step s t → ¬ stays t := by
  have hinv : ∀ t, Reaches step s t → I t := by
    intro t ht
    induction ht with
    | refl => exact hs
    | tail _ hstep ih => exact (hnext _ _ ih hstep).1
  constructor
  · intro h t ht hstay
    refine not_terminates (fun u => I u ∧ stays u) ?_ ⟨hinv t ht, hstay⟩ (ht.terminates h)
    intro u hu
    obtain ⟨v, hv, hstay⟩ := hstays u hu.1 hu.2
    exact ⟨v, hv, (hnext u v hu.1 hv).1, hstay⟩
  · intro h
    refine terminates_of_measure (Reaches step s) measure ?_ .refl
    intro t u ht hstep
    exact ⟨ht.tail hstep, (hnext t u (hinv t ht) hstep).2 (h t ht)⟩

def iterate (step : σ → Round σ ρ) : Nat → σ → Option ρ
  | 0, _ => none
  | n + 1, s =>
    match step s with
    | .done r => some r
    | .next t => iterate step n t

theorem ends_of_iterate {n : Nat} (h : iterate step n s = some r) : Ends step s r := by
  induction n generalizing s with
  | zero => cases h
  | succ n ih =>
    rw [iterate] at h
    cases hstep : step s with
    | done r' =>
      rw [hstep] at h
      cases h
      exact .done hstep
    | next t =>
      rw [hstep] at h
      exact .next hstep (ih h)

/-- As many rounds as the measure says, and one, are enough. -/
theorem iterate_of_measure (measure : σ → Nat)
    (hnext : ∀ s t, step s = .next t → measure t < measure s) {n : Nat} (hn : measure s < n) :
    ∃ r, iterate step n s = some r := by
  induction n generalizing s with
  | zero => omega
  | succ n ih =>
    rw [iterate]
    cases hstep : step s with
    | done r => exact ⟨r, rfl⟩
    | next t =>
      have hlt := hnext s t hstep
      exact ih (by omega)

theorem iterate_of_ends (measure : σ → Nat)
    (hnext : ∀ s t, step s = .next t → measure t < measure s) {n : Nat} (hn : measure s < n)
    (h : Ends step s r) : iterate step n s = some r := by
  obtain ⟨r', hr'⟩ := iterate_of_measure measure hnext hn
  rw [hr', h.unique (ends_of_iterate hr')]

end CppPrivate.Loop
