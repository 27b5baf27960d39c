import Mathlib.Data.List.Basic

/-! Programs whose calls answer as those of a specification do. A call of the program may be
undefined, the specification says for each state which calls may be made. -/
namespace CppPrivate.Simulation
variable {σ τ ω β : Type*}

/-- The calls one after the other, with their answers; undefined as soon as one of them is. -/
def callAll (call : σ → ω → Option (σ × β)) : σ → List ω → Option (σ × List β)
  | s, [] => some (s, [])
  | s, op :: ops => do
    let (s, answer) ← call s op
    let (s, answers) ← callAll call s ops
    some (s, answer :: answers)

def specAll (spec : τ → ω → τ × β) : τ → List ω → τ × List β
  | t, [] => (t, [])
  | t, op :: ops => ((specAll spec (spec t op).1 ops).1, (spec t op).2 :: (specAll spec (spec t op).1 ops).2)

/-- Each call may be made when its turn comes. -/
def AllowsAll (spec : τ → ω → τ × β) (allows : τ → ω → Prop) : τ → List ω → Prop
  | _, [] => True
  | t, op :: ops => allows t op ∧ AllowsAll spec allows (spec t op).1 ops

instance (spec : τ → ω → τ × β) (allows : τ → ω → Prop) [∀ t op, Decidable (allows t op)] :
    ∀ t ops, Decidable (AllowsAll spec allows t ops)
  | _, [] => inferInstanceAs (Decidable True)
  | t, op :: ops =>
    have := instDecidableAllowsAll spec allows (spec t op).1 ops
    inferInstanceAs (Decidable (allows t op ∧ AllowsAll spec allows (spec t op).1 ops))

variable {call : σ → ω → Option (σ × β)} {spec : τ → ω → τ × β} {allows : τ → ω → Prop}

/-- A relation that one call keeps, with equal answers, is kept by all of them. -/
theorem callAll_refines (R : σ → τ → Prop)
    (hcall : ∀ s t op, R s t → allows t op →
      ∃ s', call s op = some (s', (spec t op).2) ∧ R s' (spec t op).1)
    {s : σ} {t : τ} {ops : List ω} (hst : R s t) (hops : AllowsAll spec allows t ops) :
    ∃ s', callAll call s ops = some (s', (specAll spec t ops).2) ∧ R s' (specAll spec t ops).1 := by
  induction ops generalizing s t with
  | nil => exact ⟨s, rfl, hst⟩
  | cons op ops ih =>
    obtain ⟨s₁, hs₁, hr₁⟩ := hcall s t op hst hops.1
    obtain ⟨s₂, hs₂, hr₂⟩ := ih hr₁ hops.2
    refine ⟨s₂, ?_, hr₂⟩
    simp only [callAll, hs₁, Option.bind_eq_bind, Option.bind_some, hs₂, specAll]

end CppPrivate.Simulation
