import Mathlib.Algebra.Group.Int.Defs
import Mathlib.Algebra.Group.Nat.Defs
import Mathlib.Data.List.Basic

/-! Words of opening and closing events in which every pair is closed inside the pair around it. -/
namespace CppPrivate
variable {ε : Type*} {pair : ε → ε → Prop} {l m : List ε}

inductive Nested (pair : ε → ε → Prop) : List ε → Prop
  | nil : Nested pair []
  | wrap {a b : ε} {l : List ε} : pair a b → Nested pair l → Nested pair (a :: (l ++ [b]))
  | append {l m : List ε} : Nested pair l → Nested pair m → Nested pair (l ++ m)

namespace Nested

/-- An opening event is closed, and all that happens before it is closed is nested. -/
theorem closed (h : Nested pair l) {u v : List ε} {a : ε} (hl : l = u ++ a :: v)
    (hopen : ∀ c, ¬ pair c a) : ∃ x b y, v = x ++ b :: y ∧ pair a b ∧ Nested pair x := by
  induction h generalizing u v with
  | nil => simp at hl
  | @wrap c d l hcd hn ih =>
    cases u with
    | nil =>
      simp only [List.nil_append, List.cons.injEq] at hl
      obtain ⟨rfl, rfl⟩ := hl
      exact ⟨l, d, [], rfl, hcd, hn⟩
    | cons e u =>
      simp only [List.cons_append, List.cons.injEq] at hl
      cases List.append_eq_append_iff.mp hl.2 with
      | inl hcase =>
        obtain ⟨w, hw, hd⟩ := hcase
        cases w with
        | nil =>
          simp only [List.nil_append, List.cons.injEq] at hd
          exact absurd (hd.1 ▸ hcd) (hopen c)
        | cons f w => simp at hd
      | inr hcase =>
        obtain ⟨w, hw, hd⟩ := hcase
        cases w with
        | nil =>
          simp only [List.nil_append, List.cons.injEq] at hd
          exact absurd (hd.1 ▸ hcd) (hopen c)
        | cons f w =>
          simp only [List.cons_append, List.cons.injEq] at hd
          obtain ⟨rfl, rfl⟩ := hd
          obtain ⟨x, b, y, rfl, hab, hx⟩ := ih hw
          exact ⟨x, b, y ++ [d], by simp, hab, hx⟩
  | @append l m _ _ ihl ihm =>
    cases List.append_eq_append_iff.mp hl with
    | inl hcase =>
      obtain ⟨w, hw, hd⟩ := hcase
      exact ihm hd
    | inr hcase =>
      obtain ⟨w, hw, hd⟩ := hcase
      cases w with
      | nil =>
        have hm : m = [] ++ a :: v := hd.symm
        exact ihm hm
      | cons f w =>
        simp only [List.cons_append, List.cons.injEq] at hd
        obtain ⟨rfl, rfl⟩ := hd
        obtain ⟨x, b, y, rfl, hab, hx⟩ := ihl hw
        exact ⟨x, b, y ++ m, by simp, hab, hx⟩

/-- Openings and closings of one kind occur equally often. -/
theorem count_eq [DecidableEq ε] (h : Nested pair l) {a b : ε}
    (hab : ∀ c d, pair c d → (c = a ↔ d = b)) (ha : ∀ c, ¬ pair c a) (hb : ∀ d, ¬ pair b d) :
    l.count a = l.count b := by
  induction h with
  | nil => rfl
  | @wrap c d l hcd _ ih =>
    have hda : d ≠ a := fun he => ha c (he ▸ hcd)
    have hcb : c ≠ b := fun he => hb d (he ▸ hcd)
    have := hab c d hcd
    simp only [List.count_cons, List.count_append, List.count_nil, beq_iff_eq, hda, hcb, if_false,
      ih]
    split <;> simp_all
  | append _ _ ihl ihm => rw [List.count_append, List.count_append, ihl, ihm]

end Nested
end CppPrivate
