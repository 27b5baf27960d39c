import CppPrivate.Lib.Bytes

/-! Codes whose words show where they end, so that a text made of them can be cut into its parts
again. -/
namespace CppPrivate
variable {α β : Type*}

/-- What follows a word of the code does not change how the word is read. -/
def SelfDelimiting (f : α → List β) : Prop :=
  ∀ a b s t, f a ++ s = f b ++ t → a = b ∧ s = t

namespace SelfDelimiting
variable {f : α → List β} {g : α → List β} {c : β}

/-- A word ends at the first occurrence of a symbol that no word has. -/
theorem ended (hg : Function.Injective g) (hc : ∀ a, c ∉ g a) :
    SelfDelimiting fun a => g a ++ [c] := by
  intro a b s t h
  simp only [List.append_assoc, List.singleton_append] at h
  obtain ⟨hab, hst⟩ := cut_inj (hc a) (hc b) h
  exact ⟨hg hab, hst⟩

theorem prepend (hf : SelfDelimiting f) (w : List β) : SelfDelimiting fun a => w ++ f a := by
  intro a b s t h
  simp only [List.append_assoc, List.append_cancel_left_eq] at h
  exact hf a b s t h

theorem append (hf : SelfDelimiting f) (w : List β) : SelfDelimiting fun a => f a ++ w := by
  intro a b s t h
  simp only [List.append_assoc] at h
  obtain ⟨rfl, hst⟩ := hf a b _ _ h
  exact ⟨rfl, List.append_cancel_left hst⟩

/-- A text after its length. -/
theorem counted {f : Nat → List β} (hf : SelfDelimiting f) :
    SelfDelimiting fun l : List β => f l.length ++ l := by
  intro l l' s t h
  simp only [List.append_assoc] at h
  obtain ⟨hlen, hst⟩ := hf _ _ _ _ h
  exact List.append_inj hst hlen

/-- A sequence of words is read in one way. -/
theorem flatMap_injective (hf : SelfDelimiting f) (hne : ∀ a, f a ≠ []) :
    Function.Injective fun l : List α => l.flatMap f := by
  intro l l' h
  dsimp only at h
  induction l generalizing l' with
  | nil =>
    cases l' with
    | nil => rfl
    | cons b l' =>
      rw [List.flatMap_nil, List.flatMap_cons] at h
      exact absurd (List.append_eq_nil_iff.mp h.symm).1 (hne b)
  | cons a l ih =>
    cases l' with
    | nil =>
      rw [List.flatMap_nil, List.flatMap_cons] at h
      exact absurd (List.append_eq_nil_iff.mp h).1 (hne a)
    | cons b l' =>
      rw [List.flatMap_cons, List.flatMap_cons] at h
      obtain ⟨rfl, hrest⟩ := hf _ _ _ _ h
      rw [ih hrest]

end SelfDelimiting
end CppPrivate
