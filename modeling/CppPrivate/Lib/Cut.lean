import Mathlib.Data.List.Basic
import Mathlib.Data.List.DropRight

/-! Parts of a list: from a place on, around the first separator in it and behind the last one. -/
namespace CppPrivate
variable {α : Type*} {a b s : List α} {c : α}

/-- At most `len` elements from the place `off` on, which must not be behind the end. -/
def substr? (s : List α) (off len : Nat) : Option (List α) :=
  if off ≤ s.length then some ((s.drop off).take len) else none

/-- A part up to the end, read backwards, begins with the last element. -/
theorem reverse_drop {n : Nat} (hn : n < s.length) (hlast : s[s.length - 1]? = some c) :
    (s.drop n).reverse = c :: (s.dropLast.drop n).reverse := by
  have hs : s.dropLast ++ [c] = s :=
    List.dropLast_append_getLast? c (by rw [List.getLast?_eq_getElem?]; exact hlast)
  have hlen : n ≤ s.dropLast.length := by
    rw [List.length_dropLast]
    omega
  calc (s.drop n).reverse = ((s.dropLast ++ [c]).drop n).reverse := by rw [hs]
    _ = (s.dropLast.drop n ++ [c]).reverse := by rw [List.drop_append_of_le_length hlen]
    _ = c :: (s.dropLast.drop n).reverse := by rw [List.reverse_append]; rfl

theorem takeWhile_congr {f g : α → Bool} (h : ∀ x ∈ s, f x = g x) :
    s.takeWhile f = s.takeWhile g := by
  induction s with
  | nil => rfl
  | cons x s ih =>
    rw [List.takeWhile_cons, List.takeWhile_cons, h x List.mem_cons_self,
      ih fun y hy => h y (List.mem_cons_of_mem x hy)]

variable [DecidableEq α]

/-- What stands before the first `c`, and what stands behind it if there is one. -/
def cut (c : α) : List α → List α × Option (List α)
  | [] => ([], none)
  | d :: s => if d = c then ([], some s) else (d :: (cut c s).1, (cut c s).2)

/-- What has no separator stays before the first one. -/
theorem cut_append_left (h : c ∉ a) (s : List α) :
    cut c (a ++ s) = (a ++ (cut c s).1, (cut c s).2) := by
  induction a with
  | nil => rfl
  | cons d a ih =>
    simp only [List.mem_cons, not_or] at h
    rw [List.cons_append, cut, if_neg (Ne.symm h.1), ih h.2]
    rfl

theorem cut_append (h : c ∉ a) : cut c (a ++ c :: b) = (a, some b) := by
  rw [cut_append_left h, cut, if_pos rfl, List.append_nil]

theorem cut_of_not_mem (h : c ∉ s) : cut c s = (s, none) := by
  rw [← List.append_nil s, cut_append_left h]
  rfl

/-- A list has no separator or is the two parts around its first one. -/
theorem cut_cases (c : α) (s : List α) :
    (c ∉ s ∧ cut c s = (s, none)) ∨ ∃ a b, s = a ++ c :: b ∧ c ∉ a ∧ cut c s = (a, some b) := by
  by_cases h : c ∈ s
  · obtain ⟨a, b, rfl, ha⟩ := List.eq_append_cons_of_mem h
    exact Or.inr ⟨a, b, rfl, ha, cut_append ha⟩
  · exact Or.inl ⟨h, cut_of_not_mem h⟩

/-- A list is what has no separator, or that, a separator and a list. -/
theorem cut_induction {motive : List α → Prop} (last : ∀ a, c ∉ a → motive a)
    (cons : ∀ a s, c ∉ a → motive s → motive (a ++ c :: s)) (s : List α) : motive s := by
  induction hn : s.length using Nat.strongRecOn generalizing s with
  | ind n ih =>
    obtain ⟨h, -⟩ | ⟨a, b, rfl, ha, -⟩ := cut_cases c s
    · exact last s h
    · refine cons a b ha (ih b.length ?_ b rfl)
      rw [← hn, List.length_append, List.length_cons]
      omega

theorem not_mem_cut (c : α) (s : List α) : c ∉ (cut c s).1 := by
  obtain ⟨h, hcut⟩ | ⟨a, b, -, ha, hcut⟩ := cut_cases c s
  · rw [hcut]
    exact h
  · rw [hcut]
    exact ha

/-- The part before the separator begins the list. -/
theorem cut_begins (c : α) (s : List α) : (cut c s).1 <+: s := by
  obtain ⟨-, hcut⟩ | ⟨a, b, hs, -, hcut⟩ := cut_cases c s
  · exact ⟨[], by rw [hcut, List.append_nil]⟩
  · rw [hcut]
    exact ⟨c :: b, hs.symm⟩

theorem rtakeWhile_append_cons (a b : List α) :
    (a ++ c :: b).rtakeWhile (· ≠ c) = b.rtakeWhile (· ≠ c) := by
  induction b using List.reverseRecOn with
  | nil => simp
  | append_singleton b d ih =>
    rw [← List.cons_append, ← List.append_assoc, List.rtakeWhile_concat, List.rtakeWhile_concat, ih]

theorem length_rtakeWhile_le (c : α) (s : List α) :
    (s.rtakeWhile (· ≠ c)).length ≤ s.countP (· ≠ c) := by
  have hall : (s.rtakeWhile (· ≠ c)).countP (· ≠ c) = (s.rtakeWhile (· ≠ c)).length :=
    List.countP_eq_length.mpr fun _ => List.mem_rtakeWhile_imp
  rw [← hall]
  exact (List.rtakeWhile_suffix _ _).sublist.countP_le

/-- With all separators at the beginning, what is behind them is what is behind the last. -/
theorem rtakeWhile_eq_dropWhile (h : c ∉ s.dropWhile (· = c)) :
    s.rtakeWhile (· ≠ c) = s.dropWhile (· = c) := by
  induction s with
  | nil => rfl
  | cons d s ih =>
    by_cases hd : d = c
    · subst hd
      rw [List.dropWhile_cons_of_pos (by simp)] at h ⊢
      rw [← ih h, ← List.nil_append (d :: s), rtakeWhile_append_cons]
    · rw [List.dropWhile_cons_of_neg (by simpa using hd)] at h ⊢
      refine List.rtakeWhile_eq_self_iff.mpr fun x hx => ?_
      simpa using ne_of_mem_of_not_mem hx h

/-- Nothing but separators stands before the last one if not more is counted than stands behind
it. -/
theorem countP_le_iff (c : α) (s : List α) :
    s.countP (· ≠ c) ≤ (s.rtakeWhile (· ≠ c)).length ↔ c ∉ s.dropWhile (· = c) := by
  induction s with
  | nil => simp
  | cons d s ih =>
    by_cases hd : d = c
    · subst hd
      rw [List.dropWhile_cons_of_pos (by simp), ← ih, List.countP_cons_of_neg (by simp),
        ← List.nil_append (d :: s), rtakeWhile_append_cons]
    · rw [List.dropWhile_cons_of_neg (by simpa using hd),
        List.countP_cons_of_pos (by simpa using hd)]
      constructor
      · intro hle hmem
        obtain ⟨a, b, hs⟩ := List.append_of_mem hmem
        cases a with
        | nil => exact hd (List.cons.inj hs).1
        | cons x a =>
          obtain ⟨-, rfl⟩ : d = x ∧ s = a ++ c :: b := List.cons.inj hs
          rw [← List.cons_append, rtakeWhile_append_cons] at hle
          have hb := length_rtakeWhile_le c b
          rw [List.countP_append, List.countP_cons_of_neg (by simp)] at hle
          omega
      · intro hnot
        have hall : ∀ x ∈ d :: s, decide (x ≠ c) = true := fun x hx => by
          simpa using ne_of_mem_of_not_mem hx hnot
        rw [List.rtakeWhile_eq_self_iff.mpr hall, List.length_cons]
        exact Nat.succ_le_succ List.countP_le_length

end CppPrivate
