import Mathlib.Data.List.Infix

/-! A search that starts again at the element that did not match. It misses no occurrence of a
text whose first element does not come back in it. -/
namespace CppPrivate.Restart
variable {α : Type*} [DecidableEq α] {d x : List α} {k : Nat}

/-- What follows the first match of `d`, of which `k` elements have been matched. -/
def find (d : List α) : Nat → List α → Option (List α)
  | _, [] => none
  | k, c :: x =>
    if d[k]? = some c then if k + 1 = d.length then some x else find d (k + 1) x
    else if d.head? = some c then find d 1 x
    else find d 0 x

/-- The search passes over `x` and ends with the `d` behind it. -/
def Passes (d x : List α) : Prop := find d 0 (x ++ d) = some []

instance (d x : List α) : Decidable (Passes d x) := inferInstanceAs (Decidable (_ = _))

theorem find_drop (hk : k < d.length) (x : List α) : find d k (d.drop k ++ x) = some x := by
  induction h : d.length - k generalizing k with
  | zero => omega
  | succ n ih =>
    rw [List.drop_eq_getElem_cons hk, List.cons_append, find, if_pos (List.getElem?_eq_getElem hk)]
    by_cases hlast : k + 1 = d.length
    · rw [if_pos hlast, List.drop_of_length_le (Nat.le_of_eq hlast.symm), List.nil_append]
    · rw [if_neg hlast]
      exact ih (by omega) (by omega)

/-- Some elements of `d` have been matched: `d` is found where it comes next. -/
theorem find_next (hd : ∀ i, 0 < i → d[i]? ≠ d.head?) (hk : k < d.length) :
    find d k d = some [] := by
  cases k with
  | zero =>
    have hfind := find_drop hk []
    rw [List.drop_zero, List.append_nil] at hfind
    exact hfind
  | succ k =>
    cases d with
    | nil => cases hk
    | cons c d =>
      have hne := hd (k + 1) (Nat.succ_pos k)
      rw [List.head?_cons] at hne
      rw [find, if_neg hne, if_pos List.head?_cons]
      have hfind := find_drop (d := c :: d) (k := 1) (by omega) []
      rw [List.append_nil] at hfind
      exact hfind

/-- Where `d` does not occur, the search passes. -/
theorem find_of_absent (hd : ∀ i, 0 < i → d[i]? ≠ d.head?) (hk : k < d.length)
    (hx : ¬ d <:+: d.take k ++ x) : find d k (x ++ d) = some [] := by
  induction x generalizing k with
  | nil => exact find_next hd hk
  | cons c x ih =>
    rw [List.cons_append, find]
    by_cases hc : d[k]? = some c
    · have htake : d.take (k + 1) = d.take k ++ [c] := by
        rw [List.take_add_one, hc]
        rfl
      have hnext : ¬ d <:+: d.take (k + 1) ++ x := by
        rw [htake, List.append_assoc]
        exact hx
      rw [if_pos hc]
      by_cases hlast : k + 1 = d.length
      · rw [hlast, List.take_length] at hnext
        exact absurd (List.prefix_append d x).isInfix hnext
      · rw [if_neg hlast]
        exact ih (by omega) hnext
    · rw [if_neg hc]
      by_cases hhead : d.head? = some c
      · rw [if_pos hhead]
        have hpos : k ≠ 0 := by
          intro hzero
          rw [hzero, ← List.head?_eq_getElem?] at hc
          exact hc hhead
        have htake : d.take 1 = [c] := by
          rw [List.take_one, hhead]
          rfl
        apply ih (by omega)
        intro hsub
        rw [htake] at hsub
        exact hx (hsub.trans (List.suffix_append _ (c :: x)).isInfix)
      · rw [if_neg hhead]
        apply ih (Nat.zero_lt_of_lt hk)
        intro hsub
        rw [List.take_zero, List.nil_append] at hsub
        apply hx
        apply hsub.trans
        exact ((List.suffix_cons c x).trans (List.suffix_append _ _)).isInfix

theorem passes_of_absent (hd : ∀ i, 0 < i → d[i]? ≠ d.head?) (hne : d ≠ [])
    (hx : ¬ d <:+: x) : Passes d x :=
  find_of_absent hd (List.length_pos_iff.mpr hne) (by rw [List.take_zero]; exact hx)

/-- What has been searched without a match, and how much of `d` stands at its end. -/
structure Searched (d : List α) (k : Nat) (x : List α) : Prop where
  lt : k < d.length
  tail : ∃ w, x = w ++ d.take k
  find : ∀ y, find d 0 (x ++ y) = find d k y

namespace Searched
variable {c : α}

theorem nil (hd : d ≠ []) : Searched d 0 [] :=
  ⟨List.length_pos_iff.mpr hd, ⟨[], rfl⟩, fun _ => rfl⟩

theorem find_cons (h : Searched d k x) (y : List α) :
    Restart.find d 0 (x ++ [c] ++ y) = Restart.find d k (c :: y) := by
  rw [List.append_assoc]
  exact h.find (c :: y)

theorem next (h : Searched d k x) (hc : d[k]? = some c) (hk : k + 1 ≠ d.length) :
    Searched d (k + 1) (x ++ [c]) := by
  obtain ⟨w, hw⟩ := h.tail
  have hlt := h.lt
  refine ⟨by omega, ⟨w, ?_⟩, ?_⟩
  · rw [List.take_add_one, hc, hw, List.append_assoc]
    rfl
  · intro y
    rw [h.find_cons, Restart.find, if_pos hc, if_neg hk]

theorem first (h : Searched d k x) (hc : d[k]? ≠ some c) (hhead : d.head? = some c) :
    Searched d 1 (x ++ [c]) := by
  refine ⟨?_, ⟨x, ?_⟩, ?_⟩
  · have hpos : k ≠ 0 := by
      intro hzero
      rw [hzero, ← List.head?_eq_getElem?] at hc
      exact hc hhead
    have hlt := h.lt
    omega
  · rw [List.take_one, hhead]
    rfl
  · intro y
    rw [h.find_cons, Restart.find, if_neg hc, if_pos hhead]

theorem other (h : Searched d k x) (hc : d[k]? ≠ some c) (hhead : d.head? ≠ some c) :
    Searched d 0 (x ++ [c]) := by
  refine ⟨Nat.zero_lt_of_lt h.lt, ⟨x ++ [c], ?_⟩, ?_⟩
  · rw [List.take_zero, List.append_nil]
  · intro y
    rw [h.find_cons, Restart.find, if_neg hc, if_neg hhead]

theorem found (h : Searched d k x) (hc : d[k]? = some c) (hk : k + 1 = d.length) :
    ∃ w, x ++ [c] = w ++ d ∧ Passes d w := by
  obtain ⟨w, rfl⟩ := h.tail
  have htext : w ++ d.take k ++ [c] = w ++ d := by
    have htake : d.take (k + 1) = d.take k ++ [c] := by
      rw [List.take_add_one, hc]
      rfl
    rw [List.append_assoc, ← htake, hk, List.take_length]
  refine ⟨w, htext, ?_⟩
  have hfind := h.find_cons (c := c) []
  rw [List.append_nil, htext, Restart.find, if_pos hc, if_pos hk] at hfind
  exact hfind

end Searched

end CppPrivate.Restart
