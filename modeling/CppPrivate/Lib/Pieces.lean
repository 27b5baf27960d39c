import Mathlib.Data.List.Basic
import Mathlib.Data.List.Infix

/-! The places of a pattern in a list, from the left and without overlap, and the pieces between
them. -/
namespace CppPrivate.Pattern
variable {α : Type*} [DecidableEq α] {pat s t x : List α} {i : Nat}

def find (pat : List α) : List α → Option Nat
  | [] => if pat = [] then some 0 else none
  | c :: s => if pat.isPrefixOf (c :: s) then some 0 else (find pat s).map (· + 1)

theorem find_split (h : find pat s = some i) : ∃ rest, s = s.take i ++ (pat ++ rest) := by
  induction s generalizing i with
  | nil =>
    simp only [find, Option.ite_none_right_eq_some] at h
    exact ⟨[], by rw [h.1, List.take_nil]; rfl⟩
  | cons c s ih =>
    rw [find] at h
    split at h
    · rename_i hpre
      cases h
      obtain ⟨rest, hrest⟩ := List.isPrefixOf_iff_prefix.mp hpre
      exact ⟨rest, hrest.symm⟩
    · obtain ⟨k, hk, rfl⟩ := Option.map_eq_some_iff.mp h
      obtain ⟨rest, hrest⟩ := ih hk
      refine ⟨rest, ?_⟩
      rw [List.take_succ_cons, List.cons_append, ← hrest]

theorem find_le (h : find pat s = some i) : i + pat.length ≤ s.length := by
  induction s generalizing i with
  | nil =>
    simp only [find, Option.ite_none_right_eq_some, Option.some.injEq] at h
    rw [← h.2, h.1]
    exact Nat.le_refl 0
  | cons c s ih =>
    rw [find] at h
    split at h
    · rename_i hpre
      cases h
      have hle := (List.isPrefixOf_iff_prefix.mp hpre).length_le
      omega
    · obtain ⟨k, hk, rfl⟩ := Option.map_eq_some_iff.mp h
      have hle := ih hk
      rw [List.length_cons]
      omega

/-- A list with an occurrence is the parts around the first one. -/
theorem find_cases (pat s : List α) : find pat s = none ∨
    ∃ x t, s = x ++ (pat ++ t) ∧ find pat (x ++ (pat ++ t)) = some x.length := by
  cases h : find pat s with
  | none => exact Or.inl rfl
  | some i =>
    obtain ⟨t, ht⟩ := find_split h
    refine Or.inr ⟨s.take i, t, ht, ?_⟩
    have hle := find_le h
    rw [← ht, h, List.length_take, Nat.min_eq_left (by omega)]

theorem isPrefixOf_append (hx : pat.length ≤ x.length) (t : List α) :
    pat.isPrefixOf (x ++ t) = pat.isPrefixOf x := by
  rw [Bool.eq_iff_iff, List.isPrefixOf_iff_prefix, List.isPrefixOf_iff_prefix]
  constructor
  · intro h
    exact List.prefix_of_prefix_length_le h (List.prefix_append x t) hx
  · exact fun h => h.trans (List.prefix_append x t)

/-- What comes behind the first occurrence does not matter for it. -/
theorem find_append_congr (h : find pat (x ++ (pat ++ s)) = some x.length) (t : List α) :
    find pat (x ++ (pat ++ t)) = some x.length := by
  induction x with
  | nil =>
    rw [List.nil_append]
    cases pat with
    | nil => cases t <;> rfl
    | cons c pat =>
      rw [List.cons_append, find, if_pos]
      · rfl
      · rw [List.isPrefixOf_iff_prefix]
        exact List.prefix_append (c :: pat) t
  | cons c x ih =>
    have hindep : ∀ t,
        pat.isPrefixOf (c :: (x ++ (pat ++ t))) = pat.isPrefixOf (c :: x ++ pat) := by
      intro t
      rw [← List.cons_append, ← List.append_assoc]
      refine isPrefixOf_append ?_ t
      rw [List.length_append]
      exact Nat.le_add_left _ _
    rw [List.cons_append, find] at h ⊢
    split at h
    · cases h
    · rename_i hno
      obtain ⟨k, hk, hlen⟩ := Option.map_eq_some_iff.mp h
      rw [if_neg (by rw [hindep t, ← hindep s]; exact hno), ih (by rw [hk, Nat.succ.inj hlen])]
      rfl

/-- An occurrence stays the first one when the list is made longer. -/
theorem find_append (h : find pat s = some i) (t : List α) : find pat (s ++ t) = some i := by
  obtain ⟨rest, hrest⟩ := find_split h
  have hle := find_le h
  have hlen : (s.take i).length = i := by
    rw [List.length_take]
    omega
  have hfirst : find pat (s.take i ++ (pat ++ rest)) = some (s.take i).length := by
    rw [← hrest, h, hlen]
  have hmore := find_append_congr hfirst (rest ++ t)
  rw [← List.append_assoc pat, ← List.append_assoc, ← hrest, hlen] at hmore
  exact hmore

/-- Before the first occurrence there is none. -/
theorem find_eq_none_of (hpat : pat ≠ []) (h : find pat (x ++ t) = some x.length) :
    find pat x = none := by
  cases hx : find pat x with
  | none => rfl
  | some i =>
    have hle := find_le hx
    have hpos := List.length_pos_iff.mpr hpat
    rw [find_append hx t, Option.some.injEq] at h
    omega

/-- A part of a list without occurrences has none. -/
theorem find_eq_none_of_infix (hx : find pat x = none) (h : t <:+: x) : find pat t = none := by
  obtain ⟨a, b, hab⟩ := h
  cases ht : find pat t with
  | none => rfl
  | some i =>
    subst hab
    have hmore := find_append ht b
    induction a with
    | nil =>
      rw [List.nil_append, hmore] at hx
      cases hx
    | cons c a ih =>
      rw [List.cons_append, List.cons_append, find] at hx
      split at hx
      · cases hx
      · exact ih (Option.map_eq_none_iff.mp hx)

theorem find_nil (s : List α) : find [] s = some 0 := by
  cases s <;> rfl

/-- The first occurrence from a place on, which may be the end of the list. -/
def findFrom (pat s : List α) (pos : Nat) : Option Nat :=
  if pos ≤ s.length then (find pat (s.drop pos)).map (pos + ·) else none

theorem findFrom_append (pat x s : List α) :
    findFrom pat (x ++ s) x.length = (find pat s).map (x.length + ·) := by
  rw [findFrom, if_pos (by rw [List.length_append]; omega), List.drop_left]

theorem findFrom_le {pos : Nat} (h : findFrom pat s pos = some i) :
    pos ≤ i ∧ i + pat.length ≤ s.length := by
  rw [findFrom] at h
  split at h
  · obtain ⟨k, hk, rfl⟩ := Option.map_eq_some_iff.mp h
    have hle := find_le hk
    rw [List.length_drop] at hle
    omega
  · cases h

/-- The empty pattern is everywhere. -/
theorem findFrom_nil {pos : Nat} (h : pos ≤ s.length) : findFrom [] s pos = some pos := by
  rw [findFrom, if_pos h, find_nil]
  rfl

def pieces (pat s : List α) : List (List α) :=
  if hpat : pat = [] then [s]
  else
    match h : find pat s with
    | none => [s]
    | some i =>
      have hlt : (s.drop (i + pat.length)).length < s.length := by
        have hle := find_le h
        have hpos := List.length_pos_iff.mpr hpat
        rw [List.length_drop]
        omega
      s.take i :: pieces pat (s.drop (i + pat.length))
termination_by s.length
decreasing_by exact hlt

theorem pieces_of_none (h : find pat s = none) : pieces pat s = [s] := by
  rw [pieces]
  split
  · rfl
  · split
    · rfl
    · rename_i i hi
      rw [h] at hi
      cases hi

theorem pieces_append (hpat : pat ≠ []) (h : find pat (x ++ (pat ++ t)) = some x.length) :
    pieces pat (x ++ (pat ++ t)) = x :: pieces pat t := by
  rw [pieces, dif_neg hpat]
  split
  · rename_i hi
    rw [h] at hi
    cases hi
  · rename_i i hi
    rw [h] at hi
    cases hi
    have hdrop : (x ++ (pat ++ t)).drop (x.length + pat.length) = t := by
      rw [← List.append_assoc, ← List.length_append, List.drop_left]
    simp only [List.take_left, hdrop]

theorem pieces_ne_nil (pat s : List α) : pieces pat s ≠ [] := by
  rw [pieces]
  split
  · exact List.cons_ne_nil _ _
  · split
    · exact List.cons_ne_nil _ _
    · exact List.cons_ne_nil _ _

theorem find_singleton {c : α} : find [c] s = none ↔ c ∉ s := by
  induction s with
  | nil => simp [find]
  | cons d s ih =>
    rw [find, List.mem_cons, not_or, ← ih]
    by_cases hc : c = d
    · simp [hc]
    · simp [hc]

/-- Induction from one occurrence to the next. -/
theorem pieces_induction {motive : List α → Prop} (hpat : pat ≠ [])
    (last : ∀ s, find pat s = none → motive s)
    (cons : ∀ x t, find pat (x ++ (pat ++ t)) = some x.length → motive t → motive (x ++ (pat ++ t)))
    (s : List α) : motive s := by
  generalize hn : s.length = n
  induction n using Nat.strongRecOn generalizing s with
  | ind n ih =>
    obtain hnone | ⟨x, t, rfl, hx⟩ := find_cases pat s
    · exact last s hnone
    · refine cons x t hx (ih t.length ?_ t rfl)
      have hpos := List.length_pos_iff.mpr hpat
      rw [← hn, List.length_append, List.length_append]
      omega

theorem pieces_singleton (c : α) (s : List α) : pieces [c] s = s.splitOn c := by
  have hne : [c] ≠ [] := List.cons_ne_nil c []
  induction s using pieces_induction hne with
  | last s hnone =>
    rw [pieces_of_none hnone, List.splitOn_eq_singleton (find_singleton.mp hnone)]
  | cons x t hx ih =>
    have hout : c ∉ x := find_singleton.mp (find_eq_none_of hne hx)
    rw [pieces_append hne hx, ih]
    exact (List.splitOn_append_cons_self_of_not_mem hout t).symm

/-- The list with another one in the place of each occurrence. What is inserted is not searched. -/
def substitute (pat new s : List α) : List α := List.intercalate new (pieces pat s)

def occurrences (pat s : List α) : Nat := (pieces pat s).length - 1

theorem substitute_of_none (new : List α) (h : find pat s = none) : substitute pat new s = s := by
  rw [substitute, pieces_of_none h]
  simp [List.intercalate]

theorem substitute_append (new : List α) (hpat : pat ≠ [])
    (h : find pat (x ++ (pat ++ t)) = some x.length) :
    substitute pat new (x ++ (pat ++ t)) = x ++ (new ++ substitute pat new t) := by
  obtain ⟨y, l, hl⟩ := List.exists_cons_of_ne_nil (pieces_ne_nil pat t)
  rw [substitute, substitute, pieces_append hpat h, hl, List.intercalate_cons_cons,
    List.append_assoc]

theorem occurrences_of_none (h : find pat s = none) : occurrences pat s = 0 := by
  rw [occurrences, pieces_of_none h]
  rfl

theorem occurrences_append (hpat : pat ≠ []) (h : find pat (x ++ (pat ++ t)) = some x.length) :
    occurrences pat (x ++ (pat ++ t)) = occurrences pat t + 1 := by
  have hpos := List.length_pos_iff.mpr (pieces_ne_nil pat t)
  rw [occurrences, occurrences, pieces_append hpat h, List.length_cons]
  omega

end CppPrivate.Pattern
