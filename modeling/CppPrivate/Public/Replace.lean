import CppPrivate.Lib.Bytes
import CppPrivate.Lib.Loop
import CppPrivate.Lib.Pieces

/-! The two loops that replace a text within a string: `StdStrUtils::Replace`, which counts, and
`StringUtils::replaceAll`. -/
namespace CppPrivate.Public
open Loop Pattern

/-- `str.replace(pos, n, text)` -/
def replaceAt (str : Bytes) (pos n : Nat) (text : Bytes) : Bytes :=
  str.take pos ++ (text ++ str.drop (pos + n))

namespace StdStrUtils

structure Replacing where
  str : Bytes
  index : Nat
  replacedChars : Nat

/-- One round of the loop of `Replace`. The count is as large as it has to be here. -/
def replaceRound (oldStr newStr : Bytes) (s : Replacing) : Round Replacing Replacing :=
  if s.index < s.str.length then
    match findFrom oldStr s.str s.index with
    | some index =>
      .next ⟨replaceAt s.str index oldStr.length newStr, index + newStr.length, s.replacedChars + 1⟩
    | none => .done s
  else .done s

/-- `Replace` leaves the text `str'` and returns `n`. The count is an `int`, which overflows with no
defined result. -/
def Replace (str oldStr newStr str' : Bytes) (n : Nat) : Prop :=
  ∃ s, Ends (replaceRound oldStr newStr) ⟨str, 0, 0⟩ s ∧ s.replacedChars < 2 ^ 31 ∧ str' = s.str ∧
    n = s.replacedChars

end StdStrUtils

namespace StringUtils

/-- One round of the loop of `replaceAll`, on `res` and `pos`. -/
def replaceAllRound (find rep : Bytes) (s : Bytes × Nat) : Round (Bytes × Nat) Bytes :=
  match findFrom find s.1 s.2 with
  | some pos => .next (replaceAt s.1 pos find.length rep, pos + rep.length)
  | none => .done s.1

def replaceAll (str find rep res : Bytes) : Prop := Ends (replaceAllRound find rep) (str, 0) res

end StringUtils

variable {old : Bytes}

theorem replaceAt_append (done s x rest new : Bytes) :
    replaceAt (done ++ (s ++ (x ++ rest))) (done.length + s.length) x.length new =
      done ++ (s ++ (new ++ rest)) := by
  have hbefore : done ++ (s ++ (x ++ rest)) = (done ++ s) ++ (x ++ rest) :=
    (List.append_assoc _ _ _).symm
  have hbehind : done ++ (s ++ (x ++ rest)) = (done ++ s ++ x) ++ rest := by
    simp only [List.append_assoc]
  rw [replaceAt, ← List.length_append, ← List.length_append]
  nth_rewrite 2 [hbehind]
  rw [List.drop_left, hbefore, List.take_left, List.append_assoc]

namespace StdStrUtils

/-- The loop from a place where `done` has been dealt with. -/
theorem replace_ends (hold : old ≠ []) (new s done : Bytes) (n : Nat) :
    ∃ index, Ends (replaceRound old new) ⟨done ++ s, done.length, n⟩
      ⟨done ++ substitute old new s, index, n + occurrences old s⟩ := by
  induction s using pieces_induction hold generalizing done n with
  | last s hnone =>
    refine ⟨done.length, .done ?_⟩
    rw [substitute_of_none new hnone, occurrences_of_none hnone, replaceRound]
    split
    · simp only [findFrom_append, hnone, Option.map_none]
      rfl
    · rfl
  | cons x t hx ih =>
    obtain ⟨index, hend⟩ := ih (done ++ (x ++ new)) (n + 1)
    refine ⟨index, .next (t := ⟨done ++ (x ++ new) ++ t, (done ++ (x ++ new)).length, n + 1⟩) ?_ ?_⟩
    · have hpos := List.length_pos_iff.mpr hold
      rw [replaceRound, if_pos (by simp only [List.length_append]; omega)]
      simp only [findFrom_append, hx, Option.map_some, replaceAt_append]
      simp only [List.append_assoc, List.length_append, Nat.add_assoc]
    · rw [substitute_append new hold hx, occurrences_append hold hx]
      have hcount : n + (occurrences old t + 1) = n + 1 + occurrences old t := by omega
      simp only [hcount, List.append_assoc] at hend ⊢
      exact hend

/-- The result is defined exactly if the number of occurrences fits the counter. -/
theorem replace_iff_count (hold : old ≠ []) (str new : Bytes) :
    Replace str old new (substitute old new str) (occurrences old str) ↔
      occurrences old str < 2 ^ 31 := by
  obtain ⟨index, hend⟩ := replace_ends hold new str [] 0
  rw [Nat.zero_add] at hend
  constructor
  · intro h
    obtain ⟨s, hs, hlt, -, -⟩ := h
    rw [hs.unique hend] at hlt
    exact hlt
  · exact fun hlt => ⟨_, hend, hlt, rfl, rfl⟩

end StdStrUtils

theorem StringUtils.replaceAll_ends (hold : old ≠ []) (new s done : Bytes) :
    Ends (replaceAllRound old new) (done ++ s, done.length) (done ++ substitute old new s) := by
  induction s using pieces_induction hold generalizing done with
  | last s hnone =>
    refine .done ?_
    rw [substitute_of_none new hnone]
    simp only [replaceAllRound, findFrom_append, hnone, Option.map_none]
  | cons x t hx ih =>
    have hend := ih (done ++ (x ++ new))
    refine .next (t := (done ++ (x ++ new) ++ t, (done ++ (x ++ new)).length)) ?_ ?_
    · simp only [replaceAllRound, findFrom_append, hx, Option.map_some, replaceAt_append]
      simp only [List.append_assoc, List.length_append, Nat.add_assoc]
    · rw [substitute_append new hold hx]
      simp only [List.append_assoc] at hend ⊢
      exact hend

/-- Both loops make one pass, and the count is right as long as it fits an `int`. -/
theorem replaces_iff (str new : Bytes) (hold : old ≠ []) :
    (StdStrUtils.Replace str old new (substitute old new str) (occurrences old str) ∧
      StringUtils.replaceAll str old new (substitute old new str)) ↔
      occurrences old str < 2 ^ 31 := by
  rw [StdStrUtils.replace_iff_count hold]
  exact and_iff_left (StringUtils.replaceAll_ends hold new str [])

/-- The replacement has the search text in it, and the text has overlapping occurrences. -/
theorem replaces_overlapping :
    StdStrUtils.Replace (bytes "aaa") (bytes "aa") (bytes "baab")
        (substitute (bytes "aa") (bytes "baab") (bytes "aaa"))
        (occurrences (bytes "aa") (bytes "aaa")) ∧
      StringUtils.replaceAll (bytes "aaa") (bytes "aa") (bytes "baab")
        (substitute (bytes "aa") (bytes "baab") (bytes "aaa")) := by
  refine (@replaces_iff (bytes "aa") (bytes "aaa") (bytes "baab") (by decide)).mpr ?_
  have hone : occurrences (bytes "aa") ([] ++ (bytes "aa" ++ [97])) = 1 :=
    (occurrences_append (by decide) (by decide)).trans
      (congrArg (· + 1) (occurrences_of_none (by decide)))
  exact Nat.lt_of_le_of_lt (Nat.le_of_eq hone) (by decide)

theorem occurrences_replicate (n : Nat) : occurrences [97] (List.replicate n (97 : UInt8)) = n := by
  induction n with
  | zero => exact occurrences_of_none rfl
  | succ n ih =>
    have hfirst : List.replicate (n + 1) (97 : UInt8) = [] ++ ([97] ++ List.replicate n 97) := rfl
    rw [hfirst, occurrences_append (List.cons_ne_nil _ _) rfl, ih]

/-- A text of `2^31` letters has one too many. -/
theorem not_replaces : ¬ ∀ str old new : Bytes, old ≠ [] →
    StdStrUtils.Replace str old new (substitute old new str) (occurrences old str) ∧
      StringUtils.replaceAll str old new (substitute old new str) := by
  intro hall
  have hone := (hall (List.replicate (2 ^ 31) 97) [97] [] (List.cons_ne_nil _ _)).1
  rw [StdStrUtils.replace_iff_count (List.cons_ne_nil _ _), occurrences_replicate] at hone
  exact absurd hone (Nat.lt_irrefl _)

end CppPrivate.Public
