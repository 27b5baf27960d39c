import CppPrivate.Http.StringUtils
import CppPrivate.Lib.Query
import CppPrivate.Public.Split

/-! The two functions that split a text at a character: `StringUtils::split`, which scans a C
string, and `CPublicFunc::Split`, which searches. -/
namespace CppPrivate.Http
open Pattern
open Url (cStr cStr_append cStr_eq)

/-- The state of the loop of `split`: two places in the text, and what has been cut off. -/
structure Scanning where
  p : Nat
  value : Nat
  res : List Bytes

/-- The character at a place of the C string, which ends with a zero. -/
def charAt (str : Bytes) (p : Nat) : UInt8 := str.getD p 0

/-- One round of `split`. Behind the loop the rest is read as a C string. -/
def splitRound (str : Bytes) (delim : UInt8) (s : Scanning) :
    Loop.Round Scanning (List Bytes) :=
  if charAt str s.p ≠ 0 then
    if charAt str s.p = delim then
      .next ⟨s.p + 1, s.p + 1, s.res ++ [(str.drop s.value).take (s.p - s.value)]⟩
    else .next ⟨s.p + 1, s.value, s.res⟩
  else .done (s.res ++ [cStr (str.drop s.value)])

def splitStart : Scanning := ⟨0, 0, []⟩

variable {a x t str : Bytes} {c delim : UInt8} {res : List Bytes}

theorem charAt_end (a x : Bytes) : charAt (a ++ x) (a.length + x.length) = 0 := by
  rw [charAt, ← List.length_append, List.getD_eq_getElem?_getD,
    List.getElem?_eq_none (Nat.le_refl _)]
  rfl

theorem charAt_next (a x t : Bytes) (c : UInt8) :
    charAt (a ++ (x ++ c :: t)) (a.length + x.length) = c := by
  rw [charAt, ← List.append_assoc, ← List.length_append, List.getD_eq_getElem?_getD,
    List.getElem?_append_right (Nat.le_refl _), Nat.sub_self]
  rfl

/-- At a zero the rest of the C string is the last piece. -/
theorem splitRound_end (hzero : 0 ∉ x) (hdelim : delim ∉ x) (ht : cStr t = [])
    (hend : charAt (a ++ (x ++ t)) (a.length + x.length) = 0) :
    splitRound (a ++ (x ++ t)) delim ⟨a.length + x.length, a.length, res⟩ =
      .done (res ++ (x ++ cStr t).splitOn delim) := by
  rw [splitRound, if_neg (not_not.mpr hend), List.drop_left, cStr_append hzero, ht,
    List.append_nil, List.splitOn_eq_singleton hdelim]

/-- The loop from a place where `x` is what it has seen of the next piece. -/
theorem split_ends_from (hzero : 0 ∉ x) (hdelim : delim ∉ x) (t : Bytes) :
    Loop.Ends (splitRound (a ++ (x ++ t)) delim) ⟨a.length + x.length, a.length, res⟩
      (res ++ (x ++ cStr t).splitOn delim) := by
  induction t generalizing a x res with
  | nil =>
    refine .done (splitRound_end hzero hdelim rfl ?_)
    rw [List.append_nil]
    exact charAt_end a x
  | cons c t ih =>
    have hchar := charAt_next a x t c
    by_cases hc : c = 0
    · subst hc
      exact .done (splitRound_end hzero hdelim rfl hchar)
    · have hstr : cStr (c :: t) = c :: cStr t :=
        @cStr_append [c] (by simpa using Ne.symm hc) t
      rw [hstr]
      by_cases hd : c = delim
      · subst hd
        -- the piece ends here, and the next one begins behind the separator
        have hnext := @ih (a ++ (x ++ [c])) [] (res ++ [x]) List.not_mem_nil List.not_mem_nil
        refine .next (t := ⟨a.length + x.length + 1, a.length + x.length + 1, res ++ [x]⟩) ?_ ?_
        · rw [splitRound, if_pos (by rw [hchar]; exact hc), if_pos hchar, List.drop_left,
            Nat.add_sub_cancel_left, List.take_left]
        · rw [List.splitOn_append_cons_self_of_not_mem hdelim]
          simpa only [List.append_assoc, List.length_append, List.length_singleton,
            List.length_nil, Nat.add_assoc, Nat.add_zero, List.nil_append,
            List.singleton_append] using hnext
      · have hnext := @ih a (x ++ [c]) res (by simp [hzero, Ne.symm hc])
          (by simp [hdelim, Ne.symm hd])
        refine .next (t := ⟨a.length + x.length + 1, a.length, res⟩) ?_ ?_
        · rw [splitRound, if_pos (by rw [hchar]; exact hc), if_neg (by rw [hchar]; exact hd)]
        · simpa only [List.append_assoc, List.length_append, List.length_singleton,
            Nat.add_assoc, List.singleton_append] using hnext

/-- The scan is the splitting of the C string at the separator. -/
theorem split_ends (str : Bytes) (delim : UInt8) :
    Loop.Ends (splitRound str delim) splitStart (split str delim) :=
  @split_ends_from [] [] delim [] List.not_mem_nil List.not_mem_nil str

/-- Both functions make the same pieces of a text without a zero: none holds the separator, there is
one more than there are separators, and joined by it they are the text. A `std::string` is shorter
than `npos`. -/
theorem splits_alike (str : Bytes) (c : UInt8) (hzero : 0 ∉ str)
    (hlen : str.length < Public.CPublicFunc.npos) :
    ∃ l, Loop.Ends (splitRound str c) splitStart l ∧
      Loop.Ends (Public.CPublicFunc.Split str [c]) (Public.CPublicFunc.start str [c]) (some l) ∧
      (∀ x ∈ l, c ∉ x) ∧ l.length = str.count c + 1 ∧ [c].intercalate l = str := by
  have hscan := split_ends str c
  have hsearch := @Public.CPublicFunc.split_ends _ id _ [c] (List.cons_ne_nil c []) hlen
  rw [split, cStr_eq hzero] at hscan
  rw [List.map_id, pieces_singleton] at hsearch
  exact ⟨str.splitOn c, hscan, hsearch, fun x hx => (Query.pieces_splitOn c str x hx).1,
    Query.length_splitOn c str, List.intercalate_splitOn c⟩

/-- Pieces that are empty stay, at both ends and in between. -/
theorem splits_alike_empty : ∃ l,
    Loop.Ends (splitRound (bytes ",a,,b,") 44) splitStart l ∧
      Loop.Ends (Public.CPublicFunc.Split (bytes ",a,,b,") [44])
        (Public.CPublicFunc.start (bytes ",a,,b,") [44]) (some l) ∧
      (∀ x ∈ l, 44 ∉ x) ∧ l.length = 5 ∧ [44].intercalate l = bytes ",a,,b," :=
  splits_alike (bytes ",a,,b,") 44 (by decide) (by decide)

end CppPrivate.Http
