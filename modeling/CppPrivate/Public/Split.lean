import CppPrivate.Lib.Cut
import CppPrivate.Public.Replace
import CppPrivate.Public.SplitString

/-! `CPublicFunc::Split`, and which of the loops over strings end. None of them looks at the length
of the text that it searches for. -/
namespace CppPrivate.Public
open Loop Pattern

namespace CPublicFunc
variable {β : Type*}

def npos : Nat := 2 ^ 64 - 1

/-- The state of the loop of `Split`. There is no `nIndex` where it is `npos`. -/
structure Splitting (β : Type*) where
  nLast : Nat
  nIndex : Option Nat
  vecOut : List β

/-- One round of `Split`, with `conv` for what is made of a piece. Behind the loop the rest is
appended; the test compares numbers without sign. -/
def splitRound (conv : Bytes → β) (sStr sSep : Bytes) (s : Splitting β) :
    Round (Splitting β) (Option (List β)) :=
  match s.nIndex with
  | some nIndex =>
    match substr? sStr s.nLast (nIndex - s.nLast) with
    | some sTmp =>
      .next ⟨nIndex + sSep.length, findFrom sSep sStr (nIndex + sSep.length),
        s.vecOut ++ [conv sTmp]⟩
    | none => .done none
  | none =>
    if npos - s.nLast > 0 then
      .done ((substr? sStr s.nLast (npos - s.nLast)).map fun sTmp => s.vecOut ++ [conv sTmp])
    else .done (some s.vecOut)

def start (sStr sSep : Bytes) : Splitting β := ⟨0, findFrom sSep sStr 0, []⟩

/-- `atoi(sTmp.c_str())` -/
def toInt32 (sTmp : Bytes) : Int := cInt (Redis.atoll sTmp)

/-- The two overloads. -/
def SplitToInts (sStr sSep : Bytes) : Splitting Int → Round (Splitting Int) (Option (List Int)) :=
  splitRound toInt32 sStr sSep

def Split (sStr sSep : Bytes) : Splitting Bytes → Round (Splitting Bytes) (Option (List Bytes)) :=
  splitRound id sStr sSep

variable {conv : Bytes → β} {s p : Bytes}

/-- The search from a place behind `a`. -/
theorem split_ends_from (hp : p ≠ []) (a s : Bytes) (out : List β)
    (hlen : (a ++ s).length < npos) :
    Ends (splitRound conv (a ++ s) p) ⟨a.length, findFrom p (a ++ s) a.length, out⟩
      (some (out ++ (pieces p s).map conv)) := by
  induction s using pieces_induction hp generalizing a out with
  | last s hnone =>
    rw [List.length_append] at hlen
    have hpos : npos - a.length > 0 := by omega
    have hrest : substr? (a ++ s) a.length (npos - a.length) = some s := by
      rw [substr?, if_pos (by rw [List.length_append]; omega), List.drop_left,
        List.take_of_length_le (by omega)]
    refine .done ?_
    rw [findFrom_append, hnone, pieces_of_none hnone]
    simp only [splitRound, Option.map_none, if_pos hpos, hrest, Option.map_some, List.map_cons,
      List.map_nil]
  | cons x t hx ih =>
    have hpiece : substr? (a ++ (x ++ (p ++ t))) a.length (a.length + x.length - a.length) =
        some x := by
      rw [substr?, if_pos (by rw [List.length_append]; omega), List.drop_left,
        Nat.add_sub_cancel_left, List.take_left]
    have hend := ih (a ++ (x ++ p)) (out ++ [conv x])
      (by simpa only [List.append_assoc] using hlen)
    rw [pieces_append hp hx]
    refine .next (t := ⟨a.length + x.length + p.length,
      findFrom p (a ++ (x ++ (p ++ t))) (a.length + x.length + p.length), out ++ [conv x]⟩) ?_ ?_
    · rw [findFrom_append, hx]
      simp only [splitRound, Option.map_some, hpiece]
    · simpa only [List.append_assoc, List.length_append, Nat.add_assoc, List.map_cons,
        List.singleton_append] using hend

/-- The result of `Split` is the pieces between the separators. -/
theorem split_ends (hp : p ≠ []) (hs : s.length < npos) :
    Ends (splitRound conv s p) (start s p) (some ((pieces p s).map conv)) :=
  split_ends_from hp [] s [] hs

def left (sStr : Bytes) (s : Splitting β) : Nat :=
  match s.nIndex with
  | some i => sStr.length - i + 1
  | none => 0

/-- `Split` ends exactly for a separator that is not empty. -/
theorem split_terminates_iff (conv : Bytes → β) (s p : Bytes) :
    Terminates (splitRound conv s p) (start s p) ↔ p ≠ [] := by
  constructor
  · intro h hnil
    subst hnil
    refine not_terminates (fun t => t.nLast = 0 ∧ t.nIndex = some 0) ?_
      ⟨rfl, findFrom_nil (Nat.zero_le _)⟩ h
    intro t ht
    obtain ⟨hlast, hindex⟩ := ht
    refine ⟨⟨0, findFrom [] s 0, t.vecOut ++ [conv []]⟩, ?_, rfl, findFrom_nil (Nat.zero_le _)⟩
    simp only [splitRound, hindex, hlast, substr?, Nat.zero_le, if_true, Nat.sub_self,
      List.take_zero, List.length_nil]
  · intro hne
    have hpos := List.length_pos_iff.mpr hne
    have hstart : ∀ i ∈ findFrom p s 0, i + p.length ≤ s.length := fun i hi => (findFrom_le hi).2
    refine terminates_of_measure (fun t => ∀ i ∈ t.nIndex, i + p.length ≤ s.length) (left s) ?_
      hstart
    intro t u ht hstep
    cases hindex : t.nIndex with
    | none =>
      simp only [splitRound, hindex] at hstep
      split at hstep
      · cases hstep
      · cases hstep
    | some i =>
      have hle := ht i hindex
      simp only [splitRound, hindex] at hstep
      split at hstep
      · cases hstep
        refine ⟨fun j hj => (findFrom_le hj).2, ?_⟩
        unfold left
        rw [hindex]
        cases hnext : findFrom p s (i + p.length) with
        | none => exact Nat.succ_pos _
        | some j =>
          have hbound := findFrom_le hnext
          simp only
          omega
      · cases hstep

end CPublicFunc

variable {s p : Bytes}

/-- With nothing to search for `Replace` ends for the empty text only. -/
theorem replace_terminates_iff (s p r : Bytes) :
    Terminates (StdStrUtils.replaceRound p r) ⟨s, 0, 0⟩ ↔ p ≠ [] ∨ s = [] := by
  by_cases hp : p = []
  · subst hp
    constructor
    · intro h
      refine Or.inr ?_
      by_contra hs
      refine not_terminates (fun t => t.index < t.str.length) ?_ (List.length_pos_iff.mpr hs) h
      intro t ht
      refine ⟨⟨replaceAt t.str t.index 0 r, t.index + r.length, t.replacedChars + 1⟩, ?_, ?_⟩
      · rw [StdStrUtils.replaceRound, if_pos ht, findFrom_nil (Nat.le_of_lt ht)]
        rfl
      · simp only [replaceAt, List.length_append, List.length_take, List.length_drop]
        omega
    · intro h
      obtain rfl := h.elim (fun hne => absurd rfl hne) id
      exact ⟨_, .done rfl⟩
  · obtain ⟨index, hend⟩ := StdStrUtils.replace_ends hp r s [] 0
    exact ⟨fun _ => Or.inl hp, fun _ => ⟨_, hend⟩⟩

theorem replaceAll_terminates_iff (s p r : Bytes) :
    Terminates (StringUtils.replaceAllRound p r) (s, 0) ↔ p ≠ [] := by
  constructor
  · intro h hnil
    subst hnil
    refine not_terminates (fun t => t.2 ≤ t.1.length) ?_ (Nat.zero_le _) h
    intro t ht
    refine ⟨(replaceAt t.1 t.2 0 r, t.2 + r.length), ?_, ?_⟩
    · rw [StringUtils.replaceAllRound, findFrom_nil ht]
      rfl
    · simp only [replaceAt, List.length_append, List.length_take, List.length_drop]
      omega
  · exact fun hp => ⟨_, StringUtils.replaceAll_ends hp r s []⟩

namespace StdStrUtils

/-- The text that `SplitString` goes on with is the one it has, if the place of the splitter as an
`int` and its length add up to zero. -/
def Stays (splitter s : Bytes) : Prop :=
  s ≠ [] ∧ foundAt splitter s ≠ -1 ∧ foundAt splitter s + splitter.length = 0

theorem length_trim_le (s splitter : Bytes) : (TrimString s splitter).length ≤ s.length :=
  (trimBoth_within _ s).length_le

/-- A round makes the text shorter, unless it stays, and trims it. -/
theorem splitRound_trimmed {splitter s t : Bytes} {items out : List Bytes}
    (hstep : splitRound splitter (s, items) = .next (t, out)) :
    TrimString t splitter = t ∧ t.length ≤ s.length ∧
      (¬ Stays splitter s → t.length < s.length) := by
  simp only [splitRound] at hstep
  split at hstep
  · cases hstep
  · rename_i hne
    split at hstep
    · cases hstep
    · rename_i hfound
      split at hstep
      · cases hstep
      · rename_i hrange
        cases hstep
        have hle := length_trim_le
          (s.drop (foundAt splitter s + splitter.length).toNat) splitter
        rw [List.length_drop] at hle
        refine ⟨trimBoth_trimBoth _ _, by omega, ?_⟩
        intro hstay
        have hpos := List.length_pos_iff.mpr (not_or.mp hne).2
        have hmove : foundAt splitter s + splitter.length ≠ 0 := fun hzero =>
          hstay ⟨(not_or.mp hne).2, hfound, hzero⟩
        omega

theorem splitRound_stays {splitter s : Bytes} {items : List Bytes}
    (hs : TrimString s splitter = s) (hstay : Stays splitter s) :
    ∃ out, splitRound splitter (s, items) = .next (s, out) := by
  obtain ⟨hne, hfound, hzero⟩ := hstay
  have hhead : ∀ c ∈ s.head?, c ∉ splitter := by
    rw [← hs]
    exact fun c => trim_head
  refine ⟨items ++ [before s (foundAt splitter s)], ?_⟩
  rw [splitRound_eq hhead hne, if_neg hfound, if_neg (by omega), hzero]
  simp only [Int.toNat_zero, List.drop_zero, hs]

/-- `SplitString` ends exactly if it comes to no text on which it stays. -/
theorem splitString_terminates_iff (s p : Bytes) (items : List Bytes) :
    Terminates (splitRound p) (TrimString s p, items) ↔
      ∀ t, Reaches (splitRound p) (TrimString s p, items) t → ¬ Stays p t.1 := by
  have hstart : TrimString (TrimString s p) p = TrimString s p := trimBoth_trimBoth _ _
  refine terminates_iff_of_measure (fun t : Bytes × List Bytes => TrimString t.1 p = t.1)
    (fun t => Stays p t.1) (fun t => t.1.length) ?_ ?_ hstart
  · intro t u ht hstep
    obtain ⟨htrim, -, hlt⟩ := splitRound_trimmed hstep
    exact ⟨htrim, hlt⟩
  · intro t ht hstay
    obtain ⟨out, hstep⟩ := @splitRound_stays _ _ t.2 ht hstay
    exact ⟨(t.1, out), hstep, hstay⟩

/-- Below `2^31` bytes that is so for every splitter but the empty one. -/
theorem splitString_terminates_short {s : Bytes} (hs : s.length < 2 ^ 31) (p : Bytes)
    (items : List Bytes) :
    Terminates (splitRound p) (TrimString s p, items) ↔ p ≠ [] ∨ s = [] := by
  by_cases hp : p = []
  · subst hp
    have htrim : TrimString s [] = s :=
      trimBoth_eq_self_iff.mpr ⟨fun _ _ => by simp, fun _ _ => by simp⟩
    rw [htrim]
    constructor
    · intro h
      refine Or.inr ?_
      by_contra hne
      have hfound : foundAt [] s = 0 := by
        rw [foundAt, find_nil]
        rfl
      have hstay : Stays [] s := ⟨hne, by rw [hfound]; decide, by rw [hfound]; rfl⟩
      have hall := (splitString_terminates_iff s [] items).mp (by rw [htrim]; exact h)
      rw [htrim] at hall
      exact hall _ .refl hstay
    · intro h
      obtain rfl := h.elim (fun hne => absurd rfl hne) id
      exact ⟨_, .done rfl⟩
  · refine ⟨fun _ => Or.inl hp, fun _ => ?_⟩
    refine terminates_of_measure (fun t => TrimString t.1 p = t.1 ∧ t.1.length < 2 ^ 31)
      (fun t => t.1.length) ?_ ⟨trimBoth_trimBoth _ _, Nat.lt_of_le_of_lt (length_trim_le s p) hs⟩
    intro t u ht hstep
    obtain ⟨htrim, hle, hlt⟩ := splitRound_trimmed hstep
    refine ⟨⟨htrim, Nat.lt_of_le_of_lt hle ht.2⟩, hlt ?_⟩
    intro hstay
    obtain ⟨-, hfound, hzero⟩ := hstay
    have hpos := List.length_pos_iff.mpr hp
    cases hi : find p t.1 with
    | none => exact hfound (by rw [foundAt, hi])
    | some i =>
      have hbound := find_le hi
      rw [foundAt, hi] at hzero
      simp only at hzero
      rw [cInt_of_lt (by omega)] at hzero
      omega

end StdStrUtils

/-- Which of the five loops end. -/
theorem loops_terminate_iff (s p r : Bytes) (items : List Bytes) :
    (Terminates (CPublicFunc.SplitToInts s p) (CPublicFunc.start s p) ↔ p ≠ []) ∧
      (Terminates (CPublicFunc.Split s p) (CPublicFunc.start s p) ↔ p ≠ []) ∧
      (Terminates (StdStrUtils.replaceRound p r) ⟨s, 0, 0⟩ ↔ p ≠ [] ∨ s = []) ∧
      (Terminates (StringUtils.replaceAllRound p r) (s, 0) ↔ p ≠ []) ∧
      (Terminates (StdStrUtils.splitRound p) (StdStrUtils.TrimString s p, items) ↔
        ∀ t, Reaches (StdStrUtils.splitRound p) (StdStrUtils.TrimString s p, items) t →
          ¬ StdStrUtils.Stays p t.1) ∧
      (s.length < 2 ^ 31 →
        (Terminates (StdStrUtils.splitRound p) (StdStrUtils.TrimString s p, items) ↔
          p ≠ [] ∨ s = [])) :=
  ⟨CPublicFunc.split_terminates_iff _ s p, CPublicFunc.split_terminates_iff _ s p,
    replace_terminates_iff s p r, replaceAll_terminates_iff s p r,
    StdStrUtils.splitString_terminates_iff s p items,
    fun hs => StdStrUtils.splitString_terminates_short hs p items⟩

/-- With an empty separator none of them ends on the text `a`. -/
theorem not_loops_terminate :
    ¬ Terminates (CPublicFunc.SplitToInts (bytes "a") []) (CPublicFunc.start (bytes "a") []) ∧
      ¬ Terminates (CPublicFunc.Split (bytes "a") []) (CPublicFunc.start (bytes "a") []) ∧
      ¬ Terminates (StdStrUtils.replaceRound [] (bytes "b")) ⟨bytes "a", 0, 0⟩ ∧
      ¬ Terminates (StringUtils.replaceAllRound [] (bytes "b")) (bytes "a", 0) ∧
      ¬ Terminates (StdStrUtils.splitRound []) (StdStrUtils.TrimString (bytes "a") [], []) := by
  refine ⟨?_, ?_, ?_, ?_, ?_⟩
  · intro h
    exact (CPublicFunc.split_terminates_iff _ _ _).mp h rfl
  · intro h
    exact (CPublicFunc.split_terminates_iff _ _ _).mp h rfl
  · intro h
    exact ((replace_terminates_iff _ _ _).mp h).elim (fun hne => hne rfl) (by decide)
  · intro h
    exact (replaceAll_terminates_iff _ _ _).mp h rfl
  · intro h
    have hshort : (bytes "a").length < 2 ^ 31 := by
      have hlen : (bytes "a").length = 1 := by decide
      omega
    exact ((StdStrUtils.splitString_terminates_short hshort [] []).mp h).elim
      (fun hne => hne rfl) (by decide)

end CppPrivate.Public
