import Mathlib.Algebra.Group.Int.Defs
import Mathlib.Algebra.Group.Nat.Defs
import Mathlib.Data.List.Basic
import Mathlib.Tactic.ByContra

/-! `DJBHash` and the position it gives. The loop counts the characters in 32 bits and does not end
on a string of `2^32` characters or more; what it gives else is a position for every string. -/
namespace CppPrivate.Public.CPublicFunc

/-- The loop of `DJBHash` in `fuel` rounds. The index is an `unsigned int`, the size is not. -/
def DJBHash.loop (str : List UInt8) : Nat → UInt32 → Int64 → Option Int64
  | 0, _, _ => none
  | fuel + 1, i, hash =>
    match str[i.toNat]? with
    | some c => loop str fuel (i + 1) (((hash <<< 5) + hash) + c.toInt8.toInt64)
    | none => some hash

def DJBHash (fuel : Nat) (str : List UInt8) : Option Int64 := DJBHash.loop str fuel 0 5381

/-- The position of a hash value. The negation of the least value is that value again. -/
def position (hash : Int64) (modNum : Int32) : Int32 :=
  let hval := if hash < 0 then hash * (-1) else hash
  let position := (hval % modNum.toInt64).toInt32
  if position < 0 then position * (-1) else position

/-- There is no result if the loop does not end in `fuel` rounds, or for a division by zero. -/
def GetDJBHashPosition (fuel : Nat) (str : List UInt8) (modNum : Int32) : Option Int32 :=
  if modNum = 0 then none else (DJBHash fuel str).map (position · modNum)

section Loop
variable {str : List UInt8} {fuel : Nat} {i : UInt32} {hash : Int64}

theorem loop_ends (hlt : str.length < 2 ^ 32) (hi : i.toNat ≤ str.length)
    (hfuel : str.length - i.toNat < fuel) : ∃ h, DJBHash.loop str fuel i hash = some h := by
  induction fuel generalizing i hash with
  | zero => omega
  | succ fuel ih =>
    rw [DJBHash.loop]
    by_cases hend : i.toNat = str.length
    · rw [List.getElem?_eq_none (by omega)]
      exact ⟨hash, rfl⟩
    · have hin : i.toNat < str.length := by omega
      have hsucc : (i + 1).toNat = i.toNat + 1 := by
        rw [UInt32.toNat_add, UInt32.toNat_one]
        omega
      rw [List.getElem?_eq_getElem hin]
      exact ih (by omega) (by omega)

/-- With `2^32` characters every index is one of a character. -/
theorem loop_runs_on (hle : 2 ^ 32 ≤ str.length) : DJBHash.loop str fuel i hash = none := by
  induction fuel generalizing i hash with
  | zero => rfl
  | succ fuel ih =>
    have hin : i.toNat < str.length := Nat.lt_of_lt_of_le i.toNat_lt hle
    rw [DJBHash.loop]
    rw [List.getElem?_eq_getElem hin]
    exact ih

theorem djbHash_returns_iff : (∃ fuel h, DJBHash fuel str = some h) ↔ str.length < 2 ^ 32 := by
  constructor
  · intro hcase
    obtain ⟨fuel, h, heq⟩ := hcase
    by_contra hnot
    rw [DJBHash, loop_runs_on (by omega)] at heq
    cases heq
  · intro hlt
    exact ⟨str.length + 1, loop_ends hlt (Nat.zero_le _) (Nat.lt_succ_of_le (Nat.sub_le _ _))⟩

end Loop

section Position
variable {hash : Int64} {modNum : Int32}

theorem toInt_neg_one (x : Int32) (h : x.toInt ≠ -2 ^ 31) : (x * (-1)).toInt = -x.toInt := by
  have hlt := x.toInt_lt
  have hle := x.le_toInt
  rw [Int32.toInt_mul, show (-1 : Int32).toInt = -1 from rfl, Int.mul_neg_one]
  exact Int.bmod_eq_of_le (by omega) (by omega)

theorem abs_bounds {x : Int32} {n : Int} (hn : n < 2 ^ 31) (hlow : -n < x.toInt)
    (hhigh : x.toInt < n) :
    0 ≤ (if x < 0 then x * (-1) else x).toInt ∧ (if x < 0 then x * (-1) else x).toInt < n := by
  split
  · rename_i hneg
    have hlt : x.toInt < 0 := Int32.lt_iff_toInt_lt.mp hneg
    rw [toInt_neg_one x (by omega)]
    omega
  · rename_i hneg
    have hle : ¬ x.toInt < 0 := fun h => hneg (Int32.lt_iff_toInt_lt.mpr h)
    omega

/-- The position is one of `modNum` positions. -/
theorem position_bounds (hpos : 0 < modNum.toInt) :
    0 ≤ (position hash modNum).toInt ∧ (position hash modNum).toInt < modNum.toInt := by
  have hlt := modNum.toInt_lt
  rw [position]
  generalize (if hash < 0 then hash * (-1) else hash) = hval
  have hlow := Int.lt_tmod_of_pos hval.toInt hpos
  have hhigh := Int.tmod_lt_of_pos hval.toInt hpos
  -- the remainder fits into 32 bits
  have hrest : (hval % modNum.toInt64).toInt32.toInt = hval.toInt.tmod modNum.toInt := by
    rw [Int64.toInt_toInt32, Int64.toInt_mod, Int32.toInt_toInt64]
    exact Int.bmod_eq_of_le (by omega) (by omega)
  exact abs_bounds hlt (by omega) (by omega)

theorem getDJBHashPosition_bounds {fuel : Nat} {str : List UInt8} {r : Int32}
    (hpos : 0 < modNum.toInt) (h : GetDJBHashPosition fuel str modNum = some r) :
    0 ≤ r.toInt ∧ r.toInt < modNum.toInt := by
  rw [GetDJBHashPosition] at h
  split at h
  · cases h
  · obtain ⟨hash, -, rfl⟩ := Option.map_eq_some_iff.mp h
    exact position_bounds hpos

/-- There is a result, and one of the positions, exactly for the strings whose size fits into the
index. -/
theorem getDJBHashPosition_iff {str : List UInt8} (hpos : 0 < modNum.toInt) :
    (∃ fuel r, GetDJBHashPosition fuel str modNum = some r ∧
      0 ≤ r.toInt ∧ r.toInt < modNum.toInt) ↔ str.length < 2 ^ 32 := by
  have hne : modNum ≠ 0 := by
    intro heq
    subst heq
    exact absurd hpos (by decide)
  rw [← djbHash_returns_iff]
  constructor
  · intro hcase
    obtain ⟨fuel, r, h, -⟩ := hcase
    rw [GetDJBHashPosition, if_neg hne] at h
    obtain ⟨hash, hhash, -⟩ := Option.map_eq_some_iff.mp h
    exact ⟨fuel, hash, hhash⟩
  · intro hcase
    obtain ⟨fuel, hash, h⟩ := hcase
    refine ⟨fuel, position hash modNum, ?_, position_bounds hpos⟩
    rw [GetDJBHashPosition, if_neg hne, h]
    rfl

end Position

end CppPrivate.Public.CPublicFunc
