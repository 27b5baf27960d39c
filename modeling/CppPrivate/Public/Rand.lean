import CppPrivate.Lib.Bytes
import CppPrivate.Lib.Machine

/-! `Rand`. The generator is seeded from the clock before each number, so any number may come. -/
namespace CppPrivate.Public.Rand

/-- `rand` is what `rand()` returns, an `int` that the operator `%` converts to 32 bits without sign.
No result: a division by zero. -/
def randInt (nMin nMax : UInt32) (rand : Int) : Option UInt32 :=
  if nMin > nMax then some 0
  else if nMin = nMax then some nMax
  else if nMax + 1 - nMin = 0 then none
  else some (nMin + UInt32.ofInt rand % (nMax + 1 - nMin))

/-- One round of the loop of `randString`: every second letter is a small one. -/
def randChar (rand : Int) : Option UInt8 :=
  (randInt 65 90 rand).map fun v =>
    let n := cInt v.toNat
    UInt8.ofInt (if n.tmod 2 = 1 then n + 32 else n)

/-- `rand i` is what `rand()` returns in round `i`. -/
def randString (nSize : UInt32) (rand : Nat → Int) : Option Bytes :=
  (List.range nSize.toNat).foldlM (fun s i => (randChar (rand i)).map fun c => s ++ [c]) []

def isLetter (c : UInt8) : Bool := (65 ≤ c && c ≤ 90) || (97 ≤ c && c ≤ 122)

/-- The number is there, no division by zero prevents it, and lies between the bounds. -/
def InRange (nMin nMax : UInt32) (rand : Int) : Prop :=
  ∃ v, randInt nMin nMax rand = some v ∧ nMin ≤ v ∧ v ≤ nMax

/-- The text is there, has the length that was asked for and consists of letters. -/
def Letters (nSize : UInt32) (rand : Nat → Int) : Prop :=
  ∃ s, randString nSize rand = some s ∧ s.length = nSize.toNat ∧ ∀ c ∈ s, isLetter c = true

variable {nMin nMax : UInt32} {rand : Int}

theorem toNat_range (h : nMin ≤ nMax) :
    (nMax + 1 - nMin).toNat = (nMax.toNat - nMin.toNat + 1) % 2 ^ 32 := by
  have hle := UInt32.le_iff_toNat_le.mp h
  have hmin := nMin.toNat_lt
  rw [UInt32.toNat_sub, UInt32.toNat_add, UInt32.toNat_one]
  omega

/-- The size of the range wraps to zero for the full range only. -/
theorem range_eq_zero_iff (h : nMin ≤ nMax) :
    nMax + 1 - nMin = 0 ↔ nMin = 0 ∧ nMax = 4294967295 := by
  have hle := UInt32.le_iff_toNat_le.mp h
  have hmax := nMax.toNat_lt
  have hfull : (4294967295 : UInt32).toNat = 2 ^ 32 - 1 := rfl
  rw [← UInt32.toNat_inj, toNat_range h, ← UInt32.toNat_inj, ← UInt32.toNat_inj, hfull,
    UInt32.toNat_zero]
  omega

theorem randInt_of_lt (h : nMin < nMax) : randInt nMin nMax rand =
    if nMax + 1 - nMin = 0 then none
    else some (nMin + UInt32.ofInt rand % (nMax + 1 - nMin)) := by
  rw [randInt, if_neg (UInt32.not_lt.mpr (UInt32.le_of_lt h)), if_neg (UInt32.ne_of_lt h)]

/-- A remainder by the size of the range does not leave the range. -/
theorem offset_le (h : nMin ≤ nMax) (hne : nMax + 1 - nMin ≠ 0) (r : UInt32) :
    nMin ≤ nMin + r % (nMax + 1 - nMin) ∧ nMin + r % (nMax + 1 - nMin) ≤ nMax := by
  have hle := UInt32.le_iff_toNat_le.mp h
  have hmax := nMax.toNat_lt
  have hsize := toNat_range h
  have hpos : 0 < (nMax + 1 - nMin).toNat := by
    refine Nat.pos_of_ne_zero fun hzero => hne ?_
    rw [← UInt32.toNat_inj, hzero]
    rfl
  have hlt := Nat.mod_lt r.toNat hpos
  rw [UInt32.le_iff_toNat_le, UInt32.le_iff_toNat_le, UInt32.toNat_add, UInt32.toNat_mod]
  omega

theorem inRange_iff (h : nMin ≤ nMax) (rand : Int) :
    InRange nMin nMax rand ↔ ¬ (nMin = 0 ∧ nMax = 4294967295) := by
  by_cases heq : nMin = nMax
  · subst heq
    have hone : randInt nMin nMin rand = some nMin := by
      rw [randInt, if_neg (UInt32.lt_irrefl nMin), if_pos rfl]
    refine ⟨?_, fun _ => ⟨nMin, hone, h, h⟩⟩
    intro _ hfull
    have hzero := hfull.1.symm.trans hfull.2
    exact absurd hzero (by decide)
  · have hlt : nMin < nMax := UInt32.lt_of_le_of_ne h heq
    rw [← range_eq_zero_iff h, InRange, randInt_of_lt hlt]
    by_cases hzero : nMax + 1 - nMin = 0
    · rw [if_pos hzero]
      exact ⟨fun hv => absurd hv.choose_spec.1 (by simp), fun hne => absurd hzero hne⟩
    · rw [if_neg hzero]
      exact ⟨fun _ => hzero, fun _ => ⟨_, rfl, offset_le h hzero _⟩⟩

theorem isLetter_ofInt {k : Nat} (h : (65 ≤ k ∧ k ≤ 90) ∨ (97 ≤ k ∧ k ≤ 122)) :
    isLetter (UInt8.ofInt k) = true := by
  have hk : (UInt8.ofInt k).toNat = k := by
    have hmod : (k : Int) % 2 ^ 8 = k := by omega
    rw [UInt8.ofInt, hmod, Int.toNat_natCast, UInt8.toNat_ofNat']
    omega
  simp only [isLetter, Bool.or_eq_true, Bool.and_eq_true, decide_eq_true_eq,
    UInt8.le_iff_toNat_le, hk]
  exact h

theorem randChar_letter (rand : Int) : ∃ c, randChar rand = some c ∧ isLetter c = true := by
  obtain ⟨v, hv, hmin, hmax⟩ := (@inRange_iff 65 90 (by decide) rand).mpr (by decide)
  have hmin : 65 ≤ v.toNat := UInt32.le_iff_toNat_le.mp hmin
  have hmax : v.toNat ≤ 90 := UInt32.le_iff_toNat_le.mp hmax
  have hn : cInt v.toNat = v.toNat := cInt_of_lt (by omega)
  refine ⟨_, by rw [randChar, hv]; rfl, ?_⟩
  simp only [hn]
  split
  · -- 65 to 89 become 97 to 121
    exact @isLetter_ofInt (v.toNat + 32) (by omega)
  · exact isLetter_ofInt (Or.inl ⟨hmin, hmax⟩)

/-- The loop adds a letter in each round. -/
theorem loop_letters (rand : Nat → Int) (rounds : List Nat) (s : Bytes) :
    ∃ t, rounds.foldlM (fun s i => (randChar (rand i)).map fun c => s ++ [c]) s = some (s ++ t) ∧
      t.length = rounds.length ∧ ∀ c ∈ t, isLetter c = true := by
  induction rounds generalizing s with
  | nil => exact ⟨[], by rw [List.append_nil]; rfl, rfl, by simp⟩
  | cons i rounds ih =>
    obtain ⟨c, hc, hletter⟩ := randChar_letter (rand i)
    obtain ⟨t, ht, hlen, hletters⟩ := ih (s ++ [c])
    refine ⟨c :: t, ?_, by rw [List.length_cons, List.length_cons, hlen], ?_⟩
    · rw [List.foldlM_cons, hc, Option.map_some]
      rw [List.append_assoc] at ht
      exact ht
    · intro d hd
      cases List.mem_cons.mp hd with
      | inl he => exact he ▸ hletter
      | inr hmem => exact hletters d hmem

theorem randString_letters (nSize : UInt32) (rand : Nat → Int) : Letters nSize rand := by
  obtain ⟨s, hs, hlen, hletters⟩ := loop_letters rand (List.range nSize.toNat) []
  rw [List.length_range] at hlen
  exact ⟨s, hs, hlen, hletters⟩

/-- A number between the bounds and a text of letters come exactly if the bounds are not those of
the type. -/
theorem rand_iff {nMin nMax : UInt32} (h : nMin ≤ nMax) (nSize : UInt32) (rand : Int)
    (rands : Nat → Int) :
    InRange nMin nMax rand ∧ Letters nSize rands ↔ ¬ (nMin = 0 ∧ nMax = 4294967295) := by
  rw [inRange_iff h]
  exact and_iff_left (randString_letters nSize rands)

/-- The largest bound does no harm alone. -/
theorem rand_upper_bound :
    InRange 1 4294967295 2147483647 ∧ Letters 3 (fun i => i) :=
  (rand_iff (by decide) 3 2147483647 _).mpr (by decide)

/-- For the full range the divisor is zero. -/
theorem not_inRange_full : ¬ InRange 0 4294967295 7 := by
  intro h
  obtain ⟨v, hv, -, -⟩ := h
  have hnone : randInt 0 4294967295 7 = none := by decide
  rw [hnone] at hv
  cases hv

end CppPrivate.Public.Rand
