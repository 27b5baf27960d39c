import Mathlib

/-! Cyclic redundancy checks: the register that takes in a message byte by byte from a table holds the
remainder of the message by the generator. -/
namespace CppPrivate.Crc
open Polynomial

variable {w : Nat}

/-- One bit of the register is shifted out; the generator's leading term is implied in `g`. -/
def shift (g c : BitVec w) : BitVec w := if c.msb then (c <<< 1) ^^^ g else c <<< 1

def shifts (g : BitVec w) : Nat → BitVec w → BitVec w
  | 0, c => c
  | n + 1, c => shift g (shifts g n c)

def top (w : Nat) (b : BitVec 8) : BitVec w := b.setWidth w <<< (w - 8)

def upper (c : BitVec w) : BitVec 8 := (c >>> (w - 8)).setWidth 8

theorem shift_xor (g a b : BitVec w) : shift g (a ^^^ b) = shift g a ^^^ shift g b := by
  have hcancel : a <<< 1 ^^^ b <<< 1 = a <<< 1 ^^^ g ^^^ (b <<< 1 ^^^ g) := by
    rw [BitVec.xor_assoc, BitVec.xor_comm g, BitVec.xor_assoc, BitVec.xor_self, BitVec.xor_zero]
  simp only [shift, BitVec.msb_xor, BitVec.shiftLeft_xor_distrib]
  cases a.msb <;> cases b.msb
  · simp
  · simp [BitVec.xor_assoc]
  · simp only [Bool.xor_false, ite_true, Bool.false_eq_true, ite_false]
    rw [BitVec.xor_assoc, BitVec.xor_assoc, BitVec.xor_comm g]
  · simpa using hcancel

theorem shifts_xor (g : BitVec w) (n : Nat) (a b : BitVec w) :
    shifts g n (a ^^^ b) = shifts g n a ^^^ shifts g n b := by
  induction n with
  | zero => rfl
  | succ n ih => rw [shifts, ih, shift_xor]; rfl

/-- A register whose upper bits are clear only moves up. -/
theorem shifts_clear (g : BitVec w) {c : BitVec w} {n : Nat}
    (h : ∀ i, w ≤ i + n → i < w → c.getLsbD i = false) : shifts g n c = c <<< n := by
  induction n with
  | zero => simp [shifts]
  | succ n ih =>
    have hmsb : (c <<< n).msb = false := by
      rcases Nat.eq_zero_or_pos w with rfl | hw
      · simp [BitVec.msb, BitVec.getMsbD]
      rw [BitVec.msb_eq_getLsbD_last, BitVec.getLsbD_shiftLeft]
      rcases Nat.lt_or_ge (w - 1) n with hlt | hge
      · simp [hlt]
      · simp [h (w - 1 - n) (by omega) (by omega)]
    rw [shifts, ih fun i hi hlt => h i (by omega) hlt, shift, hmsb, if_neg (by simp),
      ← BitVec.shiftLeft_add]

theorem top_upper_xor (hw : 8 ≤ w) (c : BitVec w) (i : Nat) (hi : w ≤ i + 8) (hlt : i < w) :
    (c ^^^ top w (upper c)).getLsbD i = false := by
  have hsub : w - 8 + (i - (w - 8)) = i := by omega
  have hle : ¬ i < w - 8 := by omega
  have hbyte : i - (w - 8) < 8 := by omega
  simp [top, upper, hlt, hle, hbyte, hsub, show i - (w - 8) < w by omega]

theorem top_xor (a b : BitVec 8) : top w (a ^^^ b) = top w a ^^^ top w b := by
  simp [top, BitVec.setWidth_xor, BitVec.shiftLeft_xor_distrib]

theorem top_shiftLeft (hw : 8 ≤ w) (b : BitVec 8) : top w b <<< 8 = 0#w := by
  rw [top, ← BitVec.shiftLeft_add, show w - 8 + 8 = w by omega]
  simp

/-- The table of the generator: what eight shifts leave of a byte at the top. -/
def IsTable (g : BitVec w) (table : BitVec 8 → BitVec w) : Prop :=
  ∀ k, table k = shifts g 8 (top w k)

/-- Taking in a byte from a table. -/
def step (table : BitVec 8 → BitVec w) (c : BitVec w) (b : BitVec 8) : BitVec w :=
  (c <<< 8) ^^^ table (upper c ^^^ b)

theorem step_eq (hw : 8 ≤ w) {g : BitVec w} {table : BitVec 8 → BitVec w} (ht : IsTable g table)
    (c : BitVec w) (b : BitVec 8) : step table c b = shifts g 8 (c ^^^ top w b) := by
  have hlow : shifts g 8 (c ^^^ top w (upper c)) = c <<< 8 := by
    rw [shifts_clear g fun i hi hlt => top_upper_xor hw c i hi hlt, BitVec.shiftLeft_xor_distrib,
      top_shiftLeft hw, BitVec.xor_zero]
  rw [step, ht, ← hlow, ← shifts_xor, top_xor]
  congr 1
  rw [← BitVec.xor_assoc, BitVec.xor_assoc c, BitVec.xor_self, BitVec.xor_zero]

/-- A string of bits as a polynomial over the field of two elements. -/
noncomputable def poly (c : BitVec w) : (ZMod 2)[X] :=
  ∑ i ∈ Finset.range w, if c.getLsbD i then X ^ i else 0

theorem coeff_poly (c : BitVec w) (n : Nat) : (poly c).coeff n = if c.getLsbD n then 1 else 0 := by
  have hterm : ∀ i, (if c.getLsbD i then (X : (ZMod 2)[X]) ^ i else 0).coeff n =
      if n = i then (if c.getLsbD i then 1 else 0) else 0 := by
    intro i
    split <;> simp [coeff_X_pow]
  simp only [poly, finsetSum_coeff, hterm, Finset.sum_ite_eq, Finset.mem_range]
  rcases Nat.lt_or_ge n w with hlt | hge
  · simp [hlt]
  · simp [BitVec.getLsbD_of_ge c n hge]

theorem poly_zero : poly 0#w = 0 := by
  ext n
  simp [coeff_poly]

theorem poly_xor (a b : BitVec w) : poly (a ^^^ b) = poly a + poly b := by
  ext n
  simp only [coeff_poly, coeff_add, BitVec.getLsbD_xor]
  cases a.getLsbD n <;> cases b.getLsbD n <;> decide

theorem degree_poly_lt (c : BitVec w) : (poly c).degree < w := by
  rw [degree_lt_iff_coeff_zero]
  intro n hn
  rw [coeff_poly, BitVec.getLsbD_of_ge c n hn]
  rfl

theorem poly_shiftLeft_one (c : BitVec w) :
    poly (c <<< 1) + (if c.msb then X ^ w else 0) = X * poly c := by
  ext n
  have hcut : (if c.msb then (X : (ZMod 2)[X]) ^ w else 0).coeff n =
      if n = w ∧ c.msb then 1 else 0 := by
    cases c.msb <;> simp [coeff_X_pow]
  rw [coeff_add, coeff_poly, hcut]
  cases n with
  | zero =>
    rcases Nat.eq_zero_or_pos w with rfl | hw
    · simp [BitVec.msb, BitVec.getMsbD]
    · simp [show ¬ 0 = w by omega]
  | succ n =>
    rw [coeff_X_mul, coeff_poly, BitVec.getLsbD_shiftLeft, BitVec.msb_eq_getLsbD_last]
    rcases Nat.lt_trichotomy (n + 1) w with hlt | heq | hgt
    · simp [hlt, show ¬ n + 1 = w by omega]
    · subst heq
      simp
    · simp [show ¬ n + 1 < w by omega, show ¬ n + 1 = w by omega,
        BitVec.getLsbD_of_ge c n (by omega)]

/-- A byte at the top of the register stands `w - 8` places higher. -/
theorem poly_top (hw : 8 ≤ w) (b : BitVec 8) : poly (top w b) = X ^ (w - 8) * poly b := by
  ext n
  rw [coeff_X_pow_mul', coeff_poly, coeff_poly, top, BitVec.getLsbD_shiftLeft,
    BitVec.getLsbD_setWidth]
  rcases Nat.lt_or_ge n (w - 8) with hlt | hge
  · simp [hlt, show ¬ w - 8 ≤ n by omega]
  rcases Nat.lt_or_ge n w with hn | hn
  · simp [hge, hn, show ¬ n < w - 8 by omega, show n - (w - 8) < w by omega]
  · simp [hge, show ¬ n < w by omega, BitVec.getLsbD_of_ge b (n - (w - 8)) (by omega)]

noncomputable def generator (g : BitVec w) : (ZMod 2)[X] := X ^ w + poly g

theorem generator_monic (g : BitVec w) : (generator g).Monic :=
  monic_X_pow_add (degree_poly_lt g)

theorem degree_generator (g : BitVec w) : (generator g).degree = w := by
  rw [generator, degree_add_eq_left_of_degree_lt]
  · simp
  · simpa using degree_poly_lt g

theorem shift_mod (g c : BitVec w) : generator g ∣ poly (shift g c) + X * poly c := by
  have hc := poly_shiftLeft_one c
  unfold shift
  cases hm : c.msb <;> rw [hm] at hc
  · simp only [Bool.false_eq_true, ite_false, add_zero] at hc ⊢
    rw [hc, CharTwo.add_self_eq_zero]
    exact dvd_zero _
  · simp only [ite_true] at hc ⊢
    rw [poly_xor, ← hc]
    refine ⟨1, ?_⟩
    rw [generator]
    linear_combination CharTwo.add_self_eq_zero (poly (c <<< 1))

theorem shifts_mod (g : BitVec w) (n : Nat) (c : BitVec w) :
    generator g ∣ poly (shifts g n c) + X ^ n * poly c := by
  induction n with
  | zero =>
    simp only [shifts, pow_zero, one_mul]
    rw [CharTwo.add_self_eq_zero]
    exact dvd_zero _
  | succ n ih =>
    have hlast := (shift_mod g (shifts g n c)).add (ih.mul_left X)
    convert hlast using 1
    rw [shifts]
    linear_combination (-1 : (ZMod 2)[X]) * CharTwo.add_self_eq_zero (X * poly (shifts g n c))

/-- The bits of a message, the first byte's highest first. -/
noncomputable def message (bs : List (BitVec 8)) : (ZMod 2)[X] :=
  bs.foldl (fun m b => X ^ 8 * m + poly b) 0

theorem foldl_step_mod (hw : 8 ≤ w) {g : BitVec w} {table : BitVec 8 → BitVec w}
    (ht : IsTable g table) (bs : List (BitVec 8)) {c : BitVec w} {m : (ZMod 2)[X]}
    (h : generator g ∣ poly c + X ^ w * m) :
    generator g ∣ poly (bs.foldl (step table) c) +
      X ^ w * bs.foldl (fun m b => X ^ 8 * m + poly b) m := by
  induction bs generalizing c m with
  | nil => exact h
  | cons b bs ih =>
    refine ih ?_
    have hbyte := (shifts_mod g 8 (c ^^^ top w b)).add (h.mul_left (X ^ 8))
    rw [← step_eq hw ht, poly_xor, poly_top hw] at hbyte
    convert hbyte using 1
    have hpow : (X : (ZMod 2)[X]) ^ w = X ^ 8 * X ^ (w - 8) := by
      rw [← pow_add, show 8 + (w - 8) = w by omega]
    linear_combination poly b * hpow -
      (X : (ZMod 2)[X]) ^ 8 * CharTwo.add_self_eq_zero (poly c)

/-- The register holds the remainder of the message, moved up by the register's width. -/
theorem poly_foldl_step (hw : 8 ≤ w) {g : BitVec w} {table : BitVec 8 → BitVec w}
    (ht : IsTable g table) (bs : List (BitVec 8)) :
    poly (bs.foldl (step table) 0#w) = (X ^ w * message bs) %ₘ generator g := by
  have hmod : generator g ∣ poly (bs.foldl (step table) 0#w) + X ^ w * message bs :=
    foldl_step_mod hw ht bs (by simp [poly_zero])
  have hsmall : poly (bs.foldl (step table) 0#w) %ₘ generator g =
      poly (bs.foldl (step table) 0#w) := by
    rw [modByMonic_eq_self_iff (generator_monic g), degree_generator]
    exact degree_poly_lt _
  rw [← hsmall]
  refine modByMonic_eq_of_dvd_sub (generator_monic g) ?_
  rwa [CharTwo.sub_eq_add]

end CppPrivate.Crc
