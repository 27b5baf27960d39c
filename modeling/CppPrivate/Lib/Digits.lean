import Mathlib.Algebra.Group.Nat.Defs
import CppPrivate.Lib.Bytes

/-! Numbers of a fixed width in decimal, and the last entry of a kind in a list. -/
namespace CppPrivate
variable {n w : Nat}

def readOn (n : Nat) (ds : Bytes) : Nat := ds.foldl (fun n c => n * 10 + (c.toNat - 48)) n

def fixed : Nat → Nat → Bytes
  | 0, _ => []
  | w + 1, n => fixed w (n / 10) ++ [UInt8.ofNat (48 + n % 10)]

theorem toNat_digit (n : Nat) : (UInt8.ofNat (48 + n % 10)).toNat = 48 + n % 10 := by
  rw [UInt8.toNat_ofNat']
  omega

theorem length_fixed (w n : Nat) : (fixed w n).length = w := by
  induction w generalizing n with
  | zero => rfl
  | succ w ih => rw [fixed, List.length_append, ih, List.length_singleton]

theorem isDigit_fixed (w n : Nat) : ∀ c ∈ fixed w n, isDigit c = true := by
  induction w generalizing n with
  | zero =>
    intro c hc
    cases hc
  | succ w ih =>
    intro c hc
    cases List.mem_append.mp hc with
    | inl hc => exact ih (n / 10) c hc
    | inr hc =>
      obtain rfl := List.mem_singleton.mp hc
      have hdigit := toNat_digit n
      simp only [isDigit, Bool.and_eq_true, decide_eq_true_eq, UInt8.le_iff_toNat_le, hdigit]
      constructor
      · exact Nat.le_add_right 48 _
      · change 48 + n % 10 ≤ 57
        omega

theorem readOn_fixed (h : n < 10 ^ w) : readOn 0 (fixed w n) = n := by
  induction w generalizing n with
  | zero =>
    rw [Nat.pow_zero] at h
    exact (Nat.lt_one_iff.mp h).symm
  | succ w ih =>
    rw [Nat.pow_succ] at h
    rw [fixed, readOn, List.foldl_append]
    have hinit : readOn 0 (fixed w (n / 10)) = n / 10 := ih (by omega)
    rw [readOn] at hinit
    rw [hinit, List.foldl_cons, List.foldl_nil, toNat_digit]
    omega

theorem le_readOn (n : Nat) (ds : Bytes) : n ≤ readOn n ds := by
  induction ds generalizing n with
  | nil => exact Nat.le_refl n
  | cons c ds ih =>
    have hle := ih (n * 10 + (c.toNat - 48))
    rw [readOn] at hle
    rw [readOn, List.foldl_cons]
    omega

theorem readOn_cons (n : Nat) (c : UInt8) (ds : Bytes) :
    readOn n (c :: ds) = readOn (n * 10 + (c.toNat - 48)) ds := by
  simp only [readOn, List.foldl_cons]

theorem toNat_of_isDigit {c : UInt8} (h : isDigit c = true) : 48 ≤ c.toNat ∧ c.toNat ≤ 57 := by
  simp only [isDigit, Bool.and_eq_true, decide_eq_true_eq, UInt8.le_iff_toNat_le] at h
  exact h

theorem decimal_toDigits (n : Nat) :
    decimal (n : Int) = (Nat.toDigits 10 n).map fun d => UInt8.ofNat d.toNat := by
  change bytes (toString n) = _
  simp [bytes]

theorem length_decimal_le {k : Nat} (hk : 0 < k) (hn : n < 10 ^ k) :
    (decimal (n : Int)).length ≤ k := by
  rw [decimal_toDigits, List.length_map]
  exact (Nat.length_toDigits_le_iff (by decide) hk).mpr hn

theorem decimal_of_lt (hn : n < 10) : decimal (n : Int) = [UInt8.ofNat (48 + n)] := by
  have hchar : ∀ n : Nat, n < 10 → (Nat.digitChar n).toNat = 48 + n := by decide
  rw [decimal_toDigits, Nat.toDigits_of_lt_base hn, List.map_singleton, hchar n hn]

/-- A digit behind a printed number. -/
theorem decimal_mul_ten {c : UInt8} (hn : 0 < n) (hc : isDigit c = true) :
    decimal ((n * 10 + (c.toNat - 48) : Nat) : Int) = decimal (n : Int) ++ [c] := by
  obtain ⟨h48, h57⟩ := toNat_of_isDigit hc
  have hd : c.toNat - 48 < 10 := by omega
  rw [decimal_toDigits, Nat.mul_comm, ← Nat.toDigits_append_toDigits (by decide) hn hd,
    List.map_append, ← decimal_toDigits, ← decimal_toDigits, decimal_of_lt hd,
    Nat.add_sub_cancel' h48, UInt8.ofNat_toNat]

/-- Digits behind a printed number. -/
theorem decimal_readOn {ds : Bytes} (hn : 0 < n) (hds : ∀ c ∈ ds, isDigit c = true) :
    decimal (readOn n ds : Int) = decimal (n : Int) ++ ds := by
  induction ds generalizing n with
  | nil => exact (List.append_nil _).symm
  | cons c ds ih =>
    have hc := hds c List.mem_cons_self
    rw [readOn_cons, ih (by omega) fun d hd => hds d (List.mem_cons_of_mem c hd),
      decimal_mul_ten hn hc, List.append_assoc, List.singleton_append]

/-- A printed number is its first digit, which is no zero, and the digits read behind it. -/
theorem decimal_digits (hn : 0 < n) : ∃ d ds, decimal (n : Int) = d :: ds ∧ isDigit d = true ∧
    d ≠ 48 ∧ (∀ c ∈ ds, isDigit c = true) ∧ readOn (d.toNat - 48) ds = n := by
  induction n using Nat.strongRecOn with
  | ind n ih =>
    by_cases hlt : n < 10
    · have hsmall : ∀ n : Nat, n < 10 → 0 < n → isDigit (UInt8.ofNat (48 + n)) = true ∧
          UInt8.ofNat (48 + n) ≠ 48 ∧ (UInt8.ofNat (48 + n)).toNat - 48 = n := by decide
      obtain ⟨hdigit, hne, hval⟩ := hsmall n hlt hn
      refine ⟨_, [], decimal_of_lt hlt, hdigit, hne, ?_, hval⟩
      intro c hc
      cases hc
    · obtain ⟨d, ds, htext, hdigit, hne, hds, hval⟩ := ih (n / 10) (by omega) (by omega)
      have hlast : isDigit (UInt8.ofNat (48 + n % 10)) = true := by
        have hdig : ∀ m : Nat, m < 10 → isDigit (UInt8.ofNat (48 + m)) = true := by decide
        exact hdig _ (Nat.mod_lt n (by decide))
      refine ⟨d, ds ++ [UInt8.ofNat (48 + n % 10)], ?_, hdigit, hne, ?_, ?_⟩
      · have hsplit := decimal_mul_ten (n := n / 10) (by omega) hlast
        rw [toNat_digit] at hsplit
        rw [← List.cons_append, ← htext, ← hsplit]
        congr 2
        omega
      · intro c hc
        cases List.mem_append.mp hc with
        | inl hc => exact hds c hc
        | inr hc => exact List.mem_singleton.mp hc ▸ hlast
      · have happ : readOn (d.toNat - 48) (ds ++ [UInt8.ofNat (48 + n % 10)]) =
            readOn (d.toNat - 48) ds * 10 + ((UInt8.ofNat (48 + n % 10)).toNat - 48) := by
          rw [readOn, List.foldl_append]
          rfl
        rw [happ, hval, toNat_digit]
        omega

/-- A printed number is read back, digit by digit. -/
theorem read_decimal (n : Nat) : ∃ d ds, decimal (n : Int) = d :: ds ∧
    (∀ c ∈ d :: ds, isDigit c = true) ∧ readOn 0 (d :: ds) = n := by
  rcases Nat.eq_zero_or_pos n with rfl | hn
  · refine ⟨48, [], rfl, fun c hc => ?_, rfl⟩
    rw [List.mem_singleton.mp hc]
    rfl
  · obtain ⟨d, ds, htext, hd, -, hds, hval⟩ := decimal_digits hn
    refine ⟨d, ds, htext, ?_, ?_⟩
    · intro c hc
      rcases List.mem_cons.mp hc with rfl | hc
      · exact hd
      · exact hds c hc
    · rw [readOn_cons, Nat.zero_mul, Nat.zero_add]
      exact hval

theorem isDigit_decimal (n : Nat) : ∀ c ∈ decimal (n : Int), isDigit c = true := by
  obtain ⟨d, ds, htext, hds, -⟩ := read_decimal n
  rw [htext]
  exact hds

theorem readOn_decimal (n : Nat) : readOn 0 (decimal (n : Int)) = n := by
  obtain ⟨d, ds, htext, -, hval⟩ := read_decimal n
  rw [htext, hval]

/-- The last entry with a property, and what comes before and after it. -/
theorem exists_last {α : Type*} {P : α → Prop} {l : List α} (h : ∃ a ∈ l, P a) :
    ∃ before a after, l = before ++ a :: after ∧ P a ∧ ∀ b ∈ after, ¬ P b := by
  induction l with
  | nil =>
    obtain ⟨a, ha, -⟩ := h
    cases ha
  | cons x l ih =>
    by_cases hl : ∃ a ∈ l, P a
    · obtain ⟨before, a, after, rfl, ha, hafter⟩ := ih hl
      exact ⟨x :: before, a, after, rfl, ha, hafter⟩
    · push Not at hl
      obtain ⟨a, ha, hp⟩ := h
      obtain rfl : a = x := by
        cases List.mem_cons.mp ha with
        | inl hx => exact hx
        | inr hmem => exact absurd hp (hl a hmem)
      exact ⟨[], a, l, rfl, hp, hl⟩

end CppPrivate
