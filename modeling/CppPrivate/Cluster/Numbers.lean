import CppPrivate.Cluster.Fragment
import CppPrivate.Lib.Digits

/-! The numbers of a fragment: their lengths, and what the buffer holds that they are printed into. -/
namespace CppPrivate.Cluster
open Redis

variable {s : Bytes} {n : Nat}

/-- A number of more than one digit is printed behind its tenth. -/
theorem decimal_div (h : 10 ≤ n) :
    decimal (n : Int) = decimal (n / 10 : Nat) ++ [UInt8.ofNat (n % 10 + 48)] := by
  have hdigit : ∀ d < 10, isDigit (UInt8.ofNat (d + 48)) = true ∧
      (UInt8.ofNat (d + 48)).toNat - 48 = d := by decide
  obtain ⟨hd, hval⟩ := hdigit (n % 10) (Nat.mod_lt n (by decide))
  rw [← decimal_mul_ten (by omega) hd, hval]
  congr 2
  omega

theorem decimal_ne_nil (n : Nat) : decimal (n : Int) ≠ [] := by
  rcases Nat.eq_zero_or_pos n with rfl | hn
  · decide
  · obtain ⟨d, ds, htext, -⟩ := decimal_digits hn
    simp [htext]

theorem length_decimal_eq_one : (decimal (n : Int)).length = 1 ↔ n < 10 := by
  constructor
  · intro h
    by_contra hge
    rw [decimal_div (by omega), List.length_append, List.length_singleton] at h
    exact decimal_ne_nil (n / 10) (List.eq_nil_of_length_eq_zero (by omega))
  · intro h
    rw [decimal_of_lt h, List.length_singleton]

theorem uintLenLoop_eq {fuel num : Nat} (hfuel : num ≤ fuel) (hnum : 0 < num) (n : Nat) :
    uintLenLoop fuel num n = n + (decimal (num : Int)).length := by
  induction fuel generalizing num n with
  | zero => omega
  | succ fuel ih =>
    rw [uintLenLoop, if_pos (by omega)]
    by_cases hsmall : num < 10
    · have hzero : num / 10 = 0 := by omega
      rw [hzero, length_decimal_eq_one.mpr hsmall]
      cases fuel <;> simp [uintLenLoop]
    · have hdiv := decimal_div (n := num) (by omega)
      rw [ih (by omega) (by omega), hdiv, List.length_append, List.length_singleton]
      omega

theorem uint_len_eq (n : Nat) : uint_len n = (decimal (n : Int)).length := by
  unfold uint_len
  split
  case isTrue h =>
    subst h
    decide
  case isFalse h =>
    rw [uintLenLoop_eq (Nat.le_refl n) (by omega), Nat.zero_add]

/-- The digits come into the buffer in the reverse of their order. -/
theorem itoaLoop_eq {fuel len num : Nat} (hfuel : num ≤ fuel) (hnum : 0 < num)
    (hroom : len + (decimal (num : Int)).length < s.length) :
    ∃ s', itoaLoop fuel s len num = (s', len + (decimal (num : Int)).length) ∧
      s'.length = s.length ∧
      s'.take (len + (decimal (num : Int)).length) = s.take len ++ (decimal (num : Int)).reverse := by
  induction fuel generalizing s len num with
  | zero => omega
  | succ fuel ih =>
    rw [itoaLoop, if_pos (by omega)]
    let t := (s.set (len + 1) (s.getD len 0)).set len (UInt8.ofNat (num % 10 + 48))
    have hlen : t.length = s.length := by simp [t]
    have hpos : len < s.length := by omega
    have htake : t.take (len + 1) = s.take len ++ [UInt8.ofNat (num % 10 + 48)] := by
      have hset : (s.set (len + 1) (s.getD len 0)).length = s.length := List.length_set
      rw [List.take_add_one, List.getElem?_set_self (by omega), List.take_set_of_le (Nat.le_refl len),
        List.take_set_of_le (Nat.le_succ len)]
      rfl
    change ∃ s', itoaLoop fuel t (len + 1) (num / 10) = _ ∧ _
    by_cases hsmall : num < 10
    · have hzero : num / 10 = 0 := by omega
      have hone := length_decimal_eq_one.mpr hsmall
      refine ⟨t, ?_, hlen, ?_⟩
      · rw [hzero, hone]
        cases fuel <;> simp [itoaLoop]
      · have hmod : num % 10 = num := Nat.mod_eq_of_lt hsmall
        rw [hone, htake, decimal_of_lt hsmall, hmod, Nat.add_comm 48]
        rfl
    · have hdiv := decimal_div (n := num) (by omega)
      have hcount : (decimal (num : Int)).length = (decimal (num / 10 : Nat)).length + 1 := by
        rw [hdiv, List.length_append, List.length_singleton]
      obtain ⟨s', hloop, hs', htake'⟩ := ih (s := t) (by omega : num / 10 ≤ fuel)
        (by omega) (by omega : len + 1 + (decimal (num / 10 : Nat)).length < t.length)
      have hsum : len + 1 + (decimal (num / 10 : Nat)).length =
          len + (decimal (num : Int)).length := by omega
      rw [hsum] at hloop htake'
      refine ⟨s', hloop, hs'.trans hlen, ?_⟩
      rw [htake', htake, hdiv, List.reverse_append]
      simp

structure Holds (num_str shown : Bytes) : Prop where
  text : C_STR num_str = shown
  size : num_str.length = 12

def shownAfter (shown : Bytes) (n : Nat) : Bytes :=
  if n = 0 then 48 :: shown.tail else decimal n

theorem C_STR_append_zero {ds : Bytes} (hds : ∀ c ∈ ds, isDigit c = true) (rest : Bytes) :
    C_STR (ds ++ 0 :: rest) = ds := by
  have hne : ∀ c ∈ ds, decide (c ≠ 0) = true := by
    intro c hc
    have hdigit := hds c hc
    rw [decide_eq_true_eq]
    rintro rfl
    simp [isDigit] at hdigit
  rw [C_STR, List.takeWhile_append_of_pos hne, List.takeWhile_cons_of_neg (by simp),
    List.append_nil]

/-- A number that is no zero is what the buffer shows. -/
theorem itoa_pos (hs : s.length = 12) (hpos : 0 < n) (hn : n < 2 ^ 31) :
    Holds (hi_itoa s n) (decimal n) := by
  have hshort := length_decimal_le (n := n) (k := 10) (by decide) (by omega)
  obtain ⟨s', hloop, hlen, htake⟩ := itoaLoop_eq (Nat.le_refl n) hpos
    (by omega : 0 + (decimal (n : Int)).length < s.length)
  rw [Nat.zero_add] at hloop htake
  have hbuf : hi_itoa s n = decimal n ++ 0 :: s'.drop ((decimal (n : Int)).length + 1) := by
    have hne : ¬ (n : Int) = 0 := by omega
    have hnneg : ¬ (n : Int) < 0 := by omega
    simp only [hi_itoa, if_neg hne, if_neg hnneg, Int.natAbs_natCast, hloop]
    rw [List.take_set_of_le (Nat.le_refl _), htake, List.take_zero, List.nil_append,
      List.reverse_reverse, List.drop_set, if_neg (Nat.lt_irrefl _), Nat.sub_self,
      List.drop_eq_getElem_cons (by omega), List.set_cons_zero]
  constructor
  · rw [hbuf, C_STR_append_zero (isDigit_decimal _)]
  · rw [hbuf, List.length_append, List.length_cons, List.length_drop]
    omega

/-- A zero takes the place of the first digit, and leaves those behind it. -/
theorem Holds.itoa {shown : Bytes} (h : Holds s shown) (hne : shown ≠ []) (hn : n < 2 ^ 31) :
    Holds (hi_itoa s n) (shownAfter shown n) := by
  rcases Nat.eq_zero_or_pos n with rfl | hpos
  · obtain ⟨rfl, hsize⟩ := h
    cases s with
    | nil => cases hsize
    | cons c s =>
      by_cases hc : c = 0
      · simp [C_STR, hc] at hne
      · exact ⟨by simp [hi_itoa, shownAfter, C_STR, hc], hsize⟩
  · rw [shownAfter, if_neg (by omega)]
    exact itoa_pos h.size hpos hn

theorem shownAfter_ne_nil (shown : Bytes) (n : Nat) : shownAfter shown n ≠ [] := by
  unfold shownAfter
  split
  · simp
  · exact decimal_ne_nil n

/-- The buffer shows at least as much as it should, and so much only if it shows what it should. -/
theorem length_shownAfter {shown : Bytes} (hne : shown ≠ []) :
    (decimal (n : Int)).length ≤ (shownAfter shown n).length ∧
      ((shownAfter shown n).length = (decimal (n : Int)).length ↔
        shownAfter shown n = decimal n) := by
  unfold shownAfter
  split
  case isTrue h =>
    subst h
    have hzero : decimal ((0 : Nat) : Int) = [48] := by decide
    rw [hzero]
    cases shown with
    | nil => exact absurd rfl hne
    | cons c shown => simp
  case isFalse => exact ⟨Nat.le_refl _, by simp⟩

end CppPrivate.Cluster
