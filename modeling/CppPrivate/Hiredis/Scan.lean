import CppPrivate.Lib.Digits
import CppPrivate.Lib.Machine
import CppPrivate.Lib.Pieces
import CppPrivate.Redis.Format

/-! What the reader of replies finds in its buffer: ends of lines, and integers in them. -/
namespace CppPrivate.Hiredis
open Redis

def CRLF : Bytes := bytes "\r\n"

/-- The two loops of `seekNewline`, with the rest of the text and the position. -/
def seekLoop : Bytes → Nat → Option Nat
  | c :: d :: rest, pos =>
    if c ≠ 13 then seekLoop (d :: rest) (pos + 1)
    else if d = 10 then some pos
    else seekLoop (d :: rest) (pos + 1)
  | _, _ => none

/-- `seekNewline`, whose `_len` is an `int`. -/
def seekNewline (s : Bytes) : Option Nat :=
  seekLoop (s.take (cInt ((s.length : Int) - 1) + 1).toNat) 0

theorem seekLoop_eq (s : Bytes) (pos : Nat) :
    seekLoop s pos = (Pattern.find CRLF s).map (· + pos) := by
  have hshort : ∀ c : UInt8, Pattern.find CRLF [c] = none := by
    intro c
    cases h : Pattern.find CRLF [c] with
    | none => rfl
    | some i =>
      have hle : i + 2 ≤ 1 := Pattern.find_le h
      omega
  induction s generalizing pos with
  | nil => rfl
  | cons c s ih =>
    cases s with
    | nil => rw [hshort]; rfl
    | cons d rest =>
      have hnext : seekLoop (d :: rest) (pos + 1) =
          ((Pattern.find CRLF (d :: rest)).map (· + 1)).map (· + pos) := by
        rw [ih, Option.map_map]
        congr 1
        funext n
        exact (Nat.add_right_comm n 1 pos).symm
      have hpre : CRLF.isPrefixOf (c :: d :: rest) = (13 == c && 10 == d) := by
        simp [CRLF, bytes, List.isPrefixOf]
      rw [seekLoop, Pattern.find, hpre]
      by_cases hc : c = 13
      · subst hc
        rw [if_neg (by simp)]
        by_cases hd : d = 10
        · subst hd
          simp
        · rw [if_neg hd, if_neg (by simpa using Ne.symm hd), hnext]
      · rw [if_pos hc, if_neg (by simp [Ne.symm hc]), hnext]

/-- Within the range of an `int` it finds the first end of a line. -/
theorem seekNewline_eq {s : Bytes} (h : s.length ≤ 2 ^ 31) :
    seekNewline s = Pattern.find CRLF s := by
  have hint : cInt ((s.length : Int) - 1) = (s.length : Int) - 1 := by
    simp only [cInt, Int.bmod_def]
    omega
  rw [seekNewline, hint, List.take_of_length_le (by omega), seekLoop_eq]
  simp

def ULLONG_MAX : Nat := 2 ^ 64 - 1

def LLONG_MAX : Nat := 2 ^ 63 - 1

/-- The loop of `string2ll` over the digits; there is nothing where the number gets too large. -/
def digitsLoop : Bytes → Nat → Option (Nat × Bytes)
  | [], v => some (v, [])
  | c :: p, v =>
    if isDigit c then
      if ULLONG_MAX / 10 < v then none
      else if ULLONG_MAX - (c.toNat - 48) < v * 10 then none
      else digitsLoop p (v * 10 + (c.toNat - 48))
    else some (v, c :: p)

/-- `string2ll` behind the sign. -/
def magnitude : Bytes → Option Nat
  | [] => none
  | c :: p =>
    if 49 ≤ c && c ≤ 57 then
      match digitsLoop p (c.toNat - 48) with
      | some (v, []) => some v
      | _ => none
    else none

def string2ll (s : Bytes) : Option Int :=
  if s = [48] then some 0
  else if s.head? = some 45 then
    (magnitude s.tail).bind fun v => if LLONG_MAX + 1 < v then none else some (-v)
  else (magnitude s).bind fun v => if LLONG_MAX < v then none else some v

theorem digitsLoop_eq {p : Bytes} {v w : Nat} (hv : v ≤ ULLONG_MAX) :
    digitsLoop p v = some (w, []) ↔
      (∀ c ∈ p, isDigit c = true) ∧ readOn v p = w ∧ w ≤ ULLONG_MAX := by
  have hmax : ULLONG_MAX = 18446744073709551615 := rfl
  induction p generalizing v with
  | nil =>
    simp only [digitsLoop, readOn, List.foldl_nil, Option.some.injEq, Prod.mk.injEq, and_true,
      List.not_mem_nil, false_implies, implies_true, true_and]
    exact ⟨fun h => ⟨h, h ▸ hv⟩, And.left⟩
  | cons c p ih =>
    rw [digitsLoop, readOn_cons]
    by_cases hc : isDigit c = true
    · have hlow := (toNat_of_isDigit hc).2
      have hle := le_readOn (v * 10 + (c.toNat - 48)) p
      rw [if_pos hc]
      by_cases hbig : v * 10 + (c.toNat - 48) ≤ ULLONG_MAX
      · rw [if_neg (by omega), if_neg (by omega)]
        refine (ih hbig).trans ?_
        simp [hc]
      · have hnone : ∀ x : Option (Nat × Bytes), (if ULLONG_MAX / 10 < v then none
            else if ULLONG_MAX - (c.toNat - 48) < v * 10 then none else x) = none := by
          intro x
          by_cases hdiv : ULLONG_MAX / 10 < v
          · rw [if_pos hdiv]
          · rw [if_neg hdiv, if_pos (by omega)]
        rw [hnone]
        simp only [reduceCtorEq, false_iff, not_and]
        omega
    · rw [if_neg hc]
      simp [hc]

theorem decimal_pos_iff {s : Bytes} {n : Nat} (hn : 0 < n) : s = decimal (n : Int) ↔
    ∃ d ds, s = d :: ds ∧ isDigit d = true ∧ d ≠ 48 ∧ (∀ c ∈ ds, isDigit c = true) ∧
      readOn (d.toNat - 48) ds = n := by
  constructor
  · intro h
    obtain ⟨d, ds, htext, hrest⟩ := decimal_digits hn
    exact ⟨d, ds, h.trans htext, hrest⟩
  · intro h
    obtain ⟨d, ds, rfl, hd, hne, hds, rfl⟩ := h
    have hlow := toNat_of_isDigit hd
    have hpos : 0 < d.toNat - 48 := by
      have : d.toNat ≠ 48 := fun he => hne (UInt8.toNat_inj.mp he)
      omega
    have hfirst : [d] = decimal ((d.toNat - 48 : Nat) : Int) := by
      rw [decimal_of_lt (by omega), Nat.add_sub_cancel' hlow.1, UInt8.ofNat_toNat]
    rw [decimal_readOn hpos hds, ← hfirst]
    rfl

/-- The digits of a positive number without a zero before them. -/
theorem magnitude_eq {s : Bytes} {v : Nat} :
    magnitude s = some v ↔ s = decimal (v : Int) ∧ 0 < v ∧ v ≤ ULLONG_MAX := by
  have hmax : ULLONG_MAX = 18446744073709551615 := rfl
  have hfirst : ∀ c : UInt8, (49 ≤ c && c ≤ 57) = true ↔ isDigit c = true ∧ c ≠ 48 := by
    intro c
    simp only [isDigit, Bool.and_eq_true, decide_eq_true_eq, UInt8.le_iff_toNat_le,
      ne_eq, ← UInt8.toNat_inj]
    change 49 ≤ c.toNat ∧ c.toNat ≤ 57 ↔ (48 ≤ c.toNat ∧ c.toNat ≤ 57) ∧ ¬ c.toNat = 48
    omega
  cases s with
  | nil =>
    simp only [magnitude, reduceCtorEq, false_iff, not_and]
    intro h hpos
    obtain ⟨d, ds, hcons, -⟩ := (decimal_pos_iff hpos).mp h
    cases hcons
  | cons c p =>
    rw [magnitude]
    by_cases hc : (49 ≤ c && c ≤ 57) = true
    · obtain ⟨hdigit, hne⟩ := (hfirst c).mp hc
      have hlow := toNat_of_isDigit hdigit
      have hpos : 0 < c.toNat - 48 := by
        have : c.toNat ≠ 48 := fun he => hne (UInt8.toNat_inj.mp he)
        omega
      have hle := le_readOn (c.toNat - 48) p
      have hloop := digitsLoop_eq (p := p) (v := c.toNat - 48) (w := v) (by omega)
      have hmatch : (match digitsLoop p (c.toNat - 48) with
          | some (v, []) => some v
          | _ => none) = some v ↔ digitsLoop p (c.toNat - 48) = some (v, []) := by
        cases digitsLoop p (c.toNat - 48) with
        | none => simp
        | some r =>
          obtain ⟨u, rest⟩ := r
          cases rest <;> simp
      rw [if_pos hc, hmatch, hloop]
      constructor
      · intro h
        obtain ⟨hp, hval, hbound⟩ := h
        have hv : 0 < v := by omega
        exact ⟨(decimal_pos_iff hv).mpr ⟨c, p, rfl, hdigit, hne, hp, hval⟩, hv, hbound⟩
      · intro h
        obtain ⟨htext, hv, hbound⟩ := h
        obtain ⟨d, ds, hcons, -, -, hds, hval⟩ := (decimal_pos_iff hv).mp htext
        cases hcons
        exact ⟨hds, hval, hbound⟩
    · rw [if_neg hc]
      simp only [reduceCtorEq, false_iff, not_and]
      intro h hv
      obtain ⟨d, ds, hcons, hdigit, hne, -⟩ := (decimal_pos_iff hv).mp h
      cases hcons
      exact absurd ((hfirst c).mpr ⟨hdigit, hne⟩) hc

/-- Accepted are the texts of the numbers of 64 bits, as they are printed, and no others. -/
theorem string2ll_eq {s : Bytes} {n : Int} :
    string2ll s = some n ↔ s = decimal n ∧ -(2 ^ 63) ≤ n ∧ n < 2 ^ 63 := by
  have hlong : LLONG_MAX = 2 ^ 63 - 1 := rfl
  have hmax : ULLONG_MAX = 2 ^ 64 - 1 := rfl
  have hminus : ∀ m : Nat, (decimal (m : Int)).head? ≠ some 45 := by
    intro m hm
    exact absurd (digit_of_mem_repr (List.mem_of_mem_head? hm)) (by decide)
  rw [string2ll]
  by_cases hzero : s = [48]
  · subst hzero
    have h0 : ([48] : Bytes) = decimal 0 := rfl
    rw [if_pos rfl, Option.some.injEq]
    constructor
    · intro h
      subst h
      exact ⟨h0, by decide, by decide⟩
    · intro h
      exact decimal_inj (h0.symm.trans h.1)
  · rw [if_neg hzero]
    by_cases hneg : s.head? = some 45
    · obtain ⟨p, rfl⟩ : ∃ p, s = 45 :: p := List.head?_eq_some_iff.mp hneg
      rw [if_pos hneg, List.tail_cons, Option.bind_eq_some_iff]
      constructor
      · intro h
        obtain ⟨v, hv, hrange⟩ := h
        obtain ⟨rfl, hpos, -⟩ := magnitude_eq.mp hv
        rw [Option.ite_none_left_eq_some] at hrange
        obtain ⟨hle, hn⟩ := hrange
        obtain rfl := Option.some.inj hn
        obtain ⟨k, rfl⟩ : ∃ k, v = k + 1 := ⟨v - 1, by omega⟩
        refine ⟨?_, by omega, by omega⟩
        have hsucc : -((k + 1 : Nat) : Int) = Int.negSucc k := rfl
        rw [hsucc, decimal_negSucc]
        rfl
      · intro h
        obtain ⟨htext, hlow, hhigh⟩ := h
        cases n with
        | ofNat m => exact absurd (htext ▸ hneg) (hminus m)
        | negSucc k =>
          rw [decimal_negSucc] at htext
          refine ⟨k + 1, magnitude_eq.mpr ⟨(List.cons.inj htext).2, Nat.succ_pos k, by omega⟩, ?_⟩
          rw [if_neg (by omega)]
          rfl
    · rw [if_neg hneg, Option.bind_eq_some_iff]
      constructor
      · intro h
        obtain ⟨v, hv, hrange⟩ := h
        obtain ⟨rfl, hpos, -⟩ := magnitude_eq.mp hv
        rw [Option.ite_none_left_eq_some] at hrange
        obtain ⟨hle, hn⟩ := hrange
        obtain rfl := Option.some.inj hn
        exact ⟨rfl, by omega, by omega⟩
      · intro h
        obtain ⟨htext, hlow, hhigh⟩ := h
        cases n with
        | ofNat m =>
          change (m : Int) < 2 ^ 63 at hhigh
          have hm : 0 < m := by
            refine Nat.pos_of_ne_zero fun h0 => hzero ?_
            rw [htext, h0]
            rfl
          refine ⟨m, magnitude_eq.mpr ⟨htext, hm, by omega⟩, ?_⟩
          rw [if_neg (by omega)]
          rfl
        | negSucc k =>
          rw [htext, decimal_negSucc] at hneg
          exact absurd rfl hneg

/-- The text of a number is read back. -/
theorem string2ll_decimal {n : Int} (hlow : -(2 ^ 63) ≤ n) (hhigh : n < 2 ^ 63) :
    string2ll (decimal n) = some n :=
  string2ll_eq.mpr ⟨rfl, hlow, hhigh⟩

end CppPrivate.Hiredis
