import Mathlib.Algebra.Group.Int.Defs
import Mathlib.Algebra.GroupWithZero.Nat
import Mathlib.Data.List.Basic

/-! Byte strings: the contents of a `std::string` or of a C string without its
final zero byte. -/
namespace CppPrivate

abbrev Bytes := List UInt8

abbrev StdMap (α : Type*) := Std.ExtTreeMap Bytes α compare

theorem StdMap.getElem?_insert {α : Type*} (m : StdMap α) (k a : Bytes) (v : α) :
    (m.insert k v)[a]? = if k = a then some v else m[a]? := by
  simp only [Std.ExtTreeMap.getElem?_insert, Std.compare_eq_iff_eq]

def bytes (s : String) : Bytes := s.toList.map (fun c => UInt8.ofNat c.toNat)

/-- `%d` and `std::to_string`. -/
def decimal (n : Int) : Bytes := bytes (toString n)

theorem bytes_append (s t : String) : bytes (s ++ t) = bytes s ++ bytes t := by
  simp [bytes]

/-- Two texts are cut alike at the first occurrence of a symbol. -/
theorem cut_inj {α : Type*} {c : α} {s s' t t' : List α} (hs : c ∉ s) (hs' : c ∉ s')
    (h : s ++ c :: t = s' ++ c :: t') : s = s' ∧ t = t' := by
  induction s generalizing s' with
  | nil =>
    cases s' with
    | nil => exact ⟨rfl, by simpa using h⟩
    | cons d s' =>
      simp only [List.nil_append, List.cons_append, List.cons.injEq] at h
      exact absurd (List.mem_cons.mpr (Or.inl h.1)) hs'
  | cons d s ih =>
    simp only [List.mem_cons, not_or] at hs
    cases s' with
    | nil =>
      simp only [List.nil_append, List.cons_append, List.cons.injEq] at h
      exact absurd h.1.symm hs.1
    | cons d' s' =>
      simp only [List.mem_cons, not_or] at hs'
      simp only [List.cons_append, List.cons.injEq] at h
      obtain ⟨h1, h2⟩ := ih hs.2 hs'.2 h.2
      exact ⟨by rw [h.1, h1], h2⟩

def isDigit (b : UInt8) : Bool := 48 ≤ b && b ≤ 57

theorem digit_of_mem_repr {n : Nat} {b : UInt8} (h : b ∈ bytes (toString n)) : isDigit b = true := by
  simp only [bytes, List.mem_map, Nat.toString_eq_repr, Nat.repr_eq_ofList_toDigits,
    String.toList_ofList] at h
  obtain ⟨c, hc, rfl⟩ := h
  have hd := Nat.isDigit_of_mem_toDigits (by decide) (by decide) hc
  simp only [Char.isDigit, Bool.and_eq_true, decide_eq_true_eq] at hd
  have h1 : 48 ≤ c.toNat := by simpa [UInt32.le_iff_toNat_le] using hd.1
  have h2 : c.toNat ≤ 57 := by simpa [UInt32.le_iff_toNat_le] using hd.2
  simp only [isDigit, Bool.and_eq_true, decide_eq_true_eq, UInt8.le_iff_toNat_le, UInt8.toNat_ofNat']
  constructor
  · change 48 ≤ _; omega
  · change _ ≤ 57; omega

theorem decimal_negSucc (n : Nat) : decimal (Int.negSucc n) = 45 :: bytes (toString (n + 1)) := by
  simp only [decimal, toString, Int.repr]
  rw [bytes_append]
  rfl

/-- A printed integer is made of digits, after a minus sign if it is negative. -/
theorem mem_decimal {n : Int} {b : UInt8} (h : b ∈ decimal n) : isDigit b = true ∨ b = 45 := by
  cases n with
  | ofNat n => exact Or.inl (digit_of_mem_repr h)
  | negSucc n =>
    rw [decimal_negSucc] at h
    cases List.mem_cons.mp h with
    | inl heq =>
      subst heq
      exact Or.inr rfl
    | inr h => exact Or.inl (digit_of_mem_repr h)

/-- Texts of single-byte characters are told apart by their bytes. -/
theorem bytes_inj {s t : String} (hs : ∀ c ∈ s.toList, c.toNat < 256)
    (ht : ∀ c ∈ t.toList, c.toNat < 256) (h : bytes s = bytes t) : s = t := by
  have hback : ∀ {u : String}, (∀ c ∈ u.toList, c.toNat < 256) →
      (bytes u).map (fun b => Char.ofNat b.toNat) = u.toList := by
    intro u hu
    have hid : ∀ c ∈ u.toList, Char.ofNat (UInt8.ofNat c.toNat).toNat = id c := by
      intro c hc
      rw [UInt8.toNat_ofNat', Nat.mod_eq_of_lt (hu c hc), Char.ofNat_toNat]
      rfl
    rw [bytes, List.map_map]
    exact (List.map_congr_left hid).trans (List.map_id _)
  have hl := hback hs
  rw [h, hback ht] at hl
  exact String.toList_inj.mp hl.symm

theorem toList_repr_lt {n : Nat} {c : Char} (hc : c ∈ n.repr.toList) : c.toNat < 256 := by
  rw [Nat.toList_repr] at hc
  have hd := Nat.isDigit_of_mem_toDigits (by decide) (by decide) hc
  simp only [Char.isDigit, Bool.and_eq_true, decide_eq_true_eq] at hd
  have h2 : c.toNat ≤ 57 := by simpa [UInt32.le_iff_toNat_le] using hd.2
  omega

theorem bytes_repr_inj {m n : Nat} (h : bytes m.repr = bytes n.repr) : m = n := by
  have hr : m.repr = n.repr :=
    bytes_inj (fun _ => toList_repr_lt) (fun _ => toList_repr_lt) h
  have hl := congrArg String.toList hr
  rw [Nat.toList_repr, Nat.toList_repr] at hl
  rw [← Nat.ofDigitChars_ten_toDigits (n := m), hl, Nat.ofDigitChars_ten_toDigits]

/-- Integers are told apart by their decimal texts. -/
theorem decimal_inj {m n : Int} (h : decimal m = decimal n) : m = n := by
  have hsign : ∀ a b : Nat, decimal (Int.ofNat a) ≠ decimal (Int.negSucc b) := by
    intro a b heq
    have hmem : (45 : UInt8) ∈ decimal (Int.ofNat a) := by
      rw [heq, decimal_negSucc]
      exact List.mem_cons_self
    exact absurd (digit_of_mem_repr hmem) (by decide)
  cases m with
  | ofNat a =>
    cases n with
    | ofNat b => exact congrArg Int.ofNat (bytes_repr_inj h)
    | negSucc b => exact absurd h (hsign a b)
  | negSucc a =>
    cases n with
    | ofNat b => exact absurd h.symm (hsign b a)
    | negSucc b =>
      rw [decimal_negSucc, decimal_negSucc] at h
      have hab := bytes_repr_inj (List.cons.inj h).2
      exact congrArg Int.negSucc (Nat.succ.inj hab)

end CppPrivate
