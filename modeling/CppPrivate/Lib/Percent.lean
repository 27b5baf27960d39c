import CppPrivate.Lib.Bytes

/-! Percent encoding with an arbitrary set of bytes kept as they are, and the strict
decoding that undoes it. -/
namespace CppPrivate.Percent

def hexDigit (n : Nat) : UInt8 := (bytes "0123456789ABCDEF").getD n 0

def hexVal (c : UInt8) : Option Nat :=
  if 48 ≤ c ∧ c ≤ 57 then some (c.toNat - 48)
  else if 65 ≤ c ∧ c ≤ 70 then some (c.toNat - 55)
  else if 97 ≤ c ∧ c ≤ 102 then some (c.toNat - 87)
  else none

def code (c : UInt8) : Bytes := [37, hexDigit (c.toNat / 16), hexDigit (c.toNat % 16)]

def encode (keep : UInt8 → Bool) (s : Bytes) : Bytes :=
  s.flatMap fun c => if keep c then [c] else code c

/-- A percent sign must be followed by two hexadecimal digits. -/
def decode : Bytes → Option Bytes
  | [] => some []
  | c :: s =>
    if c = 37 then
      match s with
      | a :: b :: rest =>
        match hexVal a, hexVal b with
        | some x, some y => (decode rest).map (UInt8.ofNat (16 * x + y) :: ·)
        | _, _ => none
      | _ => none
    else (decode s).map (c :: ·)

theorem hexVal_hexDigit : ∀ n < 16, hexVal (hexDigit n) = some n := by decide

theorem decode_code (c : UInt8) (s : Bytes) : decode (code c ++ s) = (decode s).map (c :: ·) := by
  have hc := c.toNat_lt
  have h1 := hexVal_hexDigit (c.toNat / 16) (by omega)
  have h2 := hexVal_hexDigit (c.toNat % 16) (by omega)
  have he : UInt8.ofNat (16 * (c.toNat / 16) + c.toNat % 16) = c := by
    rw [Nat.div_add_mod, UInt8.ofNat_toNat]
  simp only [code, List.cons_append, List.nil_append, decode, if_true, h1, h2, he]

theorem decode_cons {c : UInt8} (h : c ≠ 37) (s : Bytes) :
    decode (c :: s) = (decode s).map (c :: ·) := by
  rw [decode.eq_def]
  simp only [h, if_false]

theorem decode_encode {keep : UInt8 → Bool} (hkeep : keep 37 = false) (s : Bytes) :
    decode (encode keep s) = some s := by
  induction s with
  | nil => rfl
  | cons c s ih =>
    have hs : encode keep (c :: s) = (if keep c then [c] else code c) ++ encode keep s := rfl
    rw [hs]
    split
    · rename_i hc
      have hne : c ≠ 37 := by
        intro heq
        subst heq
        rw [hkeep] at hc
        cases hc
      rw [List.singleton_append, decode_cons hne, ih]
      rfl
    · rw [decode_code, ih]
      rfl

/-- A decoding that leaves a percent sign as it is where no two digits follow, and that does `f` to
the bytes outside of the codes. -/
def lax (f : UInt8 → UInt8) : Bytes → Bytes
  | [] => []
  | 37 :: a :: b :: s =>
    match hexVal a, hexVal b with
    | some x, some y => UInt8.ofNat (16 * x + y) :: lax f s
    | _, _ => f 37 :: lax f (a :: b :: s)
  | c :: s => f c :: lax f s

theorem lax_code {f : UInt8 → UInt8} (c : UInt8) (s : Bytes) :
    lax f (code c ++ s) = c :: lax f s := by
  have hc := c.toNat_lt
  have h1 := hexVal_hexDigit (c.toNat / 16) (by omega)
  have h2 := hexVal_hexDigit (c.toNat % 16) (by omega)
  have he : UInt8.ofNat (16 * (c.toNat / 16) + c.toNat % 16) = c := by
    rw [Nat.div_add_mod, UInt8.ofNat_toNat]
  simp only [code, List.cons_append, List.nil_append, lax, h1, h2, he]

theorem lax_cons {f : UInt8 → UInt8} {c : UInt8} (h : c ≠ 37) (s : Bytes) :
    lax f (c :: s) = f c :: lax f s := by
  rw [lax.eq_def]
  split
  · rename_i heq
    cases heq
  · rename_i heq
    exact absurd (List.cons.inj heq).1 h
  · rename_i heq
    obtain ⟨rfl, rfl⟩ := List.cons.inj heq
    rfl

theorem length_lax_le (f : UInt8 → UInt8) (s : Bytes) : (lax f s).length ≤ s.length := by
  fun_induction lax f s with
  | case1 => exact Nat.le_refl 0
  | case2 a b s x y ha hb ih =>
    simp only [List.length_cons]
    omega
  | case3 a b s hnot ih =>
    simp only [List.length_cons] at ih ⊢
    omega
  | case4 c s hne ih =>
    rw [List.length_cons, List.length_cons]
    omega

theorem lax_encode {f : UInt8 → UInt8} {keep : UInt8 → Bool} (hkeep : keep 37 = false)
    (hf : ∀ c, keep c = true → f c = c) (s : Bytes) : lax f (encode keep s) = s := by
  induction s with
  | nil => rfl
  | cons c s ih =>
    have hs : encode keep (c :: s) = (if keep c then [c] else code c) ++ encode keep s := rfl
    rw [hs]
    split
    · rename_i hc
      have hne : c ≠ 37 := by
        intro heq
        rw [heq, hkeep] at hc
        cases hc
      rw [List.singleton_append, lax_cons hne, hf c hc, ih]
    · rw [lax_code, ih]

/-- Text without percent signs decodes to itself. -/
theorem decode_plain {s : Bytes} (h : 37 ∉ s) : decode s = some s := by
  induction s with
  | nil => rfl
  | cons c s ih =>
    simp only [List.mem_cons, not_or] at h
    rw [decode_cons (Ne.symm h.1), ih h.2]
    rfl

/-- A byte other than the percent sign survives decoding. -/
theorem mem_of_decode {c : UInt8} (hc : c ≠ 37) (hx : hexVal c = none) {s t : Bytes}
    (hs : c ∈ s) (h : decode s = some t) : c ∈ t := by
  induction s using decode.induct generalizing t with
  | case1 => cases hs
  | case2 a b rest x y ha hb ih =>
    simp only [decode, if_true, ha, hb] at h
    obtain ⟨u, hu, rfl⟩ := Option.map_eq_some_iff.mp h
    simp only [List.mem_cons] at hs
    rcases hs with rfl | rfl | rfl | hs
    · exact absurd rfl hc
    · cases hx.symm.trans ‹hexVal c = some _›
    · cases hx.symm.trans ‹hexVal c = some _›
    · exact List.mem_cons_of_mem _ (ih hs hu)
  | case3 a b rest hn =>
    rw [decode.eq_def] at h
    simp only [if_true] at h
    cases h
  | case4 s hn =>
    rw [decode.eq_def] at h
    simp only [if_true] at h
    cases h
  | case5 d s hd ih =>
    rw [decode_cons hd] at h
    obtain ⟨u, hu, rfl⟩ := Option.map_eq_some_iff.mp h
    cases List.mem_cons.mp hs with
    | inl heq =>
      subst heq
      exact List.mem_cons_self
    | inr hs => exact List.mem_cons_of_mem _ (ih hs hu)

theorem mem_encode {keep : UInt8 → Bool} {c : UInt8} {s : Bytes} (hc : keep c = true)
    (h : c ∈ s) : c ∈ encode keep s :=
  List.mem_flatMap.mpr ⟨c, h, by simp [hc]⟩

/-- What encoding can produce: kept bytes of the text, percent signs and digits. -/
theorem mem_of_encode {keep : UInt8 → Bool} {c : UInt8} {s : Bytes} (h : c ∈ encode keep s) :
    (c ∈ s ∧ keep c = true) ∨ c = 37 ∨ ∃ n < 16, c = hexDigit n := by
  obtain ⟨d, hd, hc⟩ := List.mem_flatMap.mp h
  split at hc
  · rename_i hk
    have he := List.mem_singleton.mp hc
    exact Or.inl ⟨he ▸ hd, he ▸ hk⟩
  · have hlt := d.toNat_lt
    simp only [code, List.mem_cons, List.not_mem_nil, or_false] at hc
    rcases hc with hc | hc | hc
    · exact Or.inr (Or.inl hc)
    · exact Or.inr (Or.inr ⟨_, by omega, hc⟩)
    · exact Or.inr (Or.inr ⟨_, by omega, hc⟩)

theorem not_mem_encode {keep : UInt8 → Bool} {c : UInt8} {s : Bytes} (hs : c ∉ s) (hp : c ≠ 37)
    (hx : hexVal c = none) : c ∉ encode keep s := by
  intro hm
  rcases mem_of_encode hm with ⟨hm, -⟩ | hm | ⟨n, hn, rfl⟩
  · exact hs hm
  · exact hp hm
  · rw [hexVal_hexDigit n hn] at hx
    cases hx

end CppPrivate.Percent
