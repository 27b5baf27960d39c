import CppPrivate.Lib.Percent

/-! The escaping of `CUrl`, which reads its argument as a C string. -/
namespace CppPrivate.Url

/-- What a C string holds of a `std::string`: its bytes before the first zero byte. -/
def cStr (s : Bytes) : Bytes := s.takeWhile (· ≠ 0)

def isAlphanum (c : UInt8) : Bool :=
  (97 ≤ c && c ≤ 122) || (65 ≤ c && c ≤ 90) || (48 ≤ c && c ≤ 57)

/-- The `char` of the source may be signed; a byte from 128 on is then negative and passes no test. -/
def isUnambiguous (c : UInt8) : Bool :=
  isAlphanum c || c == 45 || c == 95 || c == 46 || c == 126

def charInStr (c : UInt8) (str : Bytes) : Bool := (cStr str).contains c

def escape (str unescapedChars : Bytes) : Bytes :=
  (cStr str).flatMap fun c =>
    if isUnambiguous c || charInStr c unescapedChars then [c]
    else [37, (bytes "0123456789ABCDEF").getD (c >>> 4).toNat 0,
      (bytes "0123456789ABCDEF").getD (c &&& 15).toNat 0]

def escapeUrl (url : Bytes) : Bytes := escape url (bytes ":/@?=&#+")

def isHex (c : UInt8) : Bool := (48 ≤ c && c ≤ 57) || (97 ≤ c && c ≤ 102) || (65 ≤ c && c ≤ 70)

def hex2i (hex : UInt8) : UInt8 :=
  if hex ≤ 57 then hex - 48 else if hex ≤ 70 then hex - 65 + 10 else hex - 97 + 10

/-- The loop of `unescape`. Behind the end there is the terminator, which is no hexadecimal digit. -/
def unescapeLoop : Bytes → Bytes
  | [] => []
  | 37 :: a :: b :: p =>
    if isHex a && isHex b then ((hex2i a <<< 4) ||| hex2i b) :: unescapeLoop p
    else 37 :: unescapeLoop (a :: b :: p)
  | c :: p => (if c = 43 then 32 else c) :: unescapeLoop p

def unescape (str : Bytes) : Bytes := unescapeLoop (cStr str)

theorem cStr_append {s : Bytes} (h : 0 ∉ s) (t : Bytes) : cStr (s ++ t) = s ++ cStr t :=
  List.takeWhile_append_of_pos fun c hc => by
    rw [decide_eq_true_eq]
    exact fun hzero => h (hzero ▸ hc)

theorem cStr_eq {s : Bytes} (h : 0 ∉ s) : cStr s = s := by
  have hs := cStr_append h []
  rw [List.append_nil] at hs
  rw [hs]
  exact List.append_nil s

theorem not_mem_cStr (s : Bytes) : 0 ∉ cStr s := by
  intro hm
  have hall : (cStr s).all (· ≠ 0) = true := List.all_takeWhile
  exact absurd (List.all_eq_true.mp hall 0 hm) (by decide)

theorem nibbles (c : UInt8) : (c >>> 4).toNat = c.toNat / 16 ∧ (c &&& 15).toNat = c.toNat % 16 := by
  constructor
  · simp [UInt8.toNat_shiftRight, Nat.shiftRight_eq_div_pow]
  · rw [UInt8.toNat_and]
    exact Nat.and_two_pow_sub_one_eq_mod c.toNat 4

/-- The escaper is percent encoding with the unambiguous and the exempted bytes kept. -/
theorem escape_eq (str unescapedChars : Bytes) : escape str unescapedChars =
    Percent.encode (fun c => isUnambiguous c || charInStr c unescapedChars) (cStr str) := by
  unfold escape Percent.encode Percent.code Percent.hexDigit
  simp only [nibbles]

theorem decode_escapeUrl {s : Bytes} (h : 0 ∉ s) : Percent.decode (escapeUrl s) = some s := by
  rw [escapeUrl, escape_eq, cStr_eq h]
  exact Percent.decode_encode (by decide) s

/-- An exempted byte is in the escaped text exactly if it is in the text. -/
theorem mem_escapeUrl {s : Bytes} {c : UInt8} (h : 0 ∉ s)
    (hc : charInStr c (bytes ":/@?=&#+") = true) (hp : c ≠ 37) (hx : Percent.hexVal c = none) :
    c ∈ escapeUrl s ↔ c ∈ s := by
  rw [escapeUrl, escape_eq, cStr_eq h]
  constructor
  · intro hm
    by_contra hs
    exact Percent.not_mem_encode hs hp hx hm
  · exact fun hm => Percent.mem_encode (by simp [hc]) hm

/-- The digits of the decoder are those of percent encoding. -/
theorem hexVal_eq (c : UInt8) :
    Percent.hexVal c = if isHex c then some (hex2i c).toNat else none := by
  have hall : ∀ n < 256, Percent.hexVal (UInt8.ofNat n) =
      if isHex (UInt8.ofNat n) then some (hex2i (UInt8.ofNat n)).toNat else none := by
    decide +kernel
  have hc := hall c.toNat c.toNat_lt
  rwa [UInt8.ofNat_toNat] at hc

/-- Two digits are put together as the number they stand for. -/
theorem hex_pair {a b : UInt8} (ha : a.toNat < 16) (hb : b.toNat < 16) :
    (a <<< 4) ||| b = UInt8.ofNat (16 * a.toNat + b.toNat) := by
  have hall : ∀ m < 16, ∀ n < 16, (UInt8.ofNat m <<< 4) ||| UInt8.ofNat n =
      UInt8.ofNat (16 * m + n) := by decide +kernel
  have hab := hall a.toNat ha b.toNat hb
  rwa [UInt8.ofNat_toNat, UInt8.ofNat_toNat] at hab

theorem hex2i_lt {c : UInt8} (h : isHex c = true) : (hex2i c).toNat < 16 := by
  have hall : ∀ n < 256, isHex (UInt8.ofNat n) = true → (hex2i (UInt8.ofNat n)).toNat < 16 := by
    decide +kernel
  have hc := hall c.toNat c.toNat_lt
  rw [UInt8.ofNat_toNat] at hc
  exact hc h

theorem lax_hex {f : UInt8 → UInt8} {a b : UInt8} (s : Bytes) (h : (isHex a && isHex b) = true) :
    Percent.lax f (37 :: a :: b :: s) = ((hex2i a <<< 4) ||| hex2i b) :: Percent.lax f s := by
  obtain ⟨ha, hb⟩ := Bool.and_eq_true_iff.mp h
  rw [hex_pair (hex2i_lt ha) (hex2i_lt hb)]
  simp only [Percent.lax, hexVal_eq, ha, hb, if_true]

theorem lax_no_hex {f : UInt8 → UInt8} {a b : UInt8} (s : Bytes)
    (h : ¬ (isHex a && isHex b) = true) :
    Percent.lax f (37 :: a :: b :: s) = f 37 :: Percent.lax f (a :: b :: s) := by
  cases ha : isHex a with
  | false => simp only [Percent.lax, hexVal_eq, ha]; rfl
  | true =>
    have hb : ¬ isHex b = true := by simpa [ha] using h
    simp only [Percent.lax, hexVal_eq, ha, hb, if_true]; rfl

/-- A plus outside of the codes becomes a space. -/
theorem unescape_eq (s : Bytes) :
    unescape s = Percent.lax (fun c => if c = 43 then 32 else c) (cStr s) := by
  rw [unescape]
  induction cStr s using unescapeLoop.induct with
  | case1 => rfl
  | case2 a b p hhex ih => rw [unescapeLoop, if_pos hhex, ih, lax_hex p hhex]
  | case3 a b p hhex ih => rw [unescapeLoop, if_neg hhex, ih, lax_no_hex p hhex, if_neg (by decide)]
  | case4 c p hne ih => rw [unescapeLoop.eq_3 c p hne, Percent.lax.eq_3 _ c p hne, ih]

theorem unescape_encode {keep : UInt8 → Bool} (hkeep : keep 37 = false) (hplus : keep 43 = false)
    {s : Bytes} (h : 0 ∉ s) : unescape (Percent.encode keep s) = s := by
  rw [unescape_eq, cStr_eq (Percent.not_mem_encode h (by decide) (by decide))]
  refine Percent.lax_encode hkeep (fun c hc => ?_) s
  rw [if_neg]
  intro heq
  rw [heq, hplus] at hc
  cases hc

end CppPrivate.Url
