import CppPrivate.Lib.CBuffer
import CppPrivate.Lib.Machine
import CppPrivate.Url.Escape

/-! The functions of `StdStrUtils` that return a new C string. They allocate it for the worst case
and write into it without further tests. -/
namespace CppPrivate.Public.StdStrUtils
open Url (cStr isAlphanum isHex not_mem_cStr cStr_eq)

/-- The memory and the place that is written next. -/
abbrev Output := Cells UInt8 × Nat

def xdig (n : UInt8) : UInt8 := (bytes "0123456789ABCDEF").getD n.toNat 0

def plain (s : UInt8) : Bool :=
  s == 47 || s == 46 || s == 45 || s == 95 || s == 126 || !(128 ≤ s || s ≤ 32 || !isAlphanum s)

def htmlizeStep (out : Output) (s : UInt8) : Option Output := do
  if plain s then
    let res ← out.1.write out.2 [s]
    return (res, out.2 + 1)
  else
    let res ← out.1.write out.2 [37]
    let res ← res.write (out.2 + 1) [xdig (s / 16)]
    let res ← res.write (out.2 + 2) [xdig (s % 16)]
    return (res, out.2 + 3)

/-- The string that is returned; nothing where the behaviour is undefined. -/
def Htmlize (src : Bytes) : Option Bytes := do
  let (res, d) ← (cStr src).foldlM htmlizeStep (Cells.malloc ((cStr src).length * 3 + 1), 0)
  let res ← res.write d [0]
  res.cstring 0

def HEXTOI (arg : UInt8) : UInt8 :=
  if arg ≤ 57 then arg - 48 else (if 65 ≤ arg ∧ arg ≤ 90 then arg + 32 else arg) - 97 + 10

def deHtmlizeLoop : Bytes → Output → Option Output
  | [], out => some out
  | 37 :: a :: b :: s, out =>
    if isHex a && isHex b then
      (out.1.write out.2 [(HEXTOI a <<< 4) ||| HEXTOI b]).bind fun res =>
        deHtmlizeLoop s (res, out.2 + 1)
    else (out.1.write out.2 [37]).bind fun res => deHtmlizeLoop (a :: b :: s) (res, out.2 + 1)
  | c :: s, out => (out.1.write out.2 [c]).bind fun res => deHtmlizeLoop s (res, out.2 + 1)

def DeHtmlize (src : Bytes) : Option Bytes := do
  let (res, d) ← deHtmlizeLoop (cStr src) (Cells.malloc ((cStr src).length + 1), 0)
  let res ← res.write d [0]
  res.cstring 0

/-- The entity of a special character, and by how much `d` is advanced before the end of the
round. -/
def entity (c : UInt8) : Option (Bytes × Nat) :=
  if c = 60 then some (bytes "&lt;", 3)
  else if c = 62 then some (bytes "&gt;", 3)
  else if c = 34 then some (bytes "&quot;", 5)
  else if c = 38 then some (bytes "&amp;", 4)
  else none

/-- `strcpy` writes the terminator as well. -/
def escapingStep (out : Output) (p : UInt8) : Option Output :=
  match entity p with
  | some (text, k) => (out.1.write out.2 (text ++ [0])).map fun res => (res, out.2 + k + 1)
  | none => (out.1.write out.2 [p]).map fun res => (res, out.2 + 1)

/-- The number of special characters. It is an `int`, as is the product that is made of it; beyond
the largest one there is no result. -/
def specials (src : Bytes) : Option Nat :=
  let n := src.countP fun c => (entity c).isSome
  if n * 5 < 2 ^ 31 then some n else none

/-- `memcpy(res, src, olen + 1)` of a string with its terminator. A negative length is converted to
one beyond every string. -/
def copyAll (res : Cells UInt8) (src : Bytes) : Option (Cells UInt8) :=
  let olen := cInt src.length
  if 2 ^ 31 ≤ olen + 1 ∨ olen + 1 < 0 ∨ src.length + 1 < olen + 1 then none
  else res.write 0 ((src ++ [0]).take (olen + 1).toNat)

def HtmlEscaping (src : Bytes) : Option Bytes := do
  let s := cStr src
  let n ← specials s
  let res := Cells.malloc (s.length + 1 + n * 5)
  if n = 0 then
    let res ← copyAll res s
    res.cstring 0
  else
    let (res, d) ← s.foldlM escapingStep (res, 0)
    let res ← res.write d [0]
    res.cstring 0

variable {s : Bytes} {c : UInt8} {b : Cells UInt8} {acc : Bytes} {size : Nat}

/-- The digits are those of percent encoding. -/
theorem code_eq (c : UInt8) : Percent.code c = [37] ++ ([xdig (c / 16)] ++ [xdig (c % 16)]) := by
  rw [xdig, xdig, UInt8.toNat_div, UInt8.toNat_mod]
  rfl

theorem htmlizeStep_spec (hlen : b.length = size) (hb : b.Filled acc)
    (hroom : acc.length + 3 ≤ size) :
    ∃ b', htmlizeStep (b, acc.length) c =
        some (b', (acc ++ if plain c then [c] else Percent.code c).length) ∧
      b'.length = size ∧ b'.Filled (acc ++ if plain c then [c] else Percent.code c) := by
  subst hlen
  rw [htmlizeStep]
  split
  · obtain ⟨b₁, h₁, hlen₁, hfilled⟩ :=
      hb.write (t := [c]) (by simp only [List.length_singleton]; omega)
    refine ⟨b₁, ?_, hlen₁, hfilled⟩
    rw [h₁, List.length_append]
    rfl
  · obtain ⟨b₁, h₁, hlen₁, hb₁⟩ :=
      hb.write (t := [37]) (by simp only [List.length_singleton]; omega)
    obtain ⟨b₂, h₂, hlen₂, hb₂⟩ := hb₁.write (t := [xdig (c / 16)])
      (by simp only [List.length_append, List.length_singleton]; omega)
    obtain ⟨b₃, h₃, hlen₃, hb₃⟩ := hb₂.write (t := [xdig (c % 16)])
      (by simp only [List.length_append, List.length_singleton]; omega)
    simp only [List.length_append, List.length_singleton, Nat.add_assoc, Nat.reduceAdd] at h₂ h₃
    rw [List.append_assoc, List.append_assoc, ← code_eq] at hb₃
    refine ⟨b₃, ?_, hlen₃.trans (hlen₂.trans hlen₁), hb₃⟩
    simp only [h₁, h₂, h₃, Option.bind_eq_bind, Option.bind_some, List.length_append]
    rfl

/-- `Htmlize` is percent encoding, and the memory is always enough. -/
theorem Htmlize_eq (s : Bytes) : Htmlize s = some (Percent.encode plain (cStr s)) := by
  have hthree : ∀ c, (if plain c then [c] else Percent.code c).length ≤ 3 := by
    intro c
    split
    · exact Nat.le_add_left 1 2
    · exact Nat.le_refl 3
  have hlength : ∀ l : Bytes, (Percent.encode plain l).length ≤ l.length * 3 :=
    fun l => Cells.length_flatMap_le hthree
  obtain ⟨b, hpass, hlen, hfilled⟩ := @Cells.emits _ _ htmlizeStep _ (fun _ => 3)
    ((cStr s).length * 3 + 1) (cStr s)
    (fun b acc c => htmlizeStep_spec) (by
      intro pre c post hl
      have hle := hlength pre
      rw [hl, List.length_append, List.length_cons]
      rw [Percent.encode] at hle
      omega)
  have hzero : 0 ∉ Percent.encode plain (cStr s) :=
    Percent.not_mem_encode (not_mem_cStr s) (by decide) (by decide)
  have hle := hlength (cStr s)
  have hroom : (Percent.encode plain (cStr s)).length < b.length := by
    rw [hlen]
    omega
  have hfinish := Cells.Filled.finish 0 hfilled hroom
  simp only [Htmlize, hpass, Option.bind_eq_bind, Option.bind_some]
  exact hfinish.trans (congrArg some (cStr_eq hzero))

theorem HEXTOI_eq {c : UInt8} (h : isHex c = true) : HEXTOI c = Url.hex2i c := by
  have hall : ∀ n < 256, isHex (UInt8.ofNat n) = true →
      HEXTOI (UInt8.ofNat n) = Url.hex2i (UInt8.ofNat n) := by decide +kernel
  have hc := hall c.toNat c.toNat_lt
  rw [UInt8.ofNat_toNat] at hc
  exact hc h

/-- One byte is written, and the loop goes on behind it. -/
theorem put_then {out : Output} {rest : Bytes} (c : UInt8) (hd : out.2 = acc.length)
    (hlen : out.1.length = size) (hb : out.1.Filled acc) (hroom : acc.length + 1 ≤ size)
    (hrest : ∀ res : Cells UInt8, out.2 + 1 = (acc ++ [c]).length → res.length = size →
      res.Filled (acc ++ [c]) → ∃ b, deHtmlizeLoop rest (res, out.2 + 1) =
        some (b, (acc ++ [c] ++ Percent.lax id rest).length) ∧ b.length = size ∧
        b.Filled (acc ++ [c] ++ Percent.lax id rest)) :
    ∃ b, ((out.1.write out.2 [c]).bind fun res => deHtmlizeLoop rest (res, out.2 + 1)) =
        some (b, (acc ++ c :: Percent.lax id rest).length) ∧ b.length = size ∧
      b.Filled (acc ++ c :: Percent.lax id rest) := by
  obtain ⟨b₁, h₁, hlen₁, hb₁⟩ := hb.write (t := [c]) (by rw [hlen]; exact hroom)
  have hnext : out.2 + 1 = (acc ++ [c]).length := by
    rw [hd, List.length_append]
    rfl
  obtain ⟨b₂, h₂, hlen₂, hb₂⟩ := hrest b₁ hnext (hlen₁.trans hlen) hb₁
  rw [List.append_assoc, List.singleton_append] at h₂ hb₂
  refine ⟨b₂, ?_, hlen₂, hb₂⟩
  rw [← hd] at h₁
  rw [h₁, Option.bind_some, h₂]

/-- The rounds of the loop write the decoded bytes one behind the other. -/
theorem deHtmlizeLoop_spec {out : Output} (hd : out.2 = acc.length) (hlen : out.1.length = size)
    (hb : out.1.Filled acc) (hroom : acc.length + s.length ≤ size) :
    ∃ b, deHtmlizeLoop s out = some (b, (acc ++ Percent.lax id s).length) ∧ b.length = size ∧
      b.Filled (acc ++ Percent.lax id s) := by
  induction s, out using deHtmlizeLoop.induct generalizing acc with
  | case1 out =>
    refine ⟨out.1, ?_, hlen, ?_⟩
    · rw [deHtmlizeLoop, Percent.lax, List.append_nil, ← hd]
    · rw [Percent.lax, List.append_nil]
      exact hb
  | case2 x y s out hhex ih =>
    obtain ⟨hx, hy⟩ := Bool.and_eq_true_iff.mp hhex
    simp only [List.length_cons] at hroom
    rw [deHtmlizeLoop, if_pos hhex, Url.lax_hex s hhex, HEXTOI_eq hx, HEXTOI_eq hy]
    refine put_then _ hd hlen hb (by omega) fun res hnext hres hfilled => ?_
    refine ih res hnext hres hfilled ?_
    rw [List.length_append, List.length_singleton]
    omega
  | case3 x y s out hhex ih =>
    simp only [List.length_cons] at hroom
    rw [deHtmlizeLoop, if_neg hhex, Url.lax_no_hex s hhex]
    refine put_then _ hd hlen hb (by omega) fun res hnext hres hfilled => ?_
    refine ih res hnext hres hfilled ?_
    simp only [List.length_append, List.length_cons, List.length_nil]
    omega
  | case4 c s out hne ih =>
    simp only [List.length_cons] at hroom
    rw [deHtmlizeLoop.eq_3 out c s hne, Percent.lax.eq_3 id c s hne]
    refine put_then _ hd hlen hb (by omega) fun res hnext hres hfilled => ?_
    refine ih res hnext hres hfilled ?_
    rw [List.length_append, List.length_singleton]
    omega

/-- `DeHtmlize` decodes what the percent signs stand for, and the memory is always enough. A zero
that is decoded ends the string. -/
theorem DeHtmlize_eq (s : Bytes) : DeHtmlize s = some (cStr (Percent.lax id (cStr s))) := by
  obtain ⟨b, hloop, hlen, hfilled⟩ := @deHtmlizeLoop_spec (cStr s) [] ((cStr s).length + 1)
    (Cells.malloc ((cStr s).length + 1), 0) rfl List.length_replicate (Cells.filled_nil _) (by simp)
  rw [List.nil_append] at hloop hfilled
  have hle := Percent.length_lax_le id (cStr s)
  have hfinish := Cells.Filled.finish 0 hfilled (by rw [hlen]; omega)
  simp only [DeHtmlize, hloop, Option.bind_eq_bind, Option.bind_some]
  exact hfinish

/-- Each of the two decoders undoes each of the two encoders; and the C functions have a result for
every string, so that they keep to their memory. -/
theorem codecs_inverse (h : 0 ∉ s) :
    Url.unescape (Url.escape s []) = s ∧ (Htmlize s).bind DeHtmlize = some s ∧
      (Htmlize s).map Url.unescape = some s ∧ DeHtmlize (Url.escape s []) = some s ∧
      ∀ t, (Htmlize t).isSome ∧ (DeHtmlize t).isSome := by
  have hescape : ∀ keep : UInt8 → Bool, 0 ∉ Percent.encode keep s :=
    fun keep => Percent.not_mem_encode h (by decide) (by decide)
  have hlax : ∀ keep : UInt8 → Bool, keep 37 = false →
      DeHtmlize (Percent.encode keep s) = some s := by
    intro keep hkeep
    have hdecode : Percent.lax id (Percent.encode keep s) = s :=
      Percent.lax_encode hkeep (fun _ _ => rfl) s
    rw [DeHtmlize_eq, cStr_eq (hescape keep), hdecode, cStr_eq h]
  rw [Url.escape_eq, Htmlize_eq, cStr_eq h]
  refine ⟨?_, ?_, ?_, ?_, ?_⟩
  · exact Url.unescape_encode (by decide) (by decide) h
  · exact hlax plain (by decide)
  · exact congrArg some (Url.unescape_encode (by decide) (by decide) h)
  · exact hlax _ (by decide)
  · intro t
    rw [Htmlize_eq, DeHtmlize_eq]
    exact ⟨rfl, rfl⟩

theorem codecs_inverse_percent :
    Url.unescape (Url.escape (bytes "%41+ /") []) = bytes "%41+ /" ∧
      (Htmlize (bytes "%41+ /")).map Url.unescape = some (bytes "%41+ /") := by
  obtain ⟨hescape, -, hmixed, -, -⟩ := codecs_inverse (s := bytes "%41+ /") (by decide)
  exact ⟨hescape, hmixed⟩

/-- What the text of `HtmlEscaping` has to have for a byte. -/
def entityText (c : UInt8) : Bytes :=
  match entity c with
  | some (text, _) => text
  | none => [c]

def decodeEntities : Bytes → Bytes
  | 38 :: 108 :: 116 :: 59 :: s => 60 :: decodeEntities s
  | 38 :: 103 :: 116 :: 59 :: s => 62 :: decodeEntities s
  | 38 :: 113 :: 117 :: 111 :: 116 :: 59 :: s => 34 :: decodeEntities s
  | 38 :: 97 :: 109 :: 112 :: 59 :: s => 38 :: decodeEntities s
  | c :: s => c :: decodeEntities s
  | [] => []

def isSpecial (c : UInt8) : Bool := (entity c).isSome

/-- An entity is no longer than five bytes more than its character, and `d` comes to its end. -/
theorem entity_spec {text : Bytes} {k : Nat} (h : entity c = some (text, k)) :
    text.length = k + 1 ∧ k ≤ 5 ∧ 0 ∉ text ∧
      ∀ t, decodeEntities (text ++ t) = c :: decodeEntities t := by
  rw [entity] at h
  split at h
  · rename_i hc
    cases h
    exact ⟨rfl, by decide, by decide, fun t => hc ▸ decodeEntities.eq_1 t⟩
  · split at h
    · rename_i hc
      cases h
      exact ⟨rfl, by decide, by decide, fun t => hc ▸ decodeEntities.eq_2 t⟩
    · split at h
      · rename_i hc
        cases h
        exact ⟨rfl, by decide, by decide, fun t => hc ▸ decodeEntities.eq_3 t⟩
      · obtain ⟨hc, rfl, rfl⟩ : c = 38 ∧ _ ∧ _ := by simpa using h
        exact ⟨rfl, by decide, by decide, fun t => hc ▸ decodeEntities.eq_4 t⟩

theorem decode_entityText (c : UInt8) (t : Bytes) :
    decodeEntities (entityText c ++ t) = c :: decodeEntities t := by
  rw [entityText]
  split
  · rename_i text k hc
    exact (entity_spec hc).2.2.2 t
  · rename_i hc
    have hne : c ≠ 38 := by
      intro heq
      rw [heq] at hc
      cases hc
    exact decodeEntities.eq_5 c t (fun _ h => absurd h hne) (fun _ h => absurd h hne)
      (fun _ h => absurd h hne) (fun _ h => absurd h hne)

/-- Decoding restores the text. -/
theorem decode_flatMap (s : Bytes) : decodeEntities (s.flatMap entityText) = s := by
  induction s with
  | nil => rfl
  | cons c s ih => rw [List.flatMap_cons, decode_entityText, ih]

theorem not_mem_entities (h : 0 ∉ s) : 0 ∉ s.flatMap entityText := by
  intro hmem
  obtain ⟨c, hc, h0⟩ := List.mem_flatMap.mp hmem
  rw [entityText] at h0
  split at h0
  · rename_i text k htext
    exact (entity_spec htext).2.2.1 h0
  · rw [List.mem_singleton] at h0
    exact h (h0 ▸ hc)

theorem length_entities_le (s : Bytes) :
    (s.flatMap entityText).length ≤ s.length + s.countP isSpecial * 5 := by
  induction s with
  | nil => exact Nat.le_refl 0
  | cons c s ih =>
    rw [List.flatMap_cons, List.length_append, List.length_cons, List.countP_cons, entityText,
      isSpecial]
    cases hc : entity c with
    | none =>
      simp only [Option.isSome_none, Bool.false_eq_true, if_false, List.length_singleton]
      omega
    | some e =>
      obtain ⟨hlen, hle, -⟩ := entity_spec hc
      simp only [Option.isSome_some, if_true]
      omega

/-- The terminator of one entity is overwritten by what comes next. -/
theorem escapingStep_spec (hlen : b.length = size) (hb : b.Filled acc)
    (hroom : acc.length + ((entityText c).length + 1) ≤ size) :
    ∃ b', escapingStep (b, acc.length) c = some (b', (acc ++ entityText c).length) ∧
      b'.length = size ∧ b'.Filled (acc ++ entityText c) := by
  subst hlen
  unfold escapingStep entityText at *
  split
  · rename_i text k hc
    simp only [hc] at hroom
    obtain ⟨b₁, h₁, hlen₁, hb₁⟩ := hb.write (t := text ++ [0])
      (by rw [List.length_append, List.length_singleton]; exact hroom)
    rw [← List.append_assoc] at hb₁
    refine ⟨b₁, ?_, hlen₁, hb₁.of_append⟩
    rw [h₁, List.length_append, (entity_spec hc).1]
    rfl
  · rename_i hc
    simp only [hc, List.length_singleton] at hroom
    obtain ⟨b₁, h₁, hlen₁, hb₁⟩ := hb.write (t := [c])
      (by rw [List.length_singleton]; omega)
    refine ⟨b₁, ?_, hlen₁, hb₁⟩
    rw [h₁, List.length_append]
    rfl

theorem specials_eq (s : Bytes) : specials s =
    if s.countP isSpecial * 5 < 2 ^ 31 then some (s.countP isSpecial) else none := rfl

/-- With special characters the memory is enough for every entity and its terminator. -/
theorem HtmlEscaping_entities (h : 0 ∉ s) (hsome : s.countP isSpecial ≠ 0)
    (hcount : s.countP isSpecial * 5 < 2 ^ 31) :
    HtmlEscaping s = some (s.flatMap entityText) := by
  obtain ⟨b, hpass, hlen, hfilled⟩ := @Cells.emits _ _ escapingStep entityText
    (fun c => (entityText c).length + 1) (s.length + 1 + s.countP isSpecial * 5) s
    (fun b acc c => escapingStep_spec) (by
      intro pre c post hl
      have hle := length_entities_le (pre ++ [c])
      have hsub : pre ++ [c] <+: s := ⟨post, by rw [hl, List.append_assoc]; rfl⟩
      have hcount := hsub.sublist.countP_le (p := isSpecial)
      have hlength := hsub.length_le
      rw [List.flatMap_append, List.length_append, List.flatMap_singleton] at hle
      omega)
  have hle := length_entities_le s
  have hfinish := Cells.Filled.finish 0 hfilled (by rw [hlen]; omega)
  simp only [HtmlEscaping, cStr_eq h, specials_eq, if_pos hcount, if_neg hsome, hpass,
    Option.bind_eq_bind, Option.bind_some]
  exact hfinish.trans (congrArg some (cStr_eq (not_mem_entities h)))

theorem flatMap_eq_self (hnone : s.countP isSpecial = 0) : s.flatMap entityText = s := by
  induction s with
  | nil => rfl
  | cons c s ih =>
    rw [List.countP_cons] at hnone
    have hc : isSpecial c = false := by
      by_contra htrue
      rw [Bool.not_eq_false] at htrue
      rw [htrue] at hnone
      simp at hnone
    have hentity : entity c = none := by
      rw [← Option.not_isSome_iff_eq_none]
      exact Bool.eq_false_iff.mp hc
    rw [List.flatMap_cons, ih (by omega), entityText, hentity]
    rfl

/-- The block behind the copy of `t`. -/
theorem write_malloc {t : Bytes} {n : Nat} (h : t.length ≤ n) :
    (Cells.malloc n).write 0 t = some (t.map some ++ Cells.malloc (n - t.length)) := by
  unfold Cells.write Cells.malloc
  rw [if_pos (by rw [List.length_replicate]; omega), Vec.overlay, List.take_zero, List.nil_append,
    List.drop_replicate, Nat.zero_add]

/-- The copy without special characters is whole as long as the length fits an `int`. -/
theorem copyAll_iff (h : 0 ∉ s) :
    (copyAll (Cells.malloc (s.length + 1)) s).bind (Cells.cstring 0) = some s ↔
      s.length + 1 < 2 ^ 31 := by
  constructor
  · intro hcopy
    by_contra hlong
    have hlt := cInt_lt s.length
    simp only [copyAll] at hcopy
    split at hcopy
    · cases hcopy
    · rename_i hlen
      simp only [not_or, Int.not_le, Int.not_lt] at hlen
      have hpre : (s ++ [0]).take (cInt s.length + 1).toNat =
          s.take (cInt s.length + 1).toNat := List.take_append_of_le_length (by omega)
      have hfree : 0 ∉ s.take (cInt s.length + 1).toNat := fun hmem => h (List.mem_of_mem_take hmem)
      rw [hpre, write_malloc (by rw [List.length_take]; omega), Option.bind_some,
        Cells.cstring_eq_none hfree] at hcopy
      cases hcopy
  · intro hshort
    have hlen := cInt_of_lt (n := s.length) (by omega)
    have hall : (s ++ [0]).take (cInt s.length + 1).toNat = s ++ [0] := by
      refine List.take_of_length_le ?_
      rw [hlen, List.length_append]
      exact Nat.le_refl _
    simp only [copyAll]
    rw [hall, if_neg (by rw [hlen]; omega), write_malloc (by simp)]
    have hfilled : Cells.Filled ((s ++ [0]).map some ++
        Cells.malloc (s.length + 1 - (s ++ [0]).length)) (s ++ [0]) := by
      rw [Cells.Filled]
      rw [← @List.length_map _ _ (s ++ [0]) some, List.take_left]
    exact (Cells.cstring_of_filled hfilled).trans (congrArg some (cStr_eq h))

theorem HtmlEscaping_plain (h : 0 ∉ s) (hnone : s.countP isSpecial = 0) :
    HtmlEscaping s = (copyAll (Cells.malloc (s.length + 1)) s).bind (Cells.cstring 0) := by
  have hzero : specials s = some 0 := by
    rw [specials_eq, hnone, Nat.zero_mul, if_pos (Nat.two_pow_pos 31)]
  have hsize : s.length + 1 + 0 * 5 = s.length + 1 := rfl
  rw [HtmlEscaping]
  rw [cStr_eq h]
  dsimp only
  rw [hzero, Option.bind_eq_bind, Option.bind_some, if_pos rfl, hsize]
  rfl

theorem HtmlEscaping_iff (h : 0 ∉ s) :
    HtmlEscaping s = some (s.flatMap entityText) ↔
      if s.countP isSpecial = 0 then s.length + 1 < 2 ^ 31
      else s.countP isSpecial * 5 < 2 ^ 31 := by
  split
  · rename_i hnone
    rw [flatMap_eq_self hnone, HtmlEscaping_plain h hnone]
    exact copyAll_iff h
  · rename_i hsome
    constructor
    · intro heq
      by_contra hmany
      simp only [HtmlEscaping, cStr_eq h, specials_eq, if_neg hmany, Option.bind_eq_bind,
        Option.bind_none] at heq
      cases heq
    · exact HtmlEscaping_entities h hsome

/-- Every special character is replaced by its entity, within the memory, up to the lengths and
the counts that an `int` can hold. -/
theorem escapes_iff (h : 0 ∉ s) :
    (HtmlEscaping s = some (s.flatMap entityText) ∧ decodeEntities (s.flatMap entityText) = s) ↔
      if s.countP isSpecial = 0 then s.length + 1 < 2 ^ 31
      else s.countP isSpecial * 5 < 2 ^ 31 := by
  rw [← HtmlEscaping_iff h]
  exact and_iff_left (decode_flatMap s)

theorem escapes_tag :
    HtmlEscaping (bytes "<a&b>") = some ((bytes "<a&b>").flatMap entityText) ∧
      (bytes "<a&b>").flatMap entityText = bytes "&lt;a&amp;b&gt;" :=
  ⟨((escapes_iff (s := bytes "<a&b>") (by decide)).mpr (by decide)).1, by decide⟩

theorem HtmlEscaping_replicate (n : Nat) (h : HtmlEscaping (List.replicate n 97) =
    some ((List.replicate n 97).flatMap entityText)) : n + 1 < 2 ^ 31 := by
  have hfree : 0 ∉ List.replicate n (97 : UInt8) := by
    rw [List.mem_replicate]
    exact fun hmem => absurd hmem.2 (by decide)
  have hplain : isSpecial 97 = false := rfl
  have hshort := (HtmlEscaping_iff hfree).mp h
  rw [List.countP_replicate, hplain, if_neg Bool.false_ne_true, if_pos rfl,
    List.length_replicate] at hshort
  exact hshort

/-- A text of `2^31 - 1` bytes is too long for `olen + 1`. -/
theorem not_escapes : ¬ ∀ s : Bytes, 0 ∉ s →
    HtmlEscaping s = some (s.flatMap entityText) ∧ decodeEntities (s.flatMap entityText) = s := by
  intro hall
  have hlong := HtmlEscaping_replicate (2 ^ 31 - 1) (hall _ (by
    rw [List.mem_replicate]
    exact fun hmem => absurd hmem.2 (by decide))).1
  exact absurd hlong (by decide)

end CppPrivate.Public.StdStrUtils
