import CppPrivate.Lib.Digits
import CppPrivate.Public.Strptime

/-! Texts that are read back in the format they were written in: which of the directives keep to
themselves, and which depend on those before them and on the text behind them. -/
namespace CppPrivate.Public.Strptime
open CppPrivate.Calendar

inductive Directive where
  | Y | C | y | m | d | H | I | p | M | S
deriving DecidableEq

namespace Directive

def letter : Directive → UInt8
  | Y => 89
  | C => 67
  | y => 121
  | m => 109
  | d => 100
  | H => 72
  | I => 73
  | p => 112
  | M => 77
  | S => 83

/-- The number a directive stands for; none for `%p`. -/
def amount (c : DateTime) : Directive → Int
  | Y => c.date.year
  | C => c.date.year / 100
  | y => c.date.year % 100
  | m => c.date.month + 1
  | d => c.date.day
  | H => c.hour
  | I => (c.hour + 11) % 12 + 1
  | M => c.minute
  | S => c.second
  | p => 0

def value (c : DateTime) (directive : Directive) : Nat := (directive.amount c).toNat

/-- The digits it is written with. The year has `w` of them, enough for it and four at most. -/
def width (w : Nat) : Directive → Nat
  | Y => w
  | _ => 2

def text (w : Nat) (c : DateTime) : Directive → Bytes
  | p => if c.hour < 12 then bytes "AM" else bytes "PM"
  | directive => fixed (directive.width w) (directive.value c)

def llim : Directive → Nat
  | m | d | I => 1
  | _ => 0

def ulim : Directive → Nat
  | Y => 9999
  | C | y => 99
  | m | I => 12
  | d => 31
  | H => 23
  | M => 59
  | S => 61
  | p => 0

def store : Directive → Int → Scan → Scan
  | Y => Strptime.store fun i tm => { tm with tm_year := i - TM_YEAR_BASE }
  | C => storeCentury
  | y => storeYear
  | m => Strptime.store fun i tm => { tm with tm_mon := i - 1 }
  | d => Strptime.store fun i tm => { tm with tm_mday := i }
  | H => Strptime.store fun i tm => { tm with tm_hour := i }
  | I => Strptime.store storeHour12
  | M => Strptime.store fun i tm => { tm with tm_min := i }
  | S => Strptime.store fun i tm => { tm with tm_sec := i }
  | p => fun _ s => s

end Directive

abbrev Item := Directive × Bytes

def isPunct (b : UInt8) : Bool :=
  (33 ≤ b && b ≤ 47) || (58 ≤ b && b ≤ 64) || (91 ≤ b && b ≤ 96) || (123 ≤ b && b ≤ 126)

theorem isPunct_plain {b : UInt8} (h : isPunct b = true) :
    Http.isspace b = false ∧ isDigit b = false := by
  simp only [isPunct, Bool.or_eq_true, Bool.and_eq_true, decide_eq_true_eq,
    UInt8.le_iff_toNat_le] at h
  simp only [Http.isspace, isDigit, Bool.or_eq_false_iff, Bool.and_eq_false_iff, beq_eq_false_iff_ne,
    decide_eq_false_iff_not, ne_eq, ← UInt8.toNat_inj, UInt8.le_iff_toNat_le]
  simp only [UInt8.reduceToNat] at h ⊢
  omega

/-- A text in a format, where `%` is written twice. -/
def escape (sep : Bytes) : Bytes := sep.flatMap fun b => if b = 37 then [37, 37] else [b]

def formatText (items : List Item) : Bytes :=
  items.flatMap fun it => 37 :: it.1.letter :: escape it.2

def dateText (w : Nat) (c : DateTime) (items : List Item) : Bytes :=
  items.flatMap fun it => it.1.text w c ++ it.2

/-- What a directive does to what has been stored; `%p` is accepted at the end of the text only, and in
the first half of the day as it is stored. -/
def Directive.effect (c : DateTime) (last : Bool) : Directive → Scan → Option Scan
  | p, s =>
    if last = true ∧ s.tm.tm_hour ≤ 11 then
      some { s with tm := { s.tm with
        tm_hour := if c.hour < 12 then s.tm.tm_hour else s.tm.tm_hour + 12 } }
    else none
  | directive, s => some (directive.store (directive.value c) s)

def effects (c : DateTime) : List Item → Scan → Option Scan
  | [], s => some s
  | it :: items, s =>
    (it.1.effect c (decide (it.2 = [] ∧ items = [])) s).bind (effects c items)

/-- Between two directives there is punctuation. -/
def Separated : List Item → Prop
  | [] => True
  | it :: items => (∀ b ∈ it.2, isPunct b = true) ∧ (items ≠ [] → it.2 ≠ []) ∧ Separated items

instance decidableSeparated : DecidablePred Separated
  | [] => isTrue trivial
  | it :: items =>
    have := decidableSeparated items
    decidable_of_iff (it.2.all isPunct = true ∧ (items ≠ [] → it.2 ≠ []) ∧ Separated items)
      (and_congr_left' List.all_eq_true)

/-- A date of the years 0 to 9999, and digits enough for its year. -/
structure Dated (w : Nat) (c : DateTime) : Prop where
  valid : c.Valid
  year : 0 ≤ c.date.year ∧ c.date.year ≤ 9999
  width : 1 ≤ w ∧ w ≤ 4
  digits : c.date.year < 10 ^ w

section Numbers
variable {ulim llim r q : Nat} {ds rest : Bytes}

/-- The text does not go on with a digit. -/
def NoDigit (rest : Bytes) : Prop := ∀ c ∈ rest.head?, isDigit c = false

theorem convLoop_rest (hrest : NoDigit rest) (r q : Nat) : convLoop ulim rest r q = (r, rest) := by
  cases rest with
  | nil => rfl
  | cons c rest =>
    have hc : isDigit c = false := hrest c rfl
    rw [convLoop, if_neg (by simp [hc])]

/-- The loop reads all digits, as long as the number and their count keep to the limit. -/
theorem convLoop_eq (hds : ∀ c ∈ ds, isDigit c = true) (hrest : NoDigit rest)
    (hval : readOn r ds ≤ ulim) (hq : 10 ^ ds.length ≤ q * 10 + 9) :
    convLoop ulim (ds ++ rest) r q = (readOn r ds, rest) := by
  induction ds generalizing r q with
  | nil => exact convLoop_rest hrest r q
  | cons c ds ih =>
    obtain ⟨hc, hds⟩ := List.forall_mem_cons.mp hds
    have hstep : readOn r (c :: ds) = readOn (r * 10 + (c.toNat - 48)) ds := rfl
    have hle := le_readOn (r * 10 + (c.toNat - 48)) ds
    have hpos : 0 < 10 ^ ds.length := Nat.pow_pos (by decide)
    rw [hstep] at hval ⊢
    rw [List.length_cons, Nat.pow_succ] at hq
    rw [List.cons_append, convLoop, if_pos ⟨by omega, by omega, hc⟩]
    exact ih hds hval (by omega)

/-- A number that is written with digits enough is read back. -/
theorem conv_num_fixed {n w : Nat} (hw : w ≠ 0) (hn : n < 10 ^ w) (hdigits : 10 ^ (w - 1) ≤ ulim)
    (hlow : llim ≤ n) (hhigh : n ≤ ulim) (hrest : NoDigit rest) :
    conv_num (fixed w n ++ rest) llim ulim = some (n, rest) := by
  have hread := readOn_fixed hn
  have hlen := length_fixed w n
  have hdigit := isDigit_fixed w n
  cases hfixed : fixed w n with
  | nil =>
    rw [hfixed] at hlen
    exact absurd hlen.symm hw
  | cons c ds =>
    rw [hfixed] at hread hlen hdigit
    obtain ⟨hc, hds⟩ := List.forall_mem_cons.mp hdigit
    have hstep : readOn 0 (c :: ds) = readOn (c.toNat - 48) ds := by
      rw [readOn, List.foldl_cons, Nat.zero_mul, Nat.zero_add, readOn]
    have hlength : ds.length = w - 1 := by
      rw [List.length_cons] at hlen
      omega
    rw [hstep] at hread
    have hloop : convLoop ulim (ds ++ rest) (c.toNat - 48) (ulim / 10) = (n, rest) := by
      rw [convLoop_eq hds hrest (by omega) (by rw [hlength]; omega), hread]
    simp only [List.cons_append, conv_num, hc, if_true, hloop]
    rw [if_neg (by omega)]

end Numbers

structure Directive.Fits (w : Nat) (c : DateTime) (directive : Directive) : Prop where
  width : directive.width w ≠ 0
  digits : directive.value c < 10 ^ directive.width w
  limit : 10 ^ (directive.width w - 1) ≤ directive.ulim
  low : directive.llim ≤ directive.value c
  high : directive.value c ≤ directive.ulim

section Scanning
variable {nested : Parser} {w : Nat} {c : DateTime} {directive : Directive} {items : List Item}
  {sep rest : Bytes} {s : Scan}

theorem pow_le_ulim (h : w ≤ 4) : 10 ^ (w - 1) ≤ Directive.Y.ulim := by
  have hpow : 10 ^ (w - 1) ≤ 10 ^ 3 := Nat.pow_le_pow_right (by decide) (by omega)
  exact hpow.trans (by decide)

theorem Dated.fits (h : Dated w c) (hp : directive ≠ .p) : directive.Fits w c := by
  obtain ⟨l, hl, hday⟩ := h.valid.date
  have hlength := monthLengths_range _ l (List.mem_of_getElem? hl)
  have hmonth := h.valid.date.month_le
  have hyear := h.year
  have hhour := h.valid.hour
  have hminute := h.valid.minute
  have hsecond := h.valid.second
  cases directive with
  | p => exact absurd rfl hp
  | Y =>
    have hw := h.width
    have hdigits := h.digits
    refine ⟨by change w ≠ 0; omega, ?_, pow_le_ulim h.width.2, Nat.zero_le _, ?_⟩
    · change c.date.year.toNat < 10 ^ w
      have hcast : ((10 ^ w : Nat) : Int) = 10 ^ w := by simp
      omega
    · change c.date.year.toNat ≤ 9999
      omega
  | C | y | m | d | H | I | M | S =>
    constructor
    all_goals
      simp only [Directive.value, Directive.amount, Directive.width, Directive.llim, Directive.ulim]
      omega

theorem Dated.value_eq (h : Dated w c) (directive : Directive) :
    (directive.value c : Int) = directive.amount c := by
  obtain ⟨l, -, hday⟩ := h.valid.date
  have hyear := h.year
  have hhour := h.valid.hour
  have hminute := h.valid.minute
  have hsecond := h.valid.second
  apply Int.toNat_of_nonneg
  cases directive <;> simp only [Directive.amount] <;> omega

/-- A number is read, up to the text behind it. -/
theorem convert_number (h : directive.Fits w c) (hp : directive ≠ .p) (hrest : NoDigit rest)
    (hs : s.bp = directive.text w c ++ rest) :
    convert nested 0 directive.letter s =
      .ok (directive.store (directive.value c) { s with bp := rest }) := by
  have hconvert : convert nested 0 directive.letter s =
      number directive.llim directive.ulim directive.store s := by
    cases directive <;> first | rfl | exact absurd rfl hp
  have htext : directive.text w c = fixed (directive.width w) (directive.value c) := by
    cases directive <;> first | rfl | exact absurd rfl hp
  rw [hconvert, number, hs, htext,
    conv_num_fixed h.width h.digits h.limit h.low h.high hrest]

theorem text_ne_nil (h : Dated w c) : directive.text w c ≠ [] := by
  intro hnil
  by_cases hp : directive = .p
  · subst hp
    rw [Directive.text] at hnil
    split at hnil
    · cases hnil
    · cases hnil
  · have htext : directive.text w c = fixed (directive.width w) (directive.value c) := by
      cases directive <;> first | rfl | exact absurd rfl hp
    have hlen := length_fixed (directive.width w) (directive.value c)
    rw [← htext, hnil] at hlen
    exact (h.fits hp).width hlen.symm

/-- `%p` is read at the end of the text. -/
theorem convert_p (hs : s.bp = Directive.p.text w c ++ rest) :
    (convert nested 0 Directive.p.letter s).toOption =
      Directive.p.effect c (decide (rest = [])) { s with bp := rest } := by
  have hconvert : convert nested 0 Directive.p.letter s = amPm s := rfl
  have ham : bytes "AM" = [65, 77] := rfl
  have hpm : bytes "PM" = [80, 77] := rfl
  rw [hconvert, amPm, hs, Directive.text, Directive.effect, ham, hpm]
  cases rest with
  | nil =>
    by_cases hhour : s.tm.tm_hour ≤ 11
    · have hnot : ¬ s.tm.tm_hour > 11 := by omega
      by_cases hmorning : c.hour < 12
      · simp [hmorning, hhour, hnot, Except.toOption]
      · simp [hmorning, hhour, hnot, Except.toOption]
    · have hlate : s.tm.tm_hour > 11 := by omega
      by_cases hmorning : c.hour < 12
      · simp [hmorning, hhour, hlate, Except.toOption]
      · simp [hmorning, hhour, hlate, Except.toOption]
  | cons b rest =>
    by_cases hmorning : c.hour < 12
    · simp [hmorning, Except.toOption]
    · simp [hmorning, Except.toOption]

theorem literal_cons {b : UInt8} {bp : Bytes} (hs : s.bp = b :: bp) :
    literal b s = .ok { s with bp := bp } := by
  simp [literal, hs]

/-- Punctuation stands for itself. -/
theorem scan_escape {fmt : Bytes} (h : ∀ b ∈ sep, isPunct b = true) (hs : s.bp = sep ++ rest) :
    scan nested none (escape sep ++ fmt) s = scan nested none fmt { s with bp := rest } := by
  induction sep generalizing s with
  | nil =>
    cases s
    cases hs
    rfl
  | cons b sep ih =>
    obtain ⟨hb, hsep⟩ := List.forall_mem_cons.mp h
    have hread := literal_cons hs
    have hrest := ih hsep (s := { s with bp := sep ++ rest }) rfl
    by_cases hpercent : b = 37
    · subst hpercent
      change literal 37 s >>= scan nested none (escape sep ++ fmt) = _
      rw [hread]
      exact hrest
    · have hspace := (isPunct_plain hb).1
      have hescape : escape (b :: sep) ++ fmt = b :: (escape sep ++ fmt) := by
        simp [escape, hpercent]
      rw [hescape, scan, if_neg (by simp [hspace]), if_pos hpercent, hread]
      exact hrest

theorem scan_directive (fmt : Bytes) (s : Scan) :
    scan nested none (37 :: directive.letter :: fmt) s =
      convert nested 0 directive.letter s >>= scan nested none fmt := by
  cases directive <;> rfl

/-- A directive is read as what it does. -/
theorem convert_effect (h : Dated w c) (hrest : NoDigit rest) (hs : s.bp = directive.text w c ++ rest) :
    (convert nested 0 directive.letter s).toOption =
      directive.effect c (decide (rest = [])) { s with bp := rest } := by
  by_cases hp : directive = .p
  · subst hp
    exact convert_p hs
  · rw [convert_number (h.fits hp) hp hrest hs]
    cases directive <;> first | rfl | exact absurd rfl hp

/-- That does not depend on the text behind it. -/
theorem effect_bp (last : Bool) (s : Scan) : directive.effect c last { s with bp := rest } =
    (directive.effect c last { s with bp := [] }).map fun s => { s with bp := rest } := by
  cases directive with
  | p =>
    simp only [Directive.effect]
    split
    · rfl
    · rfl
  | C =>
    simp only [Directive.effect, Directive.store, storeCentury, Option.map_some]
    split
    · rfl
    · rfl
  | y =>
    simp only [Directive.effect, Directive.store, storeYear, Option.map_some]
    split
    · rfl
    · split
      · rfl
      · rfl
  | Y | m | d | H | I | M | S => rfl

theorem effect_keeps {last : Bool} {s' : Scan} (h : directive.effect c last s = some s') :
    s'.bp = s.bp := by
  have hmap : directive.effect c last s =
      (directive.effect c last { s with bp := [] }).map fun t => { t with bp := s.bp } :=
    effect_bp last s
  rw [h] at hmap
  obtain ⟨t, -, rfl⟩ := Option.map_eq_some_iff.mp hmap.symm
  rfl

theorem noDigit_append (hsep : ∀ b ∈ sep, isPunct b = true) (h : sep = [] → NoDigit rest) :
    NoDigit (sep ++ rest) := by
  cases sep with
  | nil => exact h rfl
  | cons b sep =>
    intro b' hb'
    obtain rfl := Option.some.inj hb'
    exact (isPunct_plain (hsep b List.mem_cons_self)).2

theorem dateText_eq_nil (h : Dated w c) : dateText w c items = [] ↔ items = [] := by
  cases items with
  | nil => simp [dateText]
  | cons it items =>
    have hne : it.1.text w c ≠ [] := text_ne_nil h
    simp [dateText, hne]

theorem toOption_bind {ε α β : Type} (x : Except ε α) (f : α → Except ε β) :
    (x >>= f).toOption = x.toOption.bind fun a => (f a).toOption := by
  cases x with
  | error e => rfl
  | ok a => rfl

/-- The whole text is read as what its directives do, one after the other. -/
theorem scan_items (h : Dated w c) (hsep : Separated items) (hs : s.bp = dateText w c items) :
    (scan nested none (formatText items) s).toOption = effects c items { s with bp := [] } := by
  induction items generalizing s with
  | nil =>
    cases s
    cases hs
    rfl
  | cons it items ih =>
    obtain ⟨directive, sep⟩ := it
    obtain ⟨hpunct, hbetween, hitems⟩ := hsep
    have htext : s.bp = directive.text w c ++ (sep ++ dateText w c items) := by
      rw [hs, dateText, List.flatMap_cons, List.append_assoc]
      rfl
    have hformat : formatText ((directive, sep) :: items) =
        37 :: directive.letter :: (escape sep ++ formatText items) := List.flatMap_cons
    have hrest : NoDigit (sep ++ dateText w c items) := by
      refine noDigit_append hpunct fun hnil => ?_
      have hlast : items = [] := by
        by_contra hne
        exact hbetween hne hnil
      rw [(dateText_eq_nil h).mpr hlast]
      intro b hb
      cases hb
    have hlast : decide (sep ++ dateText w c items = []) = decide (sep = [] ∧ items = []) := by
      rw [decide_eq_decide, List.append_eq_nil_iff, dateText_eq_nil h]
    rw [hformat, scan_directive, toOption_bind, convert_effect h hrest htext, hlast, effect_bp,
      effects]
    cases heffect : directive.effect c (decide (sep = [] ∧ items = [])) { s with bp := [] } with
    | none => rfl
    | some s' =>
      have hread : (scan nested none (escape sep ++ formatText items)
          { s' with bp := sep ++ dateText w c items }) =
            scan nested none (formatText items) { s' with bp := dateText w c items } :=
        scan_escape hpunct rfl
      have hbp : s'.bp = [] := effect_keeps heffect
      rw [Option.map_some, Option.bind_some, Option.bind_some, hread, ih hitems rfl, ← hbp]

end Scanning

end CppPrivate.Public.Strptime
