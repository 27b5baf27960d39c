import CppPrivate.Http.UrlParser
import CppPrivate.Public.Localtime

/-! `CTime::strptime`: a text is read as the format says, and what is read is stored in a `Tm`. -/
namespace CppPrivate.Public.Strptime
open Http

def TM_YEAR_BASE : Int := 1900

def ALT_E : Nat := 1

def ALT_O : Nat := 2

/-- `day` with `abday`. -/
def day : List (Bytes × Bytes) :=
  [(bytes "Sunday", bytes "Sun"), (bytes "Monday", bytes "Mon"), (bytes "Tuesday", bytes "Tue"),
    (bytes "Wednesday", bytes "Wed"), (bytes "Thursday", bytes "Thu"), (bytes "Friday", bytes "Fri"),
    (bytes "Saturday", bytes "Sat")]

/-- `mon` with `abmon`. -/
def mon : List (Bytes × Bytes) :=
  [(bytes "January", bytes "Jan"), (bytes "February", bytes "Feb"), (bytes "March", bytes "Mar"),
    (bytes "April", bytes "Apr"), (bytes "May", bytes "May"), (bytes "June", bytes "Jun"),
    (bytes "July", bytes "Jul"), (bytes "August", bytes "Aug"), (bytes "September", bytes "Sep"),
    (bytes "October", bytes "Oct"), (bytes "November", bytes "Nov"), (bytes "December", bytes "Dec")]

/-- The loop of `conv_num` after its first digit. -/
def convLoop (ulim : Nat) : Bytes → Nat → Nat → Nat × Bytes
  | [], result, _ => (result, [])
  | c :: buf, result, rulim =>
    if result * 10 ≤ ulim ∧ rulim ≠ 0 ∧ isDigit c = true then
      convLoop ulim buf (result * 10 + (c.toNat - 48)) (rulim / 10)
    else (result, c :: buf)

/-- The number at the beginning of `buf`, and what is behind it. -/
def conv_num (buf : Bytes) (llim ulim : Nat) : Option (Nat × Bytes) :=
  match buf with
  | [] => none
  | c :: buf =>
    if isDigit c then
      let r := convLoop ulim buf (c.toNat - 48) (ulim / 10)
      if r.1 < llim ∨ r.1 > ulim then none else some r
    else none

/-- Where the text is read, and what has been stored. -/
structure Scan where
  bp : Bytes
  split_year : Bool
  tm : Tm

/-- A call gives the rest of the text, or leaves what it has stored until it failed. -/
abbrev Parser := Bytes → Bytes → Tm → Except Tm (Bytes × Tm)

/-- `LEGAL_ALT(allowed)`. -/
def legalAlt (alt_format allowed : Nat) (s : Scan) : Except Tm Scan :=
  if alt_format &&& allowed = alt_format then .ok s else .error s.tm

/-- A byte of the format that stands for itself. -/
def literal (c : UInt8) (s : Scan) : Except Tm Scan :=
  match s.bp with
  | b :: bp => if c = b then .ok { s with bp := bp } else .error s.tm
  | [] => .error s.tm

def complex (nested : Parser) (fmt : Bytes) (s : Scan) : Except Tm Scan :=
  match nested s.bp fmt s.tm with
  | .ok (bp, tm) => .ok { s with bp := bp, tm := tm }
  | .error tm => .error tm

/-- A conversion of a number, which `store` puts in its place. -/
def number (llim ulim : Nat) (store : Int → Scan → Scan) (s : Scan) : Except Tm Scan :=
  match conv_num s.bp llim ulim with
  | some (i, bp) => .ok (store i { s with bp := bp })
  | none => .error s.tm

/-- The first name in the list that begins the text, in full or abbreviated, from the number `i` on. -/
def findName (bp : Bytes) : List (Bytes × Bytes) → Nat → Option (Nat × Bytes)
  | [], _ => none
  | (full, ab) :: names, i =>
    if full.isPrefixOf bp then some (i, bp.drop full.length)
    else if ab.isPrefixOf bp then some (i, bp.drop ab.length)
    else findName bp names (i + 1)

def name (names : List (Bytes × Bytes)) (store : Int → Tm → Tm) (s : Scan) : Except Tm Scan :=
  match findName s.bp names 0 with
  | some (i, bp) => .ok { s with bp := bp, tm := store i s.tm }
  | none => .error s.tm

/-- `%C`. -/
def storeCentury (i : Int) (s : Scan) : Scan :=
  if s.split_year then
    { s with tm := { s.tm with tm_year := s.tm.tm_year.tmod 100 + i * 100 } }
  else { s with tm := { s.tm with tm_year := i * 100 }, split_year := true }

/-- `%y`. -/
def storeYear (i : Int) (s : Scan) : Scan :=
  if s.split_year then
    { s with tm := { s.tm with tm_year := s.tm.tm_year.tdiv 100 * 100 + i } }
  else if i ≤ 68 then
    { s with tm := { s.tm with tm_year := i + 2000 - TM_YEAR_BASE }, split_year := true }
  else { s with tm := { s.tm with tm_year := i + 1900 - TM_YEAR_BASE }, split_year := true }

/-- `%p`. The rest of the text is compared as a whole. -/
def amPm (s : Scan) : Except Tm Scan :=
  if s.bp = bytes "AM" then
    if s.tm.tm_hour > 11 then .error s.tm
    else .ok { s with bp := s.bp.drop 2 }
  else if s.bp = bytes "PM" then
    if s.tm.tm_hour > 11 then .error s.tm
    else .ok { s with bp := s.bp.drop 2, tm := { s.tm with tm_hour := s.tm.tm_hour + 12 } }
  else .error s.tm

def skipSpace (s : Scan) : Scan := { s with bp := s.bp.dropWhile isspace }

def store (f : Int → Tm → Tm) (i : Int) (s : Scan) : Scan := { s with tm := f i s.tm }

def storeHour12 (i : Int) (tm : Tm) : Tm := { tm with tm_hour := if i = 12 then 0 else i }

def convert (nested : Parser) (alt_format : Nat) (c : UInt8) (s : Scan) : Except Tm Scan :=
  let legal := legalAlt alt_format
  let hour := number 0 23 (store fun i tm => { tm with tm_hour := i })
  match c with
  | 37 => literal 37 s  -- `%%`
  | 99 => legal ALT_E s >>= complex nested (bytes "%x %X")  -- `%c`
  | 68 => legal 0 s >>= complex nested (bytes "%m/%d/%y")  -- `%D`
  | 82 => legal 0 s >>= complex nested (bytes "%H:%M")  -- `%R`
  | 114 => legal 0 s >>= complex nested (bytes "%I:%M:%S %p")  -- `%r`
  | 84 => legal 0 s >>= complex nested (bytes "%H:%M:%S")  -- `%T`
  | 88 => legal ALT_E s >>= complex nested (bytes "%H:%M:%S")  -- `%X`
  | 120 => legal ALT_E s >>= complex nested (bytes "%m/%d/%y")  -- `%x`
  | 65 | 97 =>  -- `%A`, `%a`
    legal 0 s >>= name day fun i tm => { tm with tm_wday := i }
  | 66 | 98 | 104 =>  -- `%B`, `%b`, `%h`
    legal 0 s >>= name mon fun i tm => { tm with tm_mon := i }
  | 67 => legal ALT_E s >>= number 0 99 storeCentury  -- `%C`
  | 100 | 101 =>  -- `%d`, `%e`
    legal ALT_O s >>= number 1 31 (store fun i tm => { tm with tm_mday := i })
  | 107 => legal 0 s >>= legal ALT_O >>= hour  -- `%k`
  | 72 => legal ALT_O s >>= hour  -- `%H`
  | 108 => legal 0 s >>= legal ALT_O >>= number 1 12 (store storeHour12)  -- `%l`
  | 73 => legal ALT_O s >>= number 1 12 (store storeHour12)  -- `%I`
  | 106 => legal 0 s >>= number 1 366 (store fun i tm => { tm with tm_yday := i - 1 })  -- `%j`
  | 77 => legal ALT_O s >>= number 0 59 (store fun i tm => { tm with tm_min := i })  -- `%M`
  | 109 => legal ALT_O s >>= number 1 12 (store fun i tm => { tm with tm_mon := i - 1 })  -- `%m`
  | 112 => legal 0 s >>= amPm  -- `%p`
  | 83 => legal ALT_O s >>= number 0 61 (store fun i tm => { tm with tm_sec := i })  -- `%S`
  | 85 | 87 => legal ALT_O s >>= number 0 53 (fun _ s => s)  -- `%U`, `%W`
  | 119 => legal ALT_O s >>= number 0 6 (store fun i tm => { tm with tm_wday := i })  -- `%w`
  | 89 =>  -- `%Y`
    legal ALT_E s >>= number 0 9999 (store fun i tm => { tm with tm_year := i - TM_YEAR_BASE })
  | 121 => legal (ALT_E ||| ALT_O) s >>= number 0 99 storeYear  -- `%y`
  | 110 | 116 => skipSpace <$> legal 0 s  -- `%n`, `%t`
  | _ => .error s.tm

/-- The loop over the format; after a `%` with the modifiers that have been read. -/
def scan (nested : Parser) : Option Nat → Bytes → Scan → Except Tm Scan
  | none, [], s => .ok s
  | some _, [], s => .error s.tm  -- the end of the format is no conversion
  | none, c :: fmt, s =>
    if isspace c then scan nested none fmt (skipSpace s)
    else if c ≠ 37 then literal c s >>= scan nested none fmt
    else scan nested (some 0) fmt s
  | some alt_format, c :: fmt, s =>
    if c = 69 then legalAlt alt_format 0 s >>= scan nested (some (alt_format ||| ALT_E)) fmt
    else if c = 79 then legalAlt alt_format 0 s >>= scan nested (some (alt_format ||| ALT_O)) fmt
    else convert nested alt_format c s >>= scan nested none fmt

def strptimeWith (nested : Parser) : Parser := fun buf fmt tm =>
  (fun s => (s.bp, s.tm)) <$> scan nested none fmt ⟨buf, false, tm⟩

/-- `CTime::strptime`. Its complex conversions call it for formats with one more level of them at
most. -/
def strptime : Parser := strptimeWith (strptimeWith (strptimeWith fun _ _ tm => .error tm))

section Levels
variable {nested nested' : Parser}

/-- The format that a complex conversion is read with. -/
def complexFormat : UInt8 → Option Bytes
  | 99 => some (bytes "%x %X")
  | 68 | 120 => some (bytes "%m/%d/%y")
  | 82 => some (bytes "%H:%M")
  | 114 => some (bytes "%I:%M:%S %p")
  | 84 | 88 => some (bytes "%H:%M:%S")
  | _ => none

theorem complex_congr {fmt : Bytes} (h : ∀ buf, nested buf fmt = nested' buf fmt) :
    complex nested fmt = complex nested' fmt := by
  funext s
  rw [complex, complex, h]

/-- Only the format of the conversion is read through the nested calls. -/
theorem convert_congr {c : UInt8}
    (h : ∀ fmt ∈ complexFormat c, ∀ buf, nested buf fmt = nested' buf fmt) (alt_format : Nat) :
    convert nested alt_format c = convert nested' alt_format c := by
  funext s
  unfold convert
  split
  case h_2 | h_3 | h_4 | h_5 | h_6 | h_7 | h_8 =>
    exact congrArg (_ >>= ·) (complex_congr (h _ rfl))
  all_goals rfl

theorem scan_congr {fmt : Bytes}
    (h : ∀ c ∈ fmt, ∀ fmt' ∈ complexFormat c, ∀ buf, nested buf fmt' = nested' buf fmt')
    (mode : Option Nat) : scan nested mode fmt = scan nested' mode fmt := by
  induction fmt generalizing mode with
  | nil =>
    funext s
    cases mode with
    | none => rfl
    | some alt_format => rfl
  | cons c fmt ih =>
    obtain ⟨hc, hfmt⟩ := List.forall_mem_cons.mp h
    funext s
    cases mode with
    | none => simp only [scan, ih hfmt]
    | some alt_format => simp only [scan, ih hfmt, convert_congr hc]

theorem strptimeWith_congr {fmt : Bytes}
    (h : ∀ c ∈ fmt, ∀ fmt' ∈ complexFormat c, ∀ buf, nested buf fmt' = nested' buf fmt')
    (buf : Bytes) : strptimeWith nested buf fmt = strptimeWith nested' buf fmt := by
  funext tm
  rw [strptimeWith, strptimeWith, scan_congr h]

def simple (fmt : Bytes) : Bool := fmt.all fun c => (complexFormat c).isNone

theorem simple_iff {fmt : Bytes} : simple fmt = true ↔ ∀ c ∈ fmt, complexFormat c = none := by
  simp only [simple, List.all_eq_true, Option.isNone_iff_eq_none]

/-- The format of a complex conversion has none itself, or is that of `%c`. -/
theorem complexFormat_cases {c : UInt8} {fmt : Bytes} (h : fmt ∈ complexFormat c) :
    fmt = bytes "%x %X" ∨ ∀ c' ∈ fmt, complexFormat c' = none := by
  unfold complexFormat at h
  split at h
  case h_8 => cases h
  case h_1 =>
    obtain rfl := Option.some.inj h
    exact Or.inl rfl
  all_goals
    obtain rfl := Option.some.inj h
    right
    rw [← simple_iff]
    decide

theorem complexFormat_simple {c c' : UInt8} {fmt fmt' : Bytes} (h : fmt ∈ complexFormat c)
    (hc : c' ∈ fmt) (h' : fmt' ∈ complexFormat c') : ∀ d ∈ fmt', complexFormat d = none := by
  have hall : ((bytes "%x %X").all fun c' => (complexFormat c').all simple) = true := by decide
  have htwo : ∀ c' ∈ bytes "%x %X", ∀ fmt', complexFormat c' = some fmt' → simple fmt' = true := by
    simpa only [List.all_eq_true, Option.all_eq_true] using hall
  cases complexFormat_cases h with
  | inl hx => exact simple_iff.mp (htwo c' (hx ▸ hc) fmt' h')
  | inr hsimple =>
    rw [hsimple c' hc] at h'
    cases h'

/-- The equation of the source. -/
theorem strptime_eq : strptime = strptimeWith strptime := by
  funext buf fmt
  refine strptimeWith_congr (fun c _ f hf buf => ?_) buf
  refine strptimeWith_congr (fun c' hc' f' hf' buf => ?_) buf
  refine strptimeWith_congr (fun d hd g hg => ?_) buf
  rw [complexFormat_simple hf hc' hf' d hd] at hg
  cases hg

end Levels

end CppPrivate.Public.Strptime
