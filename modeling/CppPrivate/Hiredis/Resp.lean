import CppPrivate.Http.UrlParser
import CppPrivate.Lib.Incremental
import CppPrivate.Redis.Reply
import CppPrivate.Hiredis.Scan

/-! The protocol in which replies come: their texts, and a reader that keeps the aggregates it is
inside of and builds every reply from its elements. -/
namespace CppPrivate.Hiredis
open Redis
open Http (tolower isspace)
open Incremental

/-- The text before the first end of a line, and what follows it. -/
def cutLine (l : Bytes) : Option (Bytes × Bytes) :=
  (Pattern.find CRLF l).map fun n => (l.take n, l.drop (n + 2))

def isxdigit (c : UInt8) : Bool := isDigit c || (97 ≤ tolower c && tolower c ≤ 102)

/-- Digits with a point among them; at least one is needed. The result is the rest. -/
def mantissa (digit : UInt8 → Bool) (s : Bytes) : Option Bytes :=
  match s.dropWhile digit with
  | 46 :: frac =>
    if s.head?.any digit || frac.head?.any digit then some (frac.dropWhile digit) else none
  | rest => if s.head?.any digit then some rest else none

def dropSign : Bytes → Bytes
  | 43 :: s => s
  | 45 :: s => s
  | s => s

def exponent (mark : UInt8) : Bytes → Bytes
  | c :: s =>
    if c = mark && (dropSign s).head?.any isDigit then (dropSign s).dropWhile isDigit else c :: s
  | [] => []

/-- `strtod` reads the whole text as a number other than NaN. -/
def strtodWhole (s : Bytes) : Bool :=
  let t := (dropSign (s.dropWhile isspace)).map tolower
  t == bytes "inf" || t == bytes "infinity" ||
    (match t with
      | 48 :: 120 :: hex => (mantissa isxdigit hex).any fun r => exponent 112 r == []
      | _ => false) ||
    (mantissa isDigit t).any fun r => exponent 101 r == []

def isDouble (line : Bytes) : Bool :=
  let buf := C_STR line
  buf.map tolower == bytes ",inf" || buf.map tolower == bytes ",-inf" ||
    (buf ≠ [] && strtodWhole buf)

example : isDouble (bytes "-1.5e3") = true ∧ isDouble (bytes "1.5x") = false := by decide

def lowerHex (n : Nat) : UInt8 := UInt8.ofNat (if n < 10 then 48 + n else 87 + n)

def chrtos (byte : UInt8) : Bytes :=
  bytes "\"" ++
    (if byte = 92 ∨ byte = 34 then [92, byte]
      else if byte = 10 then bytes "\\n"
      else if byte = 13 then bytes "\\r"
      else if byte = 9 then bytes "\\t"
      else if byte = 7 then bytes "\\a"
      else if byte = 8 then bytes "\\b"
      else if 32 ≤ byte ∧ byte ≤ 126 then [byte]
      else bytes "\\x" ++ [lowerHex (byte.toNat / 16), lowerHex (byte.toNat % 16)]) ++
    bytes "\""

def protocolByte (byte : UInt8) : Bytes :=
  bytes "Protocol error, got " ++ chrtos byte ++ bytes " as reply type byte"

def typeOf (byte : UInt8) : Option REDIS_REPLY :=
  match byte with
  | 45 => some .ERROR
  | 43 => some .STATUS
  | 58 => some .INTEGER
  | 44 => some .DOUBLE
  | 95 => some .NIL
  | 36 => some .STRING
  | 42 => some .ARRAY
  | 37 => some .MAP
  | 126 => some .SET
  | 35 => some .BOOL
  | 61 => some .VERB
  | 62 => some .PUSH
  | _ => none

def REDIS_READER_MAX_ARRAY_ELEMENTS : Int := 2 ^ 32 - 1

/-- What makes the reader stop for good besides an error: an assertion that fails, an `int` or a
`long long` that leaves its range, a write to an element that is not there. -/
inductive Fault where
  | assertion
  | overflow
  | memory
deriving DecidableEq

inductive Stop where
  | error (errstr : Bytes)
  | fault (f : Fault)
deriving DecidableEq

/-- A value, or the beginning of an aggregate with the number of its elements. -/
inductive Item where
  | value (r : redisReply)
  | many (type : REDIS_REPLY) (elements : Nat)

def lineValue (type : REDIS_REPLY) (line : Bytes) : Except Bytes redisReply :=
  match type with
  | .INTEGER =>
    match string2ll line with
    | some v => .ok (.integer v)
    | none => .error (bytes "Bad integer value")
  | .DOUBLE =>
    if 326 ≤ line.length then .error (bytes "Double value is too large")
    else if isDouble line then .ok (.double line)
    else .error (bytes "Bad double value")
  | .NIL => .ok .nil
  | .BOOL => .ok (.bool (line.head? == some 116 || line.head? == some 84))
  | .ERROR => .ok (.error line)
  | _ => .ok (.status line)

def bulkItem (type : REDIS_REPLY) (l : Bytes) : Option (Except Stop (Item × Bytes)) :=
  (cutLine l).bind fun p =>
    match string2ll p.1 with
    | none => some (.error (.error (bytes "Bad bulk string length")))
    | some len =>
      if len < -1 then some (.error (.error (bytes "Bulk string length out of range")))
      else if len = -1 then some (.ok (.value .nil, p.2))
      else if 2 ^ 63 ≤ len + 2 then some (.error (.fault .overflow))
      else if p.2.length < len.toNat + 2 then none
      else if type = .VERB ∧ (len < 4 ∨ p.2[3]? ≠ some 58) then
        some (.error (.error
          (bytes "Verbatim string 4 bytes of content type are missing or incorrectly encoded.")))
      else
        let str := p.2.take len.toNat
        some (.ok (.value (if type = .VERB then .verb (str.drop 4) else .string str),
          p.2.drop (len.toNat + 2)))

def countItem (type : REDIS_REPLY) (line : Bytes) : Except Bytes Item :=
  match string2ll line with
  | none => .error (bytes "Bad multi-bulk length")
  | some elements =>
    if elements < -1 ∨ REDIS_READER_MAX_ARRAY_ELEMENTS < elements then
      .error (bytes "Multi-bulk length out of range")
    else if elements = -1 then .ok (.value .nil)
    else .ok (.many type (if type = .MAP then 2 * elements.toNat else elements.toNat))

/-- What is on one line; its length with the end is an `int`. -/
def lineItem (read : Bytes → Except Bytes Item) (l : Bytes) : Option (Except Stop (Item × Bytes)) :=
  (cutLine l).map fun p =>
    if 2 ^ 31 ≤ p.1.length + 2 then .error (.fault .overflow)
    else match read p.1 with
      | .error errstr => .error (.error errstr)
      | .ok i => .ok (i, p.2)

def item (type : REDIS_REPLY) (l : Bytes) : Option (Except Stop (Item × Bytes)) :=
  match type with
  | .STRING | .VERB => bulkItem type l
  | .ARRAY | .MAP | .SET | .PUSH => lineItem (countItem type) l
  | _ => lineItem (fun line => (lineValue type line).map .value) l

def IsAggregate (type : REDIS_REPLY) : Prop :=
  type = .ARRAY ∨ type = .MAP ∨ type = .SET ∨ type = .PUSH

instance (type : REDIS_REPLY) : Decidable (IsAggregate type) :=
  inferInstanceAs (Decidable (_ ∨ _))

def aggregate (type : REDIS_REPLY) (element : List redisReply) : redisReply :=
  match type with
  | .MAP => .map element
  | .SET => .set element
  | .PUSH => .push element
  | _ => .array element

/-- What the assertions on the parent let through. -/
def Admits (parent : REDIS_REPLY) (r : redisReply) : Prop :=
  parent = .PUSH → r.type ≠ .NIL ∧ r.type ≠ .DOUBLE ∧ r.type ≠ .BOOL

instance (parent : REDIS_REPLY) (r : redisReply) : Decidable (Admits parent r) :=
  inferInstanceAs (Decidable (_ → _))

/-- An aggregate that is being read: its first elements are there. -/
structure Unfinished where
  type : REDIS_REPLY
  total : Nat
  done : List redisReply

/-- A reply is complete, and with it maybe the aggregates that it ends. -/
def finish : List Unfinished → redisReply → Except Fault (List Unfinished × List redisReply)
  | [], r => .ok ([], [r])
  | f :: fs, r =>
    if f.done.length + 1 = f.total then finish fs (aggregate f.type (f.done ++ [r]))
    else if 2 ^ 31 ≤ f.done.length + 1 then .error .overflow
    else .ok ({ f with done := f.done ++ [r] } :: fs, [])

/-- A value is created in the innermost aggregate. -/
def place (fs : List Unfinished) (r : redisReply) : Except Fault (List Unfinished × List redisReply) :=
  if ∀ f ∈ fs.head?, Admits f.type r then finish fs r else .error .assertion

/-- A value is complete at once, an aggregate with elements is entered. -/
def enter (fs : List Unfinished) : Item → Except Fault (List Unfinished × List redisReply)
  | .value r => place fs r
  | .many type n =>
    if n = 0 then finish fs (aggregate type []) else .ok (⟨type, n, []⟩ :: fs, [])

/-- The aggregates that the reader is inside of, and the type of the value whose first byte it has
read. -/
structure Resp where
  frames : List Unfinished
  type : Option REDIS_REPLY

def Resp.start : Resp := ⟨[], none⟩

/-- An aggregate for whose elements no `int` counts the tasks: there are nine more at a time, and at
most `2^31 - 2`. -/
def TooDeep (fs : List Unfinished) (type : REDIS_REPLY) : Prop :=
  IsAggregate type ∧ 2 ^ 31 - 2 ≤ fs.length + 1

instance (fs : List Unfinished) (type : REDIS_REPLY) : Decidable (TooDeep fs type) :=
  inferInstanceAs (Decidable (_ ∧ _))

namespace Resp

def next (done : Except Fault (List Unfinished × List redisReply)) (rest : Bytes) :
    Outcome Resp UInt8 redisReply Stop :=
  match done with
  | .ok (fs, out) => .took ⟨fs, none⟩ out rest
  | .error f => .failed (.fault f)

def step (s : Resp) (l : Bytes) : Outcome Resp UInt8 redisReply Stop :=
  match s.type with
  | none =>
    match l with
    | [] => .wants
    | c :: l =>
      match typeOf c with
      | some type =>
        if TooDeep s.frames type then .failed (.fault .overflow)
        else .took ⟨s.frames, some type⟩ [] l
      | none => .failed (.error (protocolByte c))
  | some type =>
    match item type l with
    | none => .wants
    | some (.error stop) => .failed stop
    | some (.ok (i, rest)) => next (enter s.frames i) rest

end Resp

section Append
variable {l a r : Bytes} {type : REDIS_REPLY}

theorem cutLine_append (h : cutLine l = some (a, r)) (m : Bytes) :
    cutLine (l ++ m) = some (a, r ++ m) := by
  obtain ⟨n, hn, hcut⟩ := Option.map_eq_some_iff.mp h
  have hle : n + 2 ≤ l.length := Pattern.find_le hn
  obtain ⟨rfl, rfl⟩ := Prod.mk.inj hcut
  rw [cutLine, Pattern.find_append hn, Option.map_some, List.take_append_of_le_length (by omega),
    List.drop_append_of_le_length hle]

theorem length_of_cutLine (h : cutLine l = some (a, r)) : r.length + 2 ≤ l.length := by
  obtain ⟨n, hn, hcut⟩ := Option.map_eq_some_iff.mp h
  have hle : n + 2 ≤ l.length := Pattern.find_le hn
  obtain ⟨rfl, rfl⟩ := Prod.mk.inj hcut
  rw [List.length_drop]
  omega

/-- What an item has been read from is the beginning of a longer input. -/
def grow (m : Bytes) (x : Except Stop (Item × Bytes)) : Except Stop (Item × Bytes) :=
  x.map fun p => (p.1, p.2 ++ m)

theorem bulkItem_append {x : Except Stop (Item × Bytes)} (h : bulkItem type l = some x)
    (m : Bytes) : bulkItem type (l ++ m) = some (grow m x) := by
  obtain ⟨⟨a, r⟩, hcut, hx⟩ := Option.bind_eq_some_iff.mp h
  rw [bulkItem, cutLine_append hcut, Option.bind_some]
  dsimp only at hx ⊢
  cases hlen : string2ll a with
  | none =>
    simp only [hlen, Option.some.injEq] at hx ⊢
    rw [← hx]
    rfl
  | some len =>
    simp only [hlen] at hx ⊢
    by_cases hlow : len < -1
    · rw [if_pos hlow] at hx ⊢
      rw [← Option.some.inj hx]
      rfl
    · rw [if_neg hlow] at hx ⊢
      by_cases hnil : len = -1
      · rw [if_pos hnil] at hx ⊢
        rw [← Option.some.inj hx]
        rfl
      · rw [if_neg hnil] at hx ⊢
        by_cases hover : 2 ^ 63 ≤ len + 2
        · rw [if_pos hover] at hx ⊢
          rw [← Option.some.inj hx]
          rfl
        · rw [if_neg hover] at hx ⊢
          by_cases hshort : r.length < len.toNat + 2
          · rw [if_pos hshort] at hx
            cases hx
          · rw [if_neg hshort] at hx
            have hlong : ¬ (r ++ m).length < len.toNat + 2 := by
              rw [List.length_append]
              omega
            have hmark : type = .VERB ∧ (len < 4 ∨ (r ++ m)[3]? ≠ some 58) ↔
                type = .VERB ∧ (len < 4 ∨ r[3]? ≠ some 58) := by
              by_cases h4 : len < 4
              · simp [h4]
              · rw [List.getElem?_append_left (by omega)]
            rw [if_neg hlong, List.take_append_of_le_length (by omega),
              List.drop_append_of_le_length (by omega)]
            by_cases hverb : type = .VERB ∧ (len < 4 ∨ r[3]? ≠ some 58)
            · rw [if_pos (hmark.mpr hverb)]
              rw [if_pos hverb] at hx
              rw [← Option.some.inj hx]
              rfl
            · rw [if_neg (mt hmark.mp hverb)]
              rw [if_neg hverb] at hx
              rw [← Option.some.inj hx]
              rfl

theorem length_of_bulkItem {i : Item} (h : bulkItem type l = some (.ok (i, r))) :
    r.length < l.length := by
  obtain ⟨⟨a, rest⟩, hcut, hx⟩ := Option.bind_eq_some_iff.mp h
  have hline := length_of_cutLine hcut
  dsimp only at hx
  cases hlen : string2ll a with
  | none =>
    simp only [hlen] at hx
    cases hx
  | some len =>
    simp only [hlen] at hx
    split at hx
    · cases hx
    · split at hx
      · cases hx
        omega
      · split at hx
        · cases hx
        · split at hx
          · cases hx
          · split at hx
            · cases hx
            · cases hx
              rw [List.length_drop]
              omega

theorem lineItem_append {read : Bytes → Except Bytes Item} {x : Except Stop (Item × Bytes)}
    (h : lineItem read l = some x) (m : Bytes) : lineItem read (l ++ m) = some (grow m x) := by
  obtain ⟨⟨a, r⟩, hcut, rfl⟩ := Option.map_eq_some_iff.mp h
  rw [lineItem, cutLine_append hcut, Option.map_some]
  dsimp only
  split
  · rfl
  · cases read a <;> rfl

theorem length_of_lineItem {read : Bytes → Except Bytes Item} {i : Item}
    (h : lineItem read l = some (.ok (i, r))) : r.length < l.length := by
  obtain ⟨⟨a, rest⟩, hcut, hok⟩ := Option.map_eq_some_iff.mp h
  have hlen := length_of_cutLine hcut
  dsimp only at hok
  split at hok
  · cases hok
  · cases hread : read a with
    | error errstr =>
      rw [hread] at hok
      cases hok
    | ok j =>
      rw [hread] at hok
      cases hok
      omega

/-- An item is a text behind its length, or on one line. -/
theorem item_cases (type : REDIS_REPLY) :
    ((type = .STRING ∨ type = .VERB) ∧ ∀ l, item type l = bulkItem type l) ∨
      ∃ read, ∀ l, item type l = lineItem read l := by
  by_cases hbulk : type = .STRING ∨ type = .VERB
  · refine .inl ⟨hbulk, ?_⟩
    obtain rfl | rfl := hbulk <;> exact fun _ => rfl
  · right
    by_cases hmany : IsAggregate type
    · refine ⟨countItem type, ?_⟩
      obtain rfl | rfl | rfl | rfl := hmany <;> exact fun _ => rfl
    · refine ⟨fun line => (lineValue type line).map .value, fun l => ?_⟩
      rw [item]
      · exact fun h => hbulk (.inl h)
      · exact fun h => hbulk (.inr h)
      · exact fun h => hmany (.inl h)
      · exact fun h => hmany (.inr (.inl h))
      · exact fun h => hmany (.inr (.inr (.inl h)))
      · exact fun h => hmany (.inr (.inr (.inr h)))

theorem item_append {x : Except Stop (Item × Bytes)} (h : item type l = some x) (m : Bytes) :
    item type (l ++ m) = some (grow m x) := by
  obtain ⟨-, hitem⟩ | ⟨read, hitem⟩ := item_cases type
  · rw [hitem] at h ⊢
    exact bulkItem_append h m
  · rw [hitem] at h ⊢
    exact lineItem_append h m

theorem length_of_item {i : Item} (h : item type l = some (.ok (i, r))) :
    r.length < l.length := by
  obtain ⟨-, hitem⟩ | ⟨read, hitem⟩ := item_cases type
  · rw [hitem] at h
    exact length_of_bulkItem h
  · rw [hitem] at h
    exact length_of_lineItem h

end Append

namespace Resp
variable {s t : Resp} {l r : Bytes} {out : List redisReply}

/-- What a step after the first byte of a value does. -/
theorem step_some (fs : List Unfinished) (type : REDIS_REPLY) (l : Bytes) :
    step ⟨fs, some type⟩ l = match item type l with
      | none => .wants
      | some (.error stop) => .failed stop
      | some (.ok (i, rest)) => next (enter fs i) rest := rfl

theorem step_none (fs : List Unfinished) (c : UInt8) (l : Bytes) :
    step ⟨fs, none⟩ (c :: l) = match typeOf c with
      | some type =>
        if TooDeep fs type then .failed (.fault .overflow) else .took ⟨fs, some type⟩ [] l
      | none => .failed (.error (protocolByte c)) := rfl

/-- A step that goes on has read the first byte of a value, or what follows it. -/
theorem step_took (h : step s l = .took t out r) :
    (∃ c type, s.type = none ∧ l = c :: r ∧ typeOf c = some type ∧ ¬ TooDeep s.frames type ∧
      t = ⟨s.frames, some type⟩ ∧ out = []) ∨
    ∃ type i, s.type = some type ∧ item type l = some (.ok (i, r)) ∧
      enter s.frames i = .ok (t.frames, out) ∧ t.type = none := by
  obtain ⟨fs, type⟩ := s
  cases type with
  | none =>
    cases l with
    | nil => cases h
    | cons c l =>
      rw [step_none] at h
      split at h
      · rename_i type hc
        split at h
        · cases h
        · rename_i hdeep
          cases h
          exact .inl ⟨c, type, rfl, rfl, hc, hdeep, rfl, rfl⟩
      · cases h
  | some type =>
    rw [step_some] at h
    split at h
    · cases h
    · cases h
    · rename_i i rest hi
      cases henter : enter fs i with
      | ok done =>
        rw [henter] at h
        cases h
        exact .inr ⟨type, i, rfl, hi, henter, rfl⟩
      | error f =>
        rw [henter] at h
        cases h

/-- A step fails at the first byte, in what follows it, or where the value is put. -/
theorem step_failed {e : Stop} (h : step s l = .failed e) :
    (∃ c l', s.type = none ∧ l = c :: l' ∧ typeOf c = none ∧ e = .error (protocolByte c)) ∨
    (∃ c l' type, s.type = none ∧ l = c :: l' ∧ typeOf c = some type ∧ TooDeep s.frames type ∧
      e = .fault .overflow) ∨
    (∃ type, s.type = some type ∧ item type l = some (.error e)) ∨
    ∃ type i rest f, s.type = some type ∧ item type l = some (.ok (i, rest)) ∧
      enter s.frames i = .error f ∧ e = .fault f := by
  obtain ⟨fs, type⟩ := s
  cases type with
  | none =>
    cases l with
    | nil => cases h
    | cons c l =>
      rw [step_none] at h
      split at h
      · rename_i type hc
        split at h
        · rename_i hdeep
          cases h
          exact .inr (.inl ⟨c, l, type, rfl, rfl, hc, hdeep, rfl⟩)
        · cases h
      · rename_i hc
        cases h
        exact .inl ⟨c, l, rfl, rfl, hc, rfl⟩
  | some type =>
    rw [step_some] at h
    split at h
    · cases h
    · rename_i stop hi
      cases h
      exact .inr (.inr (.inl ⟨type, rfl, hi⟩))
    · rename_i i rest hi
      cases henter : enter fs i with
      | ok done =>
        rw [henter] at h
        cases h
      | error f =>
        rw [henter] at h
        cases h
        exact .inr (.inr (.inr ⟨type, i, rest, f, rfl, hi, henter, rfl⟩))

/-- More input changes no step that has been taken. -/
theorem stable_step : Stable step := by
  refine ⟨?_, ?_, ?_⟩
  · intro s l t out r h m
    obtain ⟨fs, type⟩ := s
    obtain ⟨fs', type'⟩ := t
    obtain ⟨c, type, rfl, rfl, hc, hdeep, ht, rfl⟩ | ⟨type, i, rfl, hi, henter, rfl⟩ := step_took h
    · rw [List.cons_append, step_none, hc, ht]
      exact if_neg hdeep
    · rw [step_some, item_append hi m]
      simp only [grow, Except.map, henter, next]
  · intro s l e h m
    obtain ⟨fs, type⟩ := s
    obtain ⟨c, l, rfl, rfl, hc, rfl⟩ | ⟨c, l, type, rfl, rfl, hc, hdeep, rfl⟩ | ⟨type, rfl, hi⟩ |
      ⟨type, i, rest, f, rfl, hi, henter, rfl⟩ := step_failed h
    · rw [List.cons_append, step_none, hc]
    · rw [List.cons_append, step_none, hc]
      exact if_pos hdeep
    · rw [step_some, item_append hi m]
      rfl
    · rw [step_some, item_append hi m]
      simp only [grow, Except.map, henter, next]
  · intro s l t out r h
    obtain ⟨c, type, -, rfl, -⟩ | ⟨type, i, -, hi, -⟩ := step_took h
    · exact Nat.lt_succ_self _
    · exact length_of_item hi

end Resp
end CppPrivate.Hiredis
