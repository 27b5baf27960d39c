import CppPrivate.Http.UrlParser
import CppPrivate.Url.Escape
import Mathlib.Tactic.SplitIfs

/-! The parser of multipart bodies, a state machine over a buffer. It marks where a text starts
and hands it to a callback where it ends. No callback of the server stops the parser. -/
namespace CppPrivate.Http
open Url (cStr)

def CR : UInt8 := 13
def LF : UInt8 := 10

/-- `enum state`. -/
inductive MultipartState where
  | s_uninitialized
  | s_start
  | s_start_boundary
  | s_header_field_start
  | s_header_field
  | s_headers_almost_done
  | s_header_value_start
  | s_header_value
  | s_header_value_almost_done
  | s_part_data_start
  | s_part_data
  | s_part_data_almost_boundary
  | s_part_data_boundary
  | s_part_data_almost_end
  | s_part_data_end
  | s_part_data_final_hyphen
  | s_end
deriving DecidableEq

structure MultipartParser where
  index : Nat
  boundary_length : Nat
  state : MultipartState
  lookbehind : Bytes
  multipart_boundary : Bytes
deriving DecidableEq

inductive Callback where
  | header_field (text : Bytes)
  | header_value (text : Bytes)
  | part_data (text : Bytes)
  | part_data_begin
  | headers_complete
  | part_data_end
  | body_end
deriving DecidableEq

/-- What a round of the loop leads to: the next position, with the mark and the calls made, or
a return. -/
inductive Round where
  | next (p : MultipartParser) (i mark : Nat) (calls : List Callback)
  | ret (n : Nat) (p : MultipartParser)

def Round.after (calls : List Callback) : Round → Round
  | .next p i mark more => .next p i mark (calls ++ more)
  | .ret n p => .ret n p

/-- The `length` bytes of the buffer from the mark on. -/
def slice (buf : Bytes) (mark length : Nat) : Bytes := (buf.drop mark).take length

/-- Letters and hyphens make up the name of a header. -/
def isFieldChar (c : UInt8) : Bool := c == 45 || (97 ≤ tolower c && tolower c ≤ 122)

namespace MultipartParser

/-- The memory behind the boundary, of which nothing is read before it is written. -/
def init (boundary : Bytes) : MultipartParser where
  index := 0
  boundary_length := (cStr boundary).length
  state := .s_start
  lookbehind := List.replicate ((cStr boundary).length + 9) 0
  multipart_boundary := cStr boundary

/-- The byte of the boundary at an index: behind the last one there is a zero byte. -/
def boundaryAt (p : MultipartParser) (k : Nat) : UInt8 := p.multipart_boundary.getD k 0

def start_boundary (p : MultipartParser) (i mark : Nat) (c : UInt8) : Round :=
  if p.index = p.boundary_length then
    if c ≠ CR then .ret i p else .next { p with index := p.index + 1 } (i + 1) mark []
  else if p.index = p.boundary_length + 1 then
    if c ≠ LF then .ret i p
    else .next { p with index := 0, state := .s_header_field_start } (i + 1) mark [.part_data_begin]
  else if c ≠ p.boundaryAt p.index then .ret i p
  else .next { p with index := p.index + 1 } (i + 1) mark []

def header_field (p : MultipartParser) (buf : Bytes) (i mark : Nat) (c : UInt8)
    (is_last : Bool) : Round :=
  if c = CR then .next { p with state := .s_headers_almost_done } (i + 1) mark []
  else if c = 58 then
    .next { p with state := .s_header_value_start } (i + 1) mark
      [.header_field (slice buf mark (i - mark))]
  else if !isFieldChar c then .ret i p
  else .next p (i + 1) mark
    (if is_last then [.header_field (slice buf mark (i - mark + 1))] else [])

def header_value (p : MultipartParser) (buf : Bytes) (i mark : Nat) (c : UInt8)
    (is_last : Bool) : Round :=
  if c = CR then
    .next { p with state := .s_header_value_almost_done } (i + 1) mark
      [.header_value (slice buf mark (i - mark))]
  else .next p (i + 1) mark
    (if is_last then [.header_value (slice buf mark (i - mark + 1))] else [])

def part_data (p : MultipartParser) (buf : Bytes) (i mark : Nat) (c : UInt8)
    (is_last : Bool) : Round :=
  if c = CR then
    .next { p with state := .s_part_data_almost_boundary, lookbehind := p.lookbehind.set 0 CR }
      (i + 1) i [.part_data (slice buf mark (i - mark))]
  else .next p (i + 1) mark
    (if is_last then [.part_data (slice buf mark (i - mark + 1))] else [])

/-- With `mark = i --` the next round is about the same byte. -/
def part_data_boundary (p : MultipartParser) (i mark : Nat) (c : UInt8) : Round :=
  if p.boundaryAt p.index ≠ c then
    .next { p with state := .s_part_data } i i [.part_data (p.lookbehind.take (2 + p.index))]
  else
    let p := { p with lookbehind := p.lookbehind.set (2 + p.index) c, index := p.index + 1 }
    if p.index = p.boundary_length then
      .next { p with state := .s_part_data_almost_end } (i + 1) mark [.part_data_end]
    else .next p (i + 1) mark []

/-- A round of the loop, for the byte `c` at `i`. -/
def step (p : MultipartParser) (buf : Bytes) (i mark : Nat) (c : UInt8) (is_last : Bool) : Round :=
  match p.state with
  | .s_uninitialized => .ret 0 p
  | .s_start => start_boundary { p with index := 0, state := .s_start_boundary } i mark c
  | .s_start_boundary => p.start_boundary i mark c
  | .s_header_field_start => header_field { p with state := .s_header_field } buf i i c is_last
  | .s_header_field => p.header_field buf i mark c is_last
  | .s_headers_almost_done =>
    if c ≠ LF then .ret i p else .next { p with state := .s_part_data_start } (i + 1) mark []
  | .s_header_value_start =>
    if c = 32 then .next p (i + 1) mark []
    else header_value { p with state := .s_header_value } buf i i c is_last
  | .s_header_value => p.header_value buf i mark c is_last
  | .s_header_value_almost_done =>
    if c ≠ LF then .ret i p else .next { p with state := .s_header_field_start } (i + 1) mark []
  | .s_part_data_start =>
    (part_data { p with state := .s_part_data } buf i i c is_last).after [.headers_complete]
  | .s_part_data => p.part_data buf i mark c is_last
  | .s_part_data_almost_boundary =>
    if c = LF then
      .next { p with index := 0, state := .s_part_data_boundary, lookbehind := p.lookbehind.set 1 LF }
        (i + 1) mark []
    else .next { p with state := .s_part_data } i i [.part_data (p.lookbehind.take 1)]
  | .s_part_data_boundary => p.part_data_boundary i mark c
  | .s_part_data_almost_end =>
    if c = 45 then .next { p with state := .s_part_data_final_hyphen } (i + 1) mark []
    else if c = CR then .next { p with state := .s_part_data_end } (i + 1) mark []
    else .ret i p
  | .s_part_data_final_hyphen =>
    if c = 45 then .next { p with state := .s_end } (i + 1) mark [.body_end] else .ret i p
  | .s_part_data_end =>
    if c = LF then .next { p with state := .s_header_field_start } (i + 1) mark [.part_data_begin]
    else .ret i p
  | .s_end => .next p (i + 1) mark []

/-- The states in which a byte may be looked at once more. -/
def pending (p : MultipartParser) : Nat :=
  match p.state with
  | .s_part_data_almost_boundary | .s_part_data_boundary => 1
  | _ => 0

/-- A round goes on to the next byte, or looks at the byte once more in a state that does not. -/
def Advances (p : MultipartParser) (i : Nat) : Round → Prop
  | .next p' i' _ _ => i' = i + 1 ∨ i' = i ∧ p.pending = 1 ∧ p'.pending = 0
  | .ret _ _ => True

variable {p : MultipartParser} {buf : Bytes} {i mark : Nat} {c : UInt8} {is_last : Bool}

theorem advances_start_boundary (q : MultipartParser) :
    Advances p i (q.start_boundary i mark c) := by
  rw [start_boundary]
  split_ifs
  all_goals first | exact trivial | exact Or.inl rfl

theorem advances_header_field (q : MultipartParser) :
    Advances p i (q.header_field buf i mark c is_last) := by
  rw [header_field]
  split_ifs
  all_goals first | exact trivial | exact Or.inl rfl

theorem advances_header_value (q : MultipartParser) :
    Advances p i (q.header_value buf i mark c is_last) := by
  rw [header_value]
  split_ifs
  all_goals exact Or.inl rfl

theorem advances_part_data (q : MultipartParser) :
    Advances p i (q.part_data buf i mark c is_last) := by
  rw [part_data]
  split_ifs
  all_goals exact Or.inl rfl

theorem advances_after {calls : List Callback} {r : Round} (h : Advances p i r) :
    Advances p i (r.after calls) := by
  cases r <;> exact h

/-- A round that goes on to the next byte, whatever the parser looks like. -/
theorem advances_next {q : MultipartParser} {calls : List Callback} :
    Advances p i (.next q (i + 1) mark calls) := Or.inl rfl

theorem advances_part_data_boundary (hs : p.state = .s_part_data_boundary) :
    Advances p i (p.part_data_boundary i mark c) := by
  rw [part_data_boundary]
  split
  · exact Or.inr ⟨rfl, by rw [pending, hs], rfl⟩
  · simp only
    split
    · exact advances_next
    · exact advances_next

theorem advances_step : Advances p i (p.step buf i mark c is_last) := by
  unfold step
  cases hs : p.state with
  | s_uninitialized => exact trivial
  | s_start => exact advances_start_boundary _
  | s_start_boundary => exact advances_start_boundary p
  | s_header_field_start => exact advances_header_field _
  | s_header_field => exact advances_header_field p
  | s_headers_almost_done =>
    simp only
    split
    · exact trivial
    · exact advances_next
  | s_header_value_start =>
    simp only
    split
    · exact advances_next
    · exact advances_header_value _
  | s_header_value => exact advances_header_value p
  | s_header_value_almost_done =>
    simp only
    split
    · exact trivial
    · exact advances_next
  | s_part_data_start => exact advances_after (advances_part_data _)
  | s_part_data => exact advances_part_data p
  | s_part_data_almost_boundary =>
    simp only
    split
    · exact advances_next
    · exact Or.inr ⟨rfl, by rw [pending, hs], rfl⟩
  | s_part_data_boundary => exact advances_part_data_boundary hs
  | s_part_data_almost_end =>
    simp only
    split
    · exact advances_next
    · split
      · exact advances_next
      · exact trivial
  | s_part_data_final_hyphen =>
    simp only
    split
    · exact advances_next
    · exact trivial
  | s_part_data_end =>
    simp only
    split
    · exact advances_next
    · exact trivial
  | s_end => exact advances_next

theorem pending_le (p : MultipartParser) : p.pending ≤ 1 := by
  rw [pending]
  split <;> omega

/-- Every round brings the loop nearer to its end. -/
theorem decreases {p' : MultipartParser} {i' mark' n : Nat} {calls : List Callback}
    (h : p.step buf i mark c is_last = .next p' i' mark' calls) (hi : i < n) :
    2 * (n - i') + p'.pending < 2 * (n - i) + p.pending := by
  have hadvances : Advances p i (.next p' i' mark' calls) := h ▸ advances_step
  have hle := pending_le p'
  cases hadvances with
  | inl hnext => omega
  | inr hagain => omega

def loop (p : MultipartParser) (buf : Bytes) (i mark : Nat) :
    Nat × MultipartParser × List Callback :=
  if h : i < buf.length then
    match hr : p.step buf i mark buf[i] (i = buf.length - 1) with
    | .ret n p => (n, p, [])
    | .next p' i' mark' calls =>
      let r := loop p' buf i' mark'
      (r.1, r.2.1, calls ++ r.2.2)
  else (buf.length, p, [])
termination_by 2 * (buf.length - i) + p.pending
decreasing_by exact decreases hr h

/-- `multipart_parser_execute`: the number of bytes consumed, the parser, and the calls made. -/
def execute (p : MultipartParser) (buf : Bytes) : Nat × MultipartParser × List Callback :=
  loop p buf 0 0

end MultipartParser

end CppPrivate.Http
