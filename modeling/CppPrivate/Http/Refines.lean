import CppPrivate.Http.Reader

/-! The multipart parser refines the reader. Its marks and its look behind hold the texts that the
reader has gathered, and its calls hand out the same data, cut into other pieces. -/
namespace CppPrivate.Http
open Mode (readData)

/-- Data handed out byte by byte. -/
def Callback.expand : Callback → List Callback
  | .part_data text => text.map fun c => .part_data [c]
  | call => [call]

def flat (calls : List Callback) : List Callback := calls.flatMap Callback.expand

@[simp] theorem flat_nil : flat [] = [] := rfl

theorem flat_append (calls calls' : List Callback) :
    flat (calls ++ calls') = flat calls ++ flat calls' := List.flatMap_append

theorem flat_cons (call : Callback) (calls : List Callback) :
    flat (call :: calls) = call.expand ++ flat calls := List.flatMap_cons

@[simp] theorem flat_data (text : Bytes) :
    flat [.part_data text] = text.map fun c => .part_data [c] := List.append_nil _

section Slice
variable {buf : Bytes} {mark i : Nat} {c : UInt8}

theorem slice_self : slice buf i (i - i) = [] := by
  rw [slice, Nat.sub_self, List.take_zero]

theorem slice_succ (h : mark ≤ i) (hc : buf[i]? = some c) :
    slice buf mark (i + 1 - mark) = slice buf mark (i - mark) ++ [c] := by
  have hlen : i + 1 - mark = i - mark + 1 := by omega
  have hget : (buf.drop mark)[i - mark]? = some c := by
    rw [List.getElem?_drop, Nat.add_sub_cancel' h, hc]
  rw [slice, hlen, List.take_add_one, hget]
  rfl

end Slice

section Data
variable {b : Bytes} {k : Nat} {c : UInt8}

theorem delimiter_length (b : Bytes) : (delimiter b).length = b.length + 2 := rfl

theorem readData_zero (b : Bytes) (c : UInt8) : readData b 0 c =
    if c = CR then (.data 1, []) else (.data 0, [.part_data [c]]) := by
  rw [readData, delimiter_length]
  by_cases hc : c = CR
  · rw [if_pos hc, if_pos (by rw [hc]; rfl), if_neg (by omega), if_pos hc]
  · rw [if_neg hc, if_neg, if_neg hc]
    · rfl
    · intro h
      exact hc (Option.some.inj h).symm

/-- A byte that does not go on with the delimiter is read as the first one after it. -/
theorem readData_restart (h : (delimiter b)[k]? ≠ some c) :
    (readData b k c).1 = (readData b 0 c).1 ∧
      flat (readData b k c).2 =
        flat [.part_data ((delimiter b).take k)] ++ flat (readData b 0 c).2 := by
  rw [readData_zero, readData, if_neg h]
  by_cases hc : c = CR
  · rw [if_pos hc, if_pos hc]
    simp
  · rw [if_neg hc, if_neg hc]
    simp

end Data

open MultipartParser

def Place (b buf : Bytes) (p : MultipartParser) (i mark : Nat) : Mode → Prop
  | .opening k => k < (opening b).length ∧
      (k = 0 ∧ p.state = .s_start ∨ p.state = .s_start_boundary ∧ p.index = k)
  | .field name => name = [] ∧ p.state = .s_header_field_start ∨
      p.state = .s_header_field ∧ mark ≤ i ∧ slice buf mark (i - mark) = name
  | .headersDone => p.state = .s_headers_almost_done
  | .valueStart => p.state = .s_header_value_start
  | .value text => p.state = .s_header_value ∧ mark ≤ i ∧ slice buf mark (i - mark) = text
  | .valueDone => p.state = .s_header_value_almost_done
  | .dataStart => p.state = .s_part_data_start
  | .data 0 => p.state = .s_part_data ∧ mark ≤ i
  | .data 1 => p.state = .s_part_data_almost_boundary ∧ p.lookbehind.take 1 = [CR]
  | .data (k + 2) => p.state = .s_part_data_boundary ∧ p.index = k ∧ k < b.length ∧
      p.lookbehind.take (k + 2) = (delimiter b).take (k + 2)
  | .dataDone => p.state = .s_part_data_almost_end
  | .nextPart => p.state = .s_part_data_end
  | .hyphen => p.state = .s_part_data_final_hyphen
  | .finished => p.state = .s_end

structure Follows (b buf : Bytes) (p : MultipartParser) (i mark : Nat) (m : Mode) : Prop where
  boundary : p.multipart_boundary = b
  boundary_length : p.boundary_length = b.length
  room : p.lookbehind.length = b.length + 9
  place : Place b buf p i mark m

/-- The data behind the mark, which has not been handed out. -/
def held (buf : Bytes) (p : MultipartParser) (i mark : Nat) : List Callback :=
  if p.state = .s_part_data then (slice buf mark (i - mark)).map fun c => .part_data [c] else []

/-- The rounds of the loop about one byte, one or two of them. -/
inductive Passed (buf : Bytes) (c : UInt8) (is_last : Bool) (p : MultipartParser) (i mark : Nat) :
    MultipartParser → Nat → List Callback → Prop
  | once {p' : MultipartParser} {mark' : Nat} {calls : List Callback} :
      p.step buf i mark c is_last = .next p' (i + 1) mark' calls →
      Passed buf c is_last p i mark p' mark' calls
  | twice {q p' : MultipartParser} {mark₁ mark' : Nat} {calls₁ calls : List Callback} :
      p.step buf i mark c is_last = .next q i mark₁ calls₁ →
      q.step buf i mark₁ c is_last = .next p' (i + 1) mark' calls →
      Passed buf c is_last p i mark p' mark' (calls₁ ++ calls)

/-- None of the calls is about the end of a part. -/
def NoEnd (calls : List Callback) : Prop := .part_data_end ∉ calls

/-- The parser has passed a byte that the reader has read. At the last byte it hands out what is
behind the mark, whether a text has come to its end or not. -/
structure Kept (b buf : Bytes) (is_last : Bool) (before : List Callback) (i : Nat)
    (r : Mode × List Callback) (p : MultipartParser) (mark : Nat)
    (calls last : List Callback) : Prop where
  follows : Follows b buf p (i + 1) mark r.1
  flat : before ++ flat r.2 = flat calls ++ held buf p (i + 1) mark
  not_last : is_last = false → last = []
  last : is_last = true → ∃ extra, Http.flat last = held buf p (i + 1) mark ++ extra ∧ NoEnd extra

section Round
variable {b buf : Bytes} {p q : MultipartParser} {i mark : Nat} {c : UInt8} {is_last : Bool}
  {m : Mode} {r : Mode × List Callback}

theorem held_eq_nil (h : p.state ≠ .s_part_data) : held buf p i mark = [] := if_neg h

/-- A byte that is passed without data: there is nothing behind the mark. -/
theorem kept_silent {mark₀ : Nat} {calls : List Callback} (hbefore : p.state ≠ .s_part_data)
    (hstate : q.state ≠ .s_part_data) (hfollows : Follows b buf q (i + 1) mark m) :
    Kept b buf is_last (held buf p i mark₀) i (m, calls) q mark calls [] := by
  refine ⟨hfollows, ?_, fun _ => rfl, ?_⟩
  · rw [held_eq_nil hbefore, held_eq_nil hstate, List.nil_append, List.append_nil]
  · intro _
    rw [held_eq_nil hstate]
    exact ⟨[], rfl, List.not_mem_nil⟩

theorem kept_part_data (hq : q.multipart_boundary = b) (hlen : q.boundary_length = b.length)
    (hroom : q.lookbehind.length = b.length + 9) (hstate : q.state = .s_part_data)
    (hmark : mark ≤ i) (hc : buf[i]? = some c) :
    ∃ p' mark' calls last, q.part_data buf i mark c is_last = .next p' (i + 1) mark' (calls ++ last) ∧
      Kept b buf is_last (held buf q i mark) i (readData b 0 c) p' mark' calls last := by
  rw [readData_zero, part_data]
  by_cases hcr : c = CR
  · rw [if_pos hcr, if_pos hcr]
    refine ⟨_, _, _, [], congrArg _ (List.append_nil _).symm, ?_, ?_, fun _ => rfl, ?_⟩
    · refine ⟨hq, hlen, ?_, rfl, ?_⟩
      · rw [List.length_set]
        exact hroom
      · rw [List.take_one, List.head?_eq_getElem?, List.getElem?_set_self (by omega)]
        rfl
    · rw [held, if_pos hstate]
      simp [held]
    · intro _
      exact ⟨[], by simp [held], List.not_mem_nil⟩
  · rw [if_neg hcr, if_neg hcr]
    refine ⟨q, mark, [], if is_last then [.part_data (slice buf mark (i - mark + 1))] else [], rfl,
      ?_, ?_, ?_, ?_⟩
    · exact ⟨hq, hlen, hroom, hstate, Nat.le_succ_of_le hmark⟩
    · rw [held, if_pos hstate, held, if_pos hstate, slice_succ hmark hc]
      simp
    · intro hlast
      rw [hlast]
      rfl
    · intro hlast
      refine ⟨[], ?_, List.not_mem_nil⟩
      have hlength : i + 1 - mark = i - mark + 1 := by omega
      simp [hlast, held, hstate, hlength]

/-- What one round has to show for a byte that the reader reads. -/
def Passes (b buf : Bytes) (p : MultipartParser) (i mark : Nat) (c : UInt8) (is_last : Bool)
    (r : Mode × List Callback) : Prop :=
  ∃ p' mark' calls last, Passed buf c is_last p i mark p' mark' (calls ++ last) ∧
    Kept b buf is_last (held buf p i mark) i r p' mark' calls last

/-- A round without data that hands out what the reader hands out. -/
theorem passes_silent {mark₀ : Nat} {calls : List Callback}
    (hstep : p.step buf i mark₀ c is_last = .next q (i + 1) mark calls)
    (hp : p.state ≠ .s_part_data) (hq : q.state ≠ .s_part_data)
    (hfollows : Follows b buf q (i + 1) mark m) :
    Passes b buf p i mark₀ c is_last (m, calls) := by
  refine ⟨q, mark, calls, [], .once ?_, kept_silent hp hq hfollows⟩
  rw [List.append_nil]
  exact hstep

theorem opening_length (b : Bytes) : (opening b).length = b.length + 2 := List.length_append

theorem opening_getElem? {k : Nat} (hk : k < (opening b).length) : (opening b)[k]? =
    if k = b.length then some CR else if k = b.length + 1 then some LF else some (b.getD k 0) := by
  rw [opening, List.length_append] at hk
  rw [opening]
  by_cases hlt : k < b.length
  · rw [List.getElem?_append_left hlt, if_neg (by omega), if_neg (by omega)]
    simp [hlt]
  · rw [List.getElem?_append_right (by omega)]
    by_cases heq : k = b.length
    · rw [if_pos heq, heq, Nat.sub_self]
      rfl
    · have hlast : k = b.length + 1 := by
        simp only [List.length_cons, List.length_nil] at hk
        omega
      rw [if_neg heq, if_pos hlast, hlast, Nat.add_sub_cancel_left]
      rfl

/-- The opening line is read like one text. -/
theorem start_boundary_eq (hqb : q.multipart_boundary = b) (hql : q.boundary_length = b.length)
    (hk : q.index < (opening b).length) : q.start_boundary i mark c =
      if (opening b)[q.index]? = some c then
        if q.index + 1 = (opening b).length then
          .next { q with index := 0, state := .s_header_field_start } (i + 1) mark [.part_data_begin]
        else .next { q with index := q.index + 1 } (i + 1) mark []
      else .ret i q := by
  rw [start_boundary, opening_getElem? hk, opening_length, hql]
  rw [opening_length] at hk
  by_cases hend : q.index = b.length
  · have hnext : q.index + 1 ≠ b.length + 2 := by omega
    rw [if_pos hend, if_pos hend, if_neg hnext]
    by_cases hc : c = CR
    · rw [if_neg (not_not.mpr hc), if_pos (by rw [hc])]
    · rw [if_pos hc, if_neg (fun h => hc (Option.some.inj h).symm)]
  · rw [if_neg hend, if_neg hend]
    by_cases hlast : q.index = b.length + 1
    · have hnext : q.index + 1 = b.length + 2 := by omega
      rw [if_pos hlast, if_pos hlast, if_pos hnext]
      by_cases hc : c = LF
      · rw [if_neg (not_not.mpr hc), if_pos (by rw [hc])]
      · rw [if_pos hc, if_neg (fun h => hc (Option.some.inj h).symm)]
    · have hnext : q.index + 1 ≠ b.length + 2 := by omega
      rw [if_neg hlast, if_neg hlast, if_neg hnext, boundaryAt, hqb]
      by_cases hc : c = b.getD q.index 0
      · rw [if_neg (not_not.mpr hc), if_pos (by rw [hc])]
      · rw [if_pos hc, if_neg (fun h => hc (Option.some.inj h).symm)]

/-- The first byte sets the index to zero. -/
theorem opening_start {k : Nat} (hf : Follows b buf p i mark (.opening k)) :
    ∃ q : MultipartParser, p.step buf i mark c is_last = q.start_boundary i mark c ∧ q.index = k ∧
      q.state = .s_start_boundary ∧ q.multipart_boundary = b ∧ q.boundary_length = b.length ∧
      q.lookbehind.length = b.length + 9 := by
  obtain ⟨hboundary, hlength, hroom, -, hplace⟩ := hf
  cases hplace with
  | inl h =>
    refine ⟨{ p with index := 0, state := .s_start_boundary }, ?_, h.1.symm, rfl, hboundary, hlength,
      hroom⟩
    rw [step, h.2]
  | inr h =>
    refine ⟨p, ?_, h.2, h.1, hboundary, hlength, hroom⟩
    rw [step, h.1]

theorem passes_opening {k : Nat} (hf : Follows b buf p i mark (.opening k))
    (hr : Mode.read b c (.opening k) = some r) : Passes b buf p i mark c is_last r := by
  have hp : p.state ≠ .s_part_data := by
    intro heq
    cases hf.place.2 with
    | inl h => rw [heq] at h; cases h.2
    | inr h => rw [heq] at h; cases h.1
  obtain ⟨q, hstep, rfl, hqs, hqb, hql, hqr⟩ := @opening_start _ _ _ _ _ c is_last _ hf
  rw [start_boundary_eq hqb hql hf.place.1] at hstep
  rw [Mode.read] at hr
  split at hr
  · rename_i hc
    rw [if_pos hc] at hstep
    split at hr
    · rename_i hlast
      rw [if_pos hlast] at hstep
      obtain rfl := Option.some.inj hr
      exact passes_silent hstep hp (by simp) ⟨hqb, hql, hqr, Or.inl ⟨rfl, rfl⟩⟩
    · rename_i hlast
      rw [if_neg hlast] at hstep
      obtain rfl := Option.some.inj hr
      have hlt := hf.place.1
      apply passes_silent hstep hp
      · rw [hqs]
        simp
      · refine ⟨hqb, hql, hqr, ?_, Or.inr ⟨hqs, rfl⟩⟩
        omega
  · cases hr

/-- What a round has to show for a byte that the reader cannot read. -/
def Stops (buf : Bytes) (p : MultipartParser) (i mark : Nat) (c : UInt8) (is_last : Bool) : Prop :=
  ∃ q, p.step buf i mark c is_last = .ret i q

theorem stops_opening {k : Nat} (hf : Follows b buf p i mark (.opening k))
    (hr : Mode.read b c (.opening k) = none) : Stops buf p i mark c is_last := by
  obtain ⟨q, hstep, rfl, -, hqb, hql, -⟩ := @opening_start _ _ _ _ _ c is_last _ hf
  rw [start_boundary_eq hqb hql hf.place.1] at hstep
  rw [Mode.read] at hr
  split at hr
  · split at hr
    · cases hr
    · cases hr
  · rename_i hc
    rw [if_neg hc] at hstep
    exact ⟨q, hstep⟩

/-- A byte of a text that is not data; at the last byte the text is handed out. -/
theorem passes_text {mark₀ : Nat} {call : Callback}
    (hstep : p.step buf i mark₀ c is_last = .next q (i + 1) mark (if is_last then [call] else []))
    (hcall : NoEnd (flat [call])) (hp : p.state ≠ .s_part_data) (hq : q.state ≠ .s_part_data)
    (hfollows : Follows b buf q (i + 1) mark m) : Passes b buf p i mark₀ c is_last (m, []) := by
  refine ⟨q, mark, [], if is_last then [call] else [], .once hstep, hfollows, ?_, ?_, ?_⟩
  · rw [held_eq_nil hp, held_eq_nil hq]
    rfl
  · intro hlast
    rw [hlast]
    rfl
  · intro hlast
    rw [hlast, held_eq_nil hq]
    exact ⟨flat [call], rfl, hcall⟩

/-- The name of a header is marked where its first byte is read. -/
theorem field_start {name : Bytes} (hf : Follows b buf p i mark (.field name)) :
    ∃ (q : MultipartParser) (mark₁ : Nat),
      p.step buf i mark c is_last = q.header_field buf i mark₁ c is_last ∧
      Follows b buf q i mark₁ (.field name) ∧ q.state = .s_header_field ∧ mark₁ ≤ i ∧
      slice buf mark₁ (i - mark₁) = name ∧ p.state ≠ .s_part_data := by
  obtain ⟨hboundary, hlength, hroom, hplace⟩ := hf
  cases hplace with
  | inl h =>
    obtain ⟨rfl, hs⟩ := h
    have hmark : i ≤ i ∧ slice buf i (i - i) = [] := ⟨Nat.le_refl i, slice_self⟩
    refine ⟨{ p with state := .s_header_field }, i, ?_, ⟨hboundary, hlength, hroom, ?_⟩, rfl, hmark.1,
      hmark.2, ?_⟩
    · rw [step, hs]
    · exact Or.inr ⟨rfl, hmark⟩
    · rw [hs]
      simp
  | inr h =>
    refine ⟨p, mark, ?_, ⟨hboundary, hlength, hroom, Or.inr h⟩, h.1, h.2.1, h.2.2, ?_⟩
    · rw [step, h.1]
    · rw [h.1]
      simp

theorem passes_field {name : Bytes} (hf : Follows b buf p i mark (.field name))
    (hc : buf[i]? = some c) (hr : Mode.read b c (.field name) = some r) :
    Passes b buf p i mark c is_last r := by
  obtain ⟨q, mark₁, hstep, hq, hqs, hmark, hslice, hp⟩ := @field_start _ _ _ _ _ c is_last _ hf
  obtain ⟨hboundary, hlength, hroom, -⟩ := hq
  rw [header_field, hslice] at hstep
  rw [Mode.read] at hr
  split at hr
  · rename_i hcr
    rw [if_pos hcr] at hstep
    obtain rfl := Option.some.inj hr
    exact passes_silent hstep hp (by simp) ⟨hboundary, hlength, hroom, rfl⟩
  · rename_i hcr
    rw [if_neg hcr] at hstep
    split at hr
    · rename_i hcolon
      rw [if_pos hcolon] at hstep
      obtain rfl := Option.some.inj hr
      exact passes_silent hstep hp (by simp) ⟨hboundary, hlength, hroom, rfl⟩
    · rename_i hcolon
      rw [if_neg hcolon] at hstep
      split at hr
      · rename_i hchar
        rw [if_neg (by simp [hchar])] at hstep
        obtain rfl := Option.some.inj hr
        apply passes_text hstep (by simp [NoEnd, flat, Callback.expand]) hp
        · rw [hqs]
          simp
        · refine ⟨hboundary, hlength, hroom, Or.inr ⟨hqs, Nat.le_succ_of_le hmark, ?_⟩⟩
          rw [slice_succ hmark hc, hslice]
      · cases hr

theorem stops_field {name : Bytes} (hf : Follows b buf p i mark (.field name))
    (hr : Mode.read b c (.field name) = none) : Stops buf p i mark c is_last := by
  obtain ⟨q, mark₁, hstep, -⟩ := @field_start _ _ _ _ _ c is_last _ hf
  rw [Mode.read] at hr
  split at hr
  · cases hr
  · rename_i hcr
    split at hr
    · cases hr
    · rename_i hcolon
      split at hr
      · cases hr
      · rename_i hchar
        rw [header_field, if_neg hcr, if_neg hcolon, if_pos (by simp [hchar])] at hstep
        exact ⟨q, hstep⟩

theorem passes_header_value {mark₀ : Nat} (text : Bytes) (hp : p.state ≠ .s_part_data)
    (hstep : p.step buf i mark₀ c is_last = q.header_value buf i mark c is_last)
    (hq : Follows b buf q i mark (.value text)) (hc : buf[i]? = some c) :
    Passes b buf p i mark₀ c is_last
      (if c = CR then (.valueDone, [.header_value text]) else (.value (text ++ [c]), [])) := by
  obtain ⟨hboundary, hlength, hroom, hqs, hmark, hslice⟩ := hq
  rw [header_value, hslice] at hstep
  split
  · rename_i hcr
    rw [if_pos hcr] at hstep
    exact passes_silent hstep hp (by simp) ⟨hboundary, hlength, hroom, rfl⟩
  · rename_i hcr
    rw [if_neg hcr] at hstep
    apply passes_text hstep (by simp [NoEnd, flat, Callback.expand]) hp
    · rw [hqs]
      simp
    · refine ⟨hboundary, hlength, hroom, hqs, Nat.le_succ_of_le hmark, ?_⟩
      rw [slice_succ hmark hc, hslice]

/-- The byte after a part of the delimiter that has been matched is looked at once more. -/
theorem passes_again {k : Nat} (hf : Follows b buf p i mark m) (hp : p.state ≠ .s_part_data)
    (hstep : p.step buf i mark c is_last =
      .next { p with state := .s_part_data } i i [.part_data ((delimiter b).take k)])
    (hne : (delimiter b)[k]? ≠ some c) (hc : buf[i]? = some c) :
    Passes b buf p i mark c is_last (readData b k c) := by
  obtain ⟨p', mark', calls, last, hround, hkept⟩ := @kept_part_data b buf
    { p with state := .s_part_data } i i c is_last hf.boundary hf.boundary_length hf.room rfl
    (Nat.le_refl i) hc
  obtain ⟨hmode, hflat⟩ := readData_restart hne
  refine ⟨p', mark', [.part_data ((delimiter b).take k)] ++ calls, last, ?_, ?_⟩
  · rw [List.append_assoc]
    exact .twice hstep hround
  · refine ⟨hmode ▸ hkept.follows, ?_, hkept.not_last, hkept.last⟩
    have hdata := hkept.flat
    rw [held, if_pos rfl, slice_self, List.map_nil, List.nil_append] at hdata
    rw [held_eq_nil hp, List.nil_append, hflat, hdata, flat_append, List.append_assoc]

theorem passes_dataStart (hf : Follows b buf p i mark .dataStart) (hc : buf[i]? = some c) :
    Passes b buf p i mark c is_last
      ((readData b 0 c).1, .headers_complete :: (readData b 0 c).2) := by
  have hs : p.state = .s_part_data_start := hf.place
  obtain ⟨p', mark', calls, last, hround, hkept⟩ := @kept_part_data b buf
    { p with state := .s_part_data } i i c is_last hf.boundary hf.boundary_length hf.room rfl
    (Nat.le_refl i) hc
  refine ⟨p', mark', .headers_complete :: calls, last, .once ?_, ?_⟩
  · rw [step, hs]
    simp only [hround]
    rfl
  · refine ⟨hkept.follows, ?_, hkept.not_last, hkept.last⟩
    have hdata := hkept.flat
    rw [held, if_pos rfl, slice_self, List.map_nil, List.nil_append] at hdata
    have hp : p.state ≠ .s_part_data := by
      rw [hs]
      simp
    rw [held_eq_nil hp, List.nil_append, flat_cons, flat_cons, hdata, List.append_assoc]

theorem readData_next {k : Nat} (h : (delimiter b)[k]? = some c) (hk : k + 1 ≠ b.length + 2) :
    readData b k c = (.data (k + 1), []) := by
  rw [readData, if_pos h, delimiter_length, if_neg hk]

theorem passes_almost_boundary (hb : b ≠ []) (hf : Follows b buf p i mark (.data 1))
    (hc : buf[i]? = some c) : Passes b buf p i mark c is_last (readData b 1 c) := by
  have hfollows := hf
  obtain ⟨hboundary, hlength, hroom, hs, hback⟩ := hf
  have hpos := List.length_pos_iff.mpr hb
  have hp : p.state ≠ .s_part_data := by
    rw [hs]
    simp
  by_cases hlf : c = LF
  · rw [readData_next (by rw [hlf]; rfl) (by omega)]
    have hstep : p.step buf i mark c is_last = .next { p with
        index := 0, state := .s_part_data_boundary, lookbehind := p.lookbehind.set 1 LF }
        (i + 1) mark [] := by
      rw [step, hs]
      simp only [if_pos hlf]
    apply passes_silent hstep hp (by simp)
    refine ⟨hboundary, hlength, ?_, rfl, rfl, hpos, ?_⟩
    · rw [List.length_set]
      exact hroom
    · cases hlook : p.lookbehind with
      | nil =>
        rw [hlook] at hroom
        cases hroom
      | cons x rest =>
        rw [hlook] at hback hroom
        cases rest with
        | nil =>
          simp only [List.length_cons, List.length_nil] at hroom
          omega
        | cons y rest =>
          simp only [List.take_succ_cons, List.take_zero, List.cons.injEq] at hback
          simp [delimiter, hback.1]
  · refine passes_again hfollows hp ?_ ?_ hc
    · rw [step, hs]
      simp only [if_neg hlf, hback]
      rfl
    · intro h
      exact hlf (Option.some.inj h).symm

theorem passes_boundary {k : Nat} (hf : Follows b buf p i mark (.data (k + 2)))
    (hc : buf[i]? = some c) : Passes b buf p i mark c is_last (readData b (k + 2) c) := by
  have hfollows := hf
  obtain ⟨hboundary, hlength, hroom, hs, hindex, hlt, hback⟩ := hf
  have hp : p.state ≠ .s_part_data := by
    rw [hs]
    simp
  have hat : p.boundaryAt p.index = b.getD k 0 := by rw [boundaryAt, hboundary, hindex]
  have hget : (delimiter b)[k + 2]? = some (b.getD k 0) := by
    simp [delimiter, hlt]
  have hround : p.step buf i mark c is_last = p.part_data_boundary i mark c := by rw [step, hs]
  by_cases hmatch : b.getD k 0 = c
  · have hroom' : (p.lookbehind.set (2 + k) c).length = b.length + 9 := by
      rw [List.length_set]
      exact hroom
    rw [part_data_boundary, hat, if_neg (not_not.mpr hmatch), hindex] at hround
    by_cases hlast : k + 1 = b.length
    · have hr : readData b (k + 2) c = (.dataDone, [.part_data_end]) := by
        rw [readData, if_pos (by rw [hget, hmatch]), delimiter_length, if_pos (by omega)]
      rw [hr]
      simp only [hlength, if_pos hlast] at hround
      exact passes_silent hround hp (by simp) ⟨hboundary, rfl, hroom', rfl⟩
    · rw [readData_next (by rw [hget, hmatch]) (by omega)]
      simp only [hlength, if_neg hlast] at hround
      apply passes_silent hround hp
      · simp [hs]
      · refine ⟨hboundary, rfl, hroom', hs, rfl, by omega, ?_⟩
        have htake : (p.lookbehind.set (2 + k) c).take (k + 2) = (delimiter b).take (k + 2) := by
          rw [List.take_set_of_le (by omega), hback]
        have hlook : (p.lookbehind.set (2 + k) c)[k + 2]? = some c := by
          rw [Nat.add_comm k 2, List.getElem?_set_self (by omega)]
        rw [List.take_add_one, List.take_add_one (l := delimiter b), htake, hlook, hget, hmatch]
  · refine passes_again hfollows hp ?_ ?_ hc
    · rw [hround, part_data_boundary, hat, if_pos hmatch, hindex, Nat.add_comm 2 k, hback]
    · rw [hget]
      intro h
      exact hmatch (Option.some.inj h)

theorem passes_expected {d : UInt8} {calls : List Callback}
    (hr : (if c = d then some (m, calls) else none) = some r)
    (hstep : c = d → p.step buf i mark c is_last = .next q (i + 1) mark calls)
    (hp : p.state ≠ .s_part_data) (hq : q.state ≠ .s_part_data)
    (hfollows : Follows b buf q (i + 1) mark m) : Passes b buf p i mark c is_last r := by
  split at hr
  · rename_i hcd
    obtain rfl := Option.some.inj hr
    exact passes_silent (hstep hcd) hp hq hfollows
  · cases hr

theorem passes_dataDone (hf : Follows b buf p i mark .dataDone)
    (hr : Mode.read b c .dataDone = some r) : Passes b buf p i mark c is_last r := by
  have hs : p.state = .s_part_data_almost_end := hf.place
  rw [Mode.read] at hr
  by_cases hhyphen : c = 45
  · rw [if_pos hhyphen] at hr
    obtain rfl := Option.some.inj hr
    have hstep : p.step buf i mark c is_last =
        .next { p with state := .s_part_data_final_hyphen } (i + 1) mark [] := by
      rw [step, hs]
      simp only [if_pos hhyphen]
    exact passes_silent hstep (by simp [hs]) (by simp) ⟨hf.boundary, hf.boundary_length, hf.room, rfl⟩
  · rw [if_neg hhyphen] at hr
    refine passes_expected (q := { p with state := .s_part_data_end }) hr ?_ (by simp [hs]) (by simp)
      ⟨hf.boundary, hf.boundary_length, hf.room, rfl⟩
    intro hcr
    rw [step, hs]
    simp only [if_neg hhyphen, if_pos hcr]

theorem passes_valueStart (hf : Follows b buf p i mark .valueStart) (hc : buf[i]? = some c)
    (hr : Mode.read b c .valueStart = some r) : Passes b buf p i mark c is_last r := by
  have hs : p.state = .s_header_value_start := hf.place
  rw [Mode.read] at hr
  by_cases hspace : c = 32
  · rw [if_pos hspace] at hr
    obtain rfl := Option.some.inj hr
    have hstep : p.step buf i mark c is_last = .next p (i + 1) mark [] := by
      rw [step, hs]
      simp only [if_pos hspace]
    exact passes_silent hstep (by simp [hs]) (by simp [hs])
      ⟨hf.boundary, hf.boundary_length, hf.room, hs⟩
  · rw [if_neg hspace, ← apply_ite some] at hr
    obtain rfl := Option.some.inj hr
    have hstep : p.step buf i mark c is_last =
        header_value { p with state := .s_header_value } buf i i c is_last := by
      rw [step, hs]
      simp only [if_neg hspace]
    exact passes_header_value [] (by simp [hs]) hstep
      ⟨hf.boundary, hf.boundary_length, hf.room, rfl, Nat.le_refl i, slice_self⟩ hc

/-- A byte that the reader reads is passed by the parser. -/
theorem passes (hb : b ≠ []) (hf : Follows b buf p i mark m) (hc : buf[i]? = some c)
    (hr : m.read b c = some r) : Passes b buf p i mark c is_last r := by
  have hboundary := hf.boundary
  have hlength := hf.boundary_length
  have hroom := hf.room
  cases m with
  | opening k => exact passes_opening hf hr
  | field name => exact passes_field hf hc hr
  | headersDone =>
    have hs : p.state = .s_headers_almost_done := hf.place
    refine passes_expected (q := { p with state := .s_part_data_start }) hr ?_ (by simp [hs])
      (by simp) ⟨hboundary, hlength, hroom, rfl⟩
    intro hlf
    rw [step, hs]
    simp only [if_neg (not_not.mpr hlf)]
  | valueStart => exact passes_valueStart hf hc hr
  | value text =>
    have hs : p.state = .s_header_value := hf.place.1
    rw [Mode.read, ← apply_ite some] at hr
    obtain rfl := Option.some.inj hr
    exact passes_header_value text (by simp [hs]) (by rw [step, hs]) hf hc
  | valueDone =>
    have hs : p.state = .s_header_value_almost_done := hf.place
    refine passes_expected (q := { p with state := .s_header_field_start }) hr ?_ (by simp [hs])
      (by simp) ⟨hboundary, hlength, hroom, Or.inl ⟨rfl, rfl⟩⟩
    intro hlf
    rw [step, hs]
    simp only [if_neg (not_not.mpr hlf)]
  | dataStart =>
    obtain rfl := Option.some.inj hr
    exact passes_dataStart hf hc
  | data k =>
    obtain rfl := Option.some.inj hr
    match k with
    | 0 =>
      have hplace : p.state = .s_part_data ∧ mark ≤ i := hf.place
      obtain ⟨p', mark', calls, last, hround, hkept⟩ := @kept_part_data b buf p i mark c is_last
        hboundary hlength hroom hplace.1 hplace.2 hc
      refine ⟨p', mark', calls, last, .once ?_, hkept⟩
      rw [step, hplace.1]
      exact hround
    | 1 => exact passes_almost_boundary hb hf hc
    | k + 2 => exact passes_boundary hf hc
  | dataDone => exact passes_dataDone hf hr
  | nextPart =>
    have hs : p.state = .s_part_data_end := hf.place
    refine passes_expected (q := { p with state := .s_header_field_start }) hr ?_ (by simp [hs])
      (by simp) ⟨hboundary, hlength, hroom, Or.inl ⟨rfl, rfl⟩⟩
    intro hlf
    rw [step, hs]
    simp only [if_pos hlf]
  | hyphen =>
    have hs : p.state = .s_part_data_final_hyphen := hf.place
    refine passes_expected (q := { p with state := .s_end }) hr ?_ (by simp [hs]) (by simp)
      ⟨hboundary, hlength, hroom, rfl⟩
    intro hhyphen
    rw [step, hs]
    simp only [if_pos hhyphen]
  | finished =>
    have hs : p.state = .s_end := hf.place
    obtain rfl := Option.some.inj hr
    have hstep : p.step buf i mark c is_last = .next p (i + 1) mark [] := by rw [step, hs]
    exact passes_silent hstep (by simp [hs]) (by simp [hs]) ⟨hboundary, hlength, hroom, hs⟩

/-- A byte that the reader cannot read stops the parser. -/
theorem stops (hf : Follows b buf p i mark m) (hr : m.read b c = none) :
    Stops buf p i mark c is_last := by
  cases m with
  | opening k => exact stops_opening hf hr
  | field name => exact stops_field hf hr
  | headersDone =>
    have hs : p.state = .s_headers_almost_done := hf.place
    rw [Mode.read] at hr
    split at hr
    · cases hr
    · rename_i hlf
      refine ⟨p, ?_⟩
      rw [step, hs]
      simp only [if_pos hlf]
  | valueDone =>
    have hs : p.state = .s_header_value_almost_done := hf.place
    rw [Mode.read] at hr
    split at hr
    · cases hr
    · rename_i hlf
      refine ⟨p, ?_⟩
      rw [step, hs]
      simp only [if_pos hlf]
  | dataDone =>
    have hs : p.state = .s_part_data_almost_end := hf.place
    rw [Mode.read] at hr
    split at hr
    · cases hr
    · rename_i hhyphen
      split at hr
      · cases hr
      · rename_i hcr
        refine ⟨p, ?_⟩
        rw [step, hs]
        simp only [if_neg hhyphen, if_neg hcr]
  | nextPart =>
    have hs : p.state = .s_part_data_end := hf.place
    rw [Mode.read] at hr
    split at hr
    · cases hr
    · rename_i hlf
      refine ⟨p, ?_⟩
      rw [step, hs]
      simp only [if_neg hlf]
  | hyphen =>
    have hs : p.state = .s_part_data_final_hyphen := hf.place
    rw [Mode.read] at hr
    split at hr
    · cases hr
    · rename_i hhyphen
      refine ⟨p, ?_⟩
      rw [step, hs]
      simp only [if_neg hhyphen]
  | valueStart =>
    rw [Mode.read] at hr
    split at hr
    · cases hr
    · split at hr
      · cases hr
      · cases hr
  | value text =>
    rw [Mode.read] at hr
    split at hr
    · cases hr
    · cases hr
  | dataStart => cases hr
  | data k => cases hr
  | finished => cases hr

theorem loop_next {i' mark' : Nat} {calls : List Callback} (hi : i < buf.length)
    (h : p.step buf i mark buf[i] (i = buf.length - 1) = .next q i' mark' calls) :
    p.loop buf i mark = ((q.loop buf i' mark').1, (q.loop buf i' mark').2.1,
      calls ++ (q.loop buf i' mark').2.2) := by
  rw [MultipartParser.loop, dif_pos hi]
  split
  · rename_i hr
    rw [h] at hr
    cases hr
  · rename_i hr
    rw [h] at hr
    cases hr
    rfl

theorem loop_passed {mark' : Nat} {calls : List Callback} (hi : i < buf.length)
    (h : Passed buf buf[i] (i = buf.length - 1) p i mark q mark' calls) :
    p.loop buf i mark = ((q.loop buf (i + 1) mark').1, (q.loop buf (i + 1) mark').2.1,
      calls ++ (q.loop buf (i + 1) mark').2.2) := by
  cases h with
  | once hstep => exact loop_next hi hstep
  | twice hstep hagain =>
    rw [loop_next hi hstep, loop_next hi hagain, List.append_assoc]

theorem loop_ended (hi : buf.length ≤ i) : p.loop buf i mark = (buf.length, p, []) := by
  rw [MultipartParser.loop, dif_neg (Nat.not_lt.mpr hi)]

theorem loop_stops (hi : i < buf.length)
    (h : Stops buf p i mark buf[i] (i = buf.length - 1)) :
    ∃ q, p.loop buf i mark = (i, q, []) := by
  obtain ⟨q, hstep⟩ := h
  refine ⟨q, ?_⟩
  rw [MultipartParser.loop, dif_pos hi]
  split
  · rename_i hr
    rw [hstep] at hr
    cases hr
    rfl
  · rename_i hr
    rw [hstep] at hr
    cases hr

/-- A text that the reader reads is consumed, and its data handed out. -/
theorem loop_reads {x : Bytes} {m' : Mode} {read : List Callback} (hb : b ≠ []) (hx : x ≠ [])
    (hdrop : buf.drop i = x) (hf : Follows b buf p i mark m)
    (hrun : Mode.run b m x = some (m', read)) :
    ∃ q mark' calls, p.loop buf i mark = (buf.length, q, calls) ∧
      Follows b buf q buf.length mark' m' ∧
      ∃ extra, flat calls = held buf p i mark ++ flat read ++ extra ∧ NoEnd extra := by
  induction x generalizing i p mark m read with
  | nil => exact absurd rfl hx
  | cons c x ih =>
    have hi : i < buf.length := by
      apply Nat.lt_of_not_le
      intro hle
      rw [List.drop_of_length_le hle] at hdrop
      cases hdrop
    rw [List.drop_eq_getElem_cons hi] at hdrop
    obtain ⟨hc, hdrop⟩ := List.cons.inj hdrop
    obtain ⟨m₁, calls₁, calls₂, hr, hs, rfl⟩ := Mode.run_cons_inv hrun
    have hget : buf[i]? = some c := by rw [List.getElem?_eq_getElem hi, hc]
    obtain ⟨p', mark', calls, last, hpassed, hkept⟩ :=
      @passes _ _ _ _ mark _ (decide (i = buf.length - 1)) _ _ hb hf hget hr
    rw [← hc] at hpassed
    rw [loop_passed hi hpassed]
    cases x with
    | nil =>
      -- the last byte
      obtain ⟨rfl, rfl⟩ := Prod.mk.inj (Option.some.inj hs)
      have hlen : buf.length = i + 1 := by
        have := List.drop_eq_nil_iff.mp hdrop
        omega
      obtain ⟨extra, hlast, hno⟩ := hkept.last (by simp [hlen])
      rw [loop_ended (Nat.le_of_eq hlen)]
      refine ⟨p', mark', _, rfl, hlen ▸ hkept.follows, extra, ?_, hno⟩
      rw [List.append_nil, List.append_nil, hkept.flat, flat_append, hlast, List.append_assoc]
    | cons d x =>
      have hlen : i + 1 < buf.length := by
        apply Nat.lt_of_not_le
        intro hle
        rw [List.drop_of_length_le hle] at hdrop
        cases hdrop
      have hnot := hkept.not_last (by simp; omega)
      obtain ⟨q, mark'', calls', hloop, hfollows, extra, hflat, hno⟩ :=
        ih (List.cons_ne_nil d x) hdrop hkept.follows hs
      rw [hloop]
      refine ⟨q, mark'', _, rfl, hfollows, extra, ?_, hno⟩
      rw [hnot, List.append_nil, flat_append, hflat, flat_append, ← List.append_assoc,
        ← List.append_assoc, ← hkept.flat, List.append_assoc (held buf p i mark)]

theorem noEnd_held : NoEnd (held buf p i mark) := by
  rw [held]
  split
  · simp [NoEnd]
  · exact List.not_mem_nil

/-- Where the reader cannot read on, the parser stops. -/
theorem loop_fails {x z : Bytes} {m' : Mode} {read : List Callback} (hb : b ≠ [])
    (hdrop : buf.drop i = x ++ c :: z) (hf : Follows b buf p i mark m)
    (hrun : Mode.run b m x = some (m', read)) (hnone : m'.read b c = none) :
    ∃ q calls before, p.loop buf i mark = (i + x.length, q, calls) ∧ NoEnd before ∧
      flat calls ++ before = held buf p i mark ++ flat read := by
  have hi : i < buf.length := by
    apply Nat.lt_of_not_le
    intro hle
    rw [List.drop_of_length_le hle] at hdrop
    cases x <;> cases hdrop
  rw [List.drop_eq_getElem_cons hi] at hdrop
  induction x generalizing i p mark m read with
  | nil =>
    obtain ⟨hc, -⟩ := List.cons.inj hdrop
    obtain ⟨rfl, rfl⟩ := Prod.mk.inj (Option.some.inj hrun)
    obtain ⟨q, hloop⟩ := loop_stops hi (hc ▸ stops hf hnone)
    refine ⟨q, [], held buf p i mark, hloop, noEnd_held, ?_⟩
    rw [flat_nil, List.nil_append, List.append_nil]
  | cons d x ih =>
    obtain ⟨hd, hdrop⟩ := List.cons.inj hdrop
    obtain ⟨m₁, calls₁, calls₂, hr, hs, rfl⟩ := Mode.run_cons_inv hrun
    have hget : buf[i]? = some d := by rw [List.getElem?_eq_getElem hi, hd]
    obtain ⟨p', mark', calls, last, hpassed, hkept⟩ :=
      @passes _ _ _ _ mark _ (decide (i = buf.length - 1)) _ _ hb hf hget hr
    have hlen : i + 1 < buf.length := by
      apply Nat.lt_of_not_le
      intro hle
      rw [List.drop_of_length_le hle] at hdrop
      cases x <;> cases hdrop
    have hnot := hkept.not_last (by simp; omega)
    rw [← hd] at hpassed
    rw [List.drop_eq_getElem_cons hlen] at hdrop
    obtain ⟨q, calls', before, hloop, hno, hflat⟩ := ih hkept.follows hs hlen hdrop
    refine ⟨q, calls ++ calls', before, ?_, hno, ?_⟩
    · rw [loop_passed hi hpassed, hloop, hnot, List.append_nil, List.length_cons]
      congr 1
      omega
    · rw [flat_append, List.append_assoc, hflat, flat_append, ← List.append_assoc,
        ← List.append_assoc, ← hkept.flat]

end Round

end CppPrivate.Http
