import CppPrivate.Http.Refines

/-! The text of a multipart body, part by part, and how the reader reads it. -/
namespace CppPrivate.Http
open Mode

/-- A header line, with everything behind its colon. -/
structure HeaderLine where
  name : Bytes
  raw : Bytes
deriving DecidableEq

namespace HeaderLine

def value (h : HeaderLine) : Bytes := h.raw.dropWhile (· == 32)

def text (h : HeaderLine) : Bytes := h.name ++ 58 :: h.raw ++ [CR, LF]

def calls (h : HeaderLine) : List Callback := [.header_field h.name, .header_value h.value]

def Valid (h : HeaderLine) : Prop := (∀ c ∈ h.name, isFieldChar c) ∧ CR ∉ h.raw

instance (h : HeaderLine) : Decidable h.Valid :=
  @instDecidableAnd _ _ (List.decidableBAll _ _) inferInstance

end HeaderLine

/-- A part: its header lines, the letters that may stand before the empty line, and its data. -/
structure Part where
  headers : List HeaderLine
  ending : Bytes
  content : Bytes
deriving DecidableEq

namespace Part

def head (p : Part) : Bytes := p.headers.flatMap HeaderLine.text ++ p.ending ++ [CR, LF]

/-- A part with the line break before it and the delimiter behind it. -/
def text (b : Bytes) (p : Part) : Bytes := [CR, LF] ++ p.head ++ (p.content ++ delimiter b)

def calls (p : Part) : List Callback :=
  .part_data_begin :: p.headers.flatMap HeaderLine.calls ++
    [.headers_complete, .part_data p.content, .part_data_end]

structure Valid (b : Bytes) (p : Part) : Prop where
  headers : ∀ h ∈ p.headers, h.Valid
  ending : ∀ c ∈ p.ending, isFieldChar c
  content : Restart.Passes (delimiter b) p.content

end Part

/-- The text of a body behind its first boundary. -/
def partsText (b : Bytes) (parts : List Part) : Bytes := parts.flatMap (Part.text b)

def partsCalls (parts : List Part) : List Callback := parts.flatMap Part.calls

/-- A body: the boundary, at least one part, two hyphens, and anything behind them. -/
def documentText (b : Bytes) (parts : List Part) (epilogue : Bytes) : Bytes :=
  b ++ partsText b parts ++ 45 :: 45 :: epilogue

def Document (b text : Bytes) : Prop :=
  ∃ parts epilogue, parts ≠ [] ∧ (∀ p ∈ parts, p.Valid b) ∧ text = documentText b parts epilogue

section Forward
variable {b : Bytes} {c : UInt8}

theorem isFieldChar_ne (h : isFieldChar c) : c ≠ CR ∧ c ≠ 58 := by
  constructor
  · intro heq
    subst heq
    cases h
  · intro heq
    subst heq
    cases h

theorem run_name {name : Bytes} (h : ∀ c ∈ name, isFieldChar c) (before : Bytes) :
    run b (.field before) name = some (.field (before ++ name), []) := by
  induction name generalizing before with
  | nil => rw [List.append_nil, run]
  | cons c name ih =>
    obtain ⟨hc, hname⟩ := List.forall_mem_cons.mp h
    obtain ⟨hcr, hcolon⟩ := isFieldChar_ne hc
    have hread : Mode.read b c (.field before) = some (.field (before ++ [c]), []) := by
      rw [Mode.read, if_neg hcr, if_neg hcolon, if_pos hc]
    rw [run_cons hread, ih hname, List.append_assoc]
    rfl

theorem run_value {raw : Bytes} (h : CR ∉ raw) (before : Bytes) :
    run b (.value before) raw = some (.value (before ++ raw), []) := by
  induction raw generalizing before with
  | nil => rw [List.append_nil, run]
  | cons c raw ih =>
    simp only [List.mem_cons, not_or] at h
    have hread : Mode.read b c (.value before) = some (.value (before ++ [c]), []) := by
      rw [Mode.read, if_neg (Ne.symm h.1)]
    rw [run_cons hread, ih h.2, List.append_assoc]
    rfl

/-- What stands behind the colon is read to the end of the line, without the spaces before it. -/
theorem run_raw {raw : Bytes} (h : CR ∉ raw) :
    run b .valueStart (raw ++ [CR, LF]) =
      some (.field [], [.header_value (raw.dropWhile (· == 32))]) := by
  induction raw with
  | nil => rfl
  | cons c raw ih =>
    simp only [List.mem_cons, not_or] at h
    rw [List.cons_append]
    by_cases hspace : c = 32
    · have hread : Mode.read b c .valueStart = some (.valueStart, []) := by
        rw [Mode.read, if_pos hspace]
      rw [run_cons hread, ih h.2, List.dropWhile_cons_of_pos (by simp [hspace])]
      rfl
    · have hread : Mode.read b c .valueStart = some (.value [c], []) := by
        rw [Mode.read, if_neg hspace, if_neg (Ne.symm h.1)]
      rw [run_cons hread, run_append (run_value h.2 [c]),
        List.dropWhile_cons_of_neg (by simp [hspace])]
      rfl

theorem run_header {h : HeaderLine} (hv : h.Valid) :
    run b (.field []) h.text = some (.field [], h.calls) := by
  have hcolon : Mode.read b 58 (.field h.name) = some (.valueStart, [.header_field h.name]) := rfl
  rw [HeaderLine.text, List.append_assoc, run_append (run_name hv.1 []), List.nil_append,
    List.cons_append, run_cons hcolon, run_raw hv.2]
  rfl

theorem run_headers {hs : List HeaderLine} (hv : ∀ h ∈ hs, h.Valid) :
    run b (.field []) (hs.flatMap HeaderLine.text) =
      some (.field [], hs.flatMap HeaderLine.calls) := by
  induction hs with
  | nil => rfl
  | cons h hs ih =>
    obtain ⟨hh, hhs⟩ := List.forall_mem_cons.mp hv
    exact run_trans (run_header hh) (ih hhs)

theorem flat_data_cons {x y : Bytes} {calls calls' : List Callback}
    (h : flat calls = flat (.part_data y :: calls')) :
    flat (.part_data x :: calls) = flat (.part_data (x ++ y) :: calls') := by
  rw [flat_cons, h]
  simp [flat, Callback.expand]

theorem take_delimiter {k : Nat} (h : (delimiter b)[k]? = some c) :
    (delimiter b).take (k + 1) = (delimiter b).take k ++ [c] := by
  rw [List.take_add_one, h]
  rfl

/-- A search that ends with the text ends the data of the part there. -/
theorem run_data {k : Nat} {x : Bytes} (h : Restart.find (delimiter b) k x = some []) :
    ∃ e calls, run b (.data k) x = some (.dataDone, calls) ∧
      flat calls = flat [.part_data e, .part_data_end] ∧
      (delimiter b).take k ++ x = e ++ delimiter b := by
  induction x generalizing k with
  | nil => cases h
  | cons c x ih =>
    have hread : Mode.read b c (.data k) = some (readData b k c) := rfl
    rw [Restart.find] at h
    rw [readData] at hread
    by_cases hc : (delimiter b)[k]? = some c
    · have htake := take_delimiter hc
      rw [if_pos hc] at h hread
      by_cases hlast : k + 1 = (delimiter b).length
      · rw [if_pos hlast] at h hread
        obtain rfl := Option.some.inj h
        refine ⟨[], _, run_single hread, rfl, ?_⟩
        rw [← htake, hlast, List.take_length, List.nil_append]
      · rw [if_neg hlast] at h hread
        obtain ⟨e, calls, hrun, hflat, htext⟩ := ih h
        refine ⟨e, calls, ?_, hflat, ?_⟩
        · rw [run_cons hread, hrun]
          rfl
        · rw [← htext, htake, List.append_assoc]
          rfl
    · rw [if_neg hc] at h hread
      by_cases hcr : c = CR
      · rw [if_pos (by rw [hcr]; rfl)] at h
        rw [if_pos hcr] at hread
        obtain ⟨e, calls, hrun, hflat, htext⟩ := ih h
        refine ⟨(delimiter b).take k ++ e, .part_data ((delimiter b).take k) :: calls, ?_,
          flat_data_cons hflat, ?_⟩
        · rw [run_cons hread, hrun]
          rfl
        · rw [List.append_assoc, ← htext, hcr]
          rfl
      · have hhead : (delimiter b).head? ≠ some c := by
          intro heq
          exact hcr (Option.some.inj heq).symm
        rw [if_neg hhead] at h
        rw [if_neg hcr] at hread
        obtain ⟨e, calls, hrun, hflat, htext⟩ := ih h
        refine ⟨(delimiter b).take k ++ [c] ++ e, .part_data ((delimiter b).take k ++ [c]) :: calls,
          ?_, flat_data_cons hflat, ?_⟩
        · rw [run_cons hread, hrun]
          rfl
        · rw [List.take_zero, List.nil_append] at htext
          rw [List.append_assoc, List.append_assoc, ← htext]
          rfl

/-- The data is handed out from the empty line to the delimiter. -/
theorem run_content {x : Bytes} (h : Restart.Passes (delimiter b) x) :
    ∃ calls, run b .dataStart (x ++ delimiter b) = some (.dataDone, calls) ∧
      flat calls = flat [.headers_complete, .part_data x, .part_data_end] := by
  obtain ⟨e, calls, hrun, hflat, htext⟩ := run_data h
  rw [List.take_zero, List.nil_append] at htext
  obtain rfl := List.append_cancel_right htext
  refine ⟨.headers_complete :: calls, ?_, ?_⟩
  · cases hx : x ++ delimiter b with
    | nil => cases x <;> cases hx
    | cons c y =>
      rw [hx] at hrun
      obtain ⟨m₁, calls₁, calls₂, hr, hs, rfl⟩ := run_cons_inv hrun
      have hdata : readData b 0 c = (m₁, calls₁) := Option.some.inj hr
      have hread : Mode.read b c .dataStart = some (m₁, .headers_complete :: calls₁) := by
        rw [Mode.read, hdata]
      rw [run_cons hread, hs]
      rfl
  · rw [flat_cons, hflat]
    rfl

theorem run_ending {ending : Bytes} (h : ∀ c ∈ ending, isFieldChar c) :
    run b (.field []) (ending ++ [CR, LF]) = some (.dataStart, []) :=
  run_trans (run_name h []) rfl

theorem run_part {p : Part} (hp : p.Valid b) :
    ∃ calls, run b .dataDone (p.text b) = some (.dataDone, calls) ∧ flat calls = flat p.calls := by
  obtain ⟨calls, hrun, hflat⟩ := run_content hp.content
  have hline : run b .dataDone [CR, LF] = some (.field [], [.part_data_begin]) := rfl
  have hhead : run b (.field []) p.head =
      some (.dataStart, p.headers.flatMap HeaderLine.calls ++ []) := by
    rw [Part.head, List.append_assoc]
    exact run_trans (run_headers hp.headers) (run_ending hp.ending)
  refine ⟨_, run_trans (run_trans hline hhead) hrun, ?_⟩
  rw [flat_append, hflat, List.append_nil, ← flat_append]
  rfl

theorem run_parts {parts : List Part} (hp : ∀ p ∈ parts, p.Valid b) :
    ∃ calls, run b .dataDone (partsText b parts) = some (.dataDone, calls) ∧
      flat calls = flat (partsCalls parts) := by
  induction parts with
  | nil => exact ⟨[], rfl, rfl⟩
  | cons p parts ih =>
    obtain ⟨hpart, hparts⟩ := List.forall_mem_cons.mp hp
    obtain ⟨calls, hrun, hflat⟩ := run_part hpart
    obtain ⟨calls', hrun', hflat'⟩ := ih hparts
    refine ⟨calls ++ calls', run_trans hrun hrun', ?_⟩
    rw [flat_append, hflat, hflat', ← flat_append]
    rfl

theorem run_epilogue (x : Bytes) : run b .finished x = some (.finished, []) := by
  induction x with
  | nil => rfl
  | cons c x ih =>
    have hread : Mode.read b c .finished = some (.finished, []) := rfl
    rw [run_cons hread, ih]
    rfl

theorem run_close (epilogue : Bytes) :
    run b .dataDone (45 :: 45 :: epilogue) = some (.finished, [.body_end]) := by
  have hline : run b .dataDone [45, 45] = some (.finished, [.body_end]) := rfl
  exact run_trans hline (run_epilogue epilogue)

theorem run_opening_drop {k : Nat} (hk : k < (opening b).length) :
    run b (.opening k) ((opening b).drop k) = some (.field [], [.part_data_begin]) := by
  induction h : (opening b).length - k generalizing k with
  | zero => omega
  | succ n ih =>
    rw [List.drop_eq_getElem_cons hk]
    by_cases hlast : k + 1 = (opening b).length
    · have hread : Mode.read b (opening b)[k] (.opening k) =
          some (.field [], [.part_data_begin]) := by
        rw [Mode.read, if_pos (List.getElem?_eq_getElem hk), if_pos hlast]
      rw [hlast, List.drop_length]
      exact run_single hread
    · have hread : Mode.read b (opening b)[k] (.opening k) = some (.opening (k + 1), []) := by
        rw [Mode.read, if_pos (List.getElem?_eq_getElem hk), if_neg hlast]
      rw [run_cons hread, ih (by omega) (by omega)]
      rfl

/-- The first boundary is read like the later ones. -/
theorem run_opening (b w : Bytes) :
    run b (.opening 0) (b ++ CR :: LF :: w) = run b .dataDone (CR :: LF :: w) := by
  have hopening := run_opening_drop (b := b) (k := 0) (by rw [opening_length]; omega)
  have hline : run b .dataDone [CR, LF] = some (.field [], [.part_data_begin]) := rfl
  have htext : b ++ CR :: LF :: w = opening b ++ w := (List.append_assoc b [CR, LF] w).symm
  rw [List.drop_zero] at hopening
  rw [htext, run_append hopening]
  exact (run_append hline).symm

/-- The parts of a body from its first boundary on. -/
theorem run_opened_parts {parts : List Part} (hne : parts ≠ []) (hp : ∀ p ∈ parts, p.Valid b) :
    ∃ calls, run b (.opening 0) (b ++ partsText b parts) = some (.dataDone, calls) ∧
      flat calls = flat (partsCalls parts) := by
  obtain ⟨calls, hrun, hflat⟩ := run_parts hp
  refine ⟨calls, ?_, hflat⟩
  cases parts with
  | nil => exact absurd rfl hne
  | cons p parts =>
    have hopening := run_opening b (p.head ++ (p.content ++ delimiter b) ++ partsText b parts)
    simp only [partsText, List.flatMap_cons, Part.text, List.append_assoc, List.cons_append,
      List.nil_append] at hopening hrun ⊢
    exact hopening.trans hrun

/-- A document is read to its end, and its parts are handed out. -/
theorem run_document {parts : List Part} {epilogue : Bytes} (hne : parts ≠ [])
    (hp : ∀ p ∈ parts, p.Valid b) :
    ∃ calls, run b (.opening 0) (documentText b parts epilogue) = some (.finished, calls) ∧
      flat calls = flat (partsCalls parts ++ [.body_end]) := by
  obtain ⟨calls, hrun, hflat⟩ := run_opened_parts hne hp
  refine ⟨calls ++ [.body_end], run_trans hrun (run_close epilogue), ?_⟩
  rw [flat_append, flat_append, hflat]

end Forward

end CppPrivate.Http
