import CppPrivate.Http.Records
import Mathlib.Data.List.ReduceOption

/-! Which header lines a part is read from. Lines without a name or a value are joined to the lines
behind them, so that a part is not always read from its own disposition and type. -/
namespace CppPrivate.Http
open multipart_parser_userdata

/-- A header that says something about its part. -/
def isOwn (h : Bytes × Bytes) : Bool :=
  stricmpEq h.1 (bytes "Content-Disposition") || stricmpEq h.1 (bytes "Content-Type")

/-- What the dispositions and types among some headers say. -/
def ownSaid (headers : List (Bytes × Bytes)) : Said :=
  (headers.filter isOwn).foldl Said.header .empty

def Part.valued (p : Part) : List (Bytes × Bytes) :=
  (p.headers.map fun h => (h.name, h.value)).filter fun h => decide (h.2 ≠ [])

def Part.own (p : Part) : Said := ownSaid p.valued

/-- The disposition or type that is read from a name and a value. -/
def reading (h : Bytes × Bytes) : Option (Bytes × Bytes) :=
  if h.1 = [] ∨ h.2 = [] then none else if isOwn h then some h else none

def HeaderLine.own (l : HeaderLine) : Option (Bytes × Bytes) := reading (l.name, l.value)

/-- What `handle_header` reads in a callback. -/
def handled (u : multipart_parser_userdata) : Callback → List (Option (Bytes × Bytes))
  | .header_field _ => [reading (u.headerField, u.headerValue)]
  | .headers_complete => [reading (u.headerField, u.headerValue)]
  | _ => []

/-- The userdata, with what has been read since the last part. -/
abbrev Listener := multipart_parser_userdata × List (Option (Bytes × Bytes))

def listen (s : Listener) (cb : Callback) : Listener :=
  (Multipart.call s.1 cb, if cb = .part_data_end then [] else s.2 ++ handled s.1 cb)

/-- What is read for each part, at its first header line and behind every one. -/
def Multipart.heard (str boundary : Bytes) : List (List (Option (Bytes × Bytes))) :=
  atEnds listen Prod.snd (blank ([], []), []) (execution str boundary).2.2

/-- The names of some lines, one behind the other, and their values. -/
def texts (ls : List HeaderLine) : Bytes × Bytes :=
  (ls.flatMap HeaderLine.name, ls.flatMap HeaderLine.value)

/-- Some of the lines have a name, and some have a value. -/
def Whole (ls : List HeaderLine) : Prop := (texts ls).1 ≠ [] ∧ (texts ls).2 ≠ []

/-- Lines that have no name or no value, and the line that gives them what they lack. -/
structure Group where
  front : List HeaderLine
  last : HeaderLine
  lacks : ¬ Whole front
  whole : Whole (front ++ [last])

namespace Group

def lines (g : Group) : List HeaderLine := g.front ++ [g.last]

/-- Where the last line is a disposition or a type, or the texts of all lines are those of one,
there is nothing in the lines in front of it. -/
def Fine (g : Group) : Prop :=
  isOwn (texts g.lines) = true ∨ g.last.own ≠ none → ∀ l ∈ g.front, l.name = [] ∧ l.value = []

end Group

/-- No line without a name or without a value comes to stand before a disposition or a type, and
none become one together. -/
def Undisturbed (ls : List HeaderLine) : Prop :=
  ∃ (groups : List Group) (rest : List HeaderLine),
    ls = groups.flatMap Group.lines ++ rest ∧ ¬ Whole rest ∧ ∀ g ∈ groups, g.Fine

def left (h : Bytes × Bytes) : Bytes × Bytes := if h.1 = [] ∨ h.2 = [] then h else ([], [])

def readLines : Bytes × Bytes → List HeaderLine → List (Option (Bytes × Bytes))
  | _, [] => []
  | g, l :: ls =>
    reading (g.1 ++ l.name, g.2 ++ l.value) :: readLines (left (g.1 ++ l.name, g.2 ++ l.value)) ls

section Own
variable {parts : List Part} {g : Bytes × Bytes} {ls ls' : List HeaderLine}

theorem reading_left (h : g.1 = [] ∨ g.2 = []) : reading g = none := if_pos h

theorem left_left (h : g.1 = [] ∨ g.2 = []) : left g = g := if_pos h

theorem reading_whole (h : ¬ (g.1 = [] ∨ g.2 = [])) :
    reading g = if isOwn g then some g else none := if_neg h

theorem left_whole (h : ¬ (g.1 = [] ∨ g.2 = [])) : left g = ([], []) := if_neg h

theorem header_other {s : Said} {h : Bytes × Bytes} (hown : isOwn h = false) : s.header h = s := by
  simp only [isOwn, Bool.or_eq_false_iff] at hown
  simp [Said.header, hown.1, hown.2]

/-- Headers that say nothing about the part are read over. -/
theorem foldl_header_own (headers : List (Bytes × Bytes)) (s : Said) :
    headers.foldl Said.header s = (headers.filter isOwn).foldl Said.header s := by
  induction headers generalizing s with
  | nil => rfl
  | cons h headers ih =>
    rw [List.foldl_cons, ih]
    cases hown : isOwn h with
    | false => rw [header_other hown, List.filter_cons_of_neg (by simp [hown])]
    | true => rw [List.filter_cons_of_pos hown, List.foldl_cons]

theorem join_cons (l : HeaderLine) : (join g (l :: ls)).2 =
    (join (left (g.1 ++ l.name, g.2 ++ l.value)) ls).2 := by
  rw [join]
  split
  · rename_i h
    rw [left_left h]
  · rename_i h
    rw [left_whole h]

theorem join_append : (join g (ls ++ ls')).2 = (join (join g ls).2 ls').2 := by
  induction ls generalizing g with
  | nil => rfl
  | cons l ls ih => rw [List.cons_append, join_cons, ih, join_cons]

/-- Of the joined headers the dispositions and types are read. -/
theorem reduceOption_readLines :
    (readLines g ls).reduceOption = (join g ls).1.filter isOwn := by
  induction ls generalizing g with
  | nil => rfl
  | cons l ls ih =>
    rw [readLines, join]
    split
    · rename_i h
      rw [reading_left h, left_left h, List.reduceOption_cons_of_none, ih]
    · rename_i h
      rw [reading_whole h, left_whole h]
      split
      · rename_i hown
        rw [List.reduceOption_cons_of_some, ih, List.filter_cons_of_pos hown]
      · rename_i hown
        rw [List.reduceOption_cons_of_none, ih, List.filter_cons_of_neg hown]

theorem isOwn_nil (value : Bytes) : isOwn ([], value) = false := by
  change (stricmpEq [] (bytes "Content-Disposition") || stricmpEq [] (bytes "Content-Type")) = false
  decide

theorem reading_value (h : g.2 ≠ []) : reading g = if isOwn g then some g else none := by
  obtain ⟨name, value⟩ := g
  cases name with
  | nil => rw [reading_left (Or.inl rfl), isOwn_nil, if_neg Bool.false_ne_true]
  | cons c name => exact reading_whole (not_or.mpr ⟨List.cons_ne_nil c name, h⟩)

theorem reduceOption_own : (ls.map HeaderLine.own).reduceOption =
    ((ls.map fun l => (l.name, l.value)).filter fun h => decide (h.2 ≠ [])).filter isOwn := by
  induction ls with
  | nil => rfl
  | cons l ls ih =>
    rw [List.map_cons, List.map_cons, HeaderLine.own]
    by_cases h : l.value = []
    · rw [reading_left (Or.inr h), List.reduceOption_cons_of_none, ih,
        List.filter_cons_of_neg (by simp [h])]
    · rw [reading_value h, List.filter_cons_of_pos (by simp [h])]
      split
      · rename_i hown
        rw [List.reduceOption_cons_of_some, ih, List.filter_cons_of_pos hown]
      · rename_i hown
        rw [List.reduceOption_cons_of_none, ih, List.filter_cons_of_neg hown]

theorem own_said (p : Part) :
    (p.headers.map HeaderLine.own).reduceOption.foldl Said.header .empty = p.own := by
  rw [reduceOption_own]
  rfl

theorem readLines_append : readLines g (ls ++ ls') = readLines g ls ++ readLines (join g ls).2 ls' := by
  induction ls generalizing g with
  | nil => rfl
  | cons l ls ih => rw [List.cons_append, readLines, ih, readLines, join_cons, List.cons_append]

theorem length_readLines : (readLines g ls).length = ls.length := by
  induction ls generalizing g with
  | nil => rfl
  | cons l ls ih => rw [readLines, List.length_cons, ih, List.length_cons]

/-! ## What is heard of the parts -/

/-- What is read for each part, with what is left of the lines before it. -/
def heardParts : Bytes × Bytes → List Part → List (List (Option (Bytes × Bytes)))
  | _, [] => []
  | g, p :: parts => (none :: readLines g p.headers) :: heardParts (join g p.headers).2 parts

def SameHeard (s t : Listener) : Prop := SameTexts s.1 t.1 ∧ s.2 = t.2

theorem handled_same {u v : multipart_parser_userdata} (h : SameTexts u v) (cb : Callback) :
    handled u cb = handled v cb := by
  rw [SameTexts] at h
  rw [← h]
  rfl

theorem sameHeard_listen {s t : Listener} (h : SameHeard s t) (cb : Callback) :
    SameHeard (listen s cb) (listen t cb) := by
  refine ⟨h.1.call cb, ?_⟩
  rw [listen, listen, h.2, handled_same h.1]

theorem listen_data (u : multipart_parser_userdata) (rs : List (Option (Bytes × Bytes)))
    (text : Bytes) :
    listen (u, rs) (.part_data text) = (Multipart.call u (.part_data text), rs) := by
  simp [listen, handled]

theorem listen_fst (s : Listener) (calls : List Callback) :
    (calls.foldl listen s).1 = calls.foldl Multipart.call s.1 := by
  induction calls generalizing s with
  | nil => rfl
  | cons cb calls ih => exact ih _

theorem listen_pieces (u : multipart_parser_userdata) (rs : List (Option (Bytes × Bytes)))
    (text : Bytes) :
    ((Callback.part_data text).expand.foldl listen (u, rs)).2 = rs := by
  rw [Callback.expand]
  induction text generalizing u with
  | nil => rfl
  | cons c text ih => rw [List.map_cons, List.foldl_cons, listen_data, ih]

theorem sameHeard_expand (s : Listener) (cb : Callback) :
    SameHeard (cb.expand.foldl listen s) (listen s cb) := by
  obtain ⟨u, rs⟩ := s
  refine ⟨?_, ?_⟩
  · rw [listen_fst]
    exact sameTexts_expand cb
  · cases cb with
    | part_data text => rw [listen_pieces, listen_data]
    | header_field text => rfl
    | headers_complete => rfl
    | header_value text => rfl
    | part_data_begin => rfl
    | part_data_end => rfl
    | body_end => rfl

theorem handle_header_leaves (u : multipart_parser_userdata) :
    (u.handle_header.headerField, u.handle_header.headerValue) =
      left (u.headerField, u.headerValue) := by
  by_cases h : u.headerField = [] ∨ u.headerValue = []
  · rw [handle_header_left h, left_left h]
  · obtain ⟨hfield, hvalue⟩ := not_or.mp h
    rw [handle_header_eq hfield hvalue, left_whole h]

/-- What is read in the lines of a part, and in the callback behind them. -/
theorem listen_lines (u : multipart_parser_userdata) (rs : List (Option (Bytes × Bytes))) :
    (listen ((ls.flatMap HeaderLine.calls).foldl listen (u, rs)) .headers_complete).2 =
      rs ++ reading (u.headerField, u.headerValue) ::
        readLines (left (u.headerField, u.headerValue)) ls := by
  induction ls generalizing u rs with
  | nil => rfl
  | cons l ls ih =>
    have hline : l.calls.foldl listen (u, rs) = ({ u.handle_header with
        state := .MP_HEADER_VALUE
        headerField := u.handle_header.headerField ++ l.name
        headerValue := u.handle_header.headerValue ++ l.value },
        rs ++ [reading (u.headerField, u.headerValue)]) := by
      simp only [HeaderLine.calls, List.foldl_cons, List.foldl_nil, listen, handled,
        reduceCtorEq, if_false, List.append_nil]
      rfl
    have hleft := handle_header_leaves u
    rw [List.flatMap_cons, List.foldl_append, hline, ih, readLines, ← hleft, List.append_assoc]
    rfl

theorem heard_part (p : Part) (hg : g.1 = [] ∨ g.2 = []) :
    atEnds listen Prod.snd (blank g, []) p.calls = [none :: readLines g p.headers] ∧
      SameHeard (p.calls.foldl listen (blank g, [])) (blank (join g p.headers).2, []) := by
  have hbegin : listen (blank g, []) .part_data_begin =
      (Multipart.call (blank g) .part_data_begin, []) := rfl
  have hlines := @listen_lines p.headers (Multipart.call (blank g) .part_data_begin) []
  have hread : reading ((Multipart.call (blank g) .part_data_begin).headerField,
      (Multipart.call (blank g) .part_data_begin).headerValue) = none := reading_left hg
  have hleft : left ((Multipart.call (blank g) .part_data_begin).headerField,
      (Multipart.call (blank g) .part_data_begin).headerValue) = g := left_left hg
  rw [hread, hleft, List.nil_append] at hlines
  have hcalls : p.calls = [.part_data_begin] ++ p.headers.flatMap HeaderLine.calls ++
      [.headers_complete] ++ [.part_data p.content] ++ [.part_data_end] := by
    simp [Part.calls]
  have hbefore : NoEnd ([.part_data_begin] ++ p.headers.flatMap HeaderLine.calls ++
      [.headers_complete] ++ [.part_data p.content]) := by
    simp [NoEnd, HeaderLine.calls]
  refine ⟨?_, ?_, ?_⟩
  · rw [hcalls, atEnds_append, atEnds_noEnd hbefore, List.nil_append]
    simp only [List.foldl_append, List.foldl_cons, List.foldl_nil, hbegin]
    rw [atEnds, if_pos rfl, atEnds, List.append_nil, listen_data, hlines]
  · rw [listen_fst]
    exact (part_calls p hg).2
  · rw [hcalls, List.foldl_append]
    rfl

theorem heard_parts (hg : g.1 = [] ∨ g.2 = []) :
    atEnds listen Prod.snd (blank g, []) (partsCalls parts) = heardParts g parts := by
  induction parts generalizing g with
  | nil => rfl
  | cons p parts ih =>
    obtain ⟨hheard, hsame⟩ := heard_part p hg
    have hcons : partsCalls (p :: parts) = p.calls ++ partsCalls parts := List.flatMap_cons
    rw [hcons, atEnds_append, hheard,
      atEnds_same (fun _ _ h => sameHeard_listen h) (fun _ _ h => h.2) hsame,
      ih (join_left p.headers hg)]
    rfl

theorem heard_document {boundary epilogue : Bytes} (hne : parts ≠ [])
    (hp : ∀ p ∈ parts, p.Valid (dashed boundary)) :
    Multipart.heard (documentText (dashed boundary) parts epilogue) boundary =
      heardParts ([], []) parts :=
  (Multipart.atEnds_document (fun _ _ h => sameHeard_listen h) (fun _ _ h => h.2) sameHeard_expand
    hne hp).trans (heard_parts (Or.inl rfl))

/-- A part is recorded as it is heard. -/
theorem readParts_heard : readParts g parts = List.zipWith
    (fun p rs => (rs.reduceOption.foldl Said.header .empty).record p.content) parts
    (heardParts g parts) := by
  induction parts generalizing g with
  | nil => rfl
  | cons p parts ih =>
    rw [readParts, heardParts, List.zipWith_cons_cons, ← ih, List.reduceOption_cons_of_none,
      reduceOption_readLines, ← foldl_header_own]

/-- Each part is heard as it is exactly where each line is read as it is. -/
theorem heardParts_iff :
    heardParts g parts = parts.map (fun p => none :: p.headers.map HeaderLine.own) ↔
      readLines g (parts.flatMap Part.headers) =
        (parts.flatMap Part.headers).map HeaderLine.own := by
  induction parts generalizing g with
  | nil => exact ⟨fun _ => rfl, fun _ => rfl⟩
  | cons p parts ih =>
    rw [heardParts, List.map_cons, List.cons.injEq, List.cons.injEq, ih, List.flatMap_cons,
      readLines_append, List.map_append]
    constructor
    · intro h
      rw [h.1.2, h.2]
    · intro h
      obtain ⟨hp, hparts⟩ := List.append_inj h (by rw [length_readLines, List.length_map])
      exact ⟨⟨rfl, hp⟩, hparts⟩

/-! ## Which lines are read as they are -/

theorem texts_append : texts (ls ++ ls') =
    ((texts ls).1 ++ (texts ls').1, (texts ls).2 ++ (texts ls').2) := by
  simp [texts]

theorem texts_single (l : HeaderLine) : texts [l] = (l.name, l.value) := by simp [texts]

theorem not_whole : ¬ Whole ls ↔ (texts ls).1 = [] ∨ (texts ls).2 = [] := by
  rw [Whole, not_and_or, not_not, not_not]

theorem lacks_of_mem (h : ¬ Whole ls) {l : HeaderLine} (hl : l ∈ ls) :
    l.name = [] ∨ l.value = [] := by
  rw [not_whole] at h
  cases h with
  | inl h => exact Or.inl (List.flatMap_eq_nil_iff.mp h l hl)
  | inr h => exact Or.inr (List.flatMap_eq_nil_iff.mp h l hl)

/-- Lines that have no name or no value are not read. -/
theorem own_lacks (h : ¬ Whole ls) : ls.map HeaderLine.own = ls.map fun _ => none :=
  List.map_congr_left fun _ hl => reading_left (lacks_of_mem h hl)

theorem readLines_lacks (h : g.1 ++ (texts ls).1 = [] ∨ g.2 ++ (texts ls).2 = []) :
    readLines g ls = (ls.map fun _ => none) ∧
      (join g ls).2 = (g.1 ++ (texts ls).1, g.2 ++ (texts ls).2) := by
  induction ls generalizing g with
  | nil => simp [readLines, join, texts]
  | cons l ls ih =>
    have hcons : texts (l :: ls) = (l.name ++ (texts ls).1, l.value ++ (texts ls).2) := rfl
    rw [hcons, ← List.append_assoc, ← List.append_assoc] at h ⊢
    have hleft : g.1 ++ l.name = [] ∨ g.2 ++ l.value = [] :=
      h.imp (fun h => (List.append_eq_nil_iff.mp h).1) fun h => (List.append_eq_nil_iff.mp h).1
    obtain ⟨hread, hjoin⟩ := ih (g := (g.1 ++ l.name, g.2 ++ l.value)) h
    rw [readLines, join_cons, reading_left hleft, left_left hleft, hread, hjoin]
    exact ⟨rfl, rfl⟩

namespace Group
variable (c : Group)

theorem texts_lines :
    texts c.lines = ((texts c.front).1 ++ c.last.name, (texts c.front).2 ++ c.last.value) := by
  rw [lines, texts_append, texts_single]

/-- A group is read behind its last line, all of it, and nothing is left. -/
theorem readLines_lines : readLines ([], []) c.lines =
    (c.front.map fun _ => none) ++ [reading (texts c.lines)] ∧
      (join ([], []) c.lines).2 = ([], []) := by
  obtain ⟨hread, hjoin⟩ := readLines_lacks (g := ([], [])) (not_whole.mp c.lacks)
  have hwhole : ¬ ((texts c.lines).1 = [] ∨ (texts c.lines).2 = []) :=
    fun h => not_whole.mpr h c.whole
  have htexts := c.texts_lines
  refine ⟨?_, ?_⟩
  · rw [lines, readLines_append, hread, hjoin, ← lines, htexts]
    rfl
  · rw [htexts] at hwhole
    rw [lines, join_append, hjoin, join_cons]
    exact congrArg (fun h => (join h []).2) (left_whole hwhole)

theorem fine_iff : c.Fine ↔ reading (texts c.lines) = c.last.own := by
  have hread : reading (texts c.lines) = if isOwn (texts c.lines) then some (texts c.lines) else none :=
    reading_whole fun h => not_whole.mpr h c.whole
  constructor
  · intro hfine
    by_cases h : isOwn (texts c.lines) = true ∨ c.last.own ≠ none
    · have hempty := hfine h
      have hname : (texts c.front).1 = [] := List.flatMap_eq_nil_iff.mpr fun l hl => (hempty l hl).1
      have hvalue : (texts c.front).2 = [] :=
        List.flatMap_eq_nil_iff.mpr fun l hl => (hempty l hl).2
      rw [c.texts_lines, hname, hvalue]
      rfl
    · obtain ⟨hown, hlast⟩ := not_or.mp h
      rw [hread, if_neg hown, not_not.mp hlast]
  · intro heq h
    -- what is read is the text of all lines, and it is what the last line alone says
    have hown : isOwn (texts c.lines) = true := by
      cases h with
      | inl h => exact h
      | inr h =>
        by_contra hnot
        rw [hread, if_neg hnot] at heq
        exact h heq.symm
    rw [hread, if_pos hown, HeaderLine.own, reading] at heq
    have hlast : texts c.lines = (c.last.name, c.last.value) := by
      split at heq
      · exact absurd heq (Option.some_ne_none _)
      · split at heq
        · exact Option.some.inj heq
        · exact absurd heq (Option.some_ne_none _)
    rw [c.texts_lines, Prod.mk.injEq, List.append_left_eq_self, List.append_left_eq_self] at hlast
    intro l hl
    exact ⟨List.flatMap_eq_nil_iff.mp hlast.1 l hl, List.flatMap_eq_nil_iff.mp hlast.2 l hl⟩

end Group

theorem readLines_groups (groups : List Group) (h : ¬ Whole ls) :
    readLines ([], []) (groups.flatMap Group.lines ++ ls) =
        (groups.flatMap Group.lines ++ ls).map HeaderLine.own ↔ ∀ c ∈ groups, c.Fine := by
  induction groups with
  | nil =>
    rw [List.flatMap_nil, List.nil_append, own_lacks h,
      (readLines_lacks (g := ([], [])) (not_whole.mp h)).1]
    exact ⟨fun _ => List.forall_mem_nil _, fun _ => rfl⟩
  | cons c groups ih =>
    obtain ⟨hread, hjoin⟩ := c.readLines_lines
    have hlen : (c.front.map fun _ => (none : Option (Bytes × Bytes))).length =
        (c.front.map HeaderLine.own).length := by rw [List.length_map, List.length_map]
    rw [List.flatMap_cons, List.append_assoc, readLines_append, hread, hjoin, List.forall_mem_cons,
      ← ih, c.fine_iff, List.map_append, Group.lines, List.map_append, own_lacks c.lacks,
      List.map_singleton, ← Group.lines]
    constructor
    · intro h
      obtain ⟨hc, hgroups⟩ := List.append_inj h (by simp)
      exact ⟨List.head_eq_of_cons_eq (List.append_cancel_left hc), hgroups⟩
    · intro h
      rw [h.1, h.2]

/-- Header lines fall into groups, and lines that go on to lack a name or a value. -/
theorem exists_groups (ls : List HeaderLine) : ∃ (groups : List Group) (rest : List HeaderLine),
    ls = groups.flatMap Group.lines ++ rest ∧ ¬ Whole rest := by
  induction ls using List.reverseRecOn with
  | nil => exact ⟨[], [], rfl, fun h => h.1 rfl⟩
  | append_singleton ls l ih =>
    obtain ⟨groups, rest, hls, hrest⟩ := ih
    by_cases h : Whole (rest ++ [l])
    · refine ⟨groups ++ [⟨rest, l, hrest, h⟩], [], ?_, fun h => h.1 rfl⟩
      rw [hls, List.flatMap_append, List.flatMap_singleton, Group.lines, List.append_nil,
        List.append_assoc]
    · exact ⟨groups, rest ++ [l], by rw [hls, List.append_assoc], h⟩

/-- Every line is read as it is just where the lines are undisturbed. -/
theorem undisturbed_iff : readLines ([], []) ls = ls.map HeaderLine.own ↔ Undisturbed ls := by
  constructor
  · intro h
    obtain ⟨groups, rest, hls, hrest⟩ := exists_groups ls
    rw [hls] at h
    exact ⟨groups, rest, hls, hrest, (readLines_groups groups hrest).mp h⟩
  · rintro ⟨groups, rest, rfl, hrest, hfine⟩
    exact (readLines_groups groups hrest).mpr hfine

/-- Lines with a name and a value are undisturbed. -/
theorem undisturbed_of_values (h : ∀ l ∈ ls, l.name ≠ [] ∧ l.value ≠ []) : Undisturbed ls := by
  rw [← undisturbed_iff]
  induction ls with
  | nil => rfl
  | cons l ls ih =>
    obtain ⟨hl, hls⟩ := List.forall_mem_cons.mp h
    have hleft : left (l.name, l.value) = ([], []) := left_whole (not_or.mpr hl)
    rw [readLines, List.nil_append, List.nil_append, hleft, ih hls]
    rfl

end Own

namespace Multipart
variable {boundary : Bytes} {parts : List Part}

/-- For every part its own disposition and type are read, each as it is, just where the header lines
of the body are undisturbed, and then the form holds what they say. So it is where every header line
has a name and a value. -/
theorem recorded_own_iff {epilogue : Bytes} (hne : parts ≠ [])
    (hp : ∀ p ∈ parts, p.Valid (dashed boundary)) :
    (heard (documentText (dashed boundary) parts epilogue) boundary =
        parts.map (fun p => none :: p.headers.map HeaderLine.own) ↔
          Undisturbed (parts.flatMap Part.headers)) ∧
      (Undisturbed (parts.flatMap Part.headers) →
        recorded (documentText (dashed boundary) parts epilogue) boundary =
            parts.map (fun p => p.own.record p.content) ∧
          ∀ mp, ParseMultipart (documentText (dashed boundary) parts epilogue) mp boundary =
            (0, (parts.map fun p => p.own.record p.content).foldl store mp)) ∧
      ((∀ p ∈ parts, ∀ l ∈ p.headers, l.name ≠ [] ∧ l.value ≠ []) →
        Undisturbed (parts.flatMap Part.headers)) := by
  have hiff := (@heardParts_iff parts ([], [])).trans undisturbed_iff
  refine ⟨?_, ?_, ?_⟩
  · rw [heard_document hne hp]
    exact hiff
  · intro h
    have hread : readParts ([], []) parts = parts.map fun p => p.own.record p.content := by
      rw [readParts_heard, hiff.mpr h, List.zipWith_map_right, List.zipWith_self]
      apply List.map_congr_left
      intro p _
      rw [List.reduceOption_cons_of_none, own_said]
    refine ⟨?_, fun mp => ?_⟩
    · rw [recorded_document hne hp, hread]
    · rw [ParseMultipart_document hne hp, hread]
  · intro h
    apply undisturbed_of_values
    intro l hl
    obtain ⟨p, hp, hl⟩ := List.mem_flatMap.mp hl
    exact h p hp l hl

def namedParts : List Part :=
  [⟨[⟨bytes "X-Id", bytes " 1"⟩, ⟨bytes "Content-Disposition", bytes " form-data; name=\"a\""⟩], [],
      bytes "x"⟩,
    ⟨[⟨bytes "content-disposition", bytes " form-data; name=\"b\"; filename=\"f\""⟩,
      ⟨bytes "Content-Type", bytes " text/plain"⟩, ⟨bytes "X-Id", bytes "2"⟩], [], bytes "y"⟩]

theorem recorded_own_iff_named : (∀ p ∈ namedParts, p.Valid (dashed (bytes "b"))) ∧
    Undisturbed (namedParts.flatMap Part.headers) ∧
    recorded (documentText (dashed (bytes "b")) namedParts []) (bytes "b") =
      namedParts.map fun p => p.own.record p.content := by
  have hvalid : ∀ p ∈ namedParts, p.Valid (dashed (bytes "b")) := by
    intro p hp
    simp only [namedParts, List.mem_cons, List.not_mem_nil, or_false] at hp
    cases hp with
    | inl h => rw [h]; exact ⟨by decide, List.forall_mem_nil _, by decide⟩
    | inr h => rw [h]; exact ⟨by decide, List.forall_mem_nil _, by decide⟩
  obtain ⟨-, hrecorded, hvalues⟩ := @recorded_own_iff _ _ [] (List.cons_ne_nil _ _) hvalid
  have hundisturbed := hvalues (by decide)
  exact ⟨hvalid, hundisturbed, (hrecorded hundisturbed).1⟩

def lineA : Bytes := bytes "Content-Disposition: form-data; name=\"a\"\r\n"
def lineC : Bytes := bytes "Content-Disposition: form-data; name=\"c\"\r\n"

/-- A header line without a value before the disposition, in the part or at the end of the part
before it, takes the name from the part. -/
theorem name_lost_to_empty_header :
    (ParseMultipart (bytes "--b\r\n" ++ lineA ++ bytes "\r\nx\r\n--b--") ∅
        (bytes "b")).2[bytes "a"]? = some ⟨[], bytes "x", []⟩ ∧
      (ParseMultipart (bytes "--b\r\nX-A:\r\n" ++ lineA ++ bytes "\r\nx\r\n--b--") ∅
        (bytes "b")).2[bytes "a"]? = none ∧
      (ParseMultipart (bytes "--b\r\n" ++ lineC ++ bytes "X-A:\r\n\r\ny\r\n--b\r\n" ++ lineA ++
        bytes "\r\nx\r\n--b--") ∅ (bytes "b")).2[bytes "a"]? = none := by
  decide +kernel

end Multipart

end CppPrivate.Http
