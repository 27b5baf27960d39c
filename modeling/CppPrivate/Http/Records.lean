import CppPrivate.Http.Document
import CppPrivate.Http.Multipart
import Mathlib.Data.List.TakeWhile

/-! What the callbacks make of the parts of a body. A header line without a name or without a value
is joined to the next one, across the ends of parts. -/
namespace CppPrivate.Http
open multipart_parser_userdata
open Url (cStr)

structure Said where
  name : Bytes
  filename : Bytes
  contentType : Bytes
deriving DecidableEq

namespace Said

def empty : Said := ⟨[], [], []⟩

def param (s : Said) (str : Bytes) : Said :=
  match split (trim str (bytes " ")) 61 with
  | [key, value] =>
    let value := trim_pairs value [34, 34, 39, 39]
    if cStr key = bytes "name" then { s with name := value }
    else if cStr key = bytes "filename" then { s with filename := value }
    else s
  | _ => s

def header (s : Said) (h : Bytes × Bytes) : Said :=
  let s := if stricmpEq h.1 (bytes "Content-Disposition") then (split h.2 59).foldl param s else s
  if stricmpEq h.1 (bytes "Content-Type") then { s with contentType := h.2 } else s

def record (s : Said) (content : Bytes) : Bytes × Form := (s.name, ⟨s.filename, content, s.contentType⟩)

end Said

/-- A part without a name is not put into the form. -/
def store (mp : MultiPartForm) (r : Bytes × Form) : MultiPartForm :=
  if r.1.length ≠ 0 then mp.insert r.1 r.2 else mp

/-- The headers that are read from header lines, with what is left of lines before them, and what
is left of the last ones. -/
def join : Bytes × Bytes → List HeaderLine → List (Bytes × Bytes) × (Bytes × Bytes)
  | g, [] => ([], g)
  | g, h :: hs =>
    if g.1 ++ h.name = [] ∨ g.2 ++ h.value = [] then join (g.1 ++ h.name, g.2 ++ h.value) hs
    else ((g.1 ++ h.name, g.2 ++ h.value) :: (join ([], []) hs).1, (join ([], []) hs).2)

/-- Lines with a name and a value are not joined. -/
theorem join_values {hs : List HeaderLine} (h : ∀ l ∈ hs, l.name ≠ [] ∧ l.value ≠ []) :
    join ([], []) hs = (hs.map fun l => (l.name, l.value), ([], [])) := by
  induction hs with
  | nil => rfl
  | cons l hs ih =>
    obtain ⟨hl, hhs⟩ := List.forall_mem_cons.mp h
    rw [join, if_neg (by simpa using hl), ih hhs]
    rfl

def readParts : Bytes × Bytes → List Part → List (Bytes × Form)
  | _, [] => []
  | g, p :: parts =>
    (((join g p.headers).1.foldl Said.header .empty).record p.content) ::
      readParts (join g p.headers).2 parts

/-- What a state has to show at the end of each part, while it goes through the callbacks. -/
def atEnds {σ β : Type} (step : σ → Callback → σ) (out : σ → β) : σ → List Callback → List β
  | _, [] => []
  | s, cb :: calls =>
    (if cb = .part_data_end then [out s] else []) ++ atEnds step out (step s cb) calls

section AtEnds
variable {σ β : Type} {step : σ → Callback → σ} {out : σ → β} {same : σ → σ → Prop} {s t : σ}

theorem atEnds_append (calls calls' : List Callback) : atEnds step out s (calls ++ calls') =
    atEnds step out s calls ++ atEnds step out (calls.foldl step s) calls' := by
  induction calls generalizing s with
  | nil => rfl
  | cons cb calls ih =>
    rw [List.cons_append, atEnds, atEnds, ih, List.append_assoc]
    rfl

theorem atEnds_noEnd {calls : List Callback} (h : NoEnd calls) : atEnds step out s calls = [] := by
  induction calls generalizing s with
  | nil => rfl
  | cons cb calls ih =>
    simp only [NoEnd, List.mem_cons, not_or] at h
    rw [atEnds, if_neg (Ne.symm h.1), ih h.2]
    rfl

/-- States that look the same, and go on to do so, show the same. -/
theorem atEnds_same (hcall : ∀ s t, same s t → ∀ cb, same (step s cb) (step t cb))
    (hout : ∀ s t, same s t → out s = out t) (h : same s t) (calls : List Callback) :
    atEnds step out s calls = atEnds step out t calls := by
  induction calls generalizing s t with
  | nil => rfl
  | cons cb calls ih => rw [atEnds, atEnds, hout s t h, ih (hcall s t h cb)]

theorem atEnds_expand (cb : Callback) : atEnds step out s cb.expand = atEnds step out s [cb] := by
  cases cb with
  | part_data text =>
    rw [atEnds_noEnd (by simp [NoEnd, Callback.expand]), atEnds_noEnd (by simp [NoEnd])]
  | header_field text => rfl
  | headers_complete => rfl
  | header_value text => rfl
  | part_data_begin => rfl
  | part_data_end => rfl
  | body_end => rfl

/-- Where the pieces of data make no difference, the same is shown for data in any pieces. -/
theorem atEnds_flat (hcall : ∀ s t, same s t → ∀ cb, same (step s cb) (step t cb))
    (hout : ∀ s t, same s t → out s = out t)
    (hexpand : ∀ s (cb : Callback), same (cb.expand.foldl step s) (step s cb))
    (calls : List Callback) : atEnds step out s (flat calls) = atEnds step out s calls := by
  induction calls generalizing s with
  | nil => rfl
  | cons cb calls ih =>
    have hcons : atEnds step out s (cb :: calls) =
        atEnds step out s [cb] ++ atEnds step out (step s cb) calls := atEnds_append [cb] calls
    rw [flat_cons, atEnds_append, atEnds_expand, hcons, ← ih, atEnds_same hcall hout (hexpand s cb)]

end AtEnds

theorem getElem?_store (mp : MultiPartForm) (r : Bytes × Form) {k : Bytes} (hk : k ≠ []) :
    (store mp r)[k]? = if r.1 = k then some r.2 else mp[k]? := by
  rw [store]
  by_cases hr : r.1.length ≠ 0
  · rw [if_pos hr, StdMap.getElem?_insert]
  · have hne : r.1 ≠ k := by
      rw [List.eq_nil_of_length_eq_zero (not_not.mp hr)]
      exact hk.symm
    rw [if_neg hr, if_neg hne]

theorem getElem?_store_other {mp : MultiPartForm} {r : Bytes × Form} {k : Bytes} (h : r.1 ≠ k) :
    (store mp r)[k]? = mp[k]? := by
  rw [store]
  split
  · rw [StdMap.getElem?_insert, if_neg h]
  · rfl

theorem getElem?_stored_other (l : List (Bytes × Form)) {mp : MultiPartForm} {k : Bytes}
    (h : ∀ r ∈ l, r.1 ≠ k) : (l.foldl store mp)[k]? = mp[k]? := by
  induction l generalizing mp with
  | nil => rfl
  | cons r l ih =>
    obtain ⟨hr, hl⟩ := List.forall_mem_cons.mp h
    rw [List.foldl_cons, ih hl, getElem?_store_other hr]

/-- The last part of a name is the one that the form keeps. -/
theorem getElem?_stored (l : List (Bytes × Form)) (mp : MultiPartForm) {k : Bytes} (hk : k ≠ []) :
    (l.foldl store mp)[k]? = (l.reverse.lookup k).or mp[k]? := by
  induction l generalizing mp with
  | nil => rfl
  | cons r l ih =>
    obtain ⟨name, form⟩ := r
    rw [List.foldl_cons, ih, getElem?_store mp _ hk, List.reverse_cons, List.lookup_append,
      Option.or_assoc]
    congr 1
    by_cases hr : name = k
    · simp [hr]
    · have hne : (k == name) = false := by simpa using Ne.symm hr
      simp [List.lookup_cons, hr, hne]

namespace multipart_parser_userdata
variable {u v : multipart_parser_userdata}

def said (u : multipart_parser_userdata) : Said := ⟨u.name, u.filename, u.contentType⟩

def setSaid (u : multipart_parser_userdata) (s : Said) : multipart_parser_userdata :=
  { u with name := s.name, filename := s.filename, contentType := s.contentType }

theorem handle_param_eq (str : Bytes) : u.handle_param str = u.setSaid (u.said.param str) := by
  rw [handle_param, Said.param]
  generalize Http.split (trim str (bytes " ")) 61 = kv
  match kv with
  | [key, value] =>
    simp only
    split
    · rfl
    · split
      · rfl
      · rfl
  | [] => rfl
  | [key] => rfl
  | key :: value :: other :: more => rfl

theorem handle_params_eq (strs : List Bytes) :
    strs.foldl handle_param u = u.setSaid (strs.foldl Said.param u.said) := by
  induction strs generalizing u with
  | nil => rfl
  | cons str strs ih =>
    rw [List.foldl_cons, List.foldl_cons, ih, handle_param_eq]
    rfl

theorem handle_disposition_eq : u.handle_disposition = u.setSaid
    (if stricmpEq u.headerField (bytes "Content-Disposition") then
      (split u.headerValue 59).foldl Said.param u.said else u.said) := by
  rw [handle_disposition]
  split
  · exact handle_params_eq _
  · rfl

theorem handle_type_eq : u.handle_type = u.setSaid
    (if stricmpEq u.headerField (bytes "Content-Type") then
      { u.said with contentType := u.headerValue } else u.said) := by
  rw [handle_type]
  split
  · rfl
  · rfl

/-- A header that has a name and a value is read, and nothing is left of it. -/
theorem handle_header_eq (hfield : u.headerField ≠ []) (hvalue : u.headerValue ≠ []) :
    u.handle_header = { u.setSaid (u.said.header (u.headerField, u.headerValue)) with
      headerField := [], headerValue := [] } := by
  rw [handle_header, if_neg (by simp [hfield, hvalue]), handle_type_eq, handle_disposition_eq]
  rfl

theorem handle_header_left (h : u.headerField = [] ∨ u.headerValue = []) : u.handle_header = u := by
  rw [handle_header, if_pos (by simpa using h)]

/-- The same texts, whatever the state and the form. -/
def SameTexts (u v : multipart_parser_userdata) : Prop :=
  { u with state := v.state, mp := v.mp } = v

theorem SameTexts.refl (u : multipart_parser_userdata) : SameTexts u u := rfl

theorem SameTexts.trans {w : multipart_parser_userdata} (h : SameTexts u v) (h' : SameTexts v w) :
    SameTexts u w := by
  rw [SameTexts] at h h' ⊢
  rw [← h', ← h]

theorem SameTexts.symm (h : SameTexts u v) : SameTexts v u := by
  rw [SameTexts] at h ⊢
  rw [← h]

theorem SameTexts.handle_header (h : SameTexts u v) : SameTexts u.handle_header v.handle_header := by
  rw [SameTexts] at h
  rw [← h]
  by_cases hleft : u.headerField = [] ∨ u.headerValue = []
  · rw [handle_header_left hleft, handle_header_left]
    · rfl
    · exact hleft
  · obtain ⟨hfield, hvalue⟩ := not_or.mp hleft
    rw [handle_header_eq hfield hvalue, handle_header_eq]
    · rfl
    · exact hfield
    · exact hvalue

/-- A callback makes the same texts of the same texts. -/
theorem SameTexts.call (h : SameTexts u v) (cb : Callback) :
    SameTexts (Multipart.call u cb) (Multipart.call v cb) := by
  have hheader := h.handle_header
  cases cb with
  | header_field text =>
    rw [SameTexts] at hheader ⊢
    simp only [Multipart.call, Multipart.OnHeaderField]
    rw [← hheader]
  | headers_complete =>
    rw [SameTexts] at hheader ⊢
    simp only [Multipart.call, Multipart.OnHeadersComplete]
    rw [← hheader]
  | header_value text => rw [SameTexts] at h; rw [← h]; rfl
  | part_data text => rw [SameTexts] at h; rw [← h]; rfl
  | part_data_begin => rw [SameTexts] at h; rw [← h]; rfl
  | part_data_end => rw [SameTexts] at h; rw [← h]; rfl
  | body_end => rw [SameTexts] at h; rw [← h]; rfl

theorem SameTexts.calls (h : SameTexts u v) (calls : List Callback) :
    SameTexts (calls.foldl Multipart.call u) (calls.foldl Multipart.call v) := by
  induction calls generalizing u v with
  | nil => exact h
  | cons cb calls ih => exact ih (h.call cb)

/-- The parts that the callbacks put into the form. -/
def stored : multipart_parser_userdata → List Callback → List (Bytes × Form) :=
  atEnds Multipart.call fun u => u.said.record u.partData

theorem stored_append (calls calls' : List Callback) : stored u (calls ++ calls') =
    stored u calls ++ stored (calls.foldl Multipart.call u) calls' := atEnds_append calls calls'

theorem SameTexts.record (h : SameTexts u v) :
    u.said.record u.partData = v.said.record v.partData := by
  rw [SameTexts] at h
  rw [← h]
  rfl

theorem stored_same (h : SameTexts u v) (calls : List Callback) :
    stored u calls = stored v calls :=
  atEnds_same (fun _ _ h => h.call) (fun _ _ h => h.record) h calls

theorem stored_noEnd {calls : List Callback} (h : NoEnd calls) : stored u calls = [] :=
  atEnds_noEnd h

/-- The form changes where a part ends, and only there. -/
theorem mp_call (cb : Callback) : (Multipart.call u cb).mp =
    if cb = .part_data_end then store u.mp (u.said.record u.partData) else u.mp := by
  have hheader : u.handle_header.mp = u.mp := by
    by_cases hleft : u.headerField = [] ∨ u.headerValue = []
    · rw [handle_header_left hleft]
    · obtain ⟨hfield, hvalue⟩ := not_or.mp hleft
      rw [handle_header_eq hfield hvalue]
      rfl
  cases cb with
  | header_field text => exact hheader
  | headers_complete => exact hheader
  | header_value text => rfl
  | part_data text => rfl
  | part_data_begin => rfl
  | part_data_end => rfl
  | body_end => rfl

theorem mp_calls (calls : List Callback) :
    (calls.foldl Multipart.call u).mp = (stored u calls).foldl store u.mp := by
  induction calls generalizing u with
  | nil => rfl
  | cons cb calls ih =>
    rw [List.foldl_cons, ih, mp_call, stored, atEnds, List.foldl_append]
    split
    · rfl
    · rfl

theorem call_data_append (x y : Bytes) : Multipart.call (Multipart.call u (.part_data x)) (.part_data y) =
    Multipart.call u (.part_data (x ++ y)) := by
  simp only [Multipart.call, Multipart.OnPartData, List.append_assoc]

/-- Data may come in any pieces. -/
theorem sameTexts_expand (cb : Callback) :
    SameTexts (cb.expand.foldl Multipart.call u) (Multipart.call u cb) := by
  cases cb with
  | part_data text =>
    induction text generalizing u with
    | nil => simp [Callback.expand, SameTexts, Multipart.call, Multipart.OnPartData]
    | cons c text ih =>
      have hnext := ih (u := Multipart.call u (.part_data [c]))
      rw [call_data_append] at hnext
      exact hnext
  | header_field text => exact .refl _
  | headers_complete => exact .refl _
  | header_value text => exact .refl _
  | part_data_begin => exact .refl _
  | part_data_end => exact .refl _
  | body_end => exact .refl _

theorem stored_flat (calls : List Callback) : stored u (flat calls) = stored u calls :=
  atEnds_flat (fun _ _ h => h.call) (fun _ _ h => h.record) (fun _ => sameTexts_expand) calls

/-- Calls that hand out the same data store the same parts. -/
theorem stored_congr {calls calls' : List Callback} (h : flat calls = flat calls') :
    stored u calls = stored u calls' := by
  rw [← stored_flat, h, stored_flat]

theorem handle_header_idem : u.handle_header.handle_header = u.handle_header := by
  by_cases hleft : u.headerField = [] ∨ u.headerValue = []
  · rw [handle_header_left hleft, handle_header_left hleft]
  · obtain ⟨hfield, hvalue⟩ := not_or.mp hleft
    rw [handle_header_eq hfield hvalue]
    exact handle_header_left (Or.inl rfl)

/-- A header is handled when the next one begins or when there is none any more. -/
theorem handle_header_early (hs : List HeaderLine) :
    ((hs.flatMap HeaderLine.calls).foldl Multipart.call u.handle_header).handle_header =
      ((hs.flatMap HeaderLine.calls).foldl Multipart.call u).handle_header := by
  cases hs with
  | nil => exact handle_header_idem
  | cons h hs =>
    have hcall : Multipart.call u.handle_header (.header_field h.name) =
        Multipart.call u (.header_field h.name) := by
      simp only [Multipart.call, Multipart.OnHeaderField, handle_header_idem]
    simp only [List.flatMap_cons, HeaderLine.calls, List.foldl_append, List.foldl_cons, hcall]

/-- What header lines leave behind, once the last of them has been handled. -/
theorem handle_headers (hs : List HeaderLine) (hleft : u.headerField = [] ∨ u.headerValue = []) :
    SameTexts ((hs.flatMap HeaderLine.calls).foldl Multipart.call u).handle_header
      { u.setSaid ((join (u.headerField, u.headerValue) hs).1.foldl Said.header u.said) with
        headerField := (join (u.headerField, u.headerValue) hs).2.1
        headerValue := (join (u.headerField, u.headerValue) hs).2.2 } := by
  induction hs generalizing u with
  | nil =>
    rw [List.flatMap_nil, List.foldl_nil, handle_header_left hleft]
    exact .refl u
  | cons h hs ih =>
    have hline : h.calls.foldl Multipart.call u = { u with
        state := .MP_HEADER_VALUE
        headerField := u.headerField ++ h.name
        headerValue := u.headerValue ++ h.value } := by
      simp only [HeaderLine.calls, List.foldl_cons, List.foldl_nil, Multipart.call,
        Multipart.OnHeaderField, Multipart.OnHeaderValue, handle_header_left hleft]
    rw [List.flatMap_cons, List.foldl_append, hline, join]
    split
    · rename_i hjoin
      apply (ih hjoin).trans
      exact .refl _
    · rename_i hjoin
      obtain ⟨hfield, hvalue⟩ := not_or.mp hjoin
      have hheader := handle_header_eq (u := { u with
        state := .MP_HEADER_VALUE
        headerField := u.headerField ++ h.name
        headerValue := u.headerValue ++ h.value }) hfield hvalue
      rw [← handle_header_early, hheader]
      apply (ih (Or.inl rfl)).trans
      exact .refl _

/-- The userdata between two parts, with what is left of header lines. -/
def blank (g : Bytes × Bytes) : multipart_parser_userdata :=
  { new ∅ with headerField := g.1, headerValue := g.2 }

theorem join_left {g : Bytes × Bytes} (hs : List HeaderLine) (hg : g.1 = [] ∨ g.2 = []) :
    (join g hs).2.1 = [] ∨ (join g hs).2.2 = [] := by
  induction hs generalizing g with
  | nil => exact hg
  | cons h hs ih =>
    rw [join]
    split
    · rename_i hjoin
      exact ih hjoin
    · exact ih (Or.inl rfl)

/-- A part is stored as its header lines say it, and what is left of them is left to the next. -/
theorem part_calls (p : Part) {g : Bytes × Bytes} (hg : g.1 = [] ∨ g.2 = []) :
    stored (blank g) p.calls =
        [((join g p.headers).1.foldl Said.header .empty).record p.content] ∧
      SameTexts (p.calls.foldl Multipart.call (blank g)) (blank (join g p.headers).2) := by
  -- the userdata at the end of the header lines
  have hbegin : SameTexts (blank g) (Multipart.call (blank g) .part_data_begin) := rfl
  have hlines := hbegin.symm.calls (p.headers.flatMap HeaderLine.calls)
  have hheaders := hlines.handle_header.trans (handle_headers p.headers hg)
  have hcomplete : ∀ u, SameTexts (Multipart.call u .headers_complete) u.handle_header := fun _ => rfl
  have hsame := (hcomplete _).trans hheaders
  have hcalls : p.calls = [.part_data_begin] ++ p.headers.flatMap HeaderLine.calls ++
      [.headers_complete] ++ [.part_data p.content, .part_data_end] := by
    simp [Part.calls]
  have hbefore : NoEnd ([.part_data_begin] ++ p.headers.flatMap HeaderLine.calls ++
      [.headers_complete]) := by
    simp [NoEnd, HeaderLine.calls]
  refine ⟨?_, ?_⟩
  · rw [hcalls, stored_append, stored_noEnd hbefore, List.foldl_append, List.foldl_append,
      List.nil_append]
    exact stored_same hsame _
  · rw [hcalls, List.foldl_append, List.foldl_append, List.foldl_append]
    apply (hsame.calls [.part_data p.content, .part_data_end]).trans
    rfl

theorem stored_parts {parts : List Part} {g : Bytes × Bytes} (hg : g.1 = [] ∨ g.2 = []) :
    stored (blank g) (partsCalls parts) = readParts g parts := by
  induction parts generalizing g with
  | nil => rfl
  | cons p parts ih =>
    obtain ⟨hstored, htexts⟩ := part_calls p hg
    have hcons : partsCalls (p :: parts) = p.calls ++ partsCalls parts := List.flatMap_cons
    rw [hcons, stored_append, hstored, stored_same htexts, ih (join_left p.headers hg)]
    rfl

end multipart_parser_userdata

def dashed (boundary : Bytes) : Bytes := 45 :: 45 :: cStr boundary

theorem init_dashed (boundary : Bytes) : MultipartParser.init (bytes "--" ++ cStr boundary) =
    ⟨0, (dashed boundary).length, .s_start, List.replicate ((dashed boundary).length + 9) 0,
      dashed boundary⟩ := by
  have hzero : (0 : UInt8) ∉ cStr boundary := by
    intro h
    have hne := List.mem_takeWhile_imp h
    simp at hne
  have hc : cStr (dashed boundary) = dashed boundary := by
    apply Url.cStr_eq
    simp [dashed, hzero]
  have htext : bytes "--" ++ cStr boundary = dashed boundary := rfl
  rw [MultipartParser.init, htext, hc]

theorem follows_init (boundary buf : Bytes) :
    Follows (dashed boundary) buf (MultipartParser.init (bytes "--" ++ cStr boundary)) 0 0
      (.opening 0) := by
  rw [init_dashed]
  refine ⟨rfl, rfl, List.length_replicate, ?_, Or.inl ⟨rfl, rfl⟩⟩
  rw [opening_length]
  omega

namespace Multipart
variable {boundary str : Bytes} {mp : MultiPartForm} {m : Mode} {calls : List Callback}

def execution (str boundary : Bytes) : Nat × MultipartParser × List Callback :=
  (MultipartParser.init (bytes "--" ++ cStr boundary)).execute str

/-- The parts that are handed to the form, with their names. -/
def recorded (str boundary : Bytes) : List (Bytes × Form) :=
  stored (blank ([], [])) (execution str boundary).2.2

theorem ParseMultipart_recorded : ParseMultipart str mp boundary =
    (if (execution str boundary).1 = str.length then 0 else -1,
      (recorded str boundary).foldl store mp) := by
  have hsame : SameTexts (.new mp) (blank ([], [])) := rfl
  rw [recorded, ← stored_same hsame]
  exact congrArg (Prod.mk _) (mp_calls _)

/-- Where the parser is, and what it has handed out, at the end of a body that is read. -/
theorem execution_run (h : Mode.run (dashed boundary) (.opening 0) str = some (m, calls)) :
    ∃ q mark calls', execution str boundary = (str.length, q, calls') ∧
      Follows (dashed boundary) str q str.length mark m ∧
      ∃ extra, flat calls' = flat calls ++ extra ∧ NoEnd extra := by
  cases str with
  | nil =>
    obtain ⟨rfl, rfl⟩ := Prod.mk.inj (Option.some.inj h)
    have hloop : execution [] boundary = (0, .init (bytes "--" ++ cStr boundary), []) :=
      loop_ended (Nat.le_refl _)
    exact ⟨_, 0, [], hloop, follows_init boundary [], [], rfl, List.not_mem_nil⟩
  | cons c str =>
    exact loop_reads (List.cons_ne_nil _ _) (List.cons_ne_nil c str) List.drop_zero
      (follows_init boundary (c :: str)) h

/-- A body that is read to its end. -/
theorem execution_reads (h : Mode.run (dashed boundary) (.opening 0) str = some (m, calls)) :
    (execution str boundary).1 = str.length ∧
      recorded str boundary = stored (blank ([], [])) calls := by
  obtain ⟨q, mark, calls', hexecution, -, extra, hflat, hno⟩ := execution_run h
  rw [recorded, hexecution]
  refine ⟨rfl, ?_⟩
  rw [← stored_flat calls', hflat, stored_append, stored_noEnd hno, List.append_nil, stored_flat]

/-- A body that cannot be read to its end. -/
theorem execution_fails {x z : Bytes} {c : UInt8}
    (h : Mode.run (dashed boundary) (.opening 0) x = some (m, calls))
    (hnone : m.read (dashed boundary) c = none) :
    (execution (x ++ c :: z) boundary).1 = x.length ∧
      recorded (x ++ c :: z) boundary = stored (blank ([], [])) calls := by
  obtain ⟨q, calls', before, hloop, hno, hflat⟩ :=
    loop_fails (List.cons_ne_nil _ _) List.drop_zero (follows_init boundary (x ++ c :: z)) h hnone
  have hheld : held (x ++ c :: z) (MultipartParser.init (bytes "--" ++ cStr boundary)) 0 0 = [] :=
    rfl
  have hexecution : execution (x ++ c :: z) boundary = (0 + x.length, q, calls') := hloop
  rw [hheld, List.nil_append] at hflat
  rw [recorded, hexecution]
  refine ⟨Nat.zero_add _, ?_⟩
  rw [← stored_flat calls, ← hflat, stored_append, stored_noEnd hno, List.append_nil, stored_flat]

/-- A body that is read to its end is accepted, any other is rejected. -/
theorem ParseMultipart_code : (ParseMultipart str mp boundary).1 =
    if (Mode.run (dashed boundary) (.opening 0) str).isSome then 0 else -1 := by
  rw [ParseMultipart_recorded]
  cases Mode.run_cases (dashed boundary) (.opening 0) str with
  | inl h =>
    obtain ⟨⟨m, calls⟩, hrun⟩ := h
    rw [hrun, (execution_reads hrun).1]
    simp
  | inr h =>
    obtain ⟨x, c, z, m, calls, rfl, hrun, hnone⟩ := h
    rw [Mode.run_none hrun hnone, (execution_fails hrun hnone).1]
    simp

section Document
variable {parts : List Part} {epilogue : Bytes} {σ β : Type} {step : σ → Callback → σ} {out : σ → β}
  {same : σ → σ → Prop} {s : σ}

/-- The execution shows of a document what the calls of its parts show. -/
theorem atEnds_document (hcall : ∀ s t, same s t → ∀ cb, same (step s cb) (step t cb))
    (hout : ∀ s t, same s t → out s = out t)
    (hexpand : ∀ s (cb : Callback), same (cb.expand.foldl step s) (step s cb)) (hne : parts ≠ [])
    (hp : ∀ p ∈ parts, p.Valid (dashed boundary)) :
    atEnds step out s (execution (documentText (dashed boundary) parts epilogue) boundary).2.2 =
      atEnds step out s (partsCalls parts) := by
  obtain ⟨calls, hrun, hcalls⟩ := @run_document _ _ epilogue hne hp
  obtain ⟨q, mark, calls', hexecution, -, extra, hflat, hno⟩ := execution_run hrun
  have hend : NoEnd [.body_end] := by simp [NoEnd]
  have hflat_eq := @atEnds_flat _ _ _ _ _ s hcall hout hexpand
  rw [hexecution, ← hflat_eq calls', hflat, atEnds_append, atEnds_noEnd hno, List.append_nil,
    hcalls, hflat_eq, atEnds_append, atEnds_noEnd hend, List.append_nil]

theorem recorded_document (hne : parts ≠ []) (hp : ∀ p ∈ parts, p.Valid (dashed boundary)) :
    recorded (documentText (dashed boundary) parts epilogue) boundary =
      readParts ([], []) parts :=
  (atEnds_document (fun _ _ h => h.call) (fun _ _ h => h.record) (fun _ => sameTexts_expand)
    hne hp).trans (stored_parts (Or.inl rfl))

end Document

/-- The parts of a document are stored. -/
theorem ParseMultipart_document {parts : List Part} {epilogue : Bytes} (hne : parts ≠ [])
    (hp : ∀ p ∈ parts, p.Valid (dashed boundary)) :
    ParseMultipart (documentText (dashed boundary) parts epilogue) mp boundary =
      (0, (readParts ([], []) parts).foldl store mp) := by
  obtain ⟨calls, hrun, -⟩ := @run_document _ _ epilogue hne hp
  rw [ParseMultipart_recorded, recorded_document hne hp, (execution_reads hrun).1, if_pos rfl]

end Multipart

end CppPrivate.Http
