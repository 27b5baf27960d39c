import CppPrivate.Http.Records

/-! Forms sent as `multipart/form-data`. A form that is written part by part is read back as it
was. -/
namespace CppPrivate.Http
open Url (cStr isAlphanum)

structure FormPart where
  name : Bytes
  filename : Option Bytes
  contentType : Option Bytes
  content : Bytes
deriving DecidableEq

def isNameChar (c : UInt8) : Bool := isAlphanum c || c == 46 || c == 45 || c == 95

def quoted (s : Bytes) : Bytes := 34 :: s ++ [34]

namespace FormPart

def disposition (p : FormPart) : Bytes :=
  bytes "form-data; name=" ++ quoted p.name ++
    p.filename.elim [] (fun filename => bytes "; filename=" ++ quoted filename)

def render (boundary : Bytes) (p : FormPart) : Bytes :=
  bytes "--" ++ boundary ++ bytes "\r\n" ++
  bytes "Content-Disposition: " ++ p.disposition ++ bytes "\r\n" ++
  p.contentType.elim [] (fun contentType => bytes "Content-Type: " ++ contentType ++ bytes "\r\n") ++
  bytes "\r\n" ++ p.content ++ bytes "\r\n"

def form (p : FormPart) : Form := ⟨p.filename.getD [], p.content, p.contentType.getD []⟩

structure Valid (boundary : Bytes) (p : FormPart) : Prop where
  name_ne : p.name ≠ []
  name : ∀ c ∈ p.name, isNameChar c
  filename : ∀ filename, p.filename = some filename → ∀ c ∈ filename, isNameChar c
  contentType : ∀ contentType, p.contentType = some contentType →
    contentType ≠ [] ∧ contentType.head? ≠ some 32 ∧ CR ∉ contentType ∧ LF ∉ contentType
  content : ¬ CR :: LF :: 45 :: 45 :: boundary <:+: p.content

def part (p : FormPart) : Part where
  headers := ⟨bytes "Content-Disposition", 32 :: p.disposition⟩ ::
    p.contentType.elim [] (fun contentType => [⟨bytes "Content-Type", 32 :: contentType⟩])
  ending := []
  content := p.content

end FormPart

def renderForm (boundary : Bytes) (parts : List FormPart) (epilogue : Bytes) : Bytes :=
  parts.flatMap (FormPart.render boundary) ++ bytes "--" ++ boundary ++ bytes "--" ++ epilogue

section Text
variable {boundary : Bytes}

theorem dashed_eq (h : 0 ∉ boundary) : dashed boundary = bytes "--" ++ boundary := by
  rw [dashed, Url.cStr_eq h]
  rfl

theorem bytes_crlf : bytes "\r\n" = [CR, LF] := rfl

theorem bytes_disposition :
    bytes "Content-Disposition: " = bytes "Content-Disposition" ++ [58, 32] := rfl

theorem bytes_type : bytes "Content-Type: " = bytes "Content-Type" ++ [58, 32] := rfl

theorem render_eq (b rest : Bytes) (p : FormPart) (hb : b = bytes "--" ++ boundary) :
    p.render boundary ++ (b ++ rest) = b ++ (p.part.text b ++ rest) := by
  subst hb
  obtain ⟨name, filename, contentType, content⟩ := p
  cases contentType with
  | none =>
    simp only [FormPart.render, FormPart.part, Part.text, Part.head, HeaderLine.text, delimiter,
      bytes_crlf, bytes_disposition, Option.elim_none, List.flatMap_cons, List.flatMap_nil,
      List.append_assoc, List.cons_append, List.nil_append, List.append_nil]
  | some contentType =>
    simp only [FormPart.render, FormPart.part, Part.text, Part.head, HeaderLine.text, delimiter,
      bytes_crlf, bytes_disposition, bytes_type, Option.elim_some, List.flatMap_cons,
      List.flatMap_nil, List.append_assoc, List.cons_append, List.nil_append, List.append_nil]

theorem renders_eq (b rest : Bytes) (parts : List FormPart) (hb : b = bytes "--" ++ boundary) :
    parts.flatMap (FormPart.render boundary) ++ (b ++ rest) =
      b ++ (partsText b (parts.map FormPart.part) ++ rest) := by
  induction parts with
  | nil => rfl
  | cons p parts ih =>
    have hparts : partsText b ((p :: parts).map FormPart.part) =
        p.part.text b ++ partsText b (parts.map FormPart.part) := List.flatMap_cons
    rw [List.flatMap_cons, List.append_assoc, ih, render_eq b _ p hb, hparts, List.append_assoc]

/-- A form is written as a multipart body. -/
theorem renderForm_eq (h : 0 ∉ boundary) (parts : List FormPart) (epilogue : Bytes) :
    renderForm boundary parts epilogue =
      documentText (dashed boundary) (parts.map FormPart.part) epilogue := by
  have htext := renders_eq (dashed boundary) (45 :: 45 :: epilogue) parts (dashed_eq h)
  rw [documentText, List.append_assoc, ← htext, dashed_eq h]
  simp only [renderForm, List.append_assoc]
  rfl

/-- The data of a part ends where it should. -/
theorem part_passes (h : 0 ∉ boundary) (hcr : CR ∉ boundary) {x : Bytes}
    (hx : ¬ CR :: LF :: 45 :: 45 :: boundary <:+: x) :
    Restart.Passes (delimiter (dashed boundary)) x := by
  have hd : delimiter (dashed boundary) = CR :: LF :: 45 :: 45 :: boundary := by
    rw [dashed, Url.cStr_eq h]
    rfl
  rw [hd]
  apply Restart.passes_of_absent _ (List.cons_ne_nil _ _) hx
  intro i hi heq
  -- behind the first byte there is no other carriage return
  have hmem : CR ∈ LF :: 45 :: 45 :: boundary := by
    obtain ⟨k, rfl⟩ := Nat.exists_eq_succ_of_ne_zero (Nat.pos_iff_ne_zero.mp hi)
    exact List.mem_of_getElem? heq
  simp [hcr] at hmem
  revert hmem
  decide

end Text

section Said
variable {s : Bytes} {c d : UInt8}

/-- A text without the bytes at which a disposition is split, and without a zero byte. -/
def Undelimited (s : Bytes) : Prop := (0 : UInt8) ∉ s ∧ (59 : UInt8) ∉ s ∧ (61 : UInt8) ∉ s

instance : Decidable (Undelimited s) := inferInstanceAs (Decidable (_ ∧ _ ∧ _))

theorem undelimited_of_nameChars (hs : ∀ c ∈ s, isNameChar c) : Undelimited s := by
  have hnot : ∀ d, isNameChar d = false → d ∉ s := by
    intro d hd hmem
    rw [hs d hmem] at hd
    cases hd
  exact ⟨hnot 0 rfl, hnot 59 rfl, hnot 61 rfl⟩

theorem not_mem_quoted (hs : d ∉ s) (hquote : d ≠ 34) : d ∉ quoted s := by
  simp [quoted, hs, hquote]

theorem trim_pairs_quoted (s : Bytes) : trim_pairs (quoted s) [34, 34, 39, 39] = s := by
  have hlast : (quoted s).getLast? = some 34 := List.getLast?_concat
  have hhead : (quoted s).head? = some 34 := rfl
  have hlen : (quoted s).length - 2 = s.length := by simp [quoted]
  rw [trim_pairs, hhead, hlast]
  simp only [isPair, BEq.rfl, Bool.and_self, Bool.true_or, if_true, hlen]
  simp [quoted]

/-- A text in quotes, with a space before it. -/
theorem trim_space (c : UInt8) (s : Bytes) (hc : c ≠ 32) :
    trim (32 :: c :: s ++ [34]) (bytes " ") = c :: s ++ [34] := by
  have hspace : oneOf (bytes " ") 32 = true := rfl
  have hquote : oneOf (bytes " ") 34 = false := rfl
  have hother : oneOf (bytes " ") c = false := by
    simpa [oneOf, bytes, cStr] using hc
  rw [trim, List.cons_append, List.dropWhile_cons_of_pos hspace, List.cons_append,
    List.dropWhile_cons_of_neg (by simp [hother]), ← List.cons_append, List.reverse_concat,
    List.dropWhile_cons_of_neg (by simp [hquote]), ← List.reverse_concat, List.reverse_reverse]

theorem param_quoted (t : Said) (k : UInt8) (key : Bytes) (hkey : ∀ c ∈ k :: key, isAlphanum c)
    (hs : Undelimited s) : t.param (32 :: (k :: key) ++ 61 :: quoted s) =
      if k :: key = bytes "name" then { t with name := s }
      else if k :: key = bytes "filename" then { t with filename := s } else t := by
  have hnot : ∀ d, isAlphanum d = false → d ∉ k :: key := by
    intro d hd hmem
    rw [hkey d hmem] at hd
    cases hd
  have htext : 32 :: (k :: key) ++ 61 :: quoted s =
      32 :: k :: (key ++ 61 :: 34 :: s) ++ [34] := by
    simp [quoted]
  have htrimmed : k :: (key ++ 61 :: 34 :: s) ++ [34] = (k :: key) ++ 61 :: quoted s := by
    simp [quoted]
  have hspace : k ≠ 32 := by
    intro heq
    subst heq
    exact hnot 32 rfl List.mem_cons_self
  have hzero : (0 : UInt8) ∉ (k :: key) ++ 61 :: quoted s := by
    have hquoted := not_mem_quoted hs.1 (by decide)
    have hname := hnot 0 rfl
    simp only [List.mem_append, List.mem_cons, not_or] at hname ⊢
    exact ⟨hname, by decide, hquoted⟩
  have hsplit : split ((k :: key) ++ 61 :: quoted s) 61 = [k :: key, quoted s] := by
    rw [split, Url.cStr_eq hzero, List.splitOn_append_cons_self_of_not_mem (hnot 61 rfl),
      List.splitOn_eq_singleton (not_mem_quoted hs.2.2 (by decide))]
  rw [Said.param, htext, trim_space k _ hspace, htrimmed, hsplit]
  simp only [trim_pairs_quoted, Url.cStr_eq (hnot 0 rfl)]

theorem param_name (t : Said) (hs : Undelimited s) :
    t.param (bytes " name=" ++ quoted s) = { t with name := s } := by
  have hparam := param_quoted t 110 (bytes "ame") (List.all_eq_true.mp rfl) hs
  rw [if_pos (by decide)] at hparam
  exact hparam

theorem param_filename (t : Said) (hs : Undelimited s) :
    t.param (bytes " filename=" ++ quoted s) = { t with filename := s } := by
  have hparam := param_quoted t 102 (bytes "ilename") (List.all_eq_true.mp rfl) hs
  rw [if_neg (by decide), if_pos (by decide)] at hparam
  exact hparam

theorem param_form_data (t : Said) : t.param (bytes "form-data") = t := rfl

/-- A disposition says the name and the filename. -/
theorem split_disposition {p : FormPart} (hname : Undelimited p.name)
    (hfile : ∀ filename, p.filename = some filename → Undelimited filename) :
    split p.disposition 59 = bytes "form-data" :: (bytes " name=" ++ quoted p.name) ::
      p.filename.elim [] (fun filename => [bytes " filename=" ++ quoted filename]) := by
  have hdata : (59 : UInt8) ∉ bytes "form-data" := by decide
  have hnameSplit : (59 : UInt8) ∉ bytes " name=" ++ quoted p.name := by
    rw [List.mem_append, not_or]
    exact ⟨by decide, not_mem_quoted hname.2.1 (by decide)⟩
  have hnameZero : (0 : UInt8) ∉ bytes " name=" ++ quoted p.name := by
    rw [List.mem_append, not_or]
    exact ⟨by decide, not_mem_quoted hname.1 (by decide)⟩
  cases heq : p.filename with
  | none =>
    have htext : p.disposition = bytes "form-data" ++ 59 :: (bytes " name=" ++ quoted p.name) := by
      rw [FormPart.disposition, heq, Option.elim_none, List.append_nil]
      rfl
    have hzero : (0 : UInt8) ∉ p.disposition := by
      rw [htext, List.mem_append, List.mem_cons, not_or, not_or]
      exact ⟨by decide, by decide, hnameZero⟩
    rw [split, Url.cStr_eq hzero, htext, List.splitOn_append_cons_self_of_not_mem hdata,
      List.splitOn_eq_singleton hnameSplit, Option.elim_none]
  | some filename =>
    have hplain := hfile filename heq
    have hfileSplit : (59 : UInt8) ∉ bytes " filename=" ++ quoted filename := by
      rw [List.mem_append, not_or]
      exact ⟨by decide, not_mem_quoted hplain.2.1 (by decide)⟩
    have hfileZero : (0 : UInt8) ∉ bytes " filename=" ++ quoted filename := by
      rw [List.mem_append, not_or]
      exact ⟨by decide, not_mem_quoted hplain.1 (by decide)⟩
    have htext : p.disposition = bytes "form-data" ++ 59 :: (bytes " name=" ++ quoted p.name ++
        59 :: (bytes " filename=" ++ quoted filename)) := by
      rw [FormPart.disposition, heq, Option.elim_some, List.append_assoc, List.append_assoc]
      rfl
    have hzero : (0 : UInt8) ∉ p.disposition := by
      rw [htext, List.mem_append, List.mem_cons, List.mem_append, List.mem_cons]
      simp only [not_or]
      exact ⟨by decide, by decide, hnameZero, by decide, hfileZero⟩
    rw [split, Url.cStr_eq hzero, htext, List.splitOn_append_cons_self_of_not_mem hdata,
      List.splitOn_append_cons_self_of_not_mem hnameSplit,
      List.splitOn_eq_singleton hfileSplit, Option.elim_some]

theorem params_disposition {p : FormPart} (hname : Undelimited p.name)
    (hfile : ∀ filename, p.filename = some filename → Undelimited filename) (t : Said) :
    (split p.disposition 59).foldl Said.param t =
      { t with name := p.name, filename := p.filename.getD t.filename } := by
  rw [split_disposition hname hfile, List.foldl_cons, List.foldl_cons, param_form_data,
    param_name t hname]
  cases heq : p.filename with
  | none => rfl
  | some filename => exact param_filename _ (hfile filename heq)

theorem header_own_disposition (t : Said) (value : Bytes) :
    t.header (bytes "Content-Disposition", value) = (split value 59).foldl Said.param t := by
  have hfield : stricmpEq (bytes "Content-Disposition") (bytes "Content-Disposition") = true := by
    decide
  have htype : stricmpEq (bytes "Content-Disposition") (bytes "Content-Type") = false := by decide
  simp only [Said.header, hfield, htype, Bool.false_eq_true, if_false, if_true]

theorem header_type (t : Said) (contentType : Bytes) :
    t.header (bytes "Content-Type", contentType) = { t with contentType := contentType } := by
  have hfield : stricmpEq (bytes "Content-Type") (bytes "Content-Disposition") = false := by decide
  have htype : stricmpEq (bytes "Content-Type") (bytes "Content-Type") = true := by decide
  simp only [Said.header, hfield, htype, Bool.false_eq_true, if_false, if_true]

theorem value_space {raw : Bytes} (h : raw.head? ≠ some 32) :
    (32 :: raw).dropWhile (· == 32) = raw := by
  rw [List.dropWhile_cons_of_pos (by decide)]
  cases raw with
  | nil => rfl
  | cons c raw =>
    rw [List.dropWhile_cons_of_neg]
    simpa using h

theorem disposition_head (p : FormPart) : p.disposition.head? = some 102 := rfl

theorem cr_disposition {boundary : Bytes} {p : FormPart} (hp : p.Valid boundary) :
    CR ∉ p.disposition := by
  have hquoted : ∀ s, (∀ c ∈ s, isNameChar c) → CR ∉ quoted s := by
    intro s hs
    have hcr : CR ∉ s := fun hmem => absurd (hs CR hmem) (by decide)
    exact not_mem_quoted hcr (by decide)
  rw [FormPart.disposition, List.mem_append, List.mem_append, not_or, not_or]
  refine ⟨⟨by decide, hquoted _ hp.name⟩, ?_⟩
  cases hfile : p.filename with
  | none => exact List.not_mem_nil
  | some filename =>
    rw [Option.elim_some, List.mem_append, not_or]
    exact ⟨by decide, hquoted _ (hp.filename filename hfile)⟩

theorem part_valid {boundary : Bytes} {p : FormPart} (h : 0 ∉ boundary) (hcr : CR ∉ boundary)
    (hp : p.Valid boundary) : p.part.Valid (dashed boundary) := by
  refine ⟨?_, ?_, part_passes h hcr hp.content⟩
  · intro l hl
    cases List.mem_cons.mp hl with
    | inl hl =>
      have hname : ∀ c ∈ bytes "Content-Disposition", isFieldChar c := List.all_eq_true.mp rfl
      rw [hl]
      refine ⟨hname, ?_⟩
      rw [List.mem_cons, not_or]
      exact ⟨by decide, cr_disposition hp⟩
    | inr hl =>
      cases htype : p.contentType with
      | none =>
        rw [htype] at hl
        cases hl
      | some contentType =>
        rw [htype] at hl
        have hname : ∀ c ∈ bytes "Content-Type", isFieldChar c := List.all_eq_true.mp rfl
        rw [List.mem_singleton.mp hl]
        refine ⟨hname, ?_⟩
        rw [List.mem_cons, not_or]
        exact ⟨by decide, (hp.contentType contentType htype).2.2.1⟩
  · intro c hc
    cases hc

theorem header_values {boundary : Bytes} {p : FormPart} (hp : p.Valid boundary) :
    p.part.headers.map (fun l => (l.name, l.value)) =
      (bytes "Content-Disposition", p.disposition) ::
        p.contentType.elim [] (fun contentType => [(bytes "Content-Type", contentType)]) := by
  have hvalue : HeaderLine.value ⟨bytes "Content-Disposition", 32 :: p.disposition⟩ =
      p.disposition := by
    apply value_space
    rw [disposition_head]
    decide
  rw [FormPart.part, List.map_cons, hvalue]
  cases htype : p.contentType with
  | none => rfl
  | some contentType =>
    have htypeValue : HeaderLine.value ⟨bytes "Content-Type", 32 :: contentType⟩ = contentType :=
      value_space (hp.contentType contentType htype).2.1
    rw [Option.elim_some, Option.elim_some, List.map_singleton, htypeValue]

theorem part_said {boundary : Bytes} {p : FormPart} (hp : p.Valid boundary) :
    join ([], []) p.part.headers = (p.part.headers.map (fun l => (l.name, l.value)), ([], [])) ∧
      ((p.part.headers.map fun l => (l.name, l.value)).foldl Said.header .empty).record p.content =
        (p.name, p.form) := by
  have hvalues := header_values hp
  refine ⟨?_, ?_⟩
  · apply join_values
    intro l hl
    have hmem := List.mem_map_of_mem (f := fun l : HeaderLine => (l.name, l.value)) hl
    rw [hvalues] at hmem
    cases List.mem_cons.mp hmem with
    | inl heq =>
      obtain ⟨hname, hvalue⟩ := Prod.mk.inj heq
      rw [hname, hvalue]
      exact ⟨by decide, List.cons_ne_nil _ _⟩
    | inr hmem =>
      cases htype : p.contentType with
      | none =>
        rw [htype] at hmem
        cases hmem
      | some contentType =>
        rw [htype] at hmem
        obtain ⟨hname, hvalue⟩ := Prod.mk.inj (List.mem_singleton.mp hmem)
        rw [hname, hvalue]
        exact ⟨by decide, (hp.contentType contentType htype).1⟩
  · have hfile : ∀ filename, p.filename = some filename → Undelimited filename :=
      fun filename heq => undelimited_of_nameChars (hp.filename filename heq)
    rw [hvalues, List.foldl_cons, header_own_disposition,
      params_disposition (undelimited_of_nameChars hp.name) hfile, FormPart.form]
    cases htype : p.contentType with
    | none => rfl
    | some contentType =>
      rw [Option.elim_some, List.foldl_cons, header_type]
      rfl

/-- The parts are read one by one, each as it was written. -/
theorem readParts_form {boundary : Bytes} {parts : List FormPart}
    (hp : ∀ p ∈ parts, p.Valid boundary) : readParts ([], []) (parts.map FormPart.part) =
      parts.map fun p => (p.name, p.form) := by
  induction parts with
  | nil => rfl
  | cons p parts ih =>
    obtain ⟨hpart, hparts⟩ := List.forall_mem_cons.mp hp
    obtain ⟨hjoin, hsaid⟩ := part_said hpart
    have hcontent : p.part.content = p.content := rfl
    rw [List.map_cons, readParts, hjoin, hcontent, hsaid, ih hparts, List.map_cons]

end Said

/-- In a list of parts with distinct names each part is found by its name. -/
theorem lookup_name {parts : List FormPart} (hdistinct : (parts.map FormPart.name).Nodup)
    {p : FormPart} (hp : p ∈ parts) :
    (parts.map fun p => (p.name, p.form)).reverse.lookup p.name = some p.form := by
  obtain ⟨before, after, rfl⟩ := List.append_of_mem hp
  rw [List.map_append, List.map_cons] at hdistinct
  have hafter := (List.nodup_cons.mp (List.nodup_append.mp hdistinct).2.1).1
  apply List.lookup_eq_some_iff.mpr
  refine ⟨(after.map fun p => (p.name, p.form)).reverse,
    (before.map fun p => (p.name, p.form)).reverse, by simp, ?_⟩
  intro r hr
  obtain ⟨q, hq, rfl⟩ := List.mem_map.mp (List.mem_reverse.mp hr)
  apply bne_iff_ne.mpr
  intro heq
  exact hafter (heq ▸ List.mem_map_of_mem hq)

/-- A form that has been written is read back: each part under its name, with its content, its
filename and its content type, and no other name. -/
theorem form_reads_back {boundary : Bytes} {parts : List FormPart} (h : 0 ∉ boundary)
    (hcr : CR ∉ boundary) (hne : parts ≠ []) (hp : ∀ p ∈ parts, p.Valid boundary)
    (hdistinct : (parts.map FormPart.name).Nodup) (mp : MultiPartForm) (epilogue : Bytes) :
    ∃ mp', Multipart.ParseMultipart (renderForm boundary parts epilogue) mp boundary = (0, mp') ∧
      (∀ p ∈ parts, mp'[p.name]? = some p.form) ∧
      ∀ name, name ∉ parts.map FormPart.name → mp'[name]? = mp[name]? := by
  have hvalid : ∀ p ∈ parts.map FormPart.part, p.Valid (dashed boundary) := by
    intro q hq
    obtain ⟨p, hmem, rfl⟩ := List.mem_map.mp hq
    exact part_valid h hcr (hp p hmem)
  have hparse := @Multipart.ParseMultipart_document boundary mp _ epilogue
    (fun hnil => hne (List.map_eq_nil_iff.mp hnil)) hvalid
  rw [readParts_form hp] at hparse
  rw [renderForm_eq h]
  refine ⟨_, hparse, ?_, ?_⟩
  · intro p hmem
    rw [getElem?_stored _ _ (hp p hmem).name_ne, lookup_name hdistinct hmem]
    rfl
  · intro name hname
    apply getElem?_stored_other
    intro r hr heq
    obtain ⟨p, hmem, rfl⟩ := List.mem_map.mp hr
    exact hname (heq ▸ List.mem_map_of_mem hmem)

/-- Data with pieces of the delimiter in it, and with one right before the delimiter. -/
def twoParts : List FormPart :=
  [⟨bytes "user", none, none, bytes "a\r\n--xa\r\n--x"⟩,
    ⟨bytes "avatar", some (bytes "user.jpg"), some (bytes "image/jpeg"), bytes "\r\r\n\r\n-\r"⟩]

theorem form_reads_back_twoParts : ∃ mp',
    Multipart.ParseMultipart (renderForm (bytes "xb") twoParts (bytes "\r\n")) ∅ (bytes "xb") =
        (0, mp') ∧
      (∀ p ∈ twoParts, mp'[p.name]? = some p.form) ∧
      ∀ name, name ∉ twoParts.map FormPart.name →
        mp'[name]? = (∅ : MultiPartForm)[name]? := by
  apply form_reads_back (by decide) (by decide) (List.cons_ne_nil _ _) _ (by decide)
  intro p hp
  simp only [List.mem_cons, List.not_mem_nil, or_false] at hp
  cases hp with
  | inl hp =>
    rw [hp]
    refine ⟨by decide, List.all_eq_true.mp rfl, ?_, ?_, by decide⟩
    · intro filename hfile
      cases hfile
    · intro contentType htype
      cases htype
  | inr hp =>
    rw [hp]
    refine ⟨by decide, List.all_eq_true.mp rfl, ?_, ?_, by decide⟩
    · intro filename hfile
      cases hfile
      exact List.all_eq_true.mp rfl
    · intro contentType htype
      cases htype
      decide

end CppPrivate.Http
