import CppPrivate.Http.Multipart
import CppPrivate.Lib.Parameters

/-! The boundary of a form. It is cut out of the content type behind the first `boundary=`, up to
the end, whether or not that is the value of the boundary parameter. -/
namespace CppPrivate.Http
open Url (cStr)

section Search
variable {pat s u v : Bytes}

/-- `u` stands before the first occurrence of `pat` in `s`, and `v` behind it. -/
def FirstAt (pat s u v : Bytes) : Prop := s = u ++ pat ++ v ∧ ¬ pat <:+: u ++ pat.dropLast

theorem search_firstAt (hpat : pat ≠ []) (h : search pat s = some (u, v)) : FirstAt pat s u v := by
  induction s generalizing u with
  | nil => rw [search, if_neg hpat] at h; cases h
  | cons c s ih =>
    rw [search] at h
    split at h
    · rename_i hprefix
      obtain ⟨t, ht⟩ := List.isPrefixOf_iff_prefix.mp hprefix
      cases h
      rw [← ht, List.drop_left]
      refine ⟨rfl, ?_⟩
      intro hinfix
      have hlen := hinfix.length_le
      have hpos := List.length_pos_iff.mpr hpat
      rw [List.nil_append, List.length_dropLast] at hlen
      omega
    · rename_i hprefix
      obtain ⟨⟨u', v'⟩, hrest, heq⟩ := Option.map_eq_some_iff.mp h
      obtain ⟨rfl, rfl⟩ := Prod.mk.inj heq
      obtain ⟨hs, hnot⟩ := ih hrest
      refine ⟨by rw [hs]; rfl, ?_⟩
      intro hinfix
      cases List.infix_cons_iff.mp hinfix with
      | inl hstart =>
        apply hprefix
        rw [List.isPrefixOf_iff_prefix, hs]
        apply hstart.trans
        rw [List.cons_prefix_cons]
        refine ⟨rfl, ?_⟩
        rw [List.append_assoc]
        apply (List.prefix_append_right_inj _).mpr
        exact (List.dropLast_prefix pat).trans (List.prefix_append _ _)
      | inr hlater => exact hnot hlater

theorem search_none (h : search pat s = none) : ¬ pat <:+: s := by
  induction s with
  | nil =>
    rw [search] at h
    split at h
    · cases h
    · rename_i hpat
      rw [List.infix_nil]
      exact hpat
  | cons c s ih =>
    rw [search] at h
    split at h
    · cases h
    · rename_i hstart
      rw [List.isPrefixOf_iff_prefix] at hstart
      rw [List.infix_cons_iff, not_or]
      exact ⟨hstart, ih (Option.map_eq_none_iff.mp h)⟩

/-- An occurrence is not before the first one. -/
theorem FirstAt.length_le (h : FirstAt pat s u v) {u' v' : Bytes} (h' : s = u' ++ pat ++ v') :
    u.length ≤ u'.length := by
  by_contra hlt
  apply h.2
  -- the occurrence ends before the last byte of the first one
  have hstart : u' ++ pat <+: u ++ pat.dropLast := by
    have hlater : u' ++ pat <+: s := ⟨v', h'.symm⟩
    apply List.prefix_of_prefix_length_le hlater
    · obtain ⟨t, ht⟩ := List.dropLast_prefix pat
      refine ⟨t ++ v, ?_⟩
      rw [h.1]
      conv_rhs => rw [← ht]
      simp only [List.append_assoc]
    · rw [List.length_append, List.length_append, List.length_dropLast]
      omega
  exact (List.suffix_append u' pat).isInfix.trans hstart.isInfix

theorem FirstAt.unique (h : FirstAt pat s u v) {u' v' : Bytes} (h' : FirstAt pat s u' v') :
    u = u' ∧ v = v' := by
  have hlen : u.length = u'.length := Nat.le_antisymm (h.length_le h'.1) (h'.length_le h.1)
  have heq : u ++ (pat ++ v) = u' ++ (pat ++ v') := by
    rw [← List.append_assoc, ← List.append_assoc, ← h.1, ← h'.1]
  obtain ⟨hu, hrest⟩ := List.append_inj heq hlen
  exact ⟨hu, List.append_cancel_left hrest⟩

end Search

/-- What the context of a request has for its form. -/
structure FormContext where
  contentType : Bytes
  body : Bytes
  multipartForm : MultiPartForm
  errors : List Bytes

/-- The text behind the first `boundary=`. Where there is none, `find` gives `npos`, and
`npos + 9` is 8. -/
def boundaryText (sContentType : Bytes) : Bytes :=
  match search (bytes "boundary=") sContentType with
  | some (_, text) => text
  | none => sContentType.drop 8

/-- The context afterwards, and the boundary that is handed to the parser if it is called. -/
def FormContext.ParseMultipartForm (ctx : FormContext) : FormContext × Option Bytes :=
  if ctx.multipartForm.isEmpty ∧ (bytes "multipart/form-data").isPrefixOf ctx.contentType then
    let boundary := boundaryText ctx.contentType
    if boundary = [] then (ctx, none)
    else
      let (code, multipartForm) := Multipart.ParseMultipart ctx.body ctx.multipartForm boundary
      let errors := if code < 0 then
        ctx.errors ++ [bytes "HTTP request parse multipart/form-data failed."] else ctx.errors
      ({ ctx with multipartForm, errors }, some (cStr boundary))
  else (ctx, none)

def boundaryParam (contentType : Bytes) : Option Bytes :=
  Parameters.lookup (bytes "boundary") contentType

/-- Whatever the body is, the parser is handed the boundary parameter, and without one the form
stays empty. -/
def HandsBoundary (contentType : Bytes) : Prop :=
  ∀ body errors, let (ctx, handed) := FormContext.ParseMultipartForm ⟨contentType, body, ∅, errors⟩
    handed = boundaryParam contentType ∧
      (boundaryParam contentType = none → ctx.multipartForm = ∅)

/-- The header ends with `boundary=` and the value of its boundary parameter, with nothing there if
it has no such parameter, and there is no `boundary=` before. -/
def BoundaryLast (contentType : Bytes) : Prop :=
  boundaryParam contentType ≠ some [] ∧
    ∃ u, FirstAt (bytes "boundary=") contentType u ((boundaryParam contentType).getD [])

section
variable {contentType : Bytes}

/-- What is handed does not depend on the body. -/
theorem handed_eq (htype : bytes "multipart/form-data" <+: contentType) (hzero : 0 ∉ contentType)
    (body : Bytes) (errors : List Bytes) :
    (FormContext.ParseMultipartForm ⟨contentType, body, ∅, errors⟩).2 =
      if boundaryText contentType = [] then none else some (boundaryText contentType) := by
  have hstart : (∅ : MultiPartForm).isEmpty ∧
      (bytes "multipart/form-data").isPrefixOf contentType :=
    ⟨Std.ExtTreeMap.isEmpty_empty, List.isPrefixOf_iff_prefix.mpr htype⟩
  have htext : boundaryText contentType ⊆ contentType := by
    rw [boundaryText]
    split
    · rename_i hsearch
      rw [(search_firstAt (by decide) hsearch).1]
      exact List.subset_append_right _ _
    · exact List.drop_subset _ _
  have hcStr : cStr (boundaryText contentType) = boundaryText contentType :=
    Url.cStr_eq (fun hmem => hzero (htext hmem))
  rw [FormContext.ParseMultipartForm, if_pos hstart]
  by_cases hnil : boundaryText contentType = []
  · simp only [hnil, if_true]
  · simp only [hnil, if_false, hcStr]

/-- Where nothing is handed nothing changes. -/
theorem form_unread {ctx : FormContext} (h : ctx.ParseMultipartForm.2 = none) :
    ctx.ParseMultipartForm.1 = ctx := by
  rw [FormContext.ParseMultipartForm] at h ⊢
  by_cases hstart : ctx.multipartForm.isEmpty ∧
      (bytes "multipart/form-data").isPrefixOf ctx.contentType
  · rw [if_pos hstart] at h ⊢
    by_cases hnil : boundaryText ctx.contentType = []
    · simp only [hnil, if_true]
    · simp only [hnil, if_false, reduceCtorEq] at h
  · rw [if_neg hstart]

theorem handsBoundary_text (htype : bytes "multipart/form-data" <+: contentType)
    (hzero : 0 ∉ contentType) : HandsBoundary contentType ↔
      (if boundaryText contentType = [] then none else some (boundaryText contentType)) =
        boundaryParam contentType := by
  rw [HandsBoundary]
  constructor
  · intro h
    rw [← handed_eq htype hzero [] []]
    exact (h [] []).1
  · intro h body errors
    have hhanded := handed_eq htype hzero body errors
    rw [h] at hhanded
    refine ⟨hhanded, ?_⟩
    intro hnone
    rw [hnone] at hhanded
    exact congrArg FormContext.multipartForm (form_unread hhanded)

/-- The value is not what stands behind the first eight bytes: its name stands before it. -/
theorem boundaryParam_ne_drop : boundaryParam contentType ≠ some (contentType.drop 8) := by
  intro h
  have hlen := Parameters.length_lookup h
  have hname : (bytes "boundary").length = 8 := rfl
  rw [List.length_drop] at hlen
  omega

/-- The parser is handed the boundary parameter if and only if its value stands at the end of the
header, behind the first `boundary=`. -/
theorem handsBoundary_iff (htype : bytes "multipart/form-data" <+: contentType)
    (hzero : 0 ∉ contentType) : HandsBoundary contentType ↔ BoundaryLast contentType := by
  rw [handsBoundary_text htype hzero, BoundaryLast]
  cases hsearch : search (bytes "boundary=") contentType with
  | none =>
    have htext : boundaryText contentType = contentType.drop 8 := by rw [boundaryText, hsearch]
    have hne : contentType.drop 8 ≠ [] := by
      intro hnil
      have hlen := congrArg List.length hnil
      have hlong := htype.length_le
      have h19 : (bytes "multipart/form-data").length = 19 := rfl
      rw [List.length_drop, List.length_nil] at hlen
      omega
    rw [htext, if_neg hne]
    constructor
    · intro h
      exact absurd h.symm boundaryParam_ne_drop
    · intro hcase
      obtain ⟨-, u, hu, -⟩ := hcase
      apply absurd _ (search_none hsearch)
      rw [hu]
      exact ⟨u, _, rfl⟩
  | some found =>
    obtain ⟨u, v⟩ := found
    have hfirst := search_firstAt (by decide) hsearch
    have htext : boundaryText contentType = v := by rw [boundaryText, hsearch]
    rw [htext]
    constructor
    · intro h
      by_cases hv : v = []
      · rw [if_pos hv] at h
        rw [← h]
        exact ⟨by simp, u, hv ▸ hfirst⟩
      · rw [if_neg hv] at h
        rw [← h]
        exact ⟨by simpa using hv, u, hfirst⟩
    · intro hcase
      obtain ⟨hne, u', hu'⟩ := hcase
      obtain ⟨-, hv⟩ := hfirst.unique hu'
      cases hparam : boundaryParam contentType with
      | none =>
        rw [hparam] at hv
        exact if_pos hv
      | some w =>
        rw [hparam] at hv hne
        have hw : v ≠ [] := fun hnil => hne (by rw [← hnil, hv]; rfl)
        rw [if_neg hw, hv]
        rfl

/-- Under its name in small letters, the parameter must have a token as its value, and nothing may
follow it. -/
theorem BoundaryLast.token (h : BoundaryLast contentType) {value : Bytes}
    (hfirst : Parameters.first (bytes "boundary") contentType = some (bytes "boundary", value)) :
    value.all Parameters.isTokenChar ∧ bytes "boundary=" ++ value <:+ contentType := by
  obtain ⟨-, before, raw, after, hs, hraw⟩ := Parameters.first_eq hfirst
  have hparam : boundaryParam contentType = some value := by
    rw [boundaryParam, Parameters.lookup, hfirst]
    rfl
  obtain ⟨-, u, hu⟩ := h
  rw [hparam, Option.getD_some] at hu
  have hname : bytes "boundary=" = bytes "boundary" ++ [61] := rfl
  have hwritten : contentType = before ++ bytes "boundary=" ++ (raw ++ after) := by
    rw [hs, hname, List.append_assoc, List.append_assoc, List.append_assoc]
    rfl
  have hle := hu.length_le hwritten
  have hlen := congrArg List.length (hu.1.symm.trans hwritten)
  simp only [List.length_append] at hlen
  refine ⟨?_, u, ?_⟩
  · cases hraw with
    | inl hraw => exact hraw.2
    | inr hraw => omega
  · rw [← List.append_assoc]
    exact hu.1.symm

/-- The form of the header that clients send by themselves. -/
theorem boundaryLast_token {value : Bytes} (hne : value ≠ [])
    (hvalue : value.all Parameters.isTokenChar) :
    BoundaryLast (bytes "multipart/form-data; boundary=" ++ value) := by
  have htext : bytes "multipart/form-data; boundary=" ++ value =
      bytes "multipart/form-data" ++ 59 :: (32 :: bytes "boundary" ++ 61 :: value) := by
    have hname : bytes "multipart/form-data; boundary=" =
        bytes "multipart/form-data" ++ 59 :: (32 :: bytes "boundary" ++ [61]) := by decide
    rw [hname, List.append_assoc, List.cons_append, List.append_assoc, List.singleton_append]
  have hparams : Parameters.parameters (bytes "multipart/form-data; boundary=" ++ value) =
      [(bytes "boundary", value)] := by
    rw [htext]
    exact Parameters.parameters_token (by decide) (by decide) (by decide) hne hvalue
  have hparam : boundaryParam (bytes "multipart/form-data; boundary=" ++ value) = some value := by
    rw [boundaryParam, Parameters.lookup, Parameters.first, hparams, List.find?_cons_of_pos rfl]
    rfl
  have hsplit : bytes "multipart/form-data; boundary=" =
      bytes "multipart/form-data; " ++ bytes "boundary=" := by decide
  rw [BoundaryLast, hparam]
  have hwhole : bytes "multipart/form-data; boundary=" ++ value =
      bytes "multipart/form-data; " ++ bytes "boundary=" ++ (some value).getD [] := by
    rw [hsplit, Option.getD_some]
  have hnonempty : some value ≠ some [] := by simpa using hne
  refine ⟨hnonempty, _, hwhole, ?_⟩
  intro hinfix
  have hequals : 61 ∈ bytes "multipart/form-data; " ++ (bytes "boundary=").dropLast :=
    hinfix.subset (by decide)
  revert hequals
  decide

end

theorem handsBoundary_browser :
    HandsBoundary (bytes "multipart/form-data; boundary=----WebKitFormBoundary7MA4YWxkTrZu0gW") :=
  (handsBoundary_iff (by decide) (by decide)).mpr
    (@boundaryLast_token (bytes "----WebKitFormBoundary7MA4YWxkTrZu0gW") (by decide) (by decide))

/-- A boundary in quotes is handed with its quotes. -/
theorem quoted_boundary_kept : ¬ ∀ contentType, bytes "multipart/form-data" <+: contentType →
    0 ∉ contentType → HandsBoundary contentType := by
  intro h
  have hhands := h (bytes "multipart/form-data; boundary=\"x\"") (by decide) (by decide)
  rw [handsBoundary_text (by decide) (by decide)] at hhands
  revert hhands
  decide

end CppPrivate.Http
