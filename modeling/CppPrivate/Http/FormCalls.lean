import CppPrivate.Http.Boundary
import CppPrivate.Http.Complete

/-! The calls that read the multipart form of a request. Whether the body has been parsed is told
from the form: as long as it is empty, every call parses again. -/
namespace CppPrivate.Http
open Url (cStr)

inductive FormCall where
  | MultipartForm
  | GetMultipartForm (name defvalue : Bytes)

inductive FormValue where
  | form (multipartForm : MultiPartForm)
  | text (value : Bytes)

namespace FormContext

def call (ctx : FormContext) : FormCall → FormContext × FormValue
  | .MultipartForm =>
    (ctx.ParseMultipartForm.1, .form ctx.ParseMultipartForm.1.multipartForm)
  | .GetMultipartForm name defvalue =>
    (ctx.ParseMultipartForm.1, .text
      (match ctx.ParseMultipartForm.1.multipartForm[cStr name]? with
      | some form => form.content
      | none => defvalue))

def run (ctx : FormContext) (calls : List FormCall) : FormContext :=
  calls.foldl (fun ctx c => (ctx.call c).1) ctx

end FormContext

/-- After the first call the form stays, and every call returns what it would have returned as the
first one. -/
def FormKept (ctx : FormContext) : Prop :=
  ∀ first calls, let ctx' := (ctx.call first).1.run calls
    ctx'.multipartForm = (ctx.call first).1.multipartForm ∧
      ∀ c, (ctx'.call c).2 = (ctx.call c).2

/-- After the first call the errors stay as well. -/
def ErrorsKept (ctx : FormContext) : Prop :=
  ∀ first calls, ((ctx.call first).1.run calls).errors = (ctx.call first).1.errors

/-- The calls do not parse at all, or the body is the beginning of a document, or a part that
stands complete at its beginning has a name. -/
def Cached (ctx : FormContext) : Prop :=
  ¬ bytes "multipart/form-data" <+: ctx.contentType ∨ boundaryText ctx.contentType = [] ∨
    (∃ rest, Document (dashed (boundaryText ctx.contentType)) (ctx.body ++ rest)) ∨
    ∃ parts, Completed (dashed (boundaryText ctx.contentType)) ctx.body parts ∧
      ∃ r ∈ readParts ([], []) parts, r.1 ≠ []

section Parsing
variable {ctx : FormContext} {b body : Bytes}

/-- Parsing, with the form that is left and whether an error is noted. -/
theorem parse_eq (htype : bytes "multipart/form-data" <+: ctx.contentType)
    (hb : boundaryText ctx.contentType ≠ []) (hform : ctx.multipartForm = ∅) :
    ctx.ParseMultipartForm.1 =
      { ctx with
        multipartForm := (Multipart.ParseMultipart ctx.body ∅ (boundaryText ctx.contentType)).2
        errors := if (Multipart.ParseMultipart ctx.body ∅ (boundaryText ctx.contentType)).1 < 0 then
          ctx.errors ++ [bytes "HTTP request parse multipart/form-data failed."] else ctx.errors } := by
  have hstart : ctx.multipartForm.isEmpty ∧
      (bytes "multipart/form-data").isPrefixOf ctx.contentType :=
    ⟨hform ▸ Std.ExtTreeMap.isEmpty_empty, List.isPrefixOf_iff_prefix.mpr htype⟩
  rw [FormContext.ParseMultipartForm, if_pos hstart, hform]
  simp only [hb, if_false]

theorem parse_idle (h : ¬ bytes "multipart/form-data" <+: ctx.contentType ∨
    boundaryText ctx.contentType = [] ∨ ctx.multipartForm ≠ ∅) :
    ctx.ParseMultipartForm.1 = ctx := by
  rw [FormContext.ParseMultipartForm]
  by_cases hstart : ctx.multipartForm.isEmpty ∧
      (bytes "multipart/form-data").isPrefixOf ctx.contentType
  · rw [if_pos hstart]
    obtain ⟨hempty, htype⟩ := hstart
    have hform : ctx.multipartForm = ∅ := Std.ExtTreeMap.isEmpty_iff.mp hempty
    have hb : boundaryText ctx.contentType = [] := by
      rw [List.isPrefixOf_iff_prefix] at htype
      simpa [htype, hform] using h
    simp only [hb, if_true]
  · rw [if_neg hstart]

theorem holds_empty_iff {l : List (Bytes × Form)} : Holds ∅ l ↔ ∀ r ∈ l, r.1 = [] := by
  constructor
  · intro h r hr
    by_contra hname
    cases hlookup : l.reverse.lookup r.1 with
    | none =>
      have hne := List.lookup_eq_none_iff.mp hlookup r (List.mem_reverse.mpr hr)
      simp at hne
    | some form =>
      have hget := h r.1 form hname hlookup
      simp at hget
  · intro h name form hname hlookup
    have hnone : l.reverse.lookup name = none := by
      rw [List.lookup_eq_none_iff]
      intro r hr
      rw [h r (List.mem_reverse.mp hr)]
      simpa using hname
    rw [hnone] at hlookup
    cases hlookup

/-- A body that is rejected and leaves the form empty. -/
theorem rejected_iff : ((Multipart.ParseMultipart body ∅ b).1 < 0 ∧
      (Multipart.ParseMultipart body ∅ b).2 = ∅) ↔
    (¬ ∃ rest, Document (dashed b) (body ++ rest)) ∧
      ∀ parts, Completed (dashed b) body parts → ∀ r ∈ readParts ([], []) parts, r.1 = [] := by
  rw [Multipart.ParseMultipart_code, ← run_isSome_iff]
  cases hrun : Mode.run (dashed b) (.opening 0) body with
  | some r => simp
  | none =>
    rw [Multipart.ParseMultipart_recorded, Multipart.recorded_keeps hrun]
    simp [holds_empty_iff]

theorem not_cached_iff : ¬ Cached ctx ↔
    bytes "multipart/form-data" <+: ctx.contentType ∧ boundaryText ctx.contentType ≠ [] ∧
      (Multipart.ParseMultipart ctx.body ∅ (boundaryText ctx.contentType)).1 < 0 ∧
      (Multipart.ParseMultipart ctx.body ∅ (boundaryText ctx.contentType)).2 = ∅ := by
  rw [rejected_iff, Cached]
  push Not
  rfl

/-- What a call does to the context, whichever it is. -/
@[simp] theorem call_fst (ctx : FormContext) (c : FormCall) :
    (ctx.call c).1 = ctx.ParseMultipartForm.1 := by cases c <;> rfl

/-- What a call returns depends on the form that it leaves only. -/
theorem call_snd {ctx' : FormContext} (h : ctx'.ParseMultipartForm.1.multipartForm =
    ctx.ParseMultipartForm.1.multipartForm) (c : FormCall) : (ctx'.call c).2 = (ctx.call c).2 := by
  cases c with
  | MultipartForm => simp only [FormContext.call, h]
  | GetMultipartForm name defvalue => simp only [FormContext.call, h]

/-- The request is the same, and the form is what parsing leaves. -/
structure Parsed (ctx x : FormContext) : Prop where
  contentType : x.contentType = ctx.contentType
  body : x.body = ctx.body
  form : x.multipartForm = ctx.ParseMultipartForm.1.multipartForm

variable {x : FormContext}

theorem parsed_first (ctx : FormContext) : Parsed ctx ctx.ParseMultipartForm.1 := by
  have hsame : ctx.ParseMultipartForm.1.contentType = ctx.contentType ∧
      ctx.ParseMultipartForm.1.body = ctx.body := by
    rw [FormContext.ParseMultipartForm]
    split
    · simp only
      split
      · exact ⟨rfl, rfl⟩
      · exact ⟨rfl, rfl⟩
    · exact ⟨rfl, rfl⟩
  exact ⟨hsame.1, hsame.2, rfl⟩

/-- Parsing once more leaves the same form, and changes nothing unless an error is noted. -/
theorem Parsed.again (hform : ctx.multipartForm = ∅) (hx : Parsed ctx x) :
    Parsed ctx x.ParseMultipartForm.1 ∧ (Cached ctx → x.ParseMultipartForm.1 = x) := by
  have htype := hx.contentType
  have hbody := hx.body
  by_cases hidle : ¬ bytes "multipart/form-data" <+: x.contentType ∨
      boundaryText x.contentType = [] ∨ x.multipartForm ≠ ∅
  · rw [parse_idle hidle]
    exact ⟨hx, fun _ => rfl⟩
  · push Not at hidle
    obtain ⟨hmulti, hb, hempty⟩ := hidle
    have hctx := parse_eq (htype ▸ hmulti) (htype ▸ hb) hform
    have hagain := parse_eq hmulti hb hempty
    have hleft : (Multipart.ParseMultipart ctx.body ∅ (boundaryText ctx.contentType)).2 = ∅ :=
      (congrArg FormContext.multipartForm hctx).symm.trans (hx.form.symm.trans hempty)
    rw [hagain, htype, hbody]
    refine ⟨⟨rfl, rfl, ?_⟩, fun hcached => ?_⟩
    · rw [hctx]
    · have haccepted :
          ¬ (Multipart.ParseMultipart ctx.body ∅ (boundaryText ctx.contentType)).1 < 0 :=
        fun hcode => not_cached_iff.mpr ⟨htype ▸ hmulti, htype ▸ hb, hcode, hleft⟩ hcached
      rw [if_neg haccepted, hleft, ← hempty, ← htype, ← hbody]

theorem Parsed.run (hform : ctx.multipartForm = ∅) (hx : Parsed ctx x) (calls : List FormCall) :
    Parsed ctx (x.run calls) ∧ (Cached ctx → x.run calls = x) := by
  induction calls generalizing x with
  | nil => exact ⟨hx, fun _ => rfl⟩
  | cons c calls ih =>
    obtain ⟨hnext, hsame⟩ := hx.again hform
    obtain ⟨hrun, hkept⟩ := ih hnext
    have hcons : x.run (c :: calls) = x.ParseMultipartForm.1.run calls := by
      rw [FormContext.run, List.foldl_cons, call_fst]
      rfl
    rw [hcons]
    exact ⟨hrun, fun hcached => (hkept hcached).trans (hsame hcached)⟩

/-- A body that is rejected and leaves no form is parsed, and noted as an error, with every call. -/
theorem errors_again (hform : ctx.multipartForm = ∅) (h : ¬ Cached ctx) :
    ctx.ParseMultipartForm.1.ParseMultipartForm.1.errors ≠ ctx.ParseMultipartForm.1.errors := by
  obtain ⟨htype, hb, hcode, hleft⟩ := not_cached_iff.mp h
  have hctx := parse_eq htype hb hform
  have htype' : bytes "multipart/form-data" <+: ctx.ParseMultipartForm.1.contentType := by
    rw [hctx]
    exact htype
  have hagain := parse_eq htype' (by rw [hctx]; exact hb) (by rw [hctx]; exact hleft)
  rw [hagain, hctx]
  simp only [hcode, if_true]
  intro heq
  have hlen := congrArg List.length heq
  simp at hlen

/-- The form and the returned values are those of the first call for every request. The errors are
exactly if the body is not parsed at all, or is the beginning of a document, or has a complete part
with a name at its beginning. -/
theorem form_calls_iff (hform : ctx.multipartForm = ∅) :
    FormKept ctx ∧ (ErrorsKept ctx ↔ Cached ctx) := by
  have hrun := fun calls => (parsed_first ctx).run hform calls
  refine ⟨fun first calls => ?_, fun h => ?_, fun hcached first calls => ?_⟩
  · rw [call_fst]
    exact ⟨(hrun calls).1.form, fun c => call_snd ((hrun calls).1.again hform).1.form c⟩
  · by_contra hcached
    apply errors_again hform hcached
    have hsecond := h .MultipartForm [.MultipartForm]
    rw [call_fst] at hsecond
    exact hsecond
  · rw [call_fst, (hrun calls).2 hcached]

def formRequest (body : Bytes) : FormContext :=
  ⟨bytes "multipart/form-data; boundary=b", body, ∅, []⟩

def partA : Bytes := bytes "--b\r\nContent-Disposition: form-data; name=\"a\"\r\n\r\nx\r\n--b"

/-- A body with a part, one that breaks off behind a part, and one that is rejected at once. -/
theorem form_calls_bodies :
    (FormKept (formRequest (partA ++ bytes "--")) ∧ ErrorsKept (formRequest (partA ++ bytes "--"))) ∧
      (FormKept (formRequest (partA ++ bytes "x")) ∧ ErrorsKept (formRequest (partA ++ bytes "x"))) ∧
      FormKept (formRequest (bytes "x")) ∧ ¬ ErrorsKept (formRequest (bytes "x")) := by
  have hwhole : Cached (formRequest (partA ++ bytes "--")) := by
    by_contra h
    obtain ⟨-, -, hcode, -⟩ := not_cached_iff.mp h
    revert hcode
    decide +kernel
  have hbroken : Cached (formRequest (partA ++ bytes "x")) := by
    by_contra h
    obtain ⟨-, -, -, hform⟩ := not_cached_iff.mp h
    have hget := congrArg (fun form : MultiPartForm => form[bytes "a"]?.isSome) hform
    revert hget
    decide +kernel
  have hrejected : ¬ Cached (formRequest (bytes "x")) :=
    not_cached_iff.mpr ⟨by decide, by decide +kernel, by decide +kernel, by
      rw [← Std.ExtTreeMap.isEmpty_iff]
      decide +kernel⟩
  exact ⟨⟨(form_calls_iff rfl).1, (form_calls_iff rfl).2.mpr hwhole⟩,
    ⟨(form_calls_iff rfl).1, (form_calls_iff rfl).2.mpr hbroken⟩,
    (form_calls_iff rfl).1, mt (form_calls_iff rfl).2.mp hrejected⟩

/-- The second call notes the error of the first one again. -/
theorem not_errors_kept : ¬ ∀ ctx : FormContext, ctx.multipartForm = ∅ → ErrorsKept ctx := by
  intro h
  have hagain := h (formRequest (bytes "x")) rfl .MultipartForm [.MultipartForm]
  revert hagain
  decide +kernel

end Parsing

end CppPrivate.Http
