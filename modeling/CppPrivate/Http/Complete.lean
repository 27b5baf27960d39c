import CppPrivate.Http.Prefixes
import CppPrivate.Http.Records

/-! Which bodies are accepted. The code tells how far the parser came, and not whether it came to
the closing delimiter; the parts before a byte that stops it are in the form. -/
namespace CppPrivate.Http
open multipart_parser_userdata MultipartParser

/-- The last part of each name is in the form as it is. -/
def Holds (mp : MultiPartForm) (l : List (Bytes × Form)) : Prop :=
  ∀ name form, name ≠ [] → l.reverse.lookup name = some form → mp[name]? = some form

theorem getElem?_stored_empty (l : List (Bytes × Form)) (mp : MultiPartForm) :
    (l.foldl store mp)[([] : Bytes)]? = mp[([] : Bytes)]? := by
  induction l generalizing mp with
  | nil => rfl
  | cons r l ih =>
    rw [List.foldl_cons, ih]
    by_cases hr : r.1 = []
    · rw [store, if_neg (by simp [hr])]
    · exact getElem?_store_other hr

/-- Storing changes nothing just where the form has everything that counts. -/
theorem foldl_store_eq_iff (l : List (Bytes × Form)) (mp : MultiPartForm) :
    l.foldl store mp = mp ↔ Holds mp l := by
  constructor
  · intro h name form hname hlookup
    rw [← h, getElem?_stored l mp hname, hlookup]
    rfl
  · intro h
    apply Std.ExtTreeMap.ext_getElem?
    intro name
    by_cases hname : name = []
    · rw [hname]
      exact getElem?_stored_empty l mp
    · rw [getElem?_stored l mp hname]
      cases hlookup : l.reverse.lookup name with
      | none => rfl
      | some form =>
        rw [h name form hname hlookup]
        rfl

/-- All the parts that stand complete at the beginning of a body. -/
structure Completed (b str : Bytes) (parts : List Part) : Prop where
  valid : ∀ p ∈ parts, p.Valid b
  stand : b ++ partsText b parts <+: str
  all : ∀ p : Part, p.Valid b → ¬ b ++ partsText b (parts ++ [p]) <+: str

section Parts
variable {b str x z : Bytes} {c : UInt8} {parts : List Part} {m : Mode} {calls : List Callback}

theorem partsText_snoc (b : Bytes) (parts : List Part) (p : Part) :
    partsText b (parts ++ [p]) = partsText b parts ++ p.text b := by
  simp [partsText]

theorem partsText_cons (b : Bytes) (p : Part) (parts : List Part) :
    partsText b (p :: parts) = p.text b ++ partsText b parts := List.flatMap_cons

theorem completed_of_stand (hp : ∀ p ∈ parts, p.Valid b) (h : b ++ partsText b parts <+: str) :
    ∃ parts, Completed b str parts := by
  induction hn : str.length - (b ++ partsText b parts).length using Nat.strong_induction_on
    generalizing parts with
  | h n ih =>
    by_cases hnext : ∃ p : Part, p.Valid b ∧ b ++ partsText b (parts ++ [p]) <+: str
    · obtain ⟨p, hpart, hstand⟩ := hnext
      have hlen := hstand.length_le
      refine ih _ ?_ ?_ hstand rfl
      · rw [← hn]
        rw [partsText_snoc] at hlen ⊢
        simp only [List.length_append, Part.text, List.length_cons] at hlen ⊢
        omega
      · exact List.forall_mem_append.mpr ⟨hp, List.forall_mem_singleton.mpr hpart⟩
    · refine ⟨parts, hp, h, ?_⟩
      intro p hpart hstand
      exact hnext ⟨p, hpart, hstand⟩

/-- A part has ended only where its text stands. -/
theorem noEnd_of_stand (hrun : Mode.run b .dataDone x = some (m, calls))
    (h : ∀ p : Part, p.Valid b → ¬ p.text b <+: x) : NoEnd calls := by
  obtain ⟨parts, tail, hp, htext, -, hno⟩ := since_run .dataDone hrun
  cases parts with
  | nil => exact hno rfl
  | cons p parts =>
    obtain ⟨hpart, -⟩ := List.forall_mem_cons.mp hp
    rw [List.nil_append, partsText_cons, List.append_assoc] at htext
    exact absurd ⟨_, htext.symm⟩ (h p hpart)

/-- What can be read to its end lies before the byte that cannot be read. -/
theorem prefix_of_reads {w : Bytes} {r : Mode × List Callback}
    (hrun : Mode.run b (.opening 0) x = some (m, calls)) (hnone : m.read b c = none)
    (hw : Mode.run b (.opening 0) w = some r) (hpre : w <+: x ++ c :: z) : w <+: x := by
  cases List.prefix_or_prefix_of_prefix hpre (List.prefix_append x (c :: z)) with
  | inl h => exact h
  | inr h =>
    obtain ⟨u, rfl⟩ := h
    cases u with
    | nil => rw [List.append_nil]
    | cons d u =>
      rw [List.prefix_append_right_inj, List.cons_prefix_cons] at hpre
      rw [hpre.1, Mode.run_none hrun hnone] at hw
      cases hw

/-- The parser stops in a body: the calls up to there store the parts that stand complete. -/
theorem stored_completed (hrun : Mode.run b (.opening 0) x = some (m, calls))
    (hnone : m.read b c = none) (hparts : Completed b (x ++ c :: z) parts) :
    stored (blank ([], [])) calls = readParts ([], []) parts := by
  cases parts with
  | nil =>
    apply stored_noEnd
    cases run_opened hrun with
    | inl h =>
      obtain ⟨-, -, -, rfl⟩ := h
      exact List.not_mem_nil
    | inr h =>
      obtain ⟨w, rfl, hdone⟩ := h
      apply noEnd_of_stand hdone
      intro p hp hpre
      apply hparts.all p hp
      rw [partsText_snoc, List.append_assoc]
      apply (List.prefix_append_right_inj b).mpr
      exact hpre.trans (List.prefix_append _ _)
  | cons p parts =>
    obtain ⟨calls₁, hstand, hflat⟩ := run_opened_parts (List.cons_ne_nil p parts) hparts.valid
    obtain ⟨y, rfl⟩ := prefix_of_reads hrun hnone hstand hparts.stand
    rw [Mode.run_append hstand] at hrun
    obtain ⟨⟨m₂, calls₂⟩, htail, hpair⟩ := Option.map_eq_some_iff.mp hrun
    obtain ⟨rfl, rfl⟩ := Prod.mk.inj hpair
    have hno : NoEnd calls₂ := by
      apply noEnd_of_stand htail
      intro q hq hpre
      apply hparts.all q hq
      rw [partsText_snoc, List.append_assoc (b ++ _), ← List.append_assoc b]
      apply (List.prefix_append_right_inj _).mpr
      exact hpre.trans (List.prefix_append _ _)
    rw [stored_append, stored_congr hflat, stored_noEnd hno, List.append_nil,
      stored_parts (Or.inl rfl)]

/-- Without the first boundary nothing is stored. -/
theorem stored_without_boundary (hrun : Mode.run b (.opening 0) x = some (m, calls))
    (hb : ¬ b <+: x) : stored (blank ([], [])) calls = [] := by
  apply stored_noEnd
  cases run_opened hrun with
  | inl h =>
    obtain ⟨-, -, -, rfl⟩ := h
    exact List.not_mem_nil
  | inr h =>
    obtain ⟨w, rfl, -⟩ := h
    exact absurd (List.prefix_append b _) hb

end Parts

/-- The parser is at its end where the reader is. -/
theorem Follows.finished_iff {b buf : Bytes} {p : MultipartParser} {i mark : Nat} {m : Mode}
    (h : Follows b buf p i mark m) : p.state = .s_end ↔ m = .finished := by
  have hplace := h.place
  constructor
  · intro hend
    match m with
    | .finished => rfl
    | .opening _ | .field _ | .value _ | .data 0 | .data 1 | .data (_ + 2) =>
      simp [Place, hend] at hplace
    | .headersDone | .valueStart | .valueDone | .dataStart | .dataDone | .nextPart | .hyphen =>
      simp [Place, hend] at hplace
  · intro heq
    subst heq
    exact hplace

namespace Multipart
variable {str boundary : Bytes} {mp : MultiPartForm} {m : Mode} {calls : List Callback}

/-- The parser has read the whole body, and come to its closing delimiter. -/
def Complete (str boundary : Bytes) : Prop :=
  (execution str boundary).1 = str.length ∧ (execution str boundary).2.1.state = .s_end

instance : Decidable (Complete str boundary) := inferInstanceAs (Decidable (_ ∧ _))

/-- The parser comes to its end with documents, and with nothing else. -/
theorem complete_iff : Complete str boundary ↔ Document (dashed boundary) str := by
  rw [← run_finished_iff]
  cases Mode.run_cases (dashed boundary) (.opening 0) str with
  | inl h =>
    obtain ⟨⟨m, calls⟩, hrun⟩ := h
    obtain ⟨q, mark, calls', hexecution, hfollows, -⟩ := execution_run hrun
    rw [Complete, hexecution, hfollows.finished_iff, hrun]
    simp
  | inr h =>
    obtain ⟨x, c, z, m, calls, rfl, hrun, hnone⟩ := h
    rw [Complete, Mode.run_none hrun hnone, (execution_fails hrun hnone).1]
    simp

/-- What is put into the form before the parser stops. -/
theorem recorded_keeps (hrun : Mode.run (dashed boundary) (.opening 0) str = none) :
    (recorded str boundary).foldl store mp = mp ↔
      ∀ parts, Completed (dashed boundary) str parts → Holds mp (readParts ([], []) parts) := by
  cases Mode.run_cases (dashed boundary) (.opening 0) str with
  | inl h =>
    obtain ⟨r, hr⟩ := h
    rw [hrun] at hr
    cases hr
  | inr h =>
    obtain ⟨x, c, z, m, calls, rfl, hread, hnone⟩ := h
    rw [foldl_store_eq_iff, (execution_fails hread hnone).2]
    constructor
    · intro h parts hparts
      rw [← stored_completed hread hnone hparts]
      exact h
    · intro h
      by_cases hb : dashed boundary <+: x
      · have hstand : dashed boundary ++ partsText (dashed boundary) [] <+: x ++ c :: z := by
          apply List.IsPrefix.trans _ (List.prefix_append x (c :: z))
          exact (List.append_nil (dashed boundary)).symm ▸ hb
        obtain ⟨parts, hparts⟩ := completed_of_stand (List.forall_mem_nil _) hstand
        rw [stored_completed hread hnone hparts]
        exact h parts hparts
      · rw [stored_without_boundary hread hb]
        intro name form _ hlookup
        cases hlookup

/-- The code is right about the body, and a failed call leaves the form as it was, just where the
body is a document, or goes on to none and says nothing new before the byte that is wrong. -/
theorem accepts_complete_iff (str boundary : Bytes) (mp : MultiPartForm) :
    (((ParseMultipart str mp boundary).1 = 0 ↔ Complete str boundary) ∧
        ((ParseMultipart str mp boundary).1 = -1 → (ParseMultipart str mp boundary).2 = mp)) ↔
      Document (dashed boundary) str ∨
        (¬ ∃ rest, Document (dashed boundary) (str ++ rest)) ∧
          ∀ parts, Completed (dashed boundary) str parts →
            Holds mp (readParts ([], []) parts) := by
  rw [complete_iff, ← run_isSome_iff, ParseMultipart_code]
  cases hrun : Mode.run (dashed boundary) (.opening 0) str with
  | some r => simp
  | none =>
    have hno : ¬ Document (dashed boundary) str := by
      rw [← run_finished_iff, hrun]
      simp
    rw [ParseMultipart_recorded, ← recorded_keeps hrun]
    simp [hno]

/-- An upload that breaks off in its data. -/
def cutBody : Bytes := bytes "--b\r\nContent-Disposition: form-data; name=\"a\"\r\n\r\nhel"

/-- A part with its delimiter, and a byte that belongs nowhere. -/
def brokenBody : Bytes := bytes "--b\r\nContent-Disposition: form-data; name=\"a\"\r\n\r\nx\r\n--bx"

/-- The first body is taken for a complete one, and the second one leaves its part behind. -/
theorem cut_body_accepted : (ParseMultipart cutBody ∅ (bytes "b")).1 = 0 ∧
    ¬ Complete cutBody (bytes "b") ∧ (ParseMultipart brokenBody ∅ (bytes "b")).1 = -1 ∧
    (ParseMultipart brokenBody ∅ (bytes "b")).2 ≠ ∅ := by
  refine ⟨by decide +kernel, by decide +kernel, by decide +kernel, ?_⟩
  intro hempty
  have hpart : (ParseMultipart brokenBody ∅ (bytes "b")).2[bytes "a"]? =
      some ⟨[], bytes "x", []⟩ := by
    decide +kernel
  rw [hempty] at hpart
  simp at hpart

end Multipart

end CppPrivate.Http
