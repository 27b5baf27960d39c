import CppPrivate.Http.FormData
import CppPrivate.Lib.Query

/-! Dispositions with a name and a filename in quotes. They are split at every semicolon and at
every equals sign, and quotes do not protect what is between them. -/
namespace CppPrivate.Http

/-- A text that may stand between quotes in a header. -/
def Quotable (s : Bytes) : Prop := (0 : UInt8) ∉ s ∧ (34 : UInt8) ∉ s ∧ CR ∉ s ∧ LF ∉ s

instance {s : Bytes} : Decidable (Quotable s) := inferInstanceAs (Decidable (_ ∧ _ ∧ _ ∧ _))

def dispositionOf (name filename : Bytes) : Bytes :=
  bytes "form-data; name=" ++ quoted name ++ bytes "; filename=" ++ quoted filename

/-- Whatever was read before, the disposition gives its name and its filename. -/
def NamesReadBack (name filename : Bytes) : Prop :=
  ∀ u : multipart_parser_userdata, stricmpEq u.headerField (bytes "Content-Disposition") →
    u.headerValue = dispositionOf name filename →
    u.handle_header.name = name ∧ u.handle_header.filename = filename

section Pieces
variable {str : Bytes} {d : UInt8}

theorem dispositionOf_eq (name filename : Bytes) :
    dispositionOf name filename = FormPart.disposition ⟨name, some filename, none, []⟩ := by
  rw [dispositionOf, FormPart.disposition, Option.elim_some, List.append_assoc]

theorem trim_subset (chars : Bytes) : trim str chars ⊆ str := by
  intro c hc
  rw [trim, List.mem_reverse] at hc
  have hc := (List.dropWhile_sublist _).subset hc
  rw [List.mem_reverse] at hc
  exact (List.dropWhile_sublist _).subset hc

theorem trim_pairs_subset (pairs : Bytes) : trim_pairs str pairs ⊆ str := by
  intro c hc
  rw [trim_pairs] at hc
  split at hc
  · split at hc
    · exact List.mem_of_mem_drop (List.mem_of_mem_take hc)
    · exact hc
  · exact hc

theorem cStr_subset : Url.cStr str ⊆ str := (List.takeWhile_sublist _).subset

/-- A piece holds no delimiter, and no byte that was not in the text. -/
theorem pieces_split (d : UInt8) : ∀ x ∈ split str d, d ∉ x ∧ x ⊆ str := by
  intro x hx
  obtain ⟨hdelim, hsubset⟩ := Query.pieces_splitOn d (Url.cStr str) x hx
  exact ⟨hdelim, List.Subset.trans hsubset cStr_subset⟩

end Pieces

namespace Said
variable {t : Said} {str : Bytes} {d : UInt8}

/-- The byte is in neither of the names. -/
def Without (t : Said) (d : UInt8) : Prop := d ∉ t.name ∧ d ∉ t.filename

/-- A parameter gives nothing but a text from its second piece. -/
theorem Without.param (h : t.Without d)
    (hd : ∀ x ∈ split (trim str (bytes " ")) 61, d ∉ x) : (t.param str).Without d := by
  rw [Said.param]
  generalize hkv : split (trim str (bytes " ")) 61 = kv
  rw [hkv] at hd
  cases kv with
  | nil => exact h
  | cons key kv =>
    cases kv with
    | nil => exact h
    | cons value kv =>
      cases kv with
      | nil =>
        have hvalue : d ∉ trim_pairs value [34, 34, 39, 39] := fun hmem =>
          hd value (by simp) (trim_pairs_subset _ hmem)
        simp only
        split
        · exact ⟨hvalue, h.2⟩
        · split
          · exact ⟨h.1, hvalue⟩
          · exact h
      | cons other more => exact h

theorem Without.params {strs : List Bytes} (h : t.Without d)
    (hd : ∀ str ∈ strs, ∀ x ∈ split (trim str (bytes " ")) 61, d ∉ x) :
    (strs.foldl Said.param t).Without d := by
  induction strs generalizing t with
  | nil => exact h
  | cons str strs ih =>
    obtain ⟨hstr, hstrs⟩ := List.forall_mem_cons.mp hd
    exact ih (h.param hstr) hstrs

/-- No disposition gives a name with a semicolon or with an equals sign. -/
theorem Without.disposition (h : t.Without d) (value : Bytes) (hd : d = 59 ∨ d = 61) :
    ((split value 59).foldl Said.param t).Without d := by
  apply h.params
  intro str hstr x hx
  obtain ⟨hequals, hsubset⟩ := pieces_split 61 x hx
  cases hd with
  | inl hd =>
    rw [hd]
    intro hmem
    exact (pieces_split 59 str hstr).1 (trim_subset _ (hsubset hmem))
  | inr hd =>
    rw [hd]
    exact hequals

end Said

namespace multipart_parser_userdata
variable {u : multipart_parser_userdata}

/-- A disposition is read into the names, and nothing else is. -/
theorem said_handle_header (hfield : stricmpEq u.headerField (bytes "Content-Disposition"))
    (hvalue : u.headerValue ≠ []) :
    u.handle_header.name = ((split u.headerValue 59).foldl Said.param u.said).name ∧
      u.handle_header.filename = ((split u.headerValue 59).foldl Said.param u.said).filename := by
  have hne : u.headerField ≠ [] := by
    intro hnil
    rw [hnil] at hfield
    revert hfield
    decide
  rw [handle_header_eq hne hvalue]
  simp only [setSaid, Said.header, hfield, if_true]
  split
  · exact ⟨rfl, rfl⟩
  · exact ⟨rfl, rfl⟩

end multipart_parser_userdata

section
variable {name filename : Bytes}

theorem dispositionOf_ne (name filename : Bytes) : dispositionOf name filename ≠ [] := by
  rw [dispositionOf_eq]
  intro hnil
  have hhead := disposition_head ⟨name, some filename, none, []⟩
  rw [hnil] at hhead
  cases hhead

/-- Names without delimiters are read as they are. -/
theorem namesReadBack_undelimited (hname : Undelimited name) (hfile : Undelimited filename) :
    NamesReadBack name filename := by
  intro u hfield hvalue
  have hparams : (split (dispositionOf name filename) 59).foldl Said.param u.said =
      { u.said with name := name, filename := filename } := by
    rw [dispositionOf_eq]
    apply params_disposition hname
    intro file heq
    cases heq
    exact hfile
  have hne : u.headerValue ≠ [] := hvalue ▸ dispositionOf_ne name filename
  have hsaid := u.said_handle_header hfield hne
  rw [hvalue, hparams] at hsaid
  exact hsaid

/-- A part of which nothing has been read but the field and the value of its disposition. -/
def atDisposition (name filename : Bytes) : multipart_parser_userdata :=
  { multipart_parser_userdata.new ∅ with
    headerField := bytes "Content-Disposition", headerValue := dispositionOf name filename }

theorem without_delimiters {d : UInt8} (h : NamesReadBack name filename) (hd : d = 59 ∨ d = 61) :
    d ∉ name ∧ d ∉ filename := by
  have hfield : stricmpEq (bytes "Content-Disposition") (bytes "Content-Disposition") := by decide
  obtain ⟨hname, hfile⟩ := h (atDisposition name filename) hfield rfl
  obtain ⟨hsaidName, hsaidFile⟩ :=
    (atDisposition name filename).said_handle_header hfield (dispositionOf_ne name filename)
  have hempty : (atDisposition name filename).said.Without d :=
    ⟨List.not_mem_nil, List.not_mem_nil⟩
  have hwithout := hempty.disposition (dispositionOf name filename) hd
  rw [hsaidName] at hname
  rw [hsaidFile] at hfile
  exact ⟨hname ▸ hwithout.1, hfile ▸ hwithout.2⟩

/-- A name and a filename in quotes are read as they are if and only if there is no semicolon and
no equals sign in them. -/
theorem namesReadBack_iff (hname : Quotable name) (hfile : Quotable filename) :
    NamesReadBack name filename ↔
      ((59 : UInt8) ∉ name ∧ (61 : UInt8) ∉ name) ∧ (59 : UInt8) ∉ filename ∧
        (61 : UInt8) ∉ filename := by
  constructor
  · intro h
    obtain ⟨hname59, hfile59⟩ := without_delimiters h (Or.inl rfl)
    obtain ⟨hname61, hfile61⟩ := without_delimiters h (Or.inr rfl)
    exact ⟨⟨hname59, hname61⟩, hfile59, hfile61⟩
  · intro hcase
    obtain ⟨hnames, hfiles⟩ := hcase
    exact namesReadBack_undelimited ⟨hname.1, hnames⟩ ⟨hfile.1, hfiles⟩

end

/-- Spaces, single quotes and bytes that are not ASCII are read as they are. -/
theorem namesReadBack_spaces :
    NamesReadBack (bytes "my file") (39 :: 195 :: 169 :: bytes " .txt") :=
  (namesReadBack_iff (by decide) (by decide)).mpr (by decide)

/-- The filename `a;b.txt` is lost. -/
theorem filename_cut : ¬ ∀ name filename, Quotable name → Quotable filename →
    NamesReadBack name filename := by
  intro h
  have hread := h (bytes "f") (bytes "a;b.txt") (by decide) (by decide)
  have hcut := (hread (atDisposition (bytes "f") (bytes "a;b.txt")) (by decide) rfl).2
  revert hcut
  decide

end CppPrivate.Http
