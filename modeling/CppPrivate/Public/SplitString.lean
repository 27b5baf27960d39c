import CppPrivate.Lib.Loop
import CppPrivate.Lib.Machine
import CppPrivate.Lib.Pieces
import CppPrivate.Lib.Trim
import CppPrivate.Redis.Commands

/-! `StdStrUtils::SplitString`, which trims what is left of the text after every piece. The search
takes the splitter as a text, the trimming takes it as a set of characters. -/
namespace CppPrivate.Public.StdStrUtils
open Loop Pattern

def TrimString (str drop : Bytes) : Bytes := trimBoth drop.contains str

/-- `TrimLeft` and `TrimRight`. -/
def Trim (str : Bytes) : Bytes := (str.dropWhile Http.isspace).rdropWhile Http.isspace

/-- The place of the splitter as an `int`; of no place that is `-1`. -/
def foundAt (splitter s : Bytes) : Int :=
  match find splitter s with
  | some i => cInt i
  | none => -1

/-- `src_str.substr(0, pos)`. A negative position is converted to a length beyond every string. -/
def before (s : Bytes) (pos : Int) : Bytes := if pos < 0 then s else s.take pos.toNat

/-- One round of `SplitString` on `src_str` and `items`. There `substr` throws on a place behind the
end, which is no result here. -/
def splitRound (splitter : Bytes) (s : Bytes × List Bytes) :
    Round (Bytes × List Bytes) (Option (List Bytes)) :=
  if s.1 = splitter ∨ s.1 = [] then .done (some s.2)
  else
    let pos := foundAt splitter s.1
    let items := s.2 ++ [before s.1 pos]
    if pos = -1 then .done (some items)
    else if pos + splitter.length < 0 ∨ (s.1.length : Int) < pos + splitter.length then .done none
    else .next (TrimString (s.1.drop (pos + splitter.length).toNat) splitter, items)

def SplitString (str : Bytes) (items : List Bytes) (splitter : Bytes) (out : List Bytes) : Prop :=
  Ends (splitRound splitter) (TrimString str splitter, items) (some out)

/-- The fields up to `iCnt`, the number of them as an `int`. -/
def counted (vFields : List Bytes) : List Bytes := vFields.take (cInt vFields.length).toNat

def SplitStringTrim (str splitter : Bytes) (out : List Bytes) : Prop :=
  ∃ vFields, SplitString str [] splitter vFields ∧ out = (counted vFields).map Trim

def SplitStringToInt (str splitter : Bytes) (out : List Int) : Prop :=
  ∃ vFields, SplitString str [] splitter vFields ∧
    out = (counted vFields).map fun field => cInt (Redis.Str2Int (Trim field))

/-- The pieces between the splitters that are not empty. -/
def fields (splitter str : Bytes) : List Bytes := (pieces splitter str).filter (· ≠ [])

variable {splitter s t x y : Bytes} {items out l : List Bytes}

theorem trim_head {c : UInt8} (h : c ∈ (TrimString s splitter).head?) : c ∉ splitter := by
  have hnot := head_trimBoth h
  simpa using hnot

theorem before_begins (s : Bytes) (pos : Int) : before s pos <+: s := by
  rw [before]
  split
  · exact List.prefix_rfl
  · exact List.take_prefix _ _

theorem head_cons {c : UInt8} (hc : c ∉ splitter) (s : Bytes) :
    ∀ d ∈ (c :: s).head?, d ∉ splitter := by
  intro d hd
  cases hd
  exact hc

/-- What a round adds to the items is a beginning of the text. -/
theorem splitRound_done (h : splitRound splitter (s, items) = .done (some out)) :
    out = items ∨ ∃ y, y <+: s ∧ out = items ++ [y] := by
  simp only [splitRound] at h
  split at h
  · cases h
    exact Or.inl rfl
  · split at h
    · cases h
      exact Or.inr ⟨_, before_begins s _, rfl⟩
    · split at h
      · cases h
      · cases h

theorem splitRound_next {u : Bytes × List Bytes} (h : splitRound splitter (s, items) = .next u) :
    ∃ t, u = (TrimString t splitter, items ++ [before s (foundAt splitter s)]) := by
  simp only [splitRound] at h
  split at h
  · cases h
  · split at h
    · cases h
    · split at h
      · cases h
      · cases h
        exact ⟨_, rfl⟩

/-- The loop appends texts that do not begin with a character of the splitter. -/
theorem splitString_items (h : Ends (splitRound splitter) (s, items) (some out))
    (hs : ∀ c ∈ s.head?, c ∉ splitter) :
    ∃ l, out = items ++ l ∧ ∀ y ∈ l, ∀ c ∈ y.head?, c ∉ splitter := by
  have hprefix : ∀ {s y : Bytes}, (∀ c ∈ s.head?, c ∉ splitter) → y <+: s →
      ∀ c ∈ y.head?, c ∉ splitter := by
    intro s y hs hy c hc
    obtain ⟨t, rfl⟩ := hy
    refine hs c ?_
    rw [List.head?_append, Option.mem_def.mp hc]
    rfl
  generalize hstart : (s, items) = start at h
  generalize hresult : some out = result at h
  induction h generalizing s items with
  | done hstep =>
    subst hstart hresult
    obtain rfl | ⟨y, hy, rfl⟩ := splitRound_done hstep
    · exact ⟨[], (List.append_nil _).symm, by simp⟩
    · refine ⟨[y], rfl, ?_⟩
      intro z hz
      rw [List.mem_singleton.mp hz]
      exact hprefix hs hy
  | next hstep hend ih =>
    subst hstart
    obtain ⟨t, rfl⟩ := splitRound_next hstep
    obtain ⟨l, rfl, hl⟩ := ih (fun c => trim_head) rfl hresult
    refine ⟨_ :: l, List.append_assoc _ _ _, ?_⟩
    intro z hz
    cases hz with
    | head => exact hprefix hs (before_begins _ _)
    | tail _ hz => exact hl z hz

/-- A trimmed text is not the splitter. -/
theorem ne_splitter (hs : ∀ c ∈ s.head?, c ∉ splitter) (hne : s ≠ []) : s ≠ splitter := by
  intro heq
  cases s with
  | nil => exact hne rfl
  | cons c s => exact hs c rfl (heq ▸ List.mem_cons_self)

theorem splitRound_eq (hs : ∀ c ∈ s.head?, c ∉ splitter) (hne : s ≠ []) :
    splitRound splitter (s, items) =
      if foundAt splitter s = -1 then .done (some (items ++ [before s (foundAt splitter s)]))
      else if foundAt splitter s + splitter.length < 0 ∨
        (s.length : Int) < foundAt splitter s + splitter.length then .done none
      else .next (TrimString (s.drop (foundAt splitter s + splitter.length).toNat) splitter,
        items ++ [before s (foundAt splitter s)]) :=
  if_neg (not_or.mpr ⟨ne_splitter hs hne, hne⟩)

/-- Without an occurrence the trimmed text is the only item, if there is one. -/
theorem splitString_single (h : find splitter s = none) :
    SplitString s items splitter out ↔
      out = items ++ (if TrimString s splitter = [] then [] else [TrimString s splitter]) := by
  have hnone : find splitter (TrimString s splitter) = none :=
    find_eq_none_of_infix h (trimBoth_within _ s)
  have hround : splitRound splitter (TrimString s splitter, items) = .done (some
      (items ++ if TrimString s splitter = [] then [] else [TrimString s splitter])) := by
    by_cases hnil : TrimString s splitter = []
    · rw [splitRound, if_pos (Or.inr hnil), if_pos hnil, List.append_nil]
    · have hplace : foundAt splitter (TrimString s splitter) = -1 := by
        rw [foundAt, hnone]
      rw [splitRound_eq (fun c => trim_head) hnil, if_neg hnil, hplace]
      rfl
  rw [SplitString]
  rw [ends_done_iff hround, Option.some.injEq]

/-- The trimmed text begins with the first piece and the splitter, if the piece begins with another
character and not only characters of the splitter follow. -/
theorem trim_piece {c : UInt8} (hc : c ∉ splitter) (ht : ∃ d ∈ t, d ∉ splitter)
    (hfirst : find splitter (c :: x ++ (splitter ++ t)) = some (c :: x).length) :
    ∃ t', TrimString t' splitter = TrimString t splitter ∧
      TrimString (c :: x ++ (splitter ++ t)) splitter = c :: x ++ (splitter ++ t') ∧
      foundAt splitter (c :: x ++ (splitter ++ t')) = cInt (c :: x).length := by
  obtain ⟨d, hd, hnot⟩ := ht
  refine ⟨t.rdropWhile splitter.contains, trimBoth_rdropWhile _ t, ?_, ?_⟩
  · have hbehind : ∃ d ∈ t, ¬ splitter.contains d = true := ⟨d, hd, by simpa using hnot⟩
    have hboth : ∃ d ∈ splitter ++ t, ¬ splitter.contains d = true :=
      ⟨d, List.mem_append_right _ hd, by simpa using hnot⟩
    rw [TrimString, trimBoth_append (by simpa using hc) hboth, rdropWhile_append_left hbehind]
  · rw [foundAt, find_append_congr hfirst]

/-- Then it is taken as it is, if its length fits an `int`. -/
theorem splitRound_piece {c : UInt8} (hc : c ∉ splitter) (ht : ∃ d ∈ t, d ∉ splitter)
    (hfirst : find splitter (c :: x ++ (splitter ++ t)) = some (c :: x).length)
    (hshort : (c :: x).length < 2 ^ 31) :
    splitRound splitter (TrimString (c :: x ++ (splitter ++ t)) splitter, items) =
      .next (TrimString t splitter, items ++ [c :: x]) := by
  obtain ⟨t', htrim, hall, hplace⟩ := trim_piece hc ht hfirst
  rw [cInt_of_lt hshort] at hplace
  have hbefore : before (c :: x ++ (splitter ++ t')) (c :: x).length = c :: x := by
    rw [before, if_neg (by omega), Int.toNat_natCast, List.take_left]
  have hdrop : (c :: x ++ (splitter ++ t')).drop
      (((c :: x).length : Int) + splitter.length).toNat = t' := by
    have hnat : (((c :: x).length : Int) + splitter.length).toNat =
        (c :: x ++ splitter).length := by
      rw [List.length_append]
      omega
    rw [hnat, ← List.append_assoc, List.drop_left]
  rw [hall, splitRound_eq (s := c :: x ++ (splitter ++ t')) (head_cons hc _) (List.cons_ne_nil _ _),
    hplace, hbefore, hdrop, htrim, if_neg (by omega), if_neg]
  simp only [List.length_append]
  omega

/-- A piece that is too long is not the first item. -/
theorem splitString_long {c : UInt8} (hc : c ∉ splitter) (ht : ∃ d ∈ t, d ∉ splitter)
    (hne : splitter ≠ [])
    (hfirst : find splitter (c :: x ++ (splitter ++ t)) = some (c :: x).length)
    (hlong : ¬ (c :: x).length < 2 ^ 31) :
    ¬ SplitString (c :: x ++ (splitter ++ t)) items splitter (items ++ (c :: x) :: l) := by
  obtain ⟨t', -, hall, hplace⟩ := trim_piece hc ht hfirst
  have hpos := List.length_pos_iff.mpr hne
  have hlt := cInt_lt (c :: x).length
  have hother : before (c :: x ++ (splitter ++ t')) (cInt (c :: x).length) ≠ c :: x := by
    intro heq
    have hlength := congrArg List.length heq
    rw [before] at hlength
    split at hlength
    · simp only [List.length_append] at hlength
      omega
    · rw [List.length_take, List.length_append] at hlength
      omega
  intro h
  rw [SplitString, hall] at h
  have hround := @splitRound_eq splitter (c :: x ++ (splitter ++ t')) items
    (head_cons hc _) (List.cons_ne_nil _ _)
  rw [hplace] at hround
  split at hround
  · rw [ends_done_iff hround, Option.some.injEq] at h
    exact hother (List.cons.inj (List.append_cancel_left h)).1.symm
  · split at hround
    · rw [ends_done_iff hround] at h
      cases h
    · rw [ends_next_iff hround] at h
      obtain ⟨m, hm, -⟩ := splitString_items h (fun d => trim_head)
      rw [List.append_assoc] at hm
      exact hother (List.cons.inj (List.append_cancel_left hm)).1.symm

structure Keeps (splitter : Bytes) (l : List Bytes) : Prop where
  first : ∀ y ∈ l, ∀ c ∈ y.head?, c ∉ splitter
  last : ∀ y ∈ l.getLast?, ∀ c ∈ y.getLast?, c ∉ splitter
  length : ∀ y ∈ l.dropLast, y.length < 2 ^ 31

theorem keeps_cons (hl : l ≠ []) : Keeps splitter (x :: l) ↔
    (∀ c ∈ x.head?, c ∉ splitter) ∧ x.length < 2 ^ 31 ∧ Keeps splitter l := by
  obtain ⟨y, l, rfl⟩ := List.exists_cons_of_ne_nil hl
  constructor
  · intro h
    refine ⟨h.first x List.mem_cons_self, h.length x (by simp), ?_, h.last, ?_⟩
    · exact fun z hz => h.first z (List.mem_cons_of_mem x hz)
    · exact fun z hz => h.length z (List.mem_cons_of_mem x hz)
  · intro h
    obtain ⟨hx, hlen, hl⟩ := h
    refine ⟨?_, hl.last, ?_⟩
    · intro z hz
      cases hz with
      | head => exact hx
      | tail _ hz => exact hl.first z hz
    · intro z hz
      cases hz with
      | head => exact hlen
      | tail _ hz => exact hl.length z hz

theorem fields_of_none (h : find splitter s = none) :
    fields splitter s = if s = [] then [] else [s] := by
  rw [fields, pieces_of_none h]
  by_cases hs : s = []
  · simp [hs]
  · simp [hs]

theorem fields_append (hne : splitter ≠ [])
    (h : find splitter (x ++ (splitter ++ t)) = some x.length) :
    fields splitter (x ++ (splitter ++ t)) =
      if x = [] then fields splitter t else x :: fields splitter t := by
  rw [fields, pieces_append hne h, List.filter_cons]
  by_cases hx : x = []
  · simp [hx, fields]
  · simp [hx, fields]

/-- Without a field there are characters of the splitter only. -/
theorem mem_splitter_of_fields (hne : splitter ≠ []) (h : fields splitter s = []) :
    ∀ c ∈ s, c ∈ splitter := by
  induction s using pieces_induction hne with
  | last s hnone =>
    rw [fields_of_none hnone] at h
    split at h
    · rename_i hs
      rw [hs]
      simp
    · cases h
  | cons x t hx ih =>
    rw [fields_append hne hx] at h
    split at h
    · rename_i hnil
      intro c hc
      rw [hnil, List.nil_append] at hc
      exact (List.mem_append.mp hc).elim id (ih h c)
    · cases h

/-- A field is not empty and has characters of the text only. -/
theorem mem_fields (hne : splitter ≠ []) (h : y ∈ fields splitter s) : y ≠ [] ∧ y ⊆ s := by
  induction s using pieces_induction hne with
  | last s hnone =>
    rw [fields_of_none hnone] at h
    split at h
    · cases h
    · rename_i hs
      rw [List.mem_singleton.mp h]
      exact ⟨hs, List.Subset.refl s⟩
  | cons x t hx ih =>
    rw [fields_append hne hx] at h
    have htail : t ⊆ x ++ (splitter ++ t) :=
      List.subset_append_of_subset_right _ (List.subset_append_right _ _)
    split at h
    · exact ⟨(ih h).1, List.Subset.trans (ih h).2 htail⟩
    · rename_i hnil
      cases h with
      | head => exact ⟨hnil, List.subset_append_left _ _⟩
      | tail _ h => exact ⟨(ih h).1, List.Subset.trans (ih h).2 htail⟩

theorem not_mem_of_trim_eq (h : TrimString x splitter = x) :
    (∀ c ∈ x.head?, c ∉ splitter) ∧ ∀ c ∈ x.getLast?, c ∉ splitter := by
  have hboth := trimBoth_eq_self_iff.mp h
  simpa using hboth

/-- One field: it is appended as it is exactly if nothing is trimmed from it. -/
theorem splitString_one (hx : x ≠ []) (h : find splitter x = none) :
    SplitString x items splitter (items ++ [x]) ↔ Keeps splitter [x] := by
  rw [splitString_single h]
  have hkeeps : Keeps splitter [x] ↔ TrimString x splitter = x := by
    constructor
    · intro hk
      refine trimBoth_eq_self_iff.mpr ⟨?_, ?_⟩
      · simpa using hk.first x List.mem_cons_self
      · simpa using hk.last x rfl
    · intro htrim
      obtain ⟨hfirst, hlast⟩ := not_mem_of_trim_eq htrim
      refine ⟨?_, ?_, by simp⟩
      · intro y hy
        rw [List.mem_singleton.mp hy]
        exact hfirst
      · intro y hy
        cases hy
        exact hlast
  rw [hkeeps]
  constructor
  · intro heq
    have htail := List.append_cancel_left heq
    split at htail
    · cases htail
    · exact (List.cons.inj htail).1.symm
  · intro htrim
    rw [htrim, if_neg hx]

/-- Characters of the splitter at an end are trimmed. -/
theorem splitString_left (h : ∀ c ∈ x, c ∈ splitter) :
    SplitString (x ++ s) items splitter out ↔ SplitString s items splitter out := by
  have htrim : TrimString (x ++ s) splitter = TrimString s splitter :=
    trimBoth_append_left fun c hc => by simpa using h c hc
  rw [SplitString, SplitString, htrim]

theorem splitString_right (h : ∀ c ∈ t, c ∈ splitter) :
    SplitString (x ++ t) items splitter out ↔ SplitString x items splitter out := by
  have htrim : TrimString (x ++ t) splitter = TrimString x splitter :=
    trimBoth_append_right fun c hc => by simpa using h c hc
  rw [SplitString, SplitString, htrim]

/-- A first piece that begins with a character of the splitter is not found. -/
theorem splitString_trimmed {c : UInt8} (hc : c ∈ splitter) :
    ¬ SplitString s items splitter (items ++ (c :: x) :: l) := by
  intro h
  obtain ⟨m, hm, hitems⟩ := splitString_items h (fun d => trim_head)
  rw [← List.append_cancel_left hm] at hitems
  exact hitems _ List.mem_cons_self c rfl hc

/-- Pieces of characters of the splitter are trimmed away. -/
theorem splitString_lost (hne : splitter ≠ [])
    (hx : find splitter (x ++ (splitter ++ t)) = some x.length)
    (hfields : fields splitter t ≠ []) (hall : ∀ d ∈ t, d ∈ splitter) :
    ¬ SplitString (x ++ (splitter ++ t)) items splitter (items ++ x :: fields splitter t) := by
  have hall' : ∀ d ∈ splitter ++ t, d ∈ splitter := fun d hd =>
    (List.mem_append.mp hd).elim id (hall d)
  obtain ⟨y, l, hl⟩ := List.exists_cons_of_ne_nil hfields
  rw [splitString_right hall', splitString_single (find_eq_none_of hne hx), hl]
  intro h
  have hlength := congrArg List.length (List.append_cancel_left h)
  split at hlength
  · cases hlength
  · cases hlength

theorem not_keeps (hne : splitter ≠ []) (hfields : fields splitter t ≠ [])
    (hall : ∀ d ∈ t, d ∈ splitter) : ¬ Keeps splitter (fields splitter t) := by
  intro h
  obtain ⟨y, l, hl⟩ := List.exists_cons_of_ne_nil hfields
  have hy : y ∈ fields splitter t := by
    rw [hl]
    exact List.mem_cons_self
  obtain ⟨hnil, hsub⟩ := mem_fields hne hy
  cases y with
  | nil => exact absurd rfl hnil
  | cons d y => exact absurd (hall d (hsub List.mem_cons_self)) (h.first _ hy d rfl)

/-- The pieces are found exactly under the conditions on them. -/
theorem splitString_fields_iff (hne : splitter ≠ []) (s : Bytes) (items : List Bytes) :
    SplitString s items splitter (items ++ fields splitter s) ↔
      Keeps splitter (fields splitter s) := by
  induction s using pieces_induction hne generalizing items with
  | last s hnone =>
    rw [fields_of_none hnone]
    split
    · rename_i hs
      subst hs
      rw [splitString_single hnone]
      exact ⟨fun _ => ⟨by simp, by simp, by simp⟩, fun _ => rfl⟩
    · rename_i hs
      exact splitString_one hs hnone
  | cons x t hx ih =>
    rw [fields_append hne hx]
    cases x with
    | nil =>
      rw [if_pos rfl, List.nil_append, splitString_left fun c hc => hc]
      exact ih items
    | cons c x =>
      rw [if_neg (List.cons_ne_nil _ _)]
      by_cases hc : c ∈ splitter
      · exact ⟨fun h => absurd h (splitString_trimmed hc),
          fun h => absurd hc (h.first _ List.mem_cons_self c rfl)⟩
      by_cases hnil : fields splitter t = []
      · -- only characters of the splitter follow
        have hall : ∀ d ∈ splitter ++ t, d ∈ splitter := fun d hd =>
          (List.mem_append.mp hd).elim id (mem_splitter_of_fields hne hnil d)
        rw [hnil, splitString_right hall]
        exact splitString_one (List.cons_ne_nil _ _) (find_eq_none_of hne hx)
      rw [keeps_cons hnil]
      by_cases ht : ∃ d ∈ t, d ∉ splitter
      · by_cases hshort : (c :: x).length < 2 ^ 31
        · have hnext := ih (items ++ [c :: x])
          rw [SplitString, List.append_assoc] at hnext
          rw [SplitString, ends_next_iff (splitRound_piece hc ht hx hshort)]
          refine hnext.trans ⟨fun h => ⟨head_cons hc x, hshort, h⟩, fun h => h.2.2⟩
        · exact ⟨fun h => absurd h (splitString_long hc ht hne hx hshort),
            fun h => absurd h.2.1 hshort⟩
      · -- the pieces that follow are trimmed away
        have hall : ∀ d ∈ t, d ∈ splitter := by
          intro d hd
          by_contra hnot
          exact ht ⟨d, hd, hnot⟩
        exact ⟨fun h => absurd h (splitString_lost hne hx hnil hall),
          fun h => absurd h.2.2 (not_keeps hne hnil hall)⟩

theorem counted_eq_iff : (counted l).length = l.length ↔ l.length < 2 ^ 31 := by
  have hlt := cInt_lt l.length
  rw [counted, List.length_take]
  constructor
  · intro h
    by_contra hlong
    omega
  · intro h
    rw [cInt_of_lt h]
    omega

/-- The three functions see the non-empty pieces exactly if none of these begins with a character
of the splitter, the last one does not end with one, and their lengths and their number fit an
`int`. -/
theorem splits_iff_keeps (hne : splitter ≠ []) (str : Bytes) (items : List Bytes) :
    (SplitString str items splitter (items ++ fields splitter str) ∧
      SplitStringTrim str splitter ((fields splitter str).map Trim) ∧
      SplitStringToInt str splitter
        ((fields splitter str).map fun field => cInt (Redis.Str2Int (Trim field)))) ↔
      Keeps splitter (fields splitter str) ∧ (fields splitter str).length < 2 ^ 31 := by
  rw [splitString_fields_iff hne]
  have hnil := splitString_fields_iff hne str []
  rw [List.nil_append] at hnil
  constructor
  · intro h
    obtain ⟨hkeeps, ⟨v, hv, hmap⟩, -⟩ := h
    obtain rfl : v = fields splitter str := Option.some.inj (hv.unique (hnil.mpr hkeeps))
    have hlength := congrArg List.length hmap
    rw [List.length_map, List.length_map] at hlength
    exact ⟨hkeeps, counted_eq_iff.mp hlength.symm⟩
  · intro h
    obtain ⟨hkeeps, hlt⟩ := h
    have hlen := counted_eq_iff.mpr hlt
    have hall : counted (fields splitter str) = fields splitter str := by
      rw [counted, List.take_eq_self_iff]
      rw [counted, List.length_take] at hlen
      omega
    exact ⟨hkeeps, ⟨_, hnil.mpr hkeeps, by rw [hall]⟩, ⟨_, hnil.mpr hkeeps, by rw [hall]⟩⟩

theorem fields_two {a b : Bytes} (hne : splitter ≠ []) (ha : a ≠ []) (hb : b ≠ [])
    (hfirst : find splitter (a ++ (splitter ++ b)) = some a.length)
    (hnone : find splitter b = none) : fields splitter (a ++ (splitter ++ b)) = [a, b] := by
  rw [fields_append hne hfirst, if_neg ha, fields_of_none hnone, if_neg hb]

theorem splits_word : SplitString (bytes "xabyz") [] (bytes "ab") [bytes "x", bytes "yz"] := by
  have hfields : fields (bytes "ab") (bytes "xabyz") = [bytes "x", bytes "yz"] :=
    fields_two (a := bytes "x") (b := bytes "yz") (by decide) (by decide) (by decide) (by decide)
      (by decide)
  have hall := (@splits_iff_keeps (bytes "ab") (by decide) (bytes "xabyz") []).mpr
  rw [hfields] at hall
  refine (hall ⟨⟨?_, ?_, ?_⟩, by simp only [List.length_cons, List.length_nil]; omega⟩).1
  · simp only [List.mem_cons, List.not_mem_nil, or_false]
    intro y hy
    obtain rfl | rfl := hy
    · exact head_cons (by decide) _
    · exact head_cons (by decide) _
  · intro y hy c hc
    cases hy
    cases hc
    decide
  · intro y hy
    obtain rfl := List.mem_singleton.mp hy
    have hlen : (bytes "x").length = 1 := by decide
    omega

/-- The second piece of `xabby` is `by`, and it begins with a character of the splitter. -/
theorem not_splits_pieces : ¬ ∀ (str splitter : Bytes) (items : List Bytes), splitter ≠ [] →
    SplitString str items splitter (items ++ fields splitter str) := by
  intro hall
  have hfields : fields (bytes "ab") (bytes "xabby") = [bytes "x", bytes "by"] :=
    fields_two (a := bytes "x") (b := bytes "by") (by decide) (by decide) (by decide) (by decide)
      (by decide)
  have hone := (splitString_fields_iff (by decide) _ []).mp
    (hall (bytes "xabby") (bytes "ab") [] (by decide))
  rw [hfields] at hone
  exact hone.first (bytes "by") (by simp) 98 rfl (by decide)

end CppPrivate.Public.StdStrUtils
