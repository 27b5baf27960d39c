import CppPrivate.Http.Document

/-! What the reader has read is the beginning of a document, and it finishes at documents only. -/
namespace CppPrivate.Http
open Mode

/-- The header lines of a part, with the line break before them. -/
def lines (hs : List HeaderLine) : Bytes := [CR, LF] ++ hs.flatMap HeaderLine.text

/-- The text since the last delimiter, as far as it has been read. -/
inductive Since (b : Bytes) : Mode → Bytes → Prop
  | field {hs : List HeaderLine} {name : Bytes} :
      (∀ h ∈ hs, h.Valid) → (∀ c ∈ name, isFieldChar c) →
      Since b (.field name) (lines hs ++ name)
  | headersDone {hs : List HeaderLine} {ending : Bytes} :
      (∀ h ∈ hs, h.Valid) → (∀ c ∈ ending, isFieldChar c) →
      Since b .headersDone (lines hs ++ ending ++ [CR])
  | valueStart {hs : List HeaderLine} {h : HeaderLine} :
      (∀ h ∈ hs, h.Valid) → h.Valid → Since b .valueStart (lines hs ++ (h.name ++ 58 :: h.raw))
  | value {hs : List HeaderLine} {h : HeaderLine} {text : Bytes} :
      (∀ h ∈ hs, h.Valid) → h.Valid → Since b (.value text) (lines hs ++ (h.name ++ 58 :: h.raw))
  | valueDone {hs : List HeaderLine} {h : HeaderLine} :
      (∀ h ∈ hs, h.Valid) → h.Valid →
      Since b .valueDone (lines hs ++ (h.name ++ 58 :: h.raw) ++ [CR])
  | dataStart {hs : List HeaderLine} {ending : Bytes} :
      (∀ h ∈ hs, h.Valid) → (∀ c ∈ ending, isFieldChar c) →
      Since b .dataStart (lines hs ++ ending ++ [CR, LF])
  | data {hs : List HeaderLine} {ending x : Bytes} {k : Nat} :
      (∀ h ∈ hs, h.Valid) → (∀ c ∈ ending, isFieldChar c) →
      Restart.Searched (delimiter b) k x →
      Since b (.data k) (lines hs ++ ending ++ [CR, LF] ++ x)
  | dataDone : Since b .dataDone []
  | nextPart : Since b .nextPart [CR]
  | hyphen : Since b .hyphen [45]
  | finished {epilogue : Bytes} : Since b .finished (45 :: 45 :: epilogue)

/-- One more byte goes on with the part, or ends it. -/
def Goes (b : Bytes) (x : Bytes) (r : Mode × List Callback) : Prop :=
  (NoEnd r.2 ∧ Since b r.1 x) ∨ (r.1 = .dataDone ∧ ∃ p : Part, p.Valid b ∧ x = p.text b)

section Step
variable {b t x : Bytes} {c : UInt8} {m m' : Mode} {calls : List Callback}
  {hs : List HeaderLine} {h : HeaderLine} {ending : Bytes} {k : Nat}

theorem lines_snoc (hs : List HeaderLine) (h : HeaderLine) :
    lines (hs ++ [h]) = lines hs ++ (h.name ++ 58 :: h.raw) ++ [CR] ++ [LF] := by
  simp [lines, HeaderLine.text]

theorem goes_readData (hhs : ∀ h ∈ hs, h.Valid) (hending : ∀ c ∈ ending, isFieldChar c)
    (hx : Restart.Searched (delimiter b) k x) :
    Goes b (lines hs ++ ending ++ [CR, LF] ++ (x ++ [c])) (readData b k c) := by
  rw [readData]
  by_cases hc : (delimiter b)[k]? = some c
  · rw [if_pos hc]
    by_cases hlast : k + 1 = (delimiter b).length
    · rw [if_pos hlast]
      obtain ⟨content, htext, hpasses⟩ := hx.found hc hlast
      right
      refine ⟨rfl, ⟨hs, ending, content⟩, ⟨hhs, hending, hpasses⟩, ?_⟩
      rw [htext]
      simp [lines, Part.text, Part.head]
    · rw [if_neg hlast]
      left
      exact ⟨List.not_mem_nil, .data hhs hending (hx.next hc hlast)⟩
  · rw [if_neg hc]
    left
    by_cases hcr : c = CR
    · rw [if_pos hcr]
      refine ⟨by simp [NoEnd], .data hhs hending (hx.first hc ?_)⟩
      rw [hcr]
      rfl
    · rw [if_neg hcr]
      refine ⟨by simp [NoEnd], .data hhs hending (hx.other hc ?_)⟩
      intro heq
      exact hcr (Option.some.inj heq).symm

/-- One more byte of a header's value. -/
theorem value_snoc (hh : h.Valid) (hcr : c ≠ CR) : HeaderLine.Valid ⟨h.name, h.raw ++ [c]⟩ := by
  refine ⟨hh.1, ?_⟩
  rw [List.mem_append, List.mem_singleton, not_or]
  exact ⟨hh.2, Ne.symm hcr⟩

theorem goes_field {name : Bytes} (hhs : ∀ h ∈ hs, h.Valid) (hname : ∀ c ∈ name, isFieldChar c)
    (hr : (Mode.field name).read b c = some (m', calls)) :
    Goes b (lines hs ++ name ++ [c]) (m', calls) := by
  rw [Mode.read] at hr
  by_cases hcr : c = CR
  · rw [if_pos hcr] at hr
    obtain ⟨rfl, rfl⟩ := Prod.mk.inj (Option.some.inj hr)
    left
    rw [hcr]
    exact ⟨List.not_mem_nil, .headersDone hhs hname⟩
  · rw [if_neg hcr] at hr
    by_cases hcolon : c = 58
    · rw [if_pos hcolon] at hr
      obtain ⟨rfl, rfl⟩ := Prod.mk.inj (Option.some.inj hr)
      left
      rw [hcolon, List.append_assoc]
      exact ⟨by simp [NoEnd], @Since.valueStart b hs ⟨name, []⟩ hhs ⟨hname, List.not_mem_nil⟩⟩
    · rw [if_neg hcolon] at hr
      obtain ⟨hc, hr⟩ := Option.ite_none_right_eq_some.mp hr
      obtain ⟨rfl, rfl⟩ := Prod.mk.inj (Option.some.inj hr)
      left
      rw [List.append_assoc]
      exact ⟨List.not_mem_nil, .field hhs (List.forall_mem_append.mpr ⟨hname, List.forall_mem_singleton.mpr hc⟩)⟩

theorem goes_valueStart (hhs : ∀ h ∈ hs, h.Valid) (hh : h.Valid)
    (hr : Mode.valueStart.read b c = some (m', calls)) :
    Goes b (lines hs ++ (h.name ++ 58 :: h.raw) ++ [c]) (m', calls) := by
  have htext : lines hs ++ (h.name ++ 58 :: h.raw) ++ [c] =
      lines hs ++ (h.name ++ 58 :: (h.raw ++ [c])) := by
    simp
  rw [Mode.read] at hr
  left
  by_cases hspace : c = 32
  · rw [if_pos hspace] at hr
    obtain ⟨rfl, rfl⟩ := Prod.mk.inj (Option.some.inj hr)
    rw [htext]
    exact ⟨List.not_mem_nil, @Since.valueStart b hs ⟨h.name, h.raw ++ [c]⟩ hhs
      (value_snoc hh (by rw [hspace]; decide))⟩
  · rw [if_neg hspace] at hr
    by_cases hcr : c = CR
    · rw [if_pos hcr] at hr
      obtain ⟨rfl, rfl⟩ := Prod.mk.inj (Option.some.inj hr)
      rw [hcr]
      exact ⟨by simp [NoEnd], .valueDone hhs hh⟩
    · rw [if_neg hcr] at hr
      obtain ⟨rfl, rfl⟩ := Prod.mk.inj (Option.some.inj hr)
      rw [htext]
      exact ⟨List.not_mem_nil, @Since.value b hs ⟨h.name, h.raw ++ [c]⟩ _ hhs (value_snoc hh hcr)⟩

theorem goes_value {text : Bytes} (hhs : ∀ h ∈ hs, h.Valid) (hh : h.Valid)
    (hr : (Mode.value text).read b c = some (m', calls)) :
    Goes b (lines hs ++ (h.name ++ 58 :: h.raw) ++ [c]) (m', calls) := by
  rw [Mode.read] at hr
  left
  by_cases hcr : c = CR
  · rw [if_pos hcr] at hr
    obtain ⟨rfl, rfl⟩ := Prod.mk.inj (Option.some.inj hr)
    rw [hcr]
    exact ⟨by simp [NoEnd], .valueDone hhs hh⟩
  · rw [if_neg hcr] at hr
    obtain ⟨rfl, rfl⟩ := Prod.mk.inj (Option.some.inj hr)
    have hvalue := @Since.value b hs ⟨h.name, h.raw ++ [c]⟩ (text ++ [c]) hhs (value_snoc hh hcr)
    simp only [List.append_assoc, List.cons_append] at hvalue ⊢
    exact ⟨List.not_mem_nil, hvalue⟩

theorem goes_dataDone (hr : Mode.dataDone.read b c = some (m', calls)) :
    Goes b [c] (m', calls) := by
  rw [Mode.read] at hr
  left
  by_cases hhyphen : c = 45
  · rw [if_pos hhyphen] at hr
    obtain ⟨rfl, rfl⟩ := Prod.mk.inj (Option.some.inj hr)
    rw [hhyphen]
    exact ⟨List.not_mem_nil, .hyphen⟩
  · rw [if_neg hhyphen] at hr
    obtain ⟨hcr, hr⟩ := Option.ite_none_right_eq_some.mp hr
    obtain ⟨rfl, rfl⟩ := Prod.mk.inj (Option.some.inj hr)
    rw [hcr]
    exact ⟨List.not_mem_nil, .nextPart⟩

/-- What one byte does to the text since the last delimiter. -/
theorem since_read (ht : Since b m t) (hr : m.read b c = some (m', calls)) :
    Goes b (t ++ [c]) (m', calls) := by
  cases ht with
  | field hhs hname => exact goes_field hhs hname hr
  | headersDone hhs hending =>
    obtain ⟨hlf, hr⟩ := Option.ite_none_right_eq_some.mp hr
    obtain ⟨rfl, rfl⟩ := Prod.mk.inj (Option.some.inj hr)
    left
    rw [hlf, List.append_assoc]
    exact ⟨List.not_mem_nil, .dataStart hhs hending⟩
  | valueStart hhs hh => exact goes_valueStart hhs hh hr
  | value hhs hh => exact goes_value hhs hh hr
  | @valueDone hs h hhs hh =>
    obtain ⟨hlf, hr⟩ := Option.ite_none_right_eq_some.mp hr
    obtain ⟨rfl, rfl⟩ := Prod.mk.inj (Option.some.inj hr)
    left
    rw [hlf, ← lines_snoc, ← List.append_nil (lines _)]
    have hlines := List.forall_mem_append.mpr ⟨hhs, List.forall_mem_singleton.mpr hh⟩
    exact ⟨List.not_mem_nil, .field hlines (List.forall_mem_nil _)⟩
  | @dataStart hs ending hhs hending =>
    obtain ⟨rfl, rfl⟩ := Prod.mk.inj (Option.some.inj hr)
    have hgoes := @goes_readData b [] c hs ending 0 hhs hending (.nil (List.cons_ne_nil _ _))
    cases hgoes with
    | inl hsince =>
      left
      refine ⟨?_, hsince.2⟩
      rw [NoEnd, List.mem_cons, not_or]
      exact ⟨by simp, hsince.1⟩
    | inr hpart => exact Or.inr hpart
  | data hhs hending hx =>
    obtain hr := Option.some.inj hr
    rw [← hr, List.append_assoc]
    exact goes_readData hhs hending hx
  | dataDone => exact goes_dataDone hr
  | nextPart =>
    obtain ⟨hlf, hr⟩ := Option.ite_none_right_eq_some.mp hr
    obtain ⟨rfl, rfl⟩ := Prod.mk.inj (Option.some.inj hr)
    left
    rw [hlf]
    exact ⟨by simp [NoEnd], @Since.field b [] [] (List.forall_mem_nil _) (List.forall_mem_nil _)⟩
  | hyphen =>
    obtain ⟨hhyphen, hr⟩ := Option.ite_none_right_eq_some.mp hr
    obtain ⟨rfl, rfl⟩ := Prod.mk.inj (Option.some.inj hr)
    left
    rw [hhyphen]
    exact ⟨by simp [NoEnd], .finished⟩
  | @finished epilogue =>
    obtain ⟨rfl, rfl⟩ := Prod.mk.inj (Option.some.inj hr)
    left
    exact ⟨List.not_mem_nil, @Since.finished b (epilogue ++ [c])⟩

/-- What has been read is a number of parts and the text since the last delimiter. -/
theorem since_run (ht : Since b m t) (hrun : Mode.run b m x = some (m', calls)) :
    ∃ parts tail, (∀ p ∈ parts, Part.Valid b p) ∧ t ++ x = partsText b parts ++ tail ∧
      Since b m' tail ∧ (parts = [] → NoEnd calls) := by
  induction x generalizing m t calls with
  | nil =>
    obtain ⟨rfl, rfl⟩ := Prod.mk.inj (Option.some.inj hrun)
    refine ⟨[], t, List.forall_mem_nil _, List.append_nil t, ht, ?_⟩
    intro _
    exact List.not_mem_nil
  | cons c x ih =>
    obtain ⟨m₁, calls₁, calls₂, hr, hs, rfl⟩ := Mode.run_cons_inv hrun
    cases since_read ht hr with
    | inl hsince =>
      obtain ⟨parts, tail, hp, htext, htail, hno⟩ := ih hsince.2 hs
      refine ⟨parts, tail, hp, ?_, htail, ?_⟩
      · rw [← htext, List.append_assoc]
        rfl
      · intro hnil
        simp only [NoEnd, List.mem_append, not_or]
        exact ⟨hsince.1, hno hnil⟩
    | inr hpart =>
      obtain ⟨hmode, p, hp, htext⟩ := hpart
      obtain rfl : m₁ = .dataDone := hmode
      obtain ⟨parts, tail, hparts, hrest, htail, -⟩ := ih .dataDone hs
      refine ⟨p :: parts, tail, List.forall_mem_cons.mpr ⟨hp, hparts⟩, ?_, htail, by simp⟩
      have hcons : partsText b (p :: parts) = p.text b ++ partsText b parts := List.flatMap_cons
      rw [List.nil_append] at hrest
      rw [hcons, List.append_assoc, ← hrest, ← htext, List.append_assoc]
      rfl

/-- The reader is still in the first boundary, or has it behind itself. -/
theorem run_opening_cases (hk : k < (opening b).length)
    (hrun : Mode.run b (.opening k) x = some (m, calls)) :
    (∃ j, j < (opening b).length ∧ m = .opening j ∧ calls = []) ∨ (opening b).drop k <+: x := by
  induction x generalizing k calls with
  | nil =>
    obtain ⟨rfl, rfl⟩ := Prod.mk.inj (Option.some.inj hrun)
    exact Or.inl ⟨k, hk, rfl, rfl⟩
  | cons c x ih =>
    obtain ⟨m₁, calls₁, calls₂, hr, hs, rfl⟩ := Mode.run_cons_inv hrun
    obtain ⟨hc, hr⟩ := Option.ite_none_right_eq_some.mp hr
    rw [List.getElem?_eq_getElem hk] at hc
    rw [List.drop_eq_getElem_cons hk, Option.some.inj hc, List.cons_prefix_cons]
    by_cases hlast : k + 1 = (opening b).length
    · rw [hlast, List.drop_length]
      exact Or.inr ⟨rfl, List.nil_prefix⟩
    · rw [if_neg hlast] at hr
      obtain ⟨rfl, rfl⟩ := Prod.mk.inj (Option.some.inj hr)
      cases ih (by omega) hs with
      | inl h => exact Or.inl h
      | inr h => exact Or.inr ⟨rfl, h⟩

/-- Behind the first boundary the reader is where it would be behind any other. -/
theorem run_opened (hrun : Mode.run b (.opening 0) x = some (m, calls)) :
    (∃ j, j < (opening b).length ∧ m = .opening j ∧ calls = []) ∨
      ∃ w, x = b ++ CR :: LF :: w ∧ Mode.run b .dataDone (CR :: LF :: w) = some (m, calls) := by
  have hk : 0 < (opening b).length := by
    rw [opening_length]
    omega
  cases run_opening_cases hk hrun with
  | inl h => exact Or.inl h
  | inr h =>
    obtain ⟨w, rfl⟩ := h
    have htext : (opening b).drop 0 ++ w = b ++ CR :: LF :: w := List.append_assoc b [CR, LF] w
    rw [htext] at hrun ⊢
    rw [run_opening] at hrun
    exact Or.inr ⟨w, rfl, hrun⟩

/-- The reader finishes with documents. -/
theorem document_of_finished (hrun : Mode.run b (.opening 0) x = some (.finished, calls)) :
    Document b x := by
  cases run_opened hrun with
  | inl h =>
    obtain ⟨j, -, hj, -⟩ := h
    cases hj
  | inr h =>
    obtain ⟨w, rfl, hdone⟩ := h
    obtain ⟨parts, tail, hp, htext, htail, -⟩ := since_run .dataDone hdone
    cases htail with
    | @finished epilogue =>
      refine ⟨parts, epilogue, ?_, hp, ?_⟩
      · intro heq
        subst heq
        cases htext
      · rw [List.nil_append] at htext
        rw [htext, documentText, List.append_assoc]

theorem run_finished_iff :
    (∃ calls, Mode.run b (.opening 0) x = some (.finished, calls)) ↔ Document b x := by
  constructor
  · intro h
    obtain ⟨calls, hrun⟩ := h
    exact document_of_finished hrun
  · intro h
    obtain ⟨parts, epilogue, hne, hp, rfl⟩ := h
    obtain ⟨calls, hrun, -⟩ := @run_document b _ epilogue hne hp
    exact ⟨calls, hrun⟩

/-- Something can be read from here that finishes. -/
def Closes (b : Bytes) (m : Mode) : Prop := ∃ rest calls, Mode.run b m rest = some (.finished, calls)

theorem Closes.of_run (h : Closes b m') (hrun : Mode.run b m x = some (m', calls)) : Closes b m := by
  obtain ⟨rest, calls', hrest⟩ := h
  exact ⟨x ++ rest, _, run_trans hrun hrest⟩

theorem closes_dataDone (b : Bytes) : Closes b .dataDone := ⟨_, _, run_close []⟩

theorem closes_data (hx : Restart.Searched (delimiter b) k x) : Closes b (.data k) := by
  have hfind := Restart.find_drop hx.lt []
  rw [List.append_nil] at hfind
  obtain ⟨-, calls, hrun, -⟩ := run_data hfind
  exact (closes_dataDone b).of_run hrun

theorem closes_dataStart (b : Bytes) : Closes b .dataStart := by
  have hpasses : Restart.Passes (delimiter b) [] := by
    have hfind := Restart.find_drop (d := delimiter b) (k := 0) (Nat.succ_pos _) []
    rw [List.append_nil] at hfind
    exact hfind
  obtain ⟨calls, hrun, -⟩ := run_content hpasses
  exact (closes_dataDone b).of_run hrun

theorem closes_field (b name : Bytes) : Closes b (.field name) := by
  have hrun : Mode.run b (.field name) [CR, LF] = some (.dataStart, []) := rfl
  exact (closes_dataStart b).of_run hrun

theorem closes_valueDone (b : Bytes) : Closes b .valueDone := by
  have hrun : Mode.run b .valueDone [LF] = some (.field [], []) := rfl
  exact (closes_field b []).of_run hrun

theorem closes_since (ht : Since b m t) : Closes b m := by
  cases ht with
  | field hhs hname => exact closes_field b _
  | headersDone hhs hending =>
    have hrun : Mode.run b .headersDone [LF] = some (.dataStart, []) := rfl
    exact (closes_dataStart b).of_run hrun
  | valueStart hhs hh =>
    have hrun : Mode.run b .valueStart [CR] = some (.valueDone, [.header_value []]) := rfl
    exact (closes_valueDone b).of_run hrun
  | @value hs h text hhs hh =>
    have hrun : Mode.run b (.value text) [CR] = some (.valueDone, [.header_value text]) := rfl
    exact (closes_valueDone b).of_run hrun
  | valueDone hhs hh => exact closes_valueDone b
  | dataStart hhs hending => exact closes_dataStart b
  | data hhs hending hx => exact closes_data hx
  | dataDone => exact closes_dataDone b
  | nextPart =>
    have hrun : Mode.run b .nextPart [LF] = some (.field [], [.part_data_begin]) := rfl
    exact (closes_field b []).of_run hrun
  | hyphen =>
    have hrun : Mode.run b .hyphen [45] = some (.finished, [.body_end]) := rfl
    exact ⟨_, _, hrun⟩
  | finished => exact ⟨_, _, run_epilogue []⟩

/-- Whatever the reader reads to its end goes on to a document. -/
theorem run_isSome_iff :
    (Mode.run b (.opening 0) x).isSome ↔ ∃ rest, Document b (x ++ rest) := by
  constructor
  · intro h
    obtain ⟨⟨m, calls⟩, hrun⟩ := Option.isSome_iff_exists.mp h
    have hcloses : Closes b m := by
      cases run_opened hrun with
      | inl h =>
        obtain ⟨j, hj, rfl, -⟩ := h
        exact (closes_field b []).of_run (run_opening_drop hj)
      | inr h =>
        obtain ⟨w, -, hdone⟩ := h
        obtain ⟨-, tail, -, -, htail, -⟩ := since_run .dataDone hdone
        exact closes_since htail
    obtain ⟨rest, calls', hrest⟩ := hcloses
    exact ⟨rest, document_of_finished (run_trans hrun hrest)⟩
  · intro h
    obtain ⟨rest, h⟩ := h
    obtain ⟨calls, hrun⟩ := run_finished_iff.mpr h
    cases Mode.run_cases b (.opening 0) x with
    | inl hread =>
      obtain ⟨r, hr⟩ := hread
      rw [hr]
      rfl
    | inr hstops =>
      obtain ⟨y, c, z, m, calls, rfl, hy, hnone⟩ := hstops
      rw [List.append_assoc, List.cons_append, run_none hy hnone] at hrun
      cases hrun

end Step

end CppPrivate.Http
