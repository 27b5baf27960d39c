import CppPrivate.Lib.Bytes
import Mathlib.Data.List.DropRight

/-! The parameters of a media type. Each stands after a semicolon, with a token or a text in quotes
as its value; in quotes a backslash stands before a byte that is meant as it is. -/
namespace CppPrivate.Parameters

def isTokenChar (c : UInt8) : Bool :=
  (97 ≤ c && c ≤ 122) || (65 ≤ c && c ≤ 90) || (48 ≤ c && c ≤ 57) ||
    (bytes "!#$%&'*+-.^_`|~").contains c

def isBlank (c : UInt8) : Bool := c == 32 || c == 9

def lower (c : UInt8) : UInt8 := if 65 ≤ c ∧ c ≤ 90 then c + 32 else c

/-- The pieces between the semicolons, of which none in quotes counts. The flag tells whether the
text starts in quotes. -/
def pieces : Bool → Bytes → List Bytes
  | _, [] => [[]]
  | false, 59 :: s => [] :: pieces false s
  | false, 34 :: s => (pieces true s).modifyHead (34 :: ·)
  | true, 34 :: s => (pieces false s).modifyHead (34 :: ·)
  | true, 92 :: c :: s => (pieces true s).modifyHead (fun p => 92 :: c :: p)
  | q, c :: s => (pieces q s).modifyHead (c :: ·)

/-- What is meant by a text that ends with the closing quote. -/
def unquote : Bytes → Option Bytes
  | [] => none
  | [34] => some []
  | 34 :: _ => none
  | 92 :: c :: s => (unquote s).map (c :: ·)
  | c :: s => (unquote s).map (c :: ·)

def value : Bytes → Option Bytes
  | 34 :: s => unquote s
  | s => if s ≠ [] ∧ s.all isTokenChar then some s else none

def parameter (piece : Bytes) : Option (Bytes × Bytes) :=
  let text := piece.dropWhile isBlank
  let name := text.takeWhile isTokenChar
  match text.dropWhile isTokenChar with
  | 61 :: rest => if name = [] then none else (value (rest.rdropWhile isBlank)).map (name, ·)
  | _ => none

def parameters (s : Bytes) : List (Bytes × Bytes) := (pieces false s).tail.filterMap parameter

/-- The first parameter of that name, in capitals or not. -/
def first (name s : Bytes) : Option (Bytes × Bytes) :=
  (parameters s).find? fun p => p.1.map lower == name

def lookup (name s : Bytes) : Option Bytes := (first name s).map Prod.snd

/-- A value as it is written: a token, or a text in quotes that is longer than what it means. -/
def Writes (raw v : Bytes) : Prop := raw = v ∧ v.all isTokenChar ∨ v.length + 2 ≤ raw.length

section Written
variable {name s v : Bytes}

theorem length_unquote (h : unquote s = some v) : v.length + 1 ≤ s.length := by
  induction s using unquote.induct generalizing v with
  | case1 => cases h
  | case2 => cases h; exact Nat.le_refl _
  | case3 s hs => simp [unquote] at h
  | case4 c s ih =>
    rw [unquote, Option.map_eq_some_iff] at h
    obtain ⟨w, hw, rfl⟩ := h
    have hlen := ih hw
    simp only [List.length_cons]
    omega
  | case5 c s _ _ _ ih =>
    rw [unquote, Option.map_eq_some_iff] at h
    · obtain ⟨w, hw, rfl⟩ := h
      have hlen := ih hw
      simp only [List.length_cons]
      omega
    all_goals assumption

theorem value_writes (h : value s = some v) : Writes s v := by
  rw [value.eq_def] at h
  split at h
  · have hlen := length_unquote h
    exact Or.inr (by simpa using hlen)
  · split at h
    · rename_i htoken
      cases h
      exact Or.inl ⟨rfl, htoken.2⟩
    · cases h

/-- A parameter is read where its name and its value are written. -/
theorem parameter_eq {piece : Bytes} (h : parameter piece = some (name, v)) :
    ∃ before raw after, piece = before ++ name ++ 61 :: (raw ++ after) ∧ Writes raw v := by
  simp only [parameter] at h
  split at h
  · rename_i rest hrest
    split at h
    · cases h
    · obtain ⟨w, hw, heq⟩ := Option.map_eq_some_iff.mp h
      obtain ⟨rfl, rfl⟩ := Prod.mk.inj heq
      obtain ⟨after, hafter⟩ := rest.rdropWhile_prefix isBlank
      refine ⟨piece.takeWhile isBlank, rest.rdropWhile isBlank, after, ?_, value_writes hw⟩
      rw [hafter, ← hrest, List.append_assoc, List.takeWhile_append_dropWhile,
        List.takeWhile_append_dropWhile]
  · cases h

/-- The pieces are parts of the text, all but the first one after a semicolon. -/
theorem pieces_eq (q : Bool) (s : Bytes) : ∃ head more, pieces q s = head :: more ∧ head <+: s ∧
    ∀ p ∈ more, ∃ before after, s = before ++ 59 :: (p ++ after) := by
  have hextend : ∀ q s w, (∃ head more, pieces q s = head :: more ∧ head <+: s ∧
      ∀ p ∈ more, ∃ before after, s = before ++ 59 :: (p ++ after)) →
      ∃ head more, (pieces q s).modifyHead (w ++ ·) = head :: more ∧ head <+: w ++ s ∧
        ∀ p ∈ more, ∃ before after, w ++ s = before ++ 59 :: (p ++ after) := by
    intro q s w hcase
    obtain ⟨head, more, heq, hhead, hmore⟩ := hcase
    refine ⟨w ++ head, more, by rw [heq, List.modifyHead_cons],
      (List.prefix_append_right_inj w).mpr hhead, ?_⟩
    intro p hp
    obtain ⟨before, after, hs⟩ := hmore p hp
    exact ⟨w ++ before, after, by rw [hs, List.append_assoc]⟩
  induction q, s using pieces.induct with
  | case1 q => exact ⟨[], [], by simp [pieces], List.nil_prefix, by simp⟩
  | case2 s ih =>
    obtain ⟨head, more, heq, ⟨after, hhead⟩, hmore⟩ := ih
    refine ⟨[], head :: more, by rw [pieces, heq], List.nil_prefix, ?_⟩
    intro p hp
    cases List.mem_cons.mp hp with
    | inl hp => exact ⟨[], after, by rw [hp, hhead]; rfl⟩
    | inr hp =>
      obtain ⟨before, after, hs⟩ := hmore p hp
      exact ⟨59 :: before, after, by rw [hs]; rfl⟩
  | case3 s ih => rw [pieces]; exact hextend _ _ [34] ih
  | case4 s ih => rw [pieces]; exact hextend _ _ [34] ih
  | case5 c s ih => rw [pieces]; exact hextend _ _ [92, c] ih
  | case6 q c s h1 h2 h3 h4 ih =>
    rw [pieces]
    · exact hextend _ _ [c] ih
    all_goals assumption

theorem mem_parameters (h : (name, v) ∈ parameters s) :
    ∃ before raw after, s = before ++ name ++ 61 :: (raw ++ after) ∧ Writes raw v := by
  obtain ⟨piece, hpiece, hparam⟩ := List.mem_filterMap.mp h
  obtain ⟨head, more, heq, -, hmore⟩ := pieces_eq false s
  rw [heq, List.tail_cons] at hpiece
  obtain ⟨before, after, hs⟩ := hmore piece hpiece
  obtain ⟨blank, raw, rest, hwritten, hraw⟩ := parameter_eq hparam
  refine ⟨before ++ 59 :: blank, raw, rest ++ after, ?_, hraw⟩
  rw [hs, hwritten]
  simp only [List.append_assoc, List.cons_append]

/-- The parameter of a name stands in the text, under a spelling of the name. -/
theorem first_eq {written : Bytes} (h : first name s = some (written, v)) :
    written.map lower = name ∧
      ∃ before raw after, s = before ++ written ++ 61 :: (raw ++ after) ∧ Writes raw v := by
  have hname := List.find?_some h
  exact ⟨beq_iff_eq.mp hname, mem_parameters (List.mem_of_find?_eq_some h)⟩

theorem lookup_eq (h : lookup name s = some v) : ∃ written, first name s = some (written, v) := by
  obtain ⟨⟨written, w⟩, hfirst, rfl⟩ := Option.map_eq_some_iff.mp h
  exact ⟨written, hfirst⟩

/-- A value is shorter than the text by its name and the equals sign at least. -/
theorem length_lookup (h : lookup name s = some v) : v.length + name.length + 1 ≤ s.length := by
  obtain ⟨written, hfirst⟩ := lookup_eq h
  obtain ⟨hname, before, raw, after, hs, hraw⟩ := first_eq hfirst
  have hlower : written.length = name.length := by rw [← hname, List.length_map]
  have hlen := congrArg List.length hs
  simp only [List.length_append, List.length_cons] at hlen
  cases hraw with
  | inl hraw =>
    rw [hraw.1] at hlen
    omega
  | inr hraw => omega

end Written

section Token
variable {s t v : Bytes}

theorem pieces_append (hs : (59 : UInt8) ∉ s) (hquote : (34 : UInt8) ∉ s) :
    pieces false (s ++ t) = (pieces false t).modifyHead (s ++ ·) := by
  induction s with
  | nil =>
    obtain ⟨head, more, heq, -, -⟩ := pieces_eq false t
    rw [List.nil_append, heq]
    rfl
  | cons c s ih =>
    simp only [List.mem_cons, not_or] at hs hquote
    rw [List.cons_append, pieces, ih hs.2 hquote.2, List.modifyHead_modifyHead]
    · rfl
    all_goals grind

theorem tokenChar_ne {c d : UInt8} (hd : isTokenChar d = false) (hc : isTokenChar c) : c ≠ d := by
  intro heq
  subst heq
  rw [hd] at hc
  cases hc

theorem not_mem_token {d : UInt8} (hd : isTokenChar d = false) (hv : v.all isTokenChar) : d ∉ v :=
  fun hmem => tokenChar_ne hd (List.all_eq_true.mp hv d hmem) rfl

theorem value_token (hne : v ≠ []) (hv : v.all isTokenChar) : value v = some v := by
  rw [value, if_pos ⟨hne, hv⟩]
  intro s heq
  rw [heq, List.all_cons, Bool.and_eq_true] at hv
  exact tokenChar_ne rfl hv.1 rfl

theorem rdropWhile_token (hv : v.all isTokenChar) : v.rdropWhile isBlank = v := by
  rw [List.rdropWhile_eq_self_iff]
  intro hne hblank
  have hlast := List.all_eq_true.mp hv _ (List.getLast_mem hne)
  rw [isBlank, Bool.or_eq_true, beq_iff_eq, beq_iff_eq] at hblank
  cases hblank with
  | inl heq => exact tokenChar_ne rfl hlast heq
  | inr heq => exact tokenChar_ne rfl hlast heq

/-- A parameter with a token as its value, after a semicolon and a space. -/
theorem parameter_token {k : UInt8} {name : Bytes} (hname : (k :: name).all isTokenChar)
    (hne : v ≠ []) (hv : v.all isTokenChar) :
    parameter (32 :: (k :: name) ++ 61 :: v) = some (k :: name, v) := by
  have hk : isBlank k = false := by
    rw [List.all_cons, Bool.and_eq_true] at hname
    have h32 := tokenChar_ne (d := 32) rfl hname.1
    have h9 := tokenChar_ne (d := 9) rfl hname.1
    simp [isBlank, h32, h9]
  have htext : (32 :: (k :: name) ++ 61 :: v).dropWhile isBlank = (k :: name) ++ 61 :: v := by
    rw [List.cons_append, List.dropWhile_cons_of_pos rfl, List.cons_append,
      List.dropWhile_cons_of_neg (by simp [hk])]
  have hchars := List.all_eq_true.mp hname
  have hequals : ¬ isTokenChar 61 = true := by decide
  simp only [parameter, htext]
  rw [List.dropWhile_append_of_pos hchars, List.takeWhile_append_of_pos hchars,
    List.dropWhile_cons_of_neg hequals, List.takeWhile_cons_of_neg hequals, List.append_nil]
  simp only [reduceCtorEq, if_false, rdropWhile_token hv, value_token hne hv, Option.map_some]

/-- The only parameter, with a token as its value. -/
theorem parameters_token {k : UInt8} {name : Bytes} (hs : (59 : UInt8) ∉ s)
    (hquote : (34 : UInt8) ∉ s) (hname : (k :: name).all isTokenChar) (hne : v ≠ [])
    (hv : v.all isTokenChar) :
    parameters (s ++ 59 :: (32 :: (k :: name) ++ 61 :: v)) = [(k :: name, v)] := by
  have hclean : ∀ d, isTokenChar d = false → d ≠ 32 → d ≠ 61 →
      d ∉ 32 :: (k :: name) ++ 61 :: v := by
    intro d hd h32 h61
    have hkey := not_mem_token hd hname
    have hval := not_mem_token hd hv
    rw [List.cons_append, List.mem_cons, List.mem_append, List.mem_cons (a := d) (b := 61)]
    exact not_or.mpr ⟨h32, not_or.mpr ⟨hkey, not_or.mpr ⟨h61, hval⟩⟩⟩
  have hlast := pieces_append (t := []) (hclean 59 rfl (by decide) (by decide))
    (hclean 34 rfl (by decide) (by decide))
  rw [List.append_nil] at hlast
  rw [parameters, pieces_append hs hquote, pieces, hlast]
  simp only [pieces, List.modifyHead_cons, List.append_nil, List.tail_cons, List.filterMap_cons,
    List.filterMap_nil, parameter_token hname hne hv]

end Token

end CppPrivate.Parameters
