import CppPrivate.Http.Router

/-! What the constructor of `RouterNode` derives from a path: the number of its parameters, kept in
eight bits, and by it the type of the node. -/
namespace CppPrivate.Http

inductive NodeType where
  | NodeTypeStatic
  | NodeTypeParam
  | NodeTypeCatchAll
deriving DecidableEq

/-- A node with the members that no search reads. The constructor may leave `nType` unset. -/
structure RouterNode.Full (H : Type*) extends RouterNode H where
  path : Bytes
  wildChild : Bool
  maxParams : UInt32
  nType : Option NodeType

def maxParamCount : UInt8 := 255

def CountParams (path : Bytes) : UInt8 :=
  let n := path.foldl (fun n c => if c ≠ 58 ∧ c ≠ 42 then n else n + 1) (0 : UInt8)
  if n ≥ maxParamCount then maxParamCount else n

namespace RouterNode.Full
variable {H : Type*}

/-- The loop of the constructor over the characters of `path` from the place `i` on. -/
def cutAt (path : Bytes) (node : Full H) : Bytes → Nat → Full H
  | [], _ => node
  | c :: rest, i =>
    if c = 58 then { node with path := path.take i, nType := some .NodeTypeParam }
    else if c = 42 then
      { node with path := path.take i, nType := some .NodeTypeCatchAll, wildChild := true }
    else cutAt path node rest (i + 1)

def new (path : Bytes) (handler : H) : Full H :=
  let node : Full H :=
    { handler := handler, wildChild := false, fullPath := path,
      maxParams := (CountParams path).toUInt32, path := [], nType := none }
  if node.maxParams > 0 then cutAt path node path 0
  else { node with path := path, nType := some .NodeTypeStatic }

end RouterNode.Full

/-- A character that begins a parameter, `:` or `*`. -/
def isWild (c : UInt8) : Bool := c == 58 || c == 42

def wilds (path : Bytes) : Nat := path.countP isWild

theorem isWild_iff {c : UInt8} : isWild c = true ↔ c = 58 ∨ c = 42 := by
  simp only [isWild, Bool.or_eq_true, beq_iff_eq]

theorem wilds_eq_zero {path : Bytes} : wilds path = 0 ↔ 58 ∉ path ∧ 42 ∉ path := by
  rw [wilds, List.countP_eq_zero]
  constructor
  · intro h
    exact ⟨fun hmem => h 58 hmem (by decide), fun hmem => h 42 hmem (by decide)⟩
  · intro h c hc hwild
    cases isWild_iff.mp hwild with
    | inl he => exact h.1 (he ▸ hc)
    | inr he => exact h.2 (he ▸ hc)

/-- The count before it is cut off at `maxParamCount`. -/
theorem count_toNat (path : Bytes) (n : UInt8) :
    (path.foldl (fun n c => if c ≠ 58 ∧ c ≠ 42 then n else n + 1) n).toNat =
      (n.toNat + wilds path) % 256 := by
  induction path generalizing n with
  | nil =>
    have hlt := n.toNat_lt
    exact (Nat.mod_eq_of_lt hlt).symm
  | cons c path ih =>
    rw [List.foldl_cons, ih, wilds, wilds]
    by_cases hc : c ≠ 58 ∧ c ≠ 42
    · have hplain : ¬ isWild c = true := fun h => (isWild_iff.mp h).elim hc.1 hc.2
      rw [if_pos hc, List.countP_cons_of_neg hplain]
    · have hwild : isWild c = true := by
        rw [isWild_iff]
        by_contra hnot
        exact hc (not_or.mp hnot)
      rw [if_neg hc, List.countP_cons_of_pos hwild, UInt8.toNat_add]
      change ((n.toNat + 1) % 256 + _) % 256 = _
      omega

/-- Eight bits never exceed the bound. -/
theorem CountParams_toNat (path : Bytes) : (CountParams path).toNat = wilds path % 256 := by
  have hcount := count_toNat path 0
  rw [UInt8.toNat_zero, Nat.zero_add] at hcount
  simp only [CountParams]
  split
  · rename_i hge
    have hmax : maxParamCount.toNat = 255 := rfl
    rw [ge_iff_le, UInt8.le_iff_toNat_le, hcount, hmax] at hge
    omega
  · exact hcount

theorem counted_iff (path : Bytes) :
    (CountParams path).toNat = min maxParamCount.toNat (wilds path) ↔
      wilds path ≤ 255 ∨ wilds path % 256 = 255 := by
  have hmax : maxParamCount.toNat = 255 := rfl
  rw [CountParams_toNat, hmax]
  omega

/-- The type is static exactly if the path has no parameter, else the first one decides it, and the
path is cut there. -/
structure RouterNode.Full.Classified {H : Type*} (path : Bytes) (node : Full H) : Prop where
  static : node.nType = some .NodeTypeStatic ↔ 58 ∉ path ∧ 42 ∉ path
  wild : ∀ a c b, path = a ++ c :: b → 58 ∉ a ∧ 42 ∉ a → c = 58 ∨ c = 42 →
    node.path = a ∧ node.nType = some (if c = 58 then .NodeTypeParam else .NodeTypeCatchAll)

namespace RouterNode.Full
variable {H : Type*} {a b path : Bytes} {c : UInt8}

/-- The loop comes to the first parameter. -/
theorem cutAt_first (path : Bytes) (node : Full H) (ha : wilds a = 0) (hc : isWild c = true)
    (b : Bytes) (i : Nat) : cutAt path node (a ++ c :: b) i =
      if c = 58 then { node with path := path.take (i + a.length), nType := some .NodeTypeParam }
      else { node with path := path.take (i + a.length), nType := some .NodeTypeCatchAll,
                       wildChild := true } := by
  induction a generalizing i with
  | nil =>
    rw [List.nil_append, cutAt]
    by_cases h58 : c = 58
    · rw [if_pos h58, if_pos h58]
      rfl
    · rw [if_neg h58, if_neg h58, if_pos ((isWild_iff.mp hc).resolve_left h58)]
      rfl
  | cons d a ih =>
    obtain ⟨h58, h42⟩ := wilds_eq_zero.mp ha
    simp only [List.mem_cons, not_or] at h58 h42
    rw [List.cons_append, cutAt, if_neg (Ne.symm h58.1), if_neg (Ne.symm h42.1),
      ih (wilds_eq_zero.mpr ⟨h58.2, h42.2⟩), List.length_cons, Nat.add_assoc, Nat.add_comm 1]

/-- A path with a parameter is the text before the first one, that one and the rest. -/
theorem exists_first (h : wilds path ≠ 0) :
    ∃ a c b, path = a ++ c :: b ∧ wilds a = 0 ∧ isWild c = true := by
  obtain ⟨x, hx, hwild⟩ := List.countP_pos_iff.mp (Nat.pos_of_ne_zero h)
  obtain ⟨c, hfind⟩ := Option.isSome_iff_exists.mp (List.find?_isSome.mpr ⟨x, hx, hwild⟩)
  obtain ⟨hc, a, b, hpath, ha⟩ := List.find?_eq_some_iff_append.mp hfind
  refine ⟨a, c, b, hpath, List.countP_eq_zero.mpr ?_, hc⟩
  exact fun y hy => by simpa using ha y hy

theorem new_of_zero (handler : H) (h : wilds path % 256 = 0) :
    (new path handler).nType = some .NodeTypeStatic ∧ (new path handler).path = path := by
  have hmax : (CountParams path).toUInt32 = 0 := by
    rw [← UInt32.toNat_inj, UInt8.toNat_toUInt32, CountParams_toNat, h]
    rfl
  simp only [new, hmax]
  exact ⟨rfl, rfl⟩

theorem new_of_ne_zero (handler : H) (h : wilds (a ++ c :: b) % 256 ≠ 0) (ha : wilds a = 0)
    (hc : isWild c = true) :
    (new (a ++ c :: b) handler).nType =
        some (if c = 58 then .NodeTypeParam else .NodeTypeCatchAll) ∧
      (new (a ++ c :: b) handler).path = a := by
  have hmax : (CountParams (a ++ c :: b)).toUInt32 > 0 := by
    rw [gt_iff_lt, UInt32.lt_iff_toNat_lt, UInt8.toNat_toUInt32, CountParams_toNat]
    exact Nat.pos_of_ne_zero h
  simp only [new, if_pos hmax, cutAt_first _ _ ha hc, Nat.zero_add, List.take_left]
  split
  · exact ⟨rfl, rfl⟩
  · exact ⟨rfl, rfl⟩

theorem nType_static_iff (path : Bytes) (handler : H) :
    (new path handler).nType = some .NodeTypeStatic ↔ wilds path % 256 = 0 := by
  constructor
  · intro hstatic
    by_contra hne
    obtain ⟨a, c, b, rfl, ha, hc⟩ := exists_first fun hzero => hne (by rw [hzero])
    rw [(new_of_ne_zero handler hne ha hc).1] at hstatic
    split at hstatic
    · cases hstatic
    · cases hstatic
  · exact fun h => (new_of_zero handler h).1

theorem classified_iff (path : Bytes) (handler : H) :
    Classified path (new path handler) ↔ wilds path = 0 ∨ wilds path % 256 ≠ 0 := by
  constructor
  · intro h
    have hstatic := h.static
    rw [nType_static_iff, ← wilds_eq_zero] at hstatic
    by_cases hzero : wilds path % 256 = 0
    · exact Or.inl (hstatic.mp hzero)
    · exact Or.inr hzero
  · intro hcond
    refine ⟨?_, ?_⟩
    · rw [nType_static_iff, ← wilds_eq_zero]
      exact ⟨fun hzero => hcond.resolve_right (not_not.mpr hzero), fun hzero => by rw [hzero]⟩
    · intro a c b hpath ha hc
      subst hpath
      have hpos : wilds (a ++ c :: b) ≠ 0 := by
        intro hzero
        have hnone := List.countP_eq_zero.mp hzero c (by simp)
        exact hnone (isWild_iff.mpr hc)
      have hnew := new_of_ne_zero handler (hcond.resolve_left hpos) (wilds_eq_zero.mpr ha)
        (isWild_iff.mpr hc)
      exact ⟨hnew.2, hnew.1⟩

end RouterNode.Full

/-- Both hold exactly up to 255 parameters, and for the numbers that leave 255 in eight bits. -/
theorem params_counted_iff {H : Type*} (path : Bytes) (handler : H) :
    ((CountParams path).toNat = min maxParamCount.toNat (wilds path) ∧
      RouterNode.Full.Classified path (.new path handler)) ↔
      wilds path ≤ 255 ∨ wilds path % 256 = 255 := by
  rw [counted_iff, RouterNode.Full.classified_iff]
  omega

/-- Of 256 parameters none is counted. -/
theorem params_wrap :
    (CountParams (List.replicate 256 58)).toNat ≠
        min maxParamCount.toNat (wilds (List.replicate 256 58)) ∧
      ¬ RouterNode.Full.Classified (List.replicate 256 58) (.new (List.replicate 256 58) ()) := by
  have hcount : wilds (List.replicate 256 58) = 256 := by
    rw [wilds, List.countP_replicate, if_pos (by decide)]
  refine ⟨?_, ?_⟩
  · rw [Ne, counted_iff, hcount]
    decide
  · rw [RouterNode.Full.classified_iff, hcount]
    decide

end CppPrivate.Http
