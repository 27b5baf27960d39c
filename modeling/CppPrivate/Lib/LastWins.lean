import CppPrivate.Lib.Bytes

/-! Filling a map from a list of pairs, of which two may have the same key. -/
namespace CppPrivate
variable {κ β : Type*} [DecidableEq κ]

/-- The value of the last pair with the key. -/
def lastValue : List (κ × β) → κ → Option β
  | [], _ => none
  | p :: l, k => (lastValue l k).or (if p.1 = k then some p.2 else none)

variable {l : List (κ × β)} {k : κ} {v : β}

theorem mem_of_lastValue (h : lastValue l k = some v) : (k, v) ∈ l := by
  induction l with
  | nil => cases h
  | cons p l ih =>
    cases Option.or_eq_some_iff.mp h with
    | inl hl => exact List.mem_cons_of_mem _ (ih hl)
    | inr hp =>
      obtain ⟨-, hp⟩ := hp
      split at hp
      · rename_i hk
        rw [← hk, ← Option.some.inj hp]
        exact List.mem_cons_self
      · cases hp

theorem exists_lastValue (h : k ∈ l.map Prod.fst) : ∃ v, lastValue l k = some v := by
  induction l with
  | nil => cases h
  | cons p l ih =>
    rw [List.map_cons, List.mem_cons] at h
    rw [lastValue]
    cases hl : lastValue l k with
    | some v => exact ⟨v, rfl⟩
    | none =>
      obtain rfl | h := h
      · exact ⟨p.2, if_pos rfl⟩
      · obtain ⟨v, hv⟩ := ih h
        rw [hl] at hv
        cases hv

theorem lastValue_filterMap_cons {α : Type*} (f : α → Option (κ × β)) (a : α) (s : List α)
    (k : κ) : lastValue ((a :: s).filterMap f) k =
      (lastValue (s.filterMap f) k).or
        ((f a).bind fun p => if p.1 = k then some p.2 else none) := by
  cases h : f a with
  | none => rw [List.filterMap_cons_none h, Option.bind_none, Option.or_none]
  | some p => rw [List.filterMap_cons_some h, lastValue, Option.bind_some]

theorem lastValue_map (f : β → β) (k : κ) :
    lastValue (l.map fun p => (p.1, f p.2)) k = (lastValue l k).map f := by
  induction l with
  | nil => rfl
  | cons p l ih =>
    simp only [List.map_cons, lastValue, ih, Option.map_or]
    split <;> rfl

/-- A map filled from the list has the last values; what it had before is kept under the other
keys. -/
theorem getElem?_foldl_insert {cmp : κ → κ → Ordering} [Std.TransCmp cmp] [Std.LawfulEqCmp cmp]
    (l : List (κ × β)) (m : Std.ExtTreeMap κ β cmp) (k : κ) :
    (l.foldl (fun m p => m.insert p.1 p.2) m)[k]? = (lastValue l k).or m[k]? := by
  induction l generalizing m with
  | nil => rfl
  | cons p l ih =>
    rw [List.foldl_cons, ih, lastValue, Option.or_assoc]
    congr 1
    simp only [Std.ExtTreeMap.getElem?_insert, Std.LawfulEqCmp.compare_eq_iff_eq]
    split <;> rfl

end CppPrivate
