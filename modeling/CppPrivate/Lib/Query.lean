import CppPrivate.Lib.Percent

/-! The query part of a URI: parameters separated by `&`, each one a percent-encoded key and
value around a single `=`. -/
namespace CppPrivate.Query
open Percent

/-- The text after the first question mark, empty if there is none. -/
def query (uri : Bytes) : Bytes := (uri.dropWhile (· ≠ 63)).drop 1

/-- A second `=` is an error, and so is a missing one. -/
def parsePair (s : Bytes) : Option (Bytes × Bytes) :=
  match s.splitOn 61 with
  | [k, v] => (decode k).bind fun k => (decode v).map fun v => (k, v)
  | _ => none

def parse (s : Bytes) : Option (List (Bytes × Bytes)) := (s.splitOn 38).mapM parsePair

section Split
variable {c d : UInt8}

theorem length_splitOn (c : UInt8) (s : Bytes) : (s.splitOn c).length = s.count c + 1 := by
  induction s with
  | nil => rfl
  | cons x s ih =>
    rw [List.splitOn_cons_eq_if_modifyHead]
    split
    · rename_i h
      rw [List.length_cons, ih, beq_iff_eq.mp h, List.count_cons_self]
    · rename_i h
      rw [List.length_modifyHead, ih, List.count_cons, if_neg h, Nat.add_zero]

theorem sum_count_modifyHead (x : UInt8) {l : List Bytes} (hl : l ≠ []) :
    ((l.modifyHead (x :: ·)).map (List.count d)).sum =
      (l.map (List.count d)).sum + if x == d then 1 else 0 := by
  cases l with
  | nil => exact absurd rfl hl
  | cons y l =>
    simp only [List.modifyHead_cons, List.map_cons, List.sum_cons, List.count_cons]
    omega

/-- Splitting at `c` loses no other byte. -/
theorem sum_count_splitOn (hcd : c ≠ d) (s : Bytes) :
    ((s.splitOn c).map (List.count d)).sum = s.count d := by
  induction s with
  | nil => rfl
  | cons x s ih =>
    rw [List.splitOn_cons_eq_if_modifyHead]
    split
    · rename_i h
      have hx : ¬ (x == d) = true := by
        rw [beq_iff_eq.mp h, beq_iff_eq]
        exact hcd
      rw [List.map_cons, List.sum_cons, ih, List.count_nil, List.count_cons, if_neg hx]
      omega
    · rw [sum_count_modifyHead x (List.splitOn_ne_nil c s), ih, List.count_cons]

/-- The pieces between the delimiters hold no delimiter, and no byte that was not there. -/
theorem pieces_splitOn (c : UInt8) (s : Bytes) : ∀ x ∈ s.splitOn c, c ∉ x ∧ x ⊆ s := by
  induction s with
  | nil =>
    intro x hx
    rw [List.splitOn_nil, List.mem_singleton] at hx
    subst hx
    exact ⟨List.not_mem_nil, List.Subset.refl _⟩
  | cons y s ih =>
    intro x hx
    rw [List.splitOn_cons_eq_if_modifyHead] at hx
    have hkept : ∀ x ∈ s.splitOn c, c ∉ x ∧ x ⊆ y :: s := fun x hx =>
      ⟨(ih x hx).1, List.subset_cons_of_subset y (ih x hx).2⟩
    split at hx
    · cases List.mem_cons.mp hx with
      | inl hx =>
        rw [hx]
        exact ⟨List.not_mem_nil, List.nil_subset _⟩
      | inr hx => exact hkept x hx
    · rename_i hy
      rw [beq_iff_eq] at hy
      obtain ⟨first, more, hpieces⟩ := List.exists_cons_of_ne_nil (List.splitOn_ne_nil c s)
      rw [hpieces] at hx hkept
      cases List.mem_cons.mp hx with
      | inl hx =>
        obtain ⟨hfirst, hsubset⟩ := hkept first List.mem_cons_self
        rw [hx, List.mem_cons, not_or]
        exact ⟨⟨Ne.symm hy, hfirst⟩, List.cons_subset.mpr ⟨List.mem_cons_self, hsubset⟩⟩
      | inr hx => exact hkept x (List.mem_cons_of_mem _ hx)

end Split

theorem query_append {s t : Bytes} (h : 63 ∉ s) : query (s ++ 63 :: t) = t := by
  induction s with
  | nil => rfl
  | cons c s ih =>
    simp only [List.mem_cons, not_or] at h
    have hc : c ≠ 63 := Ne.symm h.1
    simpa [query, hc] using ih h.2

/-- A question mark before another one comes first. -/
theorem query_append_mem {s : Bytes} (h : 63 ∈ s) : ∃ w, ∀ t, query (s ++ t) = w ++ t := by
  induction s with
  | nil => cases h
  | cons c s ih =>
    by_cases hc : c = 63
    · subst hc
      exact ⟨s, fun t => rfl⟩
    · obtain ⟨w, hw⟩ := ih ((List.mem_cons.mp h).resolve_left (Ne.symm hc))
      refine ⟨w, fun t => ?_⟩
      rw [← hw t]
      simp [query, hc]

theorem parsePair_pair {k v k' v' : Bytes} (hk : 61 ∉ k) (hv : 61 ∉ v) (hk' : decode k = some k')
    (hv' : decode v = some v') : parsePair (k ++ 61 :: v) = some (k', v') := by
  have hs : (k ++ 61 :: v).splitOn 61 = [k, v] := by
    rw [List.splitOn_append_cons_self_of_not_mem hk, List.splitOn_eq_singleton hv]
  simp [parsePair, hs, hk', hv']

theorem count_of_parsePair {s : Bytes} {kv : Bytes × Bytes} (h : parsePair s = some kv) :
    s.count 61 = 1 := by
  rw [parsePair] at h
  split at h
  · rename_i k v hs
    have := length_splitOn 61 s
    rw [hs] at this
    simpa using this.symm
  · cases h

/-- The number of parameters is read off the separators. -/
theorem counts_of_parse {s : Bytes} {l : List (Bytes × Bytes)} (h : parse s = some l) :
    s.count 38 + 1 = l.length ∧ s.count 61 = l.length := by
  have hone : ∀ (ps : List Bytes) (l : List (Bytes × Bytes)), ps.mapM parsePair = some l →
      ps.length = l.length ∧ (ps.map (List.count 61)).sum = l.length := by
    intro ps
    induction ps with
    | nil =>
      intro l hl
      cases hl
      exact ⟨rfl, rfl⟩
    | cons p ps ih =>
      intro l hl
      simp only [List.mapM_cons, Option.bind_eq_bind, Option.bind_eq_some_iff] at hl
      obtain ⟨kv, hp, kvs, hps, hl⟩ := hl
      cases hl
      obtain ⟨h1, h2⟩ := ih kvs hps
      have hc := count_of_parsePair hp
      simp only [List.length_cons, List.map_cons, List.sum_cons]
      omega
  obtain ⟨h1, h2⟩ := hone _ _ h
  rw [length_splitOn] at h1
  rw [sum_count_splitOn (by decide)] at h2
  exact ⟨h1, h2⟩

theorem parse_split {k v t : Bytes} (hk : 38 ∉ k) (hv : 38 ∉ v) :
    parse (k ++ 61 :: (v ++ 38 :: t)) =
      (parsePair (k ++ 61 :: v)).bind fun p => (parse t).map (p :: ·) := by
  have hnot : 38 ∉ k ++ 61 :: v := by simp [hk, hv]
  have hs : (k ++ 61 :: (v ++ 38 :: t)).splitOn 38 = (k ++ 61 :: v) :: t.splitOn 38 := by
    rw [← List.splitOn_append_cons_self_of_not_mem hnot, List.append_assoc, List.cons_append]
  rw [parse, hs, List.mapM_cons]
  simp only [Option.bind_eq_bind, Option.map_eq_bind]
  rfl

/-- One parameter read off the front. -/
theorem parse_cons {k v t k' v' : Bytes} (hk : 38 ∉ k ∧ 61 ∉ k) (hv : 38 ∉ v ∧ 61 ∉ v)
    (hk' : decode k = some k') (hv' : decode v = some v') :
    parse (k ++ 61 :: (v ++ 38 :: t)) = (parse t).map ((k', v') :: ·) := by
  rw [parse_split hk.1 hv.1, parsePair_pair hk.2 hv.2 hk' hv']
  rfl

theorem parse_last {k v k' v' : Bytes} (hk : 38 ∉ k ∧ 61 ∉ k) (hv : 38 ∉ v ∧ 61 ∉ v)
    (hk' : decode k = some k') (hv' : decode v = some v') :
    parse (k ++ 61 :: v) = some [(k', v')] := by
  have hnot : 38 ∉ k ++ 61 :: v := by simp [hk.1, hv.1]
  rw [parse, List.splitOn_eq_singleton hnot, List.mapM_cons, parsePair_pair hk.2 hv.2 hk' hv']
  rfl

/-- The key of the first parameter is the decoded text before its `=`. -/
theorem parse_first {k v t : Bytes} {l : List (Bytes × Bytes)} (hk : 38 ∉ k ∧ 61 ∉ k)
    (hv : 38 ∉ v ∧ 61 ∉ v) (h : parse (k ++ 61 :: (v ++ 38 :: t)) = some l) :
    ∃ k' v', decode k = some k' ∧ (k', v') ∈ l := by
  rw [parse_split hk.1 hv.1] at h
  obtain ⟨⟨k', v'⟩, hp, hl⟩ := Option.bind_eq_some_iff.mp h
  obtain ⟨kvs, -, rfl⟩ := Option.map_eq_some_iff.mp hl
  have hs : (k ++ 61 :: v).splitOn 61 = [k, v] := by
    rw [List.splitOn_append_cons_self_of_not_mem hk.2, List.splitOn_eq_singleton hv.2]
  simp only [parsePair, hs, Option.bind_eq_some_iff, Option.map_eq_some_iff] at hp
  obtain ⟨a, ha, b, -, he⟩ := hp
  cases he
  exact ⟨_, _, ha, List.mem_cons_self⟩

end CppPrivate.Query
