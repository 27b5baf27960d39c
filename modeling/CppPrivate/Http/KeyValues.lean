import CppPrivate.Http.SplitKV
import CppPrivate.Lib.LastWins

/-! The map of keys and values that a text stands for, and the texts for which `splitKV` makes it.
-/
namespace CppPrivate.Http.SplitKV

def toMap (l : List (Bytes × Bytes)) : StdMap Bytes := l.foldl (fun m e => m.insert e.1 e.2) ∅

/-- The key and the value of a piece, where neither is empty. -/
def pairOf (k_v : UInt8) (piece : Bytes) : Option (Bytes × Bytes) :=
  match cut k_v piece with
  | (key, some value) => if key ≠ [] ∧ value ≠ [] then some (key, value) else none
  | (_, none) => none

def keyValues (s : Bytes) (kv_kv k_v : UInt8) : StdMap Bytes :=
  toMap ((s.splitOn kv_kv).filterMap (pairOf k_v))

/-- The map is the one that the text stands for, and nothing is read from outside of a piece. -/
def Splits (s : Bytes) (kv_kv k_v : UInt8) : Prop :=
  ∃ l, splitKV s kv_kv k_v = some l ∧ toMap (l.map Assignment.pair) = keyValues s kv_kv k_v ∧
    ∀ e ∈ l, e.Inside

/-- A piece with only a key has no piece with a value behind it, one with only a value none with a
key; a piece with both can be read by itself. -/
structure Regular (k_v : UInt8) (l : List Bytes) : Prop where
  keys : l.Pairwise fun q r => keyPart k_v q ≠ [] → counted k_v q = 0 → counted k_v r = 0
  values : l.Pairwise fun q r => counted k_v q ≠ 0 → keyPart k_v q = [] → keyPart k_v r = []
  pairs : ∀ q ∈ l, keyPart k_v q ≠ [] → counted k_v q ≠ 0 → Clean k_v q ∧ Fits k_v 0 0 q

/-- What is counted of the pieces with only a key. -/
def keyCount (k_v : UInt8) (l : List Bytes) : Nat :=
  (l.map fun q => if counted k_v q = 0 then (keyPart k_v q).length else 0).sum

/-- What is counted of the pieces with only a value. -/
def valueCount (k_v : UInt8) (l : List Bytes) : Nat :=
  (l.map fun q => if keyPart k_v q = [] then counted k_v q else 0).sum

variable {s q : Bytes} {kv_kv k_v : UInt8} {k v : Nat} {l : List Bytes}

theorem regular_nil (k_v : UInt8) : Regular k_v [] :=
  ⟨List.Pairwise.nil, List.Pairwise.nil, by simp⟩

theorem regular_cons : Regular k_v (q :: l) ↔
    (keyPart k_v q ≠ [] → counted k_v q = 0 → ∀ r ∈ l, counted k_v r = 0) ∧
      (counted k_v q ≠ 0 → keyPart k_v q = [] → ∀ r ∈ l, keyPart k_v r = []) ∧
      (keyPart k_v q ≠ [] → counted k_v q ≠ 0 → Clean k_v q ∧ Fits k_v 0 0 q) ∧
      Regular k_v l := by
  constructor
  · intro h
    obtain ⟨hkeys, hvalues, hpairs⟩ := h
    rw [List.pairwise_cons] at hkeys hvalues
    rw [List.forall_mem_cons] at hpairs
    exact ⟨fun hk hv r hr => hkeys.1 r hr hk hv, fun hv hk r hr => hvalues.1 r hr hv hk, hpairs.1,
      hkeys.2, hvalues.2, hpairs.2⟩
  · intro h
    obtain ⟨hkeys, hvalues, hpairs, hl⟩ := h
    exact ⟨List.pairwise_cons.mpr ⟨fun r hr hk hv => hkeys hk hv r hr, hl.keys⟩,
      List.pairwise_cons.mpr ⟨fun r hr hv hk => hvalues hv hk r hr, hl.values⟩,
      List.forall_mem_cons.mpr ⟨hpairs, hl.pairs⟩⟩

theorem tidy_iff (hone : k = 0 ∨ v = 0) (hfits : k < 2 ^ 31 ∧ v < 2 ^ 31) :
    Tidy k_v k v l ↔ (k ≠ 0 → ∀ q ∈ l, counted k_v q = 0) ∧
      (v ≠ 0 → ∀ q ∈ l, keyPart k_v q = []) ∧ Regular k_v l ∧
      k + keyCount k_v l < 2 ^ 31 ∧ v + valueCount k_v l < 2 ^ 31 := by
  induction l generalizing k v with
  | nil => simpa [Tidy, keyCount, valueCount, regular_nil] using hfits
  | cons q l ih =>
    have hcount : keyCount k_v (q :: l) =
        (if counted k_v q = 0 then (keyPart k_v q).length else 0) + keyCount k_v l := List.sum_cons
    have hcount' : valueCount k_v (q :: l) =
        (if keyPart k_v q = [] then counted k_v q else 0) + valueCount k_v l := List.sum_cons
    rw [hcount, hcount', regular_cons, Tidy, List.forall_mem_cons, List.forall_mem_cons]
    unfold Fits
    have hpos : 0 < 2 ^ 31 := Nat.two_pow_pos 31
    generalize 2 ^ 31 = M at *
    -- what is left behind the piece: the same, more of a key, more of a value, or nothing
    have hsame := ih hone hfits
    have hkey := fun hv hk => @ih (k + (keyPart k_v q).length) v (Or.inr hv) ⟨hk, hfits.2⟩
    have hvalue := fun hk hv => @ih k (v + counted k_v q) (Or.inl hk) ⟨hfits.1, hv⟩
    have hboth := @ih 0 0 (Or.inl rfl) ⟨hpos, hpos⟩
    clear ih hcount hcount'
    by_cases ha : keyPart k_v q = []
    · simp only [ha, List.length_nil, Nat.add_zero]
      by_cases hb : counted k_v q = 0
      · simp only [hb, Nat.add_zero]
        rw [if_neg (by omega), hsame]
        grind
      · by_cases hk : k = 0
        · rw [if_neg fun h => h.1 hk]
          by_cases hv : v + counted k_v q < M
          · rw [hvalue hk hv]
            grind
          · grind
        · grind
    · have hlen : (keyPart k_v q).length ≠ 0 := fun h => ha (List.length_eq_zero_iff.mp h)
      by_cases hb : counted k_v q = 0
      · simp only [hb, Nat.add_zero]
        by_cases hv : v = 0
        · rw [if_neg fun h => h.2 hv]
          by_cases hk : k + (keyPart k_v q).length < M
          · rw [hkey hv hk]
            grind
          · grind
        · grind
      · rw [if_pos ⟨by omega, by omega⟩, hboth]
        grind

theorem getElem?_toMap (l : List (Bytes × Bytes)) (x : Bytes) : (toMap l)[x]? = lastValue l x := by
  rw [toMap, getElem?_foldl_insert, Std.ExtTreeMap.getElem?_empty, Option.or_none]

theorem pairOf_eq (k_v : UInt8) (q : Bytes) :
    pairOf k_v q = if keyPart k_v q ≠ [] ∧ valuePart k_v q ≠ [] then
      some (keyPart k_v q, valuePart k_v q) else none := by
  rw [pairOf, keyPart, valuePart]
  obtain ⟨-, hcut⟩ | ⟨a, b, -, -, hcut⟩ := cut_cases k_v q
  · rw [hcut]
    simp
  · rw [hcut]
    rfl

/-- A value without `k_v` is recorded as it is. -/
theorem recorded_of_pairOf {x w : Bytes} (h : pairOf k_v q = some (x, w)) (hw : k_v ∉ w) :
    recorded k_v q = some (x, w) := by
  rw [pairOf_eq, Option.ite_none_right_eq_some] at h
  obtain ⟨⟨hk, hv⟩, h⟩ := h
  cases h
  have hdrop : (valuePart k_v q).dropWhile (· = k_v) = valuePart k_v q := by
    refine List.dropWhile_eq_self_iff.mpr fun hpos => ?_
    simpa using ne_of_mem_of_not_mem (List.getElem_mem hpos) hw
  have hcount : counted k_v q ≠ 0 := by
    rw [counted, List.countP_eq_length.mpr fun c hc => by
      simpa using ne_of_mem_of_not_mem hc hw]
    exact fun h => hv (List.length_eq_zero_iff.mp h)
  rw [recorded, if_pos ⟨hk, hcount⟩, hdrop]

theorem pairOf_of_recorded {x w : Bytes} (h : recorded k_v q = some (x, w)) :
    pairOf k_v q = some (x, valuePart k_v q) := by
  rw [recorded, Option.ite_none_right_eq_some] at h
  obtain ⟨⟨hk, hv⟩, h⟩ := h
  cases h
  have hne : valuePart k_v q ≠ [] := fun hnil => hv (by rw [counted, hnil, List.countP_nil])
  rw [pairOf_eq, if_pos ⟨hk, hne⟩]

/-- Under a key whose value has no `k_v`, what is recorded is what the text stands for. -/
theorem lastValue_recorded {x : Bytes}
    (h : ∀ w, lastValue (l.filterMap (pairOf k_v)) x = some w → k_v ∉ w) :
    lastValue (l.filterMap (recorded k_v)) x = lastValue (l.filterMap (pairOf k_v)) x := by
  induction l with
  | nil => rfl
  | cons q l ih =>
    rw [lastValue_filterMap_cons] at h ⊢
    rw [lastValue_filterMap_cons, ih fun w hw => h w (by rw [hw]; rfl)]
    cases hlast : lastValue (l.filterMap (pairOf k_v)) x with
    | some w => rfl
    | none =>
      rw [hlast] at h
      cases hpair : pairOf k_v q with
      | none =>
        cases hrec : recorded k_v q with
        | none => rfl
        | some y =>
          rw [pairOf_of_recorded hrec] at hpair
          cases hpair
      | some y =>
        rw [hpair] at h
        by_cases hy : y.1 = x
        · rw [recorded_of_pairOf hpair (h y.2 (if_pos hy))]
        · cases hrec : recorded k_v q with
          | none =>
            rw [Option.bind_some, if_neg hy]
            rfl
          | some z =>
            rw [pairOf_of_recorded hrec] at hpair
            cases hpair
            rw [Option.bind_some, Option.bind_some, if_neg hy, if_neg hy]

theorem recorded_clean (h : Regular k_v l) {x w : Bytes}
    (hmem : (x, w) ∈ l.filterMap (recorded k_v)) : k_v ∉ w := by
  obtain ⟨q, hq, hrec⟩ := List.mem_filterMap.mp hmem
  rw [recorded, Option.ite_none_right_eq_some] at hrec
  obtain ⟨⟨hk, hv⟩, hrec⟩ := hrec
  cases hrec
  exact (h.pairs q hq hk hv).1

/-- The map that is recorded is the right one where no value of that has a `k_v`. -/
theorem toMap_recorded_iff (h : Regular k_v l) :
    toMap (l.filterMap (recorded k_v)) = toMap (l.filterMap (pairOf k_v)) ↔
      ∀ x w : Bytes, (toMap (l.filterMap (pairOf k_v)))[x]? = some w → k_v ∉ w := by
  constructor
  · intro heq x w hw
    rw [← heq, getElem?_toMap] at hw
    exact recorded_clean h (mem_of_lastValue hw)
  · intro hall
    refine Std.ExtTreeMap.ext_getElem? fun x => ?_
    rw [getElem?_toMap, getElem?_toMap, lastValue_recorded]
    intro w hw
    exact hall x w (by rw [getElem?_toMap, hw])

/-- A key that is in the right map has no `k_v`. -/
theorem key_clean {x w : Bytes} (h : (toMap (l.filterMap (pairOf k_v)))[x]? = some w) :
    k_v ∉ x := by
  rw [getElem?_toMap] at h
  obtain ⟨q, -, hq⟩ := List.mem_filterMap.mp (mem_of_lastValue h)
  rw [pairOf_eq, Option.ite_none_right_eq_some] at hq
  obtain ⟨-, hq⟩ := hq
  cases hq
  exact not_mem_cut k_v q

/-- `splitKV` makes the map of the text exactly where no piece leaves a length behind that another
one uses. -/
theorem keyValues_iff (kv_kv k_v : UInt8) (hzero : 0 ∉ s) :
    Splits s kv_kv k_v ↔ Regular k_v (s.splitOn kv_kv) ∧
      (keyCount k_v (s.splitOn kv_kv) < 2 ^ 31 ∧ valueCount k_v (s.splitOn kv_kv) < 2 ^ 31) ∧
      ∀ key value : Bytes, (keyValues s kv_kv k_v)[key]? = some value → k_v ∉ value := by
  have hstart : AtStart start ([] : Bytes).length :=
    ⟨rfl, rfl, rfl, by simp [start], Nat.two_pow_pos 31, Nat.two_pow_pos 31⟩
  have hrun : splitKV s kv_kv k_v = (loop s kv_kv k_v s start).map KV.kvs := by
    rw [splitKV, Url.cStr_eq hzero, loop]
  have htidy : Tidy k_v 0 0 (s.splitOn kv_kv) ↔ Regular k_v (s.splitOn kv_kv) ∧
      keyCount k_v (s.splitOn kv_kv) < 2 ^ 31 ∧ valueCount k_v (s.splitOn kv_kv) < 2 ^ 31 := by
    rw [tidy_iff (Or.inl rfl) ⟨Nat.two_pow_pos 31, Nat.two_pow_pos 31⟩]
    simp
  rw [Splits]
  rw [hrun]
  constructor
  · intro h
    obtain ⟨l, hl, hmap, hin⟩ := h
    obtain ⟨u, hu, rfl⟩ := Option.map_eq_some_iff.mp hl
    have hkeys : ∀ e ∈ u.kvs, e.Inside ∧ k_v ∉ e.pair.1 := by
      intro e he
      refine ⟨hin e he, ?_⟩
      have hmem : e.pair.1 ∈ (u.kvs.map Assignment.pair).map Prod.fst :=
        List.mem_map_of_mem (List.mem_map_of_mem he)
      obtain ⟨w, hw⟩ := exists_lastValue hmem
      rw [← getElem?_toMap, hmap] at hw
      exact key_clean hw
    have ht := tidy_of_loop (List.nil_append s).symm hstart hu hkeys
    obtain ⟨hreg, hcount⟩ := htidy.mp ht
    obtain ⟨u', l', hu', hkvs, hl', -⟩ := reads_of_tidy (List.nil_append s).symm hstart ht
    rw [hu] at hu'
    cases hu'
    rw [hkvs, show start.kvs ++ l' = l' from rfl, hl'] at hmap
    exact ⟨hreg, hcount, (toMap_recorded_iff hreg).mp hmap⟩
  · intro h
    obtain ⟨hreg, hcount, hall⟩ := h
    obtain ⟨u, l, hu, hkvs, hl, hin⟩ :=
      reads_of_tidy (List.nil_append s).symm hstart (htidy.mpr ⟨hreg, hcount⟩)
    refine ⟨l, ?_, ?_, hin⟩
    · rw [hu, Option.map_some, hkvs]
      rfl
    · rw [hl]
      exact (toMap_recorded_iff hreg).mpr hall

theorem keyValues_query : Splits (bytes "a=1&b=2") 38 61 := by
  refine (keyValues_iff 38 61 (by decide)).mpr ⟨⟨by decide, by decide, ?_⟩, ⟨by decide, by decide⟩, ?_⟩
  · decide
  · intro key value h
    rw [keyValues, getElem?_toMap] at h
    have hmem := mem_of_lastValue h
    have hall : ∀ e ∈ ((bytes "a=1&b=2").splitOn 38).filterMap (pairOf 61), 61 ∉ e.2 := by decide
    exact hall _ hmem

/-- The length of a piece without a value is still there when the next key is read. -/
theorem not_keyValues : ¬ ∀ (s : Bytes) (kv_kv k_v : UInt8), 0 ∉ s → kv_kv ≠ k_v →
    Splits s kv_kv k_v := by
  intro h
  obtain ⟨l, hl, hmap, -⟩ := h (bytes "x&a=1") 38 61 (by decide) (by decide)
  have hrun : splitKV (bytes "x&a=1") 38 61 = some [⟨2, 2, 4, 1, 5, bytes "a=", bytes "1"⟩] := rfl
  rw [hrun] at hl
  cases hl
  have hget := congrArg (fun m : StdMap Bytes => m[bytes "a"]?) hmap
  rw [keyValues, getElem?_toMap, getElem?_toMap] at hget
  revert hget
  decide

end CppPrivate.Http.SplitKV
