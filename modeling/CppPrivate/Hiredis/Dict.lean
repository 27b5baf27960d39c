import CppPrivate.Lib.Bytes
import CppPrivate.Lib.HashTable

/-! The dictionary: chains of entries, twice as many of them whenever there are as many entries. -/
namespace CppPrivate.Hiredis
open HashTable

def DICT_HT_INITIAL_SIZE : Nat := 4

def LONG_MAX : Nat := 2 ^ 63 - 1

def dictGenHashFunction (buf : Bytes) : Nat :=
  buf.foldl (fun hash c => (hash * 33 + c.toNat) % 2 ^ 32) 5381

/-- The chains, of which there are `size`, and the number of entries. -/
structure dict (κ α : Type) where
  table : Table κ α := []
  used : Nat := 0

/-- The loop of `_dictNextPower`. -/
def doubled (size : Nat) : Nat → Nat → Nat
  | 0, i => i
  | n + 1, i => if size ≤ i then i else doubled size n (i * 2)

def _dictNextPower (size : Nat) : Nat :=
  if LONG_MAX ≤ size then LONG_MAX else doubled size size DICT_HT_INITIAL_SIZE

/-- Where the iterator is. `entry` is whether it has one, `nextEntry` the chain behind it. -/
structure dictIterator (κ α : Type) where
  index : Int := -1
  entry : Bool := false
  nextEntry : List (κ × α) := []

section Functions
variable {κ α : Type} [DecidableEq κ] (hash : κ → Nat) (ht : dict κ α)

def dict.size {κ α : Type} (ht : dict κ α) : Nat := ht.table.length

def masked {κ : Type} (hash : κ → Nat) (size : Nat) (key : κ) : Nat := hash key &&& (size - 1)

/-- The entries are moved one after the other, each to the front of its new chain. -/
def dictExpand (size : Nat) : dict κ α × Bool :=
  if size < ht.used then (ht, false)
  else
    let realsize := _dictNextPower size
    ({ ht with table := rehash (masked hash realsize) realsize ht.table.flatten }, true)

def _dictExpandIfNeeded : dict κ α × Bool :=
  if ht.size = 0 then dictExpand hash ht DICT_HT_INITIAL_SIZE
  else if ht.used = ht.size then dictExpand hash ht (ht.size * 2)
  else (ht, true)

/-- The place for a new key; there is none where the key is found. -/
def _dictKeyIndex (key : κ) : dict κ α × Option Nat :=
  match _dictExpandIfNeeded hash ht with
  | (ht, false) => (ht, none)
  | (ht, true) =>
    if (find (masked hash ht.size) ht.table key).isSome then (ht, none)
    else (ht, some (masked hash ht.size key))

def dictAdd (key : κ) (val : α) : dict κ α × Bool :=
  match _dictKeyIndex hash ht key with
  | (ht, none) => (ht, false)
  | (ht, some index) => (⟨ht.table.modify index ((key, val) :: ·), ht.used + 1⟩, true)

def dictFind (key : κ) : Option (κ × α) :=
  if ht.size = 0 then none else find (masked hash ht.size) ht.table key

def dictReplace (key : κ) (val : α) : dict κ α × Bool :=
  match dictAdd hash ht key val with
  | (ht, true) => (ht, true)
  | (ht, false) =>
    match dictFind hash ht key with
    | none => (ht, false)
    | some _ => ({ ht with table := setValue (masked hash ht.size) ht.table key val }, false)

def dictDelete (key : κ) : dict κ α × Bool :=
  if ht.size = 0 then (ht, false)
  else
    match find (masked hash ht.size) ht.table key with
    | none => (ht, false)
    | some _ => (⟨erase (masked hash ht.size) ht.table key, ht.used - 1⟩, true)

end Functions

section Iterator
variable {κ α : Type}

def nextChain : Table κ α → Int → dictIterator κ α × Option (κ × α)
  | [], index => ({ index := index }, none)
  | [] :: table, index => nextChain table (index + 1)
  | (e :: chain) :: _, index => ({ index := index, entry := true, nextEntry := chain }, some e)

def dictNext (ht : dict κ α) (iter : dictIterator κ α) : dictIterator κ α × Option (κ × α) :=
  match iter.entry, iter.nextEntry with
  | true, e :: chain => ({ iter with nextEntry := chain }, some e)
  | _, _ => nextChain (ht.table.drop (iter.index + 1).toNat) (iter.index + 1)

end Iterator

/-- Every entry can be found under its key, and they are counted. -/
structure dict.Proper {κ α : Type} (hash : κ → Nat) (ht : dict κ α) : Prop where
  placed : Placed (masked hash ht.size) ht.table
  nodup : (ht.table.flatten.map Prod.fst).Nodup
  used : ht.used = ht.table.flatten.length

section Map
variable {κ α : Type} {hash : κ → Nat} {ht : dict κ α} {key : κ} {val : α} {m : κ → Option α}

theorem masked_lt (hash : κ → Nat) {size : Nat} (h : 0 < size) (key : κ) : masked hash size key < size := by
  have hle : masked hash size key ≤ size - 1 := Nat.and_le_right
  omega

theorem dict.Proper.empty : (({} : dict κ α)).Proper hash :=
  ⟨fun i e he => by simp at he, List.nodup_nil, rfl⟩

theorem initial_le_doubled (size n : Nat) {i : Nat} (hi : 0 < i) : 0 < doubled size n i := by
  induction n generalizing i with
  | zero => exact hi
  | succ n ih =>
    rw [doubled]
    split
    · exact hi
    · exact ih (by omega)

theorem nextPower_pos (size : Nat) : 0 < _dictNextPower size := by
  rw [_dictNextPower]
  split
  · decide
  · exact initial_le_doubled size size (by decide)

/-- The dictionary has room for one entry more, and the entries it had. -/
theorem expandIfNeeded (h : ht.Proper hash) : ∃ ht', _dictExpandIfNeeded hash ht = (ht', true) ∧
    ht'.Proper hash ∧ 0 < ht'.size ∧ ht'.used = ht.used ∧
    ht'.table.flatten.Perm ht.table.flatten := by
  have hexpand : ∀ size, ht.used ≤ size → ∃ ht', dictExpand hash ht size = (ht', true) ∧
      ht'.Proper hash ∧ 0 < ht'.size ∧ ht'.used = ht.used ∧
      ht'.table.flatten.Perm ht.table.flatten := by
    intro size hsize
    obtain ⟨hlen, hplaced, hperm⟩ := rehash_spec
      (masked_lt hash (nextPower_pos size)) ht.table.flatten
    rw [dictExpand, if_neg (Nat.not_lt.mpr hsize)]
    refine ⟨_, rfl, ⟨?_, ?_, ?_⟩, ?_, rfl, hperm⟩
    · rw [dict.size, hlen]
      exact hplaced
    · exact (hperm.map Prod.fst).nodup_iff.mpr h.nodup
    · rw [hperm.length_eq]
      exact h.used
    · rw [dict.size, hlen]
      exact nextPower_pos size
  rw [_dictExpandIfNeeded]
  split
  · next hsize =>
    have hnil : ht.table = [] := List.eq_nil_of_length_eq_zero hsize
    refine hexpand _ ?_
    rw [h.used, hnil]
    exact Nat.zero_le _
  · next hsize =>
    split
    · next hfull => exact hexpand _ (by omega)
    · exact ⟨ht, rfl, h, Nat.pos_of_ne_zero hsize, rfl, .refl _⟩

/-- The dictionary has for each key what the map has. -/
structure Mapped (hash : κ → Nat) (ht : dict κ α) (m : κ → Option α) : Prop extends ht.Proper hash where
  entries : ∀ e, e ∈ ht.table.flatten ↔ m e.1 = some e.2

theorem Mapped.empty : Mapped hash ({} : dict κ α) fun _ => none :=
  ⟨.empty, fun e => by simp⟩

theorem dict.table_nil (h : ht.size = 0) : ht.table = [] := List.eq_nil_of_length_eq_zero h

theorem Mapped.perm {ht' : dict κ α} (h : Mapped hash ht m) (hproper : ht'.Proper hash)
    (hperm : ht'.table.flatten.Perm ht.table.flatten) : Mapped hash ht' m :=
  ⟨hproper, fun e => hperm.mem_iff.trans (h.entries e)⟩

theorem Mapped.mem_keys (h : Mapped hash ht m) :
    key ∈ ht.table.flatten.map Prod.fst ↔ (m key).isSome := by
  rw [List.mem_map, Option.isSome_iff_exists]
  constructor
  · rintro ⟨e, he, rfl⟩
    exact ⟨e.2, (h.entries e).mp he⟩
  · rintro ⟨val, hval⟩
    exact ⟨(key, val), (h.entries _).mpr hval, rfl⟩

variable [DecidableEq κ]

theorem Mapped.find_eq (h : Mapped hash ht m) (key : κ) :
    find (masked hash ht.size) ht.table key = (m key).map (Prod.mk key) := by
  cases hm : m key with
  | none =>
    refine (find_none_iff h.placed).mpr fun hmem => ?_
    obtain ⟨e, he, rfl⟩ := List.mem_map.mp hmem
    rw [(h.entries e).mp he] at hm
    cases hm
  | some val => exact (find_some_iff h.placed h.nodup).mpr ⟨(h.entries (key, val)).mpr hm, rfl⟩

theorem dictFind_eq (h : Mapped hash ht m) (key : κ) :
    dictFind hash ht key = (m key).map (Prod.mk key) := by
  rw [dictFind, ← h.find_eq]
  split
  · next hsize => rw [dict.table_nil hsize, find, List.getD_nil, List.find?_nil]
  · rfl

/-- A key that is not there comes into the dictionary. -/
theorem dictAdd_new (h : ht.Proper hash) (hnew : key ∉ ht.table.flatten.map Prod.fst) (val : α) :
    ∃ ht', dictAdd hash ht key val = (ht', true) ∧ ht'.Proper hash ∧
      ht'.table.flatten.Perm ((key, val) :: ht.table.flatten) := by
  obtain ⟨ht₁, hexpand, h₁, hpos, hused, hperm⟩ := expandIfNeeded h
  have hnew₁ : key ∉ ht₁.table.flatten.map Prod.fst := fun hmem =>
    hnew ((hperm.map Prod.fst).mem_iff.mp hmem)
  have hplace : masked hash ht₁.size key < ht₁.table.length := masked_lt hash hpos key
  have hpush := push_perm (e := (key, val)) hplace
  refine ⟨⟨push (masked hash ht₁.size) ht₁.table (key, val), ht₁.used + 1⟩, ?_, ⟨?_, ?_, ?_⟩,
    hpush.trans (hperm.cons _)⟩
  · rw [dictAdd, _dictKeyIndex, hexpand]
    dsimp only
    rw [(find_none_iff h₁.placed).mpr hnew₁]
    rfl
  · rw [dict.size, push, List.length_modify]
    exact h₁.placed.push hplace
  · rw [(hpush.map Prod.fst).nodup_iff]
    exact List.nodup_cons.mpr ⟨hnew₁, h₁.nodup⟩
  · rw [hpush.length_eq, List.length_cons, h₁.used]

/-- One that is there does not. -/
theorem dictAdd_old (h : ht.Proper hash) (hold : key ∈ ht.table.flatten.map Prod.fst) (val : α) :
    ∃ ht', dictAdd hash ht key val = (ht', false) ∧ ht'.Proper hash ∧
      ht'.table.flatten.Perm ht.table.flatten := by
  obtain ⟨ht₁, hexpand, h₁, -, -, hperm⟩ := expandIfNeeded h
  refine ⟨ht₁, ?_, h₁, hperm⟩
  have hfind : find (masked hash ht₁.size) ht₁.table key ≠ none := fun hnone =>
    (find_none_iff h₁.placed).mp hnone ((hperm.map Prod.fst).mem_iff.mpr hold)
  rw [dictAdd, _dictKeyIndex, hexpand]
  dsimp only
  rw [if_pos (Option.isSome_iff_ne_none.mpr hfind)]

theorem dictAdd_spec (h : Mapped hash ht m) (key : κ) (val : α) :
    ∃ ht', dictAdd hash ht key val = (ht', (m key).isNone) ∧
      Mapped hash ht' (if (m key).isNone then Function.update m key (some val) else m) := by
  cases hm : m key with
  | some old =>
    obtain ⟨ht', hadd, hproper, hperm⟩ :=
      dictAdd_old h.toProper (h.mem_keys.mpr (by rw [hm]; rfl)) val
    exact ⟨ht', hadd, h.perm hproper hperm⟩
  | none =>
    obtain ⟨ht', hadd, hproper, hperm⟩ := dictAdd_new h.toProper
      (fun hmem => by
        have hsome := h.mem_keys.mp hmem
        rw [hm] at hsome
        cases hsome) val
    refine ⟨ht', hadd, hproper, fun e => ?_⟩
    rw [hperm.mem_iff, List.mem_cons, h.entries, if_pos (by rfl)]
    by_cases hkey : e.1 = key
    · rw [hkey, Function.update_self, hm, Option.some.injEq]
      constructor
      · rintro (rfl | hold)
        · rfl
        · cases hold
      · rintro rfl
        exact .inl (Prod.ext hkey rfl)
    · rw [Function.update_of_ne hkey]
      exact or_iff_right fun heq => hkey (congrArg Prod.fst heq)

/-- One entry goes; what is left has all the other keys. -/
theorem erase_spec (h : Mapped hash ht m) {old : α} (hm : m key = some old) :
    Placed (masked hash ht.size) (erase (masked hash ht.size) ht.table key) ∧
      ((erase (masked hash ht.size) ht.table key).flatten.map Prod.fst).Nodup ∧
      ht.table.flatten.length = (erase (masked hash ht.size) ht.table key).flatten.length + 1 ∧
      key ∉ (erase (masked hash ht.size) ht.table key).flatten.map Prod.fst ∧
      ∀ e, e ∈ (erase (masked hash ht.size) ht.table key).flatten ↔ e.1 ≠ key ∧ m e.1 = some e.2 := by
  have hpos : 0 < ht.size := by
    refine Nat.pos_of_ne_zero fun hsize => ?_
    have hmem := (h.entries (key, old)).mpr hm
    rw [dict.table_nil hsize] at hmem
    cases hmem
  have hplace : masked hash ht.size key < ht.table.length := masked_lt hash hpos key
  have hperm := erase_perm hplace (by rw [h.find_eq, hm]; rfl)
  have hkeys := (hperm.map Prod.fst).nodup_iff.mp h.nodup
  obtain ⟨hnot, hnodup⟩ := List.nodup_cons.mp hkeys
  refine ⟨h.placed.erase hplace, hnodup, hperm.length_eq, hnot, fun e => ?_⟩
  rw [← h.entries, hperm.mem_iff, List.mem_cons]
  constructor
  · intro he
    exact ⟨fun hkey => hnot (List.mem_map.mpr ⟨e, he, hkey⟩), .inr he⟩
  · rintro ⟨hne, rfl | he⟩
    · exact absurd rfl hne
    · exact he

theorem dictDelete_spec (h : Mapped hash ht m) (key : κ) :
    ∃ ht', dictDelete hash ht key = (ht', (m key).isSome) ∧
      Mapped hash ht' (Function.update m key none) := by
  rw [dictDelete, h.find_eq]
  cases hm : m key with
  | none =>
    have hsame : Function.update m key none = m := by rw [← hm, Function.update_eq_self]
    rw [hsame]
    split <;> exact ⟨ht, rfl, h⟩
  | some old =>
    obtain ⟨hplaced, hnodup, hlen, -, hmem⟩ := erase_spec h hm
    rw [if_neg]
    · refine ⟨_, rfl, ⟨?_, hnodup, ?_⟩, fun e => ?_⟩
      · rw [dict.size, erase, List.length_modify]
        exact hplaced
      · dsimp only
        rw [h.used, hlen, Nat.add_sub_cancel]
      · rw [hmem]
        by_cases hkey : e.1 = key
        · simp [hkey]
        · simp [hkey]
    · intro hsize
      rw [dict.table_nil hsize] at hlen
      cases hlen

theorem dictReplace_spec (h : Mapped hash ht m) (key : κ) (val : α) :
    ∃ ht', dictReplace hash ht key val = (ht', (m key).isNone) ∧
      Mapped hash ht' (Function.update m key (some val)) := by
  obtain ⟨ht₁, hadd, h₁⟩ := dictAdd_spec h key val
  rw [dictReplace, hadd]
  cases hm : m key with
  | none =>
    rw [hm] at h₁
    exact ⟨ht₁, rfl, h₁⟩
  | some old =>
    rw [hm] at h₁
    replace h₁ : Mapped hash ht₁ m := h₁
    obtain ⟨-, hnodup, hlen, hnot, hmem⟩ := erase_spec h₁ hm
    have hplace : masked hash ht₁.size key < ht₁.table.length := by
      refine masked_lt hash (Nat.pos_of_ne_zero fun hsize => ?_) key
      rw [dict.table_nil hsize] at hlen
      cases hlen
    have hset := setValue_perm (v := val) hplace (by rw [h₁.find_eq, hm]; rfl)
    refine ⟨{ ht₁ with table := setValue (masked hash ht₁.size) ht₁.table key val }, ?_,
      ⟨?_, ?_, ?_⟩, fun e => ?_⟩
    · simp only [Option.isNone_some, dictFind_eq h₁, hm, Option.map_some]
    · rw [dict.size, setValue, List.length_modify]
      exact h₁.placed.setValue hplace
    · rw [(hset.map Prod.fst).nodup_iff]
      exact List.nodup_cons.mpr ⟨hnot, hnodup⟩
    · rw [hset.length_eq, List.length_cons, ← hlen, ← h₁.used]
    · rw [hset.mem_iff, List.mem_cons, hmem]
      by_cases hkey : e.1 = key
      · rw [hkey, Function.update_self, Option.some.injEq]
        constructor
        · rintro (rfl | ⟨hne, -⟩)
          · rfl
          · exact absurd rfl hne
        · intro hval
          exact .inl (Prod.ext hkey hval.symm)
      · rw [Function.update_of_ne hkey]
        constructor
        · rintro (rfl | ⟨-, hold⟩)
          · exact absurd rfl hkey
          · exact hold
        · exact fun hold => .inr ⟨hkey, hold⟩

end Map

inductive DictCall (κ α : Type) where
  | add (key : κ) (val : α)
  | replace (key : κ) (val : α)
  | delete (key : κ)
  | find (key : κ)

/-- What a call returns: whether it has added or deleted an entry, or what it has found. -/
inductive DictResult (κ α : Type) where
  | done (ok : Bool)
  | found (e : Option (κ × α))

section Runs
variable {κ α : Type} [DecidableEq κ] {hash : κ → Nat} {ht : dict κ α} {m : κ → Option α}

def dictCall (hash : κ → Nat) (ht : dict κ α) : DictCall κ α → dict κ α × DictResult κ α
  | .add key val => (dictAdd hash ht key val).map id .done
  | .replace key val => (dictReplace hash ht key val).map id .done
  | .delete key => (dictDelete hash ht key).map id .done
  | .find key => (ht, .found (dictFind hash ht key))

def dictCalls (hash : κ → Nat) : dict κ α → List (DictCall κ α) → dict κ α × List (DictResult κ α)
  | ht, [] => (ht, [])
  | ht, c :: calls =>
    let (ht, r) := dictCall hash ht c
    let (ht, rs) := dictCalls hash ht calls
    (ht, r :: rs)

def mapCall (m : κ → Option α) : DictCall κ α → (κ → Option α) × DictResult κ α
  | .add key val => (if (m key).isNone then Function.update m key (some val) else m,
      .done (m key).isNone)
  | .replace key val => (Function.update m key (some val), .done (m key).isNone)
  | .delete key => (Function.update m key none, .done (m key).isSome)
  | .find key => (m, .found ((m key).map (Prod.mk key)))

def mapCalls : (κ → Option α) → List (DictCall κ α) → (κ → Option α) × List (DictResult κ α)
  | m, [] => (m, [])
  | m, c :: calls =>
    let (m, r) := mapCall m c
    let (m, rs) := mapCalls m calls
    (m, r :: rs)

theorem dictCall_spec (h : Mapped hash ht m) (c : DictCall κ α) :
    (dictCall hash ht c).2 = (mapCall m c).2 ∧
      Mapped hash (dictCall hash ht c).1 (mapCall m c).1 := by
  cases c with
  | add key val =>
    obtain ⟨ht', hadd, h'⟩ := dictAdd_spec h key val
    rw [dictCall, hadd]
    exact ⟨rfl, h'⟩
  | replace key val =>
    obtain ⟨ht', hreplace, h'⟩ := dictReplace_spec h key val
    rw [dictCall, hreplace]
    exact ⟨rfl, h'⟩
  | delete key =>
    obtain ⟨ht', hdelete, h'⟩ := dictDelete_spec h key
    rw [dictCall, hdelete]
    exact ⟨rfl, h'⟩
  | find key => exact ⟨congrArg DictResult.found (dictFind_eq h key), h⟩

/-- Whatever the calls are and whatever the hash function is, a dictionary is a map. -/
theorem dictCalls_spec (h : Mapped hash ht m) (calls : List (DictCall κ α)) :
    (dictCalls hash ht calls).2 = (mapCalls m calls).2 ∧
      Mapped hash (dictCalls hash ht calls).1 (mapCalls m calls).1 := by
  induction calls generalizing ht m with
  | nil => exact ⟨rfl, h⟩
  | cons c calls ih =>
    obtain ⟨hresult, hholds⟩ := dictCall_spec h c
    obtain ⟨hresults, hholds'⟩ := ih hholds
    exact ⟨List.cons_eq_cons.mpr ⟨hresult, hresults⟩, hholds'⟩

/-- A new dictionary is a map from which nothing is missing, whatever is done with it. -/
theorem dict_map (hash : κ → Nat) (calls : List (DictCall κ α)) :
    (dictCalls hash {} calls).2 = (mapCalls (fun _ => none) calls).2 ∧
      ∀ key, dictFind hash (dictCalls hash {} calls).1 key =
        ((mapCalls (fun _ => none) calls).1 key).map (Prod.mk key) := by
  obtain ⟨hresults, hholds⟩ := dictCalls_spec (.empty : Mapped hash _ _) calls
  exact ⟨hresults, dictFind_eq hholds⟩

end Runs

section Iteration
variable {κ α : Type} {hash : κ → Nat} {ht : dict κ α} {m : κ → Option α} {iter : dictIterator κ α}

def ahead (ht : dict κ α) (iter : dictIterator κ α) : List (κ × α) :=
  (if iter.entry then iter.nextEntry else []) ++ (ht.table.drop (iter.index + 1).toNat).flatten

/-- Where the iterator can be: the entries that come next in its chain have that place. -/
structure Points (hash : κ → Nat) (ht : dict κ α) (iter : dictIterator κ α) : Prop where
  low : -1 ≤ iter.index
  chain : iter.entry = true → 0 ≤ iter.index ∧
    ∀ e ∈ iter.nextEntry, (masked hash ht.size e.1 : Int) = iter.index

theorem nextChain_nil {table : Table κ α} (h : table.flatten = []) (index : Int) :
    (nextChain table index).2 = none := by
  induction table generalizing index with
  | nil => rfl
  | cons chain table ih =>
    rw [List.flatten_cons, List.append_eq_nil_iff] at h
    obtain ⟨rfl, hrest⟩ := h
    exact ih hrest (index + 1)

theorem nextChain_cons {table : Table κ α} {e : κ × α} {rest : List (κ × α)}
    (h : table.flatten = e :: rest) (index : Int) :
    ∃ chain, ∃ n : Nat, nextChain table index = (⟨index + n, true, chain⟩, some e) ∧
      rest = chain ++ (table.drop (n + 1)).flatten ∧ table[n]? = some (e :: chain) := by
  induction table generalizing index with
  | nil => cases h
  | cons chain table ih =>
    cases chain with
    | nil =>
      obtain ⟨chain, n, hnext, hrest, hn⟩ := ih h (index + 1)
      refine ⟨chain, n + 1, ?_, hrest, hn⟩
      rw [nextChain, hnext]
      push_cast
      rw [Int.add_assoc, Int.add_comm 1]
    | cons x chain =>
      rw [List.flatten_cons, List.cons_append] at h
      cases h
      exact ⟨chain, 0, by rw [nextChain]; simp, rfl, rfl⟩

/-- The next entry is the first one that the iterator has not come to. -/
theorem dictNext_cons (hproper : ht.Proper hash) (hat : Points hash ht iter) {e : κ × α}
    {rest : List (κ × α)} (h : ahead ht iter = e :: rest) :
    ∃ iter', dictNext ht iter = (iter', some e) ∧ ahead ht iter' = rest ∧ Points hash ht iter' ∧
      iter'.entry = true ∧ (masked hash ht.size e.1 : Int) = iter'.index := by
  have hscan : (ht.table.drop (iter.index + 1).toNat).flatten = e :: rest →
      ∃ iter', nextChain (ht.table.drop (iter.index + 1).toNat) (iter.index + 1) = (iter', some e) ∧
        ahead ht iter' = rest ∧ Points hash ht iter' ∧ iter'.entry = true ∧
        (masked hash ht.size e.1 : Int) = iter'.index := by
    intro hflat
    have hlow := hat.low
    obtain ⟨chain, n, hnext, rfl, hn⟩ := nextChain_cons hflat (iter.index + 1)
    have hindex : iter.index + 1 + n = ((iter.index + 1).toNat + n : Nat) := by omega
    rw [List.getElem?_drop] at hn
    have hplace : ∀ x ∈ e :: chain,
        (masked hash ht.size x.1 : Int) = iter.index + 1 + n := by
      intro x hx
      rw [hindex, hproper.placed _ x (by rw [List.getD_eq_getElem?_getD, hn]; exact hx)]
    refine ⟨_, hnext, ?_, ⟨by dsimp only; omega, fun _ => ⟨by dsimp only; omega, fun x hx => ?_⟩⟩, rfl,
      hplace e List.mem_cons_self⟩
    · rw [ahead, if_pos rfl, List.drop_drop]
      congr 3
      dsimp only
      omega
    · exact hplace x (List.mem_cons_of_mem e hx)
  rw [dictNext]
  cases hentry : iter.entry with
  | false =>
    rw [ahead, hentry, if_neg Bool.false_ne_true] at h
    exact hscan h
  | true =>
    rw [ahead, if_pos hentry] at h
    cases hchain : iter.nextEntry with
    | nil =>
      rw [hchain] at h
      exact hscan h
    | cons x chain =>
      rw [hchain, List.cons_append] at h
      cases h
      obtain ⟨hpos, hplace⟩ := hat.chain hentry
      rw [hchain] at hplace
      refine ⟨_, rfl, ?_, ⟨hat.low, fun _ => ⟨hpos, fun y hy => ?_⟩⟩, rfl, ?_⟩
      · rw [ahead, if_pos rfl]
      · exact hplace y (List.mem_cons_of_mem _ hy)
      · exact hplace _ List.mem_cons_self

theorem dictNext_nil (h : ahead ht iter = []) : (dictNext ht iter).2 = none := by
  rw [ahead, List.append_eq_nil_iff] at h
  obtain ⟨hchain, hflat⟩ := h
  rw [dictNext]
  cases hentry : iter.entry with
  | false => exact nextChain_nil hflat _
  | true =>
    rw [if_pos hentry] at hchain
    rw [hchain]
    exact nextChain_nil hflat _

variable [DecidableEq κ]

/-- A loop over all entries that deletes some of them, and what it has come to. -/
def sweep (hash : κ → Nat) (p : κ × α → Bool) :
    Nat → dict κ α → dictIterator κ α → List (κ × α) → Option (dict κ α × List (κ × α))
  | 0, _, _, _ => none
  | n + 1, ht, iter, seen =>
    match dictNext ht iter with
    | (_, none) => some (ht, seen)
    | (iter, some e) =>
      sweep hash p n (if p e then (dictDelete hash ht e.1).1 else ht) iter (seen ++ [e])

/-- The entry that the iterator has returned may be deleted. -/
theorem ahead_delete {e : κ × α} (hplace : (masked hash ht.size e.1 : Int) = iter.index) :
    ahead (dictDelete hash ht e.1).1 iter = ahead ht iter ∧
      (dictDelete hash ht e.1).1.size = ht.size := by
  rw [dictDelete]
  split
  · exact ⟨rfl, rfl⟩
  · next hsize =>
    split
    · exact ⟨rfl, rfl⟩
    · refine ⟨?_, List.length_modify _ _ _⟩
      obtain ⟨t₁, t₂, ht', hlen, hmodify⟩ :=
        exists_modify (masked_lt hash (Nat.pos_of_ne_zero hsize) e.1)
      have hnext : (iter.index + 1).toNat = t₁.length + 1 := by omega
      have hdrop : ∀ b, (t₁ ++ b :: t₂).drop (t₁.length + 1) = t₂ := by simp
      rw [ahead, ahead, hnext, erase, hmodify, hdrop]
      conv => rhs; rw [ht', hdrop]

omit [DecidableEq κ] in
theorem Points.of_size {ht' : dict κ α} (hat : Points hash ht iter) (hsize : ht'.size = ht.size) :
    Points hash ht' iter := by
  refine ⟨hat.low, fun hentry => ?_⟩
  rw [hsize]
  exact hat.chain hentry

/-- What is left of a map by a loop that has these entries before it. -/
def without (p : κ × α → Bool) (m : κ → Option α) (rest : List (κ × α)) (key : κ) : Option α :=
  if rest.any fun e => e.1 = key && p e then none else m key

theorem without_cons {p : κ × α → Bool} {e : κ × α} {rest : List (κ × α)} :
    without p m (e :: rest) = without p (if p e then Function.update m e.1 none else m) rest := by
  funext key
  rw [without, without, List.any_cons]
  by_cases hp : p e = true
  · rw [if_pos hp, hp, Bool.and_true]
    by_cases hkey : e.1 = key
    · subst hkey
      simp
    · rw [Function.update_of_ne (Ne.symm hkey), decide_eq_false hkey, Bool.false_or]
  · rw [if_neg hp, Bool.eq_false_iff.mpr hp, Bool.and_false, Bool.false_or]

/-- What the map has of the entries that stay. -/
theorem without_all (h : Mapped hash ht m) (p : κ × α → Bool) :
    without p m ht.table.flatten = fun key => (m key).filter fun val => ! p (key, val) := by
  funext key
  rw [without]
  cases hm : m key with
  | none => simp
  | some val =>
    have hany : (ht.table.flatten.any fun e => e.1 = key && p e) = p (key, val) := by
      rw [Bool.eq_iff_iff, List.any_eq_true]
      constructor
      · rintro ⟨e, he, hpe⟩
        obtain ⟨hkey, hp⟩ := Bool.and_eq_true_iff.mp hpe
        obtain rfl : e.1 = key := of_decide_eq_true hkey
        rw [(h.entries e).mp he, Option.some.injEq] at hm
        rwa [← hm]
      · intro hp
        exact ⟨(key, val), (h.entries _).mpr hm, by simpa using hp⟩
    rw [hany, Option.filter_some]
    cases p (key, val) <;> rfl

theorem sweep_ahead {p : κ × α → Bool} {rest : List (κ × α)} {n : Nat} (seen : List (κ × α))
    (h : Mapped hash ht m) (hat : Points hash ht iter) (hrest : ahead ht iter = rest)
    (hnodup : (rest.map Prod.fst).Nodup) (hmem : ∀ e ∈ rest, m e.1 = some e.2)
    (hn : rest.length < n) :
    ∃ ht', sweep hash p n ht iter seen = some (ht', seen ++ rest) ∧
      Mapped hash ht' (without p m rest) := by
  induction rest generalizing ht iter m n seen with
  | nil =>
    cases n with
    | zero => omega
    | succ n =>
      refine ⟨ht, ?_, h⟩
      have hnone := dictNext_nil hrest
      rw [sweep]
      generalize dictNext ht iter = r at hnone ⊢
      obtain ⟨iter', e⟩ := r
      obtain rfl : e = none := hnone
      rw [List.append_nil]
  | cons e rest ih =>
    cases n with
    | zero => omega
    | succ n =>
      obtain ⟨iter', hnext, hrest', hat', hentry, hplace⟩ := dictNext_cons h.toProper hat hrest
      obtain ⟨hnot, hnodup'⟩ := List.nodup_cons.mp hnodup
      have hother : ∀ x ∈ rest, x.1 ≠ e.1 := fun x hx hkey =>
        hnot (hkey ▸ List.mem_map_of_mem hx)
      have hlen : rest.length < n := by
        rw [List.length_cons] at hn
        omega
      rw [sweep, hnext]
      dsimp only
      by_cases hp : p e
      · obtain ⟨ht₁, hdelete, h₁⟩ := dictDelete_spec h e.1
        obtain ⟨hahead, hsize⟩ := ahead_delete hplace
        rw [hdelete] at hahead hsize
        obtain ⟨ht', hsweep, h'⟩ := ih (seen ++ [e]) h₁ (hat'.of_size hsize)
          (hahead.trans hrest') hnodup' (fun x hx => by
            rw [Function.update_of_ne (hother x hx)]
            exact hmem x (List.mem_cons_of_mem e hx)) hlen
        refine ⟨ht', ?_, ?_⟩
        · rw [if_pos hp, hdelete, hsweep, List.append_assoc, List.singleton_append]
        · rwa [without_cons, if_pos hp]
      · obtain ⟨ht', hsweep, h'⟩ := ih (seen ++ [e]) h hat' hrest' hnodup'
          (fun x hx => hmem x (List.mem_cons_of_mem e hx)) hlen
        refine ⟨ht', ?_, ?_⟩
        · rw [if_neg hp, hsweep, List.append_assoc, List.singleton_append]
        · rwa [without_cons, if_neg hp]

/-- A loop with an iterator comes to every entry once, also where it deletes the entries that the
iterator has returned; the others are left. -/
theorem sweep_spec (h : Mapped hash ht m) (p : κ × α → Bool) :
    ∃ ht', sweep hash p (ht.used + 1) ht {} [] = some (ht', ht.table.flatten) ∧
      Mapped hash ht' fun key => (m key).filter fun val => ! p (key, val) := by
  have hstart : ahead ht {} = ht.table.flatten := rfl
  have hat : Points hash ht {} := ⟨Int.le_refl _, fun h => absurd h Bool.false_ne_true⟩
  have hlen : ht.table.flatten.length < ht.used + 1 := by
    rw [h.used]
    exact Nat.lt_succ_self _
  obtain ⟨ht', hsweep, h'⟩ := sweep_ahead (p := p) [] h hat hstart h.nodup
    (fun e he => (h.entries e).mp he) hlen
  refine ⟨ht', hsweep, ?_⟩
  rwa [← without_all h p]

/-- The same for every dictionary that calls have made. -/
theorem dict_sweep (hash : κ → Nat) (calls : List (DictCall κ α)) (p : κ × α → Bool) :
    ∃ ht' seen, sweep hash p ((dictCalls hash {} calls).1.used + 1) (dictCalls hash {} calls).1 {} [] =
        some (ht', seen) ∧
      (seen.map Prod.fst).Nodup ∧ (∀ e, e ∈ seen ↔ (mapCalls (fun _ => none) calls).1 e.1 = some e.2) ∧
      ∀ key, dictFind hash ht' key =
        (((mapCalls (fun _ => none) calls).1 key).filter fun val => ! p (key, val)).map (Prod.mk key) := by
  obtain ⟨-, hholds⟩ := dictCalls_spec (.empty : Mapped hash _ _) calls
  obtain ⟨ht', hsweep, h'⟩ := sweep_spec hholds p
  exact ⟨ht', _, hsweep, hholds.nodup, hholds.entries, dictFind_eq h'⟩

end Iteration

end CppPrivate.Hiredis
