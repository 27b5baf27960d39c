import Mathlib.Data.List.GetD
import Mathlib.Data.List.Nodup
import Mathlib.Data.List.Perm.Basic

/-! Tables of chained entries. An entry stands in the chain that has the place of its key. -/
namespace CppPrivate.HashTable

abbrev Table (κ α : Type*) := List (List (κ × α))

section Modify
variable {β : Type*} {t : List (List β)} {i : Nat} {f : List β → List β} {b l : List β}

/-- A chain that changes, in the middle of the others. -/
theorem exists_modify (hi : i < t.length) : ∃ t₁ t₂, t = t₁ ++ t.getD i [] :: t₂ ∧ t₁.length = i ∧
    ∀ f, t.modify i f = t₁ ++ f (t.getD i []) :: t₂ := by
  refine ⟨t.take i, t.drop (i + 1), ?_, List.length_take_of_le (Nat.le_of_lt hi), fun f => ?_⟩
  · rw [List.getD_eq_getElem _ _ hi, ← List.drop_eq_getElem_cons hi, List.take_append_drop]
  · rw [List.modify_eq_take_cons_drop hi, List.getD_eq_getElem _ _ hi]

theorem getD_modify (hi : i < t.length) (j : Nat) :
    (t.modify i f).getD j [] = if j = i then f (t.getD i []) else t.getD j [] := by
  rw [List.getD_eq_getElem?_getD, List.getElem?_modify]
  by_cases hj : j = i
  · subst hj
    simp [List.getElem?_eq_getElem hi]
  · simp [hj, Ne.symm hj, List.getD_eq_getElem?_getD]

theorem mem_flatten_iff {x : β} : x ∈ t.flatten ↔ ∃ i, x ∈ t.getD i [] := by
  rw [List.mem_flatten]
  constructor
  · rintro ⟨l, hl, hx⟩
    obtain ⟨i, hi, rfl⟩ := List.mem_iff_getElem.mp hl
    exact ⟨i, by rwa [List.getD_eq_getElem _ _ hi]⟩
  · rintro ⟨i, hx⟩
    by_cases hi : i < t.length
    · rw [List.getD_eq_getElem _ _ hi] at hx
      exact ⟨_, List.getElem_mem hi, hx⟩
    · rw [List.getD_eq_default _ _ (Nat.le_of_not_lt hi)] at hx
      cases hx

end Modify

variable {κ α : Type*} {place : κ → Nat} {t : Table κ α} {e : κ × α} {key : κ} {v : α}

/-- Each entry is in the chain of its key. -/
def Placed (place : κ → Nat) (t : Table κ α) : Prop := ∀ i, ∀ e ∈ t.getD i [], place e.1 = i

def push (place : κ → Nat) (t : Table κ α) (e : κ × α) : Table κ α := t.modify (place e.1) (e :: ·)

theorem placed_replicate (n : Nat) : Placed place (List.replicate n [] : Table κ α) := by
  intro i e he
  rw [List.getD_eq_getElem?_getD, List.getElem?_replicate] at he
  split at he <;> cases he

/-- A chain is changed, and all that is in it then has its place. -/
theorem Placed.modify (h : Placed place t) {i : Nat} {f : List (κ × α) → List (κ × α)}
    (hi : i < t.length) (hf : ∀ e ∈ f (t.getD i []), place e.1 = i) : Placed place (t.modify i f) := by
  intro j e he
  rw [getD_modify hi] at he
  split at he
  · next hj =>
    rw [hj]
    exact hf e he
  · exact h j e he

theorem Placed.push (h : Placed place t) (hlt : place e.1 < t.length) :
    Placed place (push place t e) := by
  refine h.modify hlt fun e' he' => ?_
  rcases List.mem_cons.mp he' with rfl | hmem
  · rfl
  · exact h _ _ hmem

theorem push_perm (hlt : place e.1 < t.length) :
    (push place t e).flatten.Perm (e :: t.flatten) := by
  obtain ⟨t₁, t₂, ht, -, hmodify⟩ := exists_modify hlt
  rw [push, hmodify]
  conv => rhs; rw [ht]
  simp only [List.flatten_append, List.flatten_cons, List.cons_append]
  exact List.perm_middle

def rehash (place : κ → Nat) (n : Nat) (entries : List (κ × α)) : Table κ α :=
  entries.foldl (push place) (List.replicate n [])

theorem foldl_push {n : Nat} (hplace : ∀ k, place k < n) (entries : List (κ × α)) (hlen : t.length = n)
    (h : Placed place t) :
    (entries.foldl (push place) t).length = n ∧ Placed place (entries.foldl (push place) t) ∧
      (entries.foldl (push place) t).flatten.Perm (entries ++ t.flatten) := by
  induction entries generalizing t with
  | nil => exact ⟨hlen, h, .refl _⟩
  | cons e entries ih =>
    have hlt : place e.1 < t.length := hlen ▸ hplace e.1
    obtain ⟨hlen', hplaced, hperm⟩ := ih (t := push place t e)
      (by rw [push, List.length_modify, hlen]) (h.push hlt)
    refine ⟨hlen', hplaced, hperm.trans ?_⟩
    exact (List.Perm.append_left entries (push_perm hlt)).trans List.perm_middle

theorem rehash_spec {n : Nat} (hplace : ∀ k, place k < n) (entries : List (κ × α)) :
    (rehash place n entries).length = n ∧ Placed place (rehash place n entries) ∧
      (rehash place n entries).flatten.Perm entries := by
  obtain ⟨hlen, hplaced, hperm⟩ := foldl_push hplace entries
    (List.length_replicate (a := ([] : List (κ × α)))) (placed_replicate n)
  refine ⟨hlen, hplaced, ?_⟩
  rwa [List.flatten_replicate_nil, List.append_nil] at hperm

variable [DecidableEq κ]

def find (place : κ → Nat) (t : Table κ α) (key : κ) : Option (κ × α) :=
  (t.getD (place key) []).find? (·.1 = key)

def erase (place : κ → Nat) (t : Table κ α) (key : κ) : Table κ α :=
  t.modify (place key) (List.eraseP (·.1 = key))

def setFirst (key : κ) (v : α) : List (κ × α) → List (κ × α)
  | [] => []
  | e :: l => if e.1 = key then (e.1, v) :: l else e :: setFirst key v l

def setValue (place : κ → Nat) (t : Table κ α) (key : κ) (v : α) : Table κ α :=
  t.modify (place key) (setFirst key v)

theorem Placed.erase (h : Placed place t) (hlt : place key < t.length) :
    Placed place (erase place t key) :=
  h.modify hlt fun _ he => h _ _ (List.mem_of_mem_eraseP he)

theorem mem_setFirst {l : List (κ × α)} (h : e ∈ setFirst key v l) :
    e ∈ l ∨ e.1 = key := by
  induction l with
  | nil => cases h
  | cons x l ih =>
    rw [setFirst] at h
    split at h
    · next hx =>
      rcases List.mem_cons.mp h with rfl | hmem
      · exact .inr hx
      · exact .inl (List.mem_cons_of_mem x hmem)
    · rcases List.mem_cons.mp h with rfl | hmem
      · exact .inl List.mem_cons_self
      · exact (ih hmem).imp_left (List.mem_cons_of_mem x)

theorem Placed.setValue (h : Placed place t) (hlt : place key < t.length) :
    Placed place (setValue place t key v) := by
  refine h.modify hlt fun e' he' => ?_
  rcases mem_setFirst he' with hmem | hkey
  · exact h _ _ hmem
  · rw [hkey]

/-- What is found is the entry of the key, if there is one. -/
theorem find_some_iff (h : Placed place t) (hnodup : (t.flatten.map Prod.fst).Nodup) :
    find place t key = some e ↔ e ∈ t.flatten ∧ e.1 = key := by
  constructor
  · intro hfind
    exact ⟨mem_flatten_iff.mpr ⟨_, List.mem_of_find?_eq_some hfind⟩, by
      simpa using List.find?_some hfind⟩
  · rintro ⟨hmem, rfl⟩
    obtain ⟨i, hi⟩ := mem_flatten_iff.mp hmem
    obtain rfl := h i e hi
    cases hfind : find place t e.1 with
    | none =>
      have hne := List.find?_eq_none.mp hfind e hi
      simp at hne
    | some e' =>
      have hmem' : e' ∈ t.flatten := mem_flatten_iff.mpr ⟨_, List.mem_of_find?_eq_some hfind⟩
      have hkey : e'.1 = e.1 := by simpa using List.find?_some hfind
      rw [List.inj_on_of_nodup_map hnodup hmem' hmem hkey]

theorem find_none_iff (h : Placed place t) :
    find place t key = none ↔ key ∉ t.flatten.map Prod.fst := by
  rw [find, List.find?_eq_none, List.mem_map]
  constructor
  · rintro hnone ⟨e, he, rfl⟩
    obtain ⟨i, hi⟩ := mem_flatten_iff.mp he
    obtain rfl := h i e hi
    simpa using hnone e hi
  · intro hnot e he
    simp only [decide_eq_true_eq]
    rintro rfl
    exact hnot ⟨e, mem_flatten_iff.mpr ⟨_, he⟩, rfl⟩

theorem eraseP_perm {l : List (κ × α)} (h : l.find? (·.1 = key) = some e) :
    l.Perm (e :: l.eraseP (·.1 = key)) := by
  induction l with
  | nil => cases h
  | cons x l ih =>
    by_cases hx : x.1 = key
    · rw [List.find?_cons_of_pos (by simpa using hx)] at h
      cases h
      rw [List.eraseP_cons_of_pos (by simpa using hx)]
    · rw [List.find?_cons_of_neg (by simpa using hx)] at h
      rw [List.eraseP_cons_of_neg (by simpa using hx)]
      exact ((ih h).cons x).trans (List.Perm.swap e x _)

theorem erase_perm (hlt : place key < t.length) (h : find place t key = some e) :
    t.flatten.Perm (e :: (erase place t key).flatten) := by
  obtain ⟨t₁, t₂, ht, -, hmodify⟩ := exists_modify hlt
  rw [erase, hmodify]
  conv => lhs; rw [ht]
  simp only [List.flatten_append, List.flatten_cons]
  refine (List.Perm.append_left _ ((eraseP_perm h).append_right _)).trans ?_
  exact List.perm_middle

theorem setFirst_perm {l : List (κ × α)} (h : l.find? (·.1 = key) = some e) :
    (setFirst key v l).Perm ((key, v) :: l.eraseP (·.1 = key)) := by
  induction l with
  | nil => cases h
  | cons x l ih =>
    by_cases hx : x.1 = key
    · rw [setFirst, if_pos hx, List.eraseP_cons_of_pos (by simpa using hx), hx]
    · rw [List.find?_cons_of_neg (by simpa using hx)] at h
      rw [setFirst, if_neg hx, List.eraseP_cons_of_neg (by simpa using hx)]
      exact ((ih h).cons x).trans (List.Perm.swap _ x _)

theorem setValue_perm (hlt : place key < t.length) (h : find place t key = some e) :
    (setValue place t key v).flatten.Perm ((key, v) :: (erase place t key).flatten) := by
  obtain ⟨t₁, t₂, -, -, hmodify⟩ := exists_modify hlt
  rw [setValue, erase, hmodify, hmodify]
  simp only [List.flatten_append, List.flatten_cons]
  refine (List.Perm.append_left _ ((setFirst_perm h).append_right _)).trans ?_
  exact List.perm_middle

end CppPrivate.HashTable
