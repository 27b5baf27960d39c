import Mathlib

/-! A list that is split by the class of its entries, a list for each class. -/
namespace CppPrivate.Shards

variable {α β : Type*} {f : α → Nat} {n k : Nat} {xs : List α} {x : α}

def shard (f : α → Nat) (xs : List α) (k : Nat) : List α := xs.filter fun x => f x = k

/-- The classes that are there, in the order of their numbers. -/
def classes (f : α → Nat) (n : Nat) (xs : List α) : List Nat :=
  (List.range n).filter fun k => !(shard f xs k).isEmpty

def shards (f : α → Nat) (n : Nat) (xs : List α) : List (List α) :=
  (classes f n xs).map (shard f xs)

theorem mem_shard : x ∈ shard f xs k ↔ x ∈ xs ∧ f x = k := by
  simp [shard]

theorem shard_append (ys : List α) : shard f (xs ++ ys) k = shard f xs k ++ shard f ys k := by
  simp [shard]

theorem shard_singleton : shard f [x] k = if f x = k then [x] else [] := by
  simp [shard, List.filter_singleton]

theorem mem_classes : k ∈ classes f n xs ↔ k < n ∧ ∃ x ∈ xs, f x = k := by
  simp [classes, shard]

theorem nodup_classes : (classes f n xs).Nodup := List.nodup_range.filter _

theorem length_classes_le : (classes f n xs).length ≤ xs.length := by
  have hsub : classes f n xs ⊆ xs.map f := by
    intro k hk
    obtain ⟨-, x, hx, rfl⟩ := mem_classes.mp hk
    exact List.mem_map_of_mem hx
  have hle := (List.subperm_of_subset nodup_classes hsub).length_le
  rwa [List.length_map] at hle

theorem classes_singleton {x : α} (h : f x < n) : classes f n [x] = [f x] := by
  refine List.perm_singleton.mp ?_
  refine (List.perm_ext_iff_of_nodup nodup_classes (by simp)).mpr fun k => ?_
  rw [mem_classes, List.mem_singleton]
  constructor
  · rintro ⟨-, y, hy, rfl⟩
    rw [List.mem_singleton.mp hy]
  · rintro rfl
    exact ⟨h, x, List.mem_singleton_self x, rfl⟩

theorem flatten_shards : (shards f n xs).flatten = (List.range n).flatMap (shard f xs) := by
  rw [shards, classes]
  induction List.range n with
  | nil => rfl
  | cons k ks ih =>
    rw [List.filter_cons, List.flatMap_cons]
    cases hk : shard f xs k with
    | nil => simpa using ih
    | cons y ys => simpa [hk] using ih

/-- Splitting loses nothing and doubles nothing. -/
theorem flatten_perm (h : ∀ x ∈ xs, f x < n) : (shards f n xs).flatten.Perm xs := by
  have hbelow : ∀ m, ((List.range m).flatMap (shard f xs)).Perm (xs.filter fun x => f x < m) := by
    intro m
    induction m with
    | zero => simp
    | succ m ih =>
      have hold : (xs.filter fun x => f x < m + 1).filter (fun x => f x < m) =
          xs.filter fun x => f x < m := by
        rw [List.filter_filter]
        exact List.filter_congr fun x _ => by grind
      have hnew : (xs.filter fun x => f x < m + 1).filter (fun x => !decide (f x < m)) =
          shard f xs m := by
        rw [List.filter_filter, shard]
        exact List.filter_congr fun x _ => by grind
      have hsplit := List.filter_append_perm (fun x => decide (f x < m))
        (xs.filter fun x => f x < m + 1)
      rw [hold, hnew] at hsplit
      rw [List.range_succ, List.flatMap_append, List.flatMap_singleton]
      exact (ih.append_right _).trans hsplit
  have hall := hbelow n
  rwa [List.filter_eq_self.mpr (by simpa using h), ← flatten_shards] at hall

theorem flatMap_range_single {c : Nat} (hc : c < n) (l : List β) :
    ((List.range n).flatMap fun k => if k = c then l else []) = l := by
  have hnone : ∀ m ≤ c, ((List.range m).flatMap fun k => if k = c then l else []) = [] := by
    intro m hm
    refine List.flatMap_eq_nil_iff.mpr fun k hk => if_neg ?_
    have hlt := List.mem_range.mp hk
    omega
  induction n with
  | zero => omega
  | succ n ih =>
    rw [List.range_succ, List.flatMap_append, List.flatMap_singleton]
    rcases Nat.lt_succ_iff_lt_or_eq.mp hc with hlt | rfl
    · rw [ih hlt, if_neg (by omega), List.append_nil]
    · rw [hnone c (Nat.le_refl c), if_pos rfl, List.nil_append]

/-- The entries of one class stay in their order. -/
theorem filter_flatten {p : α → Bool} {c : Nat} (hp : ∀ x, p x → f x = c) (hc : c < n) :
    (shards f n xs).flatten.filter p = xs.filter p := by
  have hshard : ∀ k, (shard f xs k).filter p = if k = c then xs.filter p else [] := by
    intro k
    rw [shard, List.filter_filter]
    split
    case isTrue h =>
      refine List.filter_congr fun x _ => ?_
      by_cases hx : p x
      · simp [hx, hp x hx, h]
      · simp [hx]
    case isFalse h =>
      refine List.filter_eq_nil_iff.mpr fun x _ hx => h ?_
      simp only [Bool.and_eq_true, decide_eq_true_eq] at hx
      rw [← hx.2, hp x hx.1]
  rw [flatten_shards, List.filter_flatMap]
  simp only [hshard]
  exact flatMap_range_single hc _

theorem shard_map {f : β → Nat} (g : α → β) (k : Nat) :
    shard f (xs.map g) k = (shard (fun x => f (g x)) xs k).map g := by
  rw [shard, shard, List.filter_map]
  rfl

theorem shards_map {f : β → Nat} (g : α → β) :
    shards f n (xs.map g) = (shards (fun x => f (g x)) n xs).map (List.map g) := by
  have hclasses : classes f n (xs.map g) = classes (fun x => f (g x)) n xs := by
    refine List.filter_congr fun k _ => ?_
    rw [shard_map]
    simp
  rw [shards, shards, hclasses, List.map_map]
  exact List.map_congr_left fun k _ => shard_map g k

/-- A list is made of its classes by any keys, each of which is taken once. -/
theorem perm_flatMap_filter {κ : Type*} [DecidableEq κ] (g : α → κ) {ks : List κ} {xs : List α}
    (hks : ks.Nodup) (h : ∀ x ∈ xs, g x ∈ ks) :
    (ks.flatMap fun k => xs.filter fun x => g x = k).Perm xs := by
  induction ks generalizing xs with
  | nil =>
    cases xs with
    | nil => exact .refl _
    | cons x xs => exact absurd (h x List.mem_cons_self) List.not_mem_nil
  | cons k ks ih =>
    obtain ⟨hk, hnodup⟩ := List.nodup_cons.mp hks
    have hrest : ∀ x ∈ xs.filter (fun x => !decide (g x = k)), g x ∈ ks := by
      intro x hx
      obtain ⟨hmem, hne⟩ := List.mem_filter.mp hx
      exact (List.mem_cons.mp (h x hmem)).resolve_left (by simpa using hne)
    have hclass : (ks.flatMap fun c => xs.filter fun x => g x = c) = ks.flatMap fun c =>
        (xs.filter fun x => !decide (g x = k)).filter fun x => g x = c := by
      refine List.flatMap_congr fun c hc => ?_
      rw [List.filter_filter]
      refine List.filter_congr fun x _ => ?_
      by_cases hx : g x = c
      · have hne : g x ≠ k := fun heq => hk (heq ▸ hx ▸ hc)
        subst hx
        simp [hne]
      · simp [hx]
    rw [List.flatMap_cons, hclass]
    exact ((ih hnodup hrest).append_left _).trans (List.filter_append_perm _ xs)

end CppPrivate.Shards
