import Mathlib

/-! A table whose places are taken range by range, no place twice. -/
namespace CppPrivate.Ranges

structure Range (α : Type*) where
  first : Nat
  last : Nat
  what : α

variable {α : Type*} {t t' : Nat → Option α} {rs rs' : List (Range α)} {r r' : Range α} {k : Nat}

/-- The places of `n` numbers from `k` on. -/
def fillFrom (a : α) : Nat → Nat → (Nat → Option α) → Option (Nat → Option α)
  | 0, _, t => some t
  | n + 1, k, t => if (t k).isSome then none else fillFrom a n (k + 1) (Function.update t k (some a))

def fillRange (r : Range α) : (Nat → Option α) → Option (Nat → Option α) :=
  fillFrom r.what (r.last + 1 - r.first) r.first

def fill : List (Range α) → (Nat → Option α) → Option (Nat → Option α)
  | [], t => some t
  | r :: rs, t => (fillRange r t).bind (fill rs)

def Has (r : Range α) (k : Nat) : Prop := r.first ≤ k ∧ k ≤ r.last

instance (r : Range α) (k : Nat) : Decidable (Has r k) := inferInstanceAs (Decidable (_ ∧ _))

/-- No place is in both. -/
def Apart (r r' : Range α) : Prop := ∀ k, Has r k → ¬ Has r' k

theorem Apart.symm (h : Apart r r') : Apart r' r := fun k hk' hk => h k hk hk'

theorem apart_iff : Apart r r' ↔
    r.last < r.first ∨ r'.last < r'.first ∨ r.last < r'.first ∨ r'.last < r.first := by
  constructor
  · intro h
    by_contra hmeet
    have hhas : Has r (max r.first r'.first) ∧ Has r' (max r.first r'.first) := by
      rw [Has, Has]
      omega
    exact h _ hhas.1 hhas.2
  · intro h k hk hk'
    rw [Has] at hk hk'
    omega

instance (r r' : Range α) : Decidable (Apart r r') := decidable_of_iff _ apart_iff.symm

/-- What a place is given by the first range that has it. -/
def owner (rs : List (Range α)) (k : Nat) : Option α :=
  (rs.find? fun r => Has r k).map Range.what

theorem owner_nil : owner ([] : List (Range α)) k = none := rfl

theorem owner_cons : owner (r :: rs) k = if Has r k then some r.what else owner rs k := by
  by_cases h : Has r k
  · rw [owner, List.find?_cons_of_pos (by simpa using h), if_pos h, Option.map_some]
  · rw [owner, List.find?_cons_of_neg (by simpa using h), if_neg h, owner]

theorem owner_eq_none (h : ∀ r ∈ rs, ¬ Has r k) : owner rs k = none := by
  rw [owner, List.find?_eq_none.mpr fun r hr => by simpa using h r hr, Option.map_none]

/-- Where no two ranges meet, a place has what the range it is in has. -/
theorem owner_some (hpair : rs.Pairwise Apart) {a : α} :
    owner rs k = some a ↔ ∃ r ∈ rs, Has r k ∧ r.what = a := by
  induction rs with
  | nil => simp [owner_nil]
  | cons r rs ih =>
    obtain ⟨hapart, hrest⟩ := List.pairwise_cons.mp hpair
    rw [owner_cons, List.exists_mem_cons_iff]
    by_cases hk : Has r k
    · rw [if_pos hk, Option.some.injEq]
      constructor
      · exact fun h => .inl ⟨hk, h⟩
      · rintro (⟨-, h⟩ | ⟨r', hr', hk', -⟩)
        · exact h
        · exact absurd hk' (hapart r' hr' k hk)
    · rw [if_neg hk, ih hrest]
      exact (or_iff_right fun h => hk h.1).symm

theorem fillFrom_some {a : α} {n : Nat} : fillFrom a n k t = some t' ↔
    (∀ j, k ≤ j → j < k + n → t j = none) ∧
      t' = fun j => if k ≤ j ∧ j < k + n then some a else t j := by
  induction n generalizing k t with
  | zero =>
    rw [fillFrom, Option.some.injEq]
    constructor
    · rintro rfl
      refine ⟨fun j hj hlt => absurd hlt (by omega), ?_⟩
      funext j
      rw [if_neg (by omega)]
    · rintro ⟨-, rfl⟩
      funext j
      rw [if_neg (by omega)]
  | succ n ih =>
    rw [fillFrom]
    cases htk : t k with
    | some b =>
      rw [if_pos (by rfl)]
      refine iff_of_false nofun fun h => ?_
      rw [h.1 k (Nat.le_refl k) (by omega)] at htk
      cases htk
    | none =>
      rw [if_neg (by simp), ih]
      have hfill : (fun j => if k + 1 ≤ j ∧ j < k + 1 + n then some a
          else Function.update t k (some a) j) =
          fun j => if k ≤ j ∧ j < k + (n + 1) then some a else t j := by
        funext j
        by_cases hj : j = k
        · subst hj
          rw [if_neg (by omega), Function.update_self, if_pos (by omega)]
        · rw [Function.update_of_ne hj]
          exact if_congr (by omega) rfl rfl
      rw [hfill]
      refine and_congr_left fun _ => ⟨fun h j hj hlt => ?_, fun h j hj hlt => ?_⟩
      · by_cases hjk : j = k
        · rw [hjk, htk]
        · have hnone := h j (by omega) (by omega)
          rwa [Function.update_of_ne hjk] at hnone
      · rw [Function.update_of_ne (by omega)]
        exact h j (by omega) (by omega)

theorem fillRange_some : fillRange r t = some t' ↔
    (∀ k, Has r k → t k = none) ∧ t' = fun k => if Has r k then some r.what else t k := by
  have hhas : ∀ j, r.first ≤ j ∧ j < r.first + (r.last + 1 - r.first) ↔ Has r j := by
    intro j
    rw [Has]
    omega
  rw [fillRange, fillFrom_some]
  refine and_congr ⟨fun h k hk => ?_, fun h k hk hlt => ?_⟩ ?_
  · obtain ⟨hle, hlt⟩ := (hhas k).mpr hk
    exact h k hle hlt
  · exact h k ((hhas k).mp ⟨hk, hlt⟩)
  · simp only [hhas]

theorem fill_cons (h : ∀ r' ∈ rs, Apart r r') :
    (fun k => (owner rs k).or (if Has r k then some r.what else t k)) =
      fun k => (owner (r :: rs) k).or (t k) := by
  funext k
  rw [owner_cons]
  by_cases hk : Has r k
  · rw [if_pos hk, if_pos hk, owner_eq_none fun r' hr' => h r' hr' k hk, Option.none_or,
      Option.some_or]
  · rw [if_neg hk, if_neg hk]

/-- The ranges can be filled in if no two of them meet, and none of their places was taken. -/
theorem fill_some : fill rs t = some t' ↔
    (rs.Pairwise Apart ∧ ∀ r ∈ rs, ∀ k, Has r k → t k = none) ∧
      t' = fun k => (owner rs k).or (t k) := by
  induction rs generalizing t with
  | nil => simp [fill, owner_nil, eq_comm]
  | cons r rs ih =>
    rw [fill, Option.bind_eq_some_iff, List.pairwise_cons, List.forall_mem_cons]
    constructor
    · rintro ⟨t₁, hfirst, hrest⟩
      obtain ⟨hfree, rfl⟩ := fillRange_some.mp hfirst
      obtain ⟨⟨hpair, hfrees⟩, rfl⟩ := ih.mp hrest
      have hapart : ∀ r' ∈ rs, Apart r r' := by
        intro r' hr' k hk hk'
        have hnone := hfrees r' hr' k hk'
        rw [if_pos hk] at hnone
        cases hnone
      refine ⟨⟨⟨hapart, hpair⟩, hfree, fun r' hr' k hk => ?_⟩, fill_cons hapart⟩
      have hnone := hfrees r' hr' k hk
      rwa [if_neg fun hrk => hapart r' hr' k hrk hk] at hnone
    · rintro ⟨⟨⟨hapart, hpair⟩, hfree, hfrees⟩, rfl⟩
      refine ⟨_, fillRange_some.mpr ⟨hfree, rfl⟩, ih.mpr ⟨⟨hpair, fun r' hr' k hk => ?_⟩, ?_⟩⟩
      · rw [if_neg fun hrk => hapart r' hr' k hrk hk]
        exact hfrees r' hr' k hk
      · exact (fill_cons hapart).symm

/-- The order of the ranges does not matter. -/
theorem owner_perm (hpair : rs.Pairwise Apart) (h : rs.Perm rs') : owner rs k = owner rs' k := by
  induction h with
  | nil => rfl
  | cons r _ ih => rw [owner_cons, owner_cons, ih (List.pairwise_cons.mp hpair).2]
  | swap r r' rs =>
    have hapart := (List.pairwise_cons.mp hpair).1 r List.mem_cons_self
    rw [owner_cons, owner_cons, owner_cons, owner_cons]
    by_cases hk : Has r' k
    · rw [if_pos hk, if_neg (hapart k hk), if_pos hk]
    · rw [if_neg hk, if_neg hk]
  | trans h _ ih ih' =>
    rw [ih hpair, ih' (hpair.perm h fun {_ _} => Apart.symm)]

theorem fill_perm (h : rs.Perm rs') : fill rs t = fill rs' t := by
  refine Option.ext fun t' => ?_
  rw [fill_some, fill_some]
  constructor
  · rintro ⟨⟨hpair, hfree⟩, rfl⟩
    refine ⟨⟨hpair.perm h fun {_ _} => Apart.symm, fun r hr => hfree r (h.mem_iff.mpr hr)⟩, ?_⟩
    funext k
    rw [owner_perm hpair h]
  · rintro ⟨⟨hpair, hfree⟩, rfl⟩
    refine ⟨⟨hpair.perm h.symm fun {_ _} => Apart.symm, fun r hr => hfree r (h.mem_iff.mp hr)⟩, ?_⟩
    funext k
    rw [owner_perm hpair h.symm]

end CppPrivate.Ranges
