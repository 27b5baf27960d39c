import Mathlib
import CppPrivate.Lib.Shards

/-! A store of values by keys. What a list of operations does to it comes out the same when the list
is split by classes of keys, and one class is done after the other. -/
namespace CppPrivate.KeyStore
open Shards

variable {κ ν α : Type*} [DecidableEq κ]

abbrev Store (κ ν : Type*) := κ → Option ν

def put (s : Store κ ν) (p : κ × ν) : Store κ ν := fun k => if k = p.1 then some p.2 else s k

def remove (s : Store κ ν × Nat) (k : κ) : Store κ ν × Nat :=
  (fun k' => if k' = k then none else s.1 k', s.2 + if (s.1 k).isSome then 1 else 0)

section Put
variable {s : Store κ ν} {ps : List (κ × ν)} {f : κ → Nat} {n : Nat}

/-- The last value that is put under a key stays. -/
theorem foldl_put_apply (k : κ) : ps.foldl put s k =
    ((ps.filter fun p => p.1 = k).getLast?.map Prod.snd).or (s k) := by
  induction ps generalizing s with
  | nil => simp
  | cons p ps ih =>
    rw [List.foldl_cons, ih, List.filter_cons]
    by_cases hk : p.1 = k
    · cases hrest : ps.filter fun p => p.1 = k with
      | nil => simp [hk, put]
      | cons q qs => simp [hk, List.getLast?_cons]
    · simp [hk, put, Ne.symm hk]

theorem foldl_put_shards (hf : ∀ p ∈ ps, f p.1 < n) :
    (shards (fun p => f p.1) n ps).foldl (fun s g => g.foldl put s) s = ps.foldl put s := by
  rw [← List.foldl_flatten]
  funext k
  rw [foldl_put_apply, foldl_put_apply]
  by_cases hk : f k < n
  · rw [filter_flatten (c := f k) (fun p hp => by simp at hp; rw [hp]) hk]
  · have hnone : ∀ l : List (κ × ν), (∀ p ∈ l, f p.1 < n) → (l.filter fun p => p.1 = k) = [] := by
      intro l hl
      refine List.filter_eq_nil_iff.mpr fun p hp heq => hk ?_
      rw [decide_eq_true_eq] at heq
      exact heq ▸ hl p hp
    rw [hnone ps hf, hnone _ fun p hp => hf p ((flatten_perm hf).mem_iff.mp hp)]

end Put

section Remove
variable {s : Store κ ν} {ks : List κ} {f : κ → Nat} {n c : Nat}

theorem remove_comm (s : Store κ ν × Nat) (k k' : κ) :
    remove (remove s k) k' = remove (remove s k') k := by
  refine Prod.ext ?_ ?_
  · funext x
    simp only [remove]
    split <;> split <;> rfl
  · simp only [remove]
    by_cases h : k = k'
    · rw [h]
    · simp only [if_neg h, if_neg (Ne.symm h)]
      omega

theorem foldl_remove_count (ks : List κ) (s : Store κ ν) (c : Nat) :
    ks.foldl remove (s, c) = ((ks.foldl remove (s, 0)).1, c + (ks.foldl remove (s, 0)).2) := by
  induction ks generalizing s c with
  | nil => rfl
  | cons k ks ih =>
    rw [List.foldl_cons, List.foldl_cons, remove, remove, ih, ih _ (0 + _)]
    simp [Nat.add_assoc]

theorem foldl_remove_shards (hf : ∀ k ∈ ks, f k < n) :
    (shards f n ks).foldl (fun s g => g.foldl remove s) (s, c) = ks.foldl remove (s, c) := by
  rw [← List.foldl_flatten]
  exact (flatten_perm hf).foldl_eq' (fun k _ k' _ s => remove_comm s k k') _

end Remove

theorem countP_shards {f : α → Nat} {n : Nat} {xs : List α} (hf : ∀ x ∈ xs, f x < n) (p : α → Bool) :
    ((shards f n xs).map (List.countP p)).sum = xs.countP p := by
  rw [← List.countP_flatten]
  exact (flatten_perm hf).countP_eq p

end CppPrivate.KeyStore
