import Mathlib.Data.List.Basic

/-! Lists under ordered keys, walked through by a pair of positions: one among the keys and one in
the list of that key. -/
namespace CppPrivate

abbrev Buckets (κ α : Type*) := List (κ × List α)

namespace Buckets
variable {κ α : Type*} {b : Buckets κ α} {key : κ} {l : List α} {a : α} {i j : Nat}

def values (b : Buckets κ α) : List α := b.flatMap Prod.snd

/-- The values from a pair of positions on. -/
def ahead (b : Buckets κ α) (i j : Nat) : List α :=
  match b.drop i with
  | [] => []
  | (_, l) :: rest => l.drop j ++ values rest

/-- A value is appended to the list of its key, which is made if there is none. -/
def insert [DecidableEq κ] [LT κ] [DecidableLT κ] (key : κ) (a : α) :
    Buckets κ α → Buckets κ α
  | [] => [(key, [a])]
  | (k, l) :: b =>
    if key = k then (k, l ++ [a]) :: b
    else if key < k then (key, [a]) :: (k, l) :: b
    else (k, l) :: insert key a b

theorem insert_perm [DecidableEq κ] [LT κ] [DecidableLT κ] (key : κ) (a : α) (b : Buckets κ α) :
    (values (insert key a b)).Perm (a :: values b) := by
  induction b with
  | nil => exact List.Perm.refl _
  | cons x b ih =>
    obtain ⟨k, l⟩ := x
    rw [insert]
    split
    · simp only [values, List.flatMap_cons, List.append_assoc, List.singleton_append]
      exact List.perm_middle
    · split
      · exact List.Perm.refl _
      · have hstep : (l ++ values (insert key a b)).Perm (l ++ a :: values b) := ih.append_left l
        exact hstep.trans List.perm_middle

/-- A list with one of its elements in the middle. -/
theorem exists_middle {β : Type*} {l : List β} {x : β} {n : Nat} (h : l[n]? = some x) :
    ∃ l₁ l₂, l = l₁ ++ x :: l₂ ∧ l₁.length = n := by
  obtain ⟨hn, rfl⟩ := List.getElem?_eq_some_iff.mp h
  refine ⟨l.take n, l.drop (n + 1), ?_, List.length_take_of_le (Nat.le_of_lt hn)⟩
  rw [← List.drop_eq_getElem_cons hn, List.take_append_drop]

/-- At the end of a list the walk goes on with the next one. -/
theorem ahead_next (hi : b[i]? = some (key, l)) (hj : l[j]? = none) :
    ahead b i j = ahead b (i + 1) 0 := by
  obtain ⟨b₁, b₂, rfl, rfl⟩ := exists_middle hi
  have hlen := List.getElem?_eq_none_iff.mp hj
  have hnext : ahead (b₁ ++ (key, l) :: b₂) (b₁.length + 1) 0 = values b₂ := by
    rw [ahead, List.drop_append, List.drop_of_length_le (Nat.le_succ _), Nat.add_sub_cancel_left,
      List.nil_append, List.drop_one, List.tail_cons]
    cases b₂ with
    | nil => rfl
    | cons x b₂ => rfl
  rw [hnext, ahead, List.drop_left]
  simp only
  rw [List.drop_eq_nil_of_le hlen, List.nil_append]

/-- The values before and behind the one that the walk has come to, and what is left of them when
that one is replaced or erased. -/
structure Around (b : Buckets κ α) (i j : Nat) (key : κ) (l : List α) (a : α)
    (pre post : List α) : Prop where
  values : values b = pre ++ a :: post
  ahead : ahead b i j = a :: post
  skip : Buckets.ahead b i (j + 1) = post
  set : ∀ a', Buckets.values (b.set i (key, l.set j a')) = pre ++ a' :: post
  ahead_set : ∀ a', Buckets.ahead (b.set i (key, l.set j a')) i (j + 1) = post
  erase : Buckets.values (b.set i (key, l.eraseIdx j)) = pre ++ post
  ahead_erase : Buckets.ahead (b.set i (key, l.eraseIdx j)) i j = post

theorem exists_around (hi : b[i]? = some (key, l)) (hj : l[j]? = some a) :
    ∃ pre post, Around b i j key l a pre post := by
  obtain ⟨b₁, b₂, rfl, rfl⟩ := exists_middle hi
  obtain ⟨l₁, l₂, rfl, rfl⟩ := exists_middle hj
  refine ⟨values b₁ ++ l₁, l₂ ++ values b₂, ?_, ?_, ?_, ?_, ?_, ?_, ?_⟩
  all_goals simp [values, Buckets.ahead, List.eraseIdx_append]

end Buckets
end CppPrivate
