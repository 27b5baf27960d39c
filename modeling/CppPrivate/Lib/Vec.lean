import Mathlib.Algebra.Group.Int.Defs
import Mathlib.Algebra.Group.Nat.Defs
import Mathlib.Data.List.Basic

/-! A growable array with its storage. The elements are the first `size` cells; the cells behind
them are storage that was reserved and has no value unless something wrote to it. -/
namespace CppPrivate

structure Vec (α : Type*) where
  store : List (Option α)
  size : Nat
  le : size ≤ store.length
  live : ∀ i < size, ∃ a, store[i]? = some (some a)

namespace Vec
variable {α : Type*} {v : Vec α}

def empty : Vec α := ⟨[], 0, Nat.le_refl 0, fun _ h => absurd h (Nat.not_lt_zero _)⟩

theorem take_length (v : Vec α) : (v.store.take v.size).length = v.size := by
  rw [List.length_take, Nat.min_eq_left v.le]

/-- Cells are moved to larger storage if need be, elements only. -/
def reserve (v : Vec α) (n : Nat) : Vec α where
  store := if n ≤ v.store.length then v.store
    else v.store.take v.size ++ List.replicate (n - v.size) none
  size := v.size
  le := by
    have := v.le
    split
    · exact this
    · rw [List.length_append, take_length]
      omega
  live := by
    intro i hi
    split
    · exact v.live i hi
    · rw [List.getElem?_append_left (by rw [take_length]; exact hi), List.getElem?_take_of_lt hi]
      exact v.live i hi

/-- Elements are cut off, or appended with the value `a`. No more storage is taken than needed. -/
def resize (v : Vec α) (n : Nat) (a : α) : Vec α where
  store := if n ≤ v.size then v.store
    else v.store.take v.size ++ (List.replicate (n - v.size) (some a) ++ v.store.drop n)
  size := n
  le := by
    have := v.le
    split
    · omega
    · rw [List.length_append, take_length, List.length_append, List.length_replicate]
      omega
  live := by
    intro i hi
    split
    · exact v.live i (by omega)
    · by_cases hs : i < v.size
      · rw [List.getElem?_append_left (by rw [take_length]; exact hs), List.getElem?_take_of_lt hs]
        exact v.live i hs
      · refine ⟨a, ?_⟩
        rw [List.getElem?_append_right (by rw [take_length]; omega), take_length,
          List.getElem?_append_left (by rw [List.length_replicate]; omega),
          List.getElem?_replicate, if_pos (by omega)]

/-- A list with the cells from `pos` on replaced. -/
def overlay (l : List (Option α)) (pos : Nat) (src : List α) : List (Option α) :=
  l.take pos ++ (src.map some ++ l.drop (pos + src.length))

theorem length_overlay {l : List (Option α)} {pos : Nat} {src : List α}
    (h : pos + src.length ≤ l.length) : (overlay l pos src).length = l.length := by
  simp only [overlay, List.length_append, List.length_take, List.length_map, List.length_drop]
  omega

theorem getElem?_overlay {l : List (Option α)} {pos : Nat} {src : List α}
    (h : pos + src.length ≤ l.length) (i : Nat) : (overlay l pos src)[i]? =
      if pos ≤ i ∧ i < pos + src.length then (src[i - pos]?).map some else l[i]? := by
  have hpos : (l.take pos).length = pos := by
    rw [List.length_take]
    omega
  rw [overlay]
  by_cases hlt : i < pos
  · rw [if_neg (by omega), List.getElem?_append_left (by omega), List.getElem?_take_of_lt hlt]
  · rw [List.getElem?_append_right (by omega), hpos]
    by_cases hin : i < pos + src.length
    · rw [if_pos (by omega), List.getElem?_append_left (by rw [List.length_map]; omega),
        List.getElem?_map]
    · rw [if_neg (by omega), List.getElem?_append_right (by rw [List.length_map]; omega),
        List.length_map, List.getElem?_drop]
      congr 1
      omega

/-- `memcpy` into the storage; it has no result beyond it. -/
def memcpy (v : Vec α) (pos : Nat) (src : List α) : Option (Vec α) :=
  if h : pos + src.length ≤ v.store.length then
    some {
      store := overlay v.store pos src
      size := v.size
      le := by
        rw [length_overlay h]
        exact v.le
      live := by
        intro i hi
        rw [getElem?_overlay h]
        split
        · rename_i hin
          have hl : i - pos < src.length := by omega
          exact ⟨src[i - pos], by rw [List.getElem?_eq_getElem hl]; rfl⟩
        · exact v.live i hi }
  else none

/-- A copy has storage for the elements only. -/
def copy (v : Vec α) : Vec α where
  store := v.store.take v.size
  size := v.size
  le := Nat.le_of_eq (take_length v).symm
  live := by
    intro i hi
    rw [List.getElem?_take_of_lt hi]
    exact v.live i hi

/-- The elements of the vector are those of `l`. -/
def Holds (v : Vec α) (l : List α) : Prop := v.store.take v.size = l.map some

theorem Holds.size {l : List α} (h : v.Holds l) : v.size = l.length := by
  rw [← take_length v, h, List.length_map]

theorem holds_empty : (empty : Vec α).Holds [] := rfl

theorem Holds.reserve {l : List α} (h : v.Holds l) (n : Nat) : (v.reserve n).Holds l := by
  unfold Holds at h ⊢
  simp only [Vec.reserve]
  split
  · exact h
  · rw [List.take_append_of_le_length (Nat.le_of_eq (take_length v).symm), List.take_take,
      Nat.min_self, h]

theorem Holds.copy {l : List α} (h : v.Holds l) : v.copy.Holds l := by
  unfold Holds at h ⊢
  simp only [Vec.copy, List.take_take, Nat.min_self]
  exact h

/-- A vector that is enlarged, and written at its new end. -/
theorem Holds.append_behind {l : List α} (h : v.Holds l) (gap : Nat) (src : List α) (a : α) :
    ∃ w, (v.resize (l.length + gap + src.length) a).memcpy (l.length + gap) src = some w ∧
      w.Holds (l ++ List.replicate gap a ++ src) := by
  have hsize := h.size
  have hle : l.length + gap + src.length ≤
      (v.resize (l.length + gap + src.length) a).store.length := (v.resize _ a).le
  refine ⟨_, dif_pos hle, ?_⟩
  have htake : (v.resize (l.length + gap + src.length) a).store.take (l.length + gap) =
      (l ++ List.replicate gap a).map some := by
    rw [Holds] at h
    simp only [Vec.resize]
    rw [List.map_append, List.map_replicate]
    split
    · obtain rfl : gap = 0 := by omega
      rw [Nat.add_zero, ← hsize, h, List.replicate_zero, List.append_nil]
    · have hfill : gap ≤ l.length + gap + src.length - v.size := by omega
      rw [h, List.take_append, List.length_map, Nat.add_sub_cancel_left,
        List.take_of_length_le (by rw [List.length_map]; omega),
        List.take_append_of_le_length (by rw [List.length_replicate]; omega), List.take_replicate,
        Nat.min_eq_left hfill]
  have hlen : ((l ++ List.replicate gap a).map some ++ src.map some).length =
      l.length + gap + src.length := by
    simp only [List.length_append, List.length_map, List.length_replicate]
  change (overlay _ _ _).take (l.length + gap + src.length) = _
  rw [overlay, htake, ← List.append_assoc, List.take_append_of_le_length (Nat.le_of_eq hlen.symm),
    List.take_of_length_le (Nat.le_of_eq hlen), ← List.map_append]

/-- A vector that is enlarged by just what is then copied to its end. -/
theorem Holds.append {l : List α} (h : v.Holds l) (src : List α) (a : α) :
    ∃ w, (v.resize (l.length + src.length) a).memcpy l.length src = some w ∧ w.Holds (l ++ src) := by
  obtain ⟨w, hw, hheld⟩ := h.append_behind 0 src a
  rw [List.replicate_zero, List.append_nil] at hheld
  exact ⟨w, hw, hheld⟩

/-- What is where after a copy into the storage. -/
theorem of_memcpy {w : Vec α} {pos : Nat} {src : List α} (h : v.memcpy pos src = some w) :
    w.size = v.size ∧ w.store.length = v.store.length ∧ ∀ i, w.store[i]? =
      if pos ≤ i ∧ i < pos + src.length then (src[i - pos]?).map some else v.store[i]? := by
  rw [memcpy] at h
  split at h
  · rename_i hle
    cases h
    exact ⟨rfl, length_overlay hle, getElem?_overlay hle⟩
  · cases h

/-- A copy behind known cells makes the known cells longer. -/
theorem take_of_memcpy {w : Vec α} {l src : List α} (h : v.memcpy l.length src = some w)
    (hl : v.store.take l.length = l.map some) :
    w.store.take (l ++ src).length = (l ++ src).map some := by
  rw [memcpy] at h
  split at h
  · cases h
    have hlen : (l.map some ++ src.map some).length = (l ++ src).length := by simp
    simp only [overlay, hl]
    rw [← List.append_assoc, ← hlen, List.take_left, List.map_append]
  · cases h

end Vec
end CppPrivate
