import CppPrivate.Lib.Heap
import CppPrivate.Lib.Machine

/-! A vector of slots that own objects of a heap: no slot points to a deleted object, and no object
is in two slots. -/
namespace CppPrivate
variable {α : Type*} {h : Heap α} {v w : List (Option Nat)} {n p : Nat}

structure Heap.Owned (h : Heap α) (v : List (Option Nat)) : Prop where
  live : ∀ n p : Nat, v[n]? = some (some p) → ∃ a, h.cell p = some a
  once : ∀ m n p : Nat, v[m]? = some (some p) → v[n]? = some (some p) → m = n

namespace Heap.Owned

theorem of_empty (hv : ∀ x ∈ v, x = none) : h.Owned v where
  live := by
    intro n p hp
    cases hv _ (List.mem_of_getElem? hp)
  once := by
    intro m n p hp
    cases hv _ (List.mem_of_getElem? hp)

/-- Slots may go, and empty ones may come. -/
theorem of_slots (ho : h.Owned v)
    (hw : ∀ n p : Nat, w[n]? = some (some p) → v[n]? = some (some p)) : h.Owned w where
  live := fun n p hp => ho.live n p (hw n p hp)
  once := fun m n p hm hn => ho.once m n p (hw m p hm) (hw n p hn)

theorem append (ho : h.Owned v) (hw : ∀ x ∈ w, x = none) : h.Owned (v ++ w) := by
  refine ho.of_slots ?_
  intro n p hp
  rw [List.getElem?_append] at hp
  split at hp
  · exact hp
  · cases hw _ (List.mem_of_getElem? hp)

theorem dropLast (ho : h.Owned v) : h.Owned v.dropLast :=
  ho.of_slots fun _ _ hp => (getElem?_of_dropLast hp).1

theorem modify (ho : h.Owned v) (p : Nat) (f : α → α) : (h.modify p f).Owned v where
  live := by
    intro n q hq
    obtain ⟨a, ha⟩ := ho.live n q hq
    rw [modify_cell, ha]
    split
    · exact ⟨f a, rfl⟩
    · exact ⟨a, rfl⟩
  once := ho.once

/-- A new object takes a slot. -/
theorem alloc (ho : h.Owned v) (n : Nat) (a : α) :
    (h.alloc a).Owned (v.set n (some h.next)) where
  live := by
    intro m p hp
    obtain ⟨-, hpq⟩ | ⟨-, hp⟩ := getElem?_set_cases hp
    · cases hpq
      exact ⟨a, alloc_self h a⟩
    · obtain ⟨b, hb⟩ := ho.live m p hp
      exact ⟨b, alloc_of_live hb⟩
  once := by
    intro i j p hi hj
    have hold : ∀ m : Nat, v[m]? ≠ some (some h.next) := by
      intro m hm
      obtain ⟨b, hb⟩ := ho.live m _ hm
      exact ne_next hb rfl
    obtain ⟨hni, hpi⟩ | ⟨-, hi⟩ := getElem?_set_cases hi
    · cases hpi
      obtain ⟨hnj, -⟩ | ⟨-, hj⟩ := getElem?_set_cases hj
      · rw [← hni, hnj]
      · exact absurd hj (hold j)
    · obtain ⟨-, hpj⟩ | ⟨-, hj⟩ := getElem?_set_cases hj
      · cases hpj
        exact absurd hi (hold i)
      · exact ho.once i j p hi hj

/-- An object may be deleted that is in no slot afterwards. -/
theorem free (ho : h.Owned v) (hout : ∀ n : Nat, v[n]? ≠ some (some p)) : (h.free p).Owned v where
  live := by
    intro n q hq
    obtain ⟨a, ha⟩ := ho.live n q hq
    have hne : q ≠ p := by
      intro he
      exact hout n (he ▸ hq)
    exact ⟨a, by rw [free_of_ne hne, ha]⟩
  once := ho.once

theorem free_set (ho : h.Owned v) (hp : v[n]? = some (some p)) :
    (h.free p).Owned (v.set n none) := by
  have hset : ∀ m q : Nat, (v.set n none)[m]? = some (some q) → n ≠ m ∧ v[m]? = some (some q) :=
    fun m q hq => of_getElem?_set hq (by simp)
  refine (ho.of_slots fun m q hq => (hset m q hq).2).free ?_
  intro m hm
  obtain ⟨hne, hm⟩ := hset m p hm
  exact hne (ho.once n m p hp hm)

theorem free_dropLast (ho : h.Owned v) (hp : v[v.length - 1]? = some (some p)) :
    (h.free p).Owned v.dropLast := by
  refine ho.dropLast.free ?_
  intro m hm
  obtain ⟨hm, hne⟩ := getElem?_of_dropLast hm
  exact hne (ho.once m _ p hm hp)

end Heap.Owned
end CppPrivate
