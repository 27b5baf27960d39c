import Mathlib.Logic.Function.Basic

/-! A heap of objects with identity. An object keeps its number after it is freed and
no number is given out twice, so a pointer to a deleted object never reaches a new one. -/
namespace CppPrivate

structure Heap (α : Type*) where
  cell : Nat → Option α
  next : Nat
  fresh : ∀ p, next ≤ p → cell p = none

namespace Heap
variable {α : Type*}

def empty : Heap α := ⟨fun _ => none, 0, fun _ _ => rfl⟩

/-- `new`: the object gets the number `h.next`. -/
def alloc (h : Heap α) (a : α) : Heap α where
  cell := fun p => if p = h.next then some a else h.cell p
  next := h.next + 1
  fresh := by
    intro p hp
    have hne : p ≠ h.next := by omega
    simp only [hne, if_false]
    exact h.fresh p (by omega)

/-- A write to the object at `p`, if there is one. -/
def modify (h : Heap α) (p : Nat) (f : α → α) : Heap α where
  cell := fun q => if q = p then (h.cell q).map f else h.cell q
  next := h.next
  fresh := by
    intro q hq
    simp [h.fresh q hq]

/-- `delete`. -/
def free (h : Heap α) (p : Nat) : Heap α where
  cell := fun q => if q = p then none else h.cell q
  next := h.next
  fresh := by
    intro q hq
    simp [h.fresh q hq]

@[simp] theorem empty_cell (p : Nat) : (empty : Heap α).cell p = none := rfl

theorem alloc_cell (h : Heap α) (a : α) (p : Nat) :
    (h.alloc a).cell p = if p = h.next then some a else h.cell p := rfl

theorem modify_cell (h : Heap α) (p q : Nat) (f : α → α) :
    (h.modify p f).cell q = if q = p then (h.cell q).map f else h.cell q := rfl

theorem free_cell (h : Heap α) (p q : Nat) :
    (h.free p).cell q = if q = p then none else h.cell q := rfl

theorem ne_next {h : Heap α} {p : Nat} {a : α} (hp : h.cell p = some a) : p ≠ h.next := by
  intro heq
  subst heq
  rw [h.fresh _ (Nat.le_refl _)] at hp
  cases hp

@[simp] theorem alloc_self (h : Heap α) (a : α) : (h.alloc a).cell h.next = some a := by
  simp [alloc_cell]

theorem alloc_of_live {h : Heap α} {a b : α} {p : Nat} (hp : h.cell p = some a) :
    (h.alloc b).cell p = some a := by
  simp [alloc_cell, ne_next hp, hp]

theorem modify_self {h : Heap α} {a : α} {p : Nat} (f : α → α) (hp : h.cell p = some a) :
    (h.modify p f).cell p = some (f a) := by
  simp [modify_cell, hp]

theorem modify_of_ne {h : Heap α} {p q : Nat} (f : α → α) (hq : q ≠ p) :
    (h.modify p f).cell q = h.cell q := by
  simp [modify_cell, hq]

theorem free_of_ne {h : Heap α} {p q : Nat} (hq : q ≠ p) : (h.free p).cell q = h.cell q := by
  simp [free_cell, hq]

theorem modify_modify (h : Heap α) (p : Nat) (f g : α → α) :
    (h.modify p f).modify p g = h.modify p (g ∘ f) := by
  simp only [modify, mk.injEq, and_true]
  funext q
  split
  · rw [Option.map_map]
  · rfl

theorem modify_alloc (h : Heap α) (a : α) (f : α → α) :
    (h.alloc a).modify h.next f = h.alloc (f a) := by
  simp only [modify, alloc, mk.injEq, and_true]
  funext q
  split
  · rfl
  · rfl

/-! What is live afterwards was live before, or is the object just made. -/

theorem of_alloc {h : Heap α} {p : Nat} {a b : α} (hp : (h.alloc a).cell p = some b) :
    p = h.next ∧ b = a ∨ h.cell p = some b := by
  rw [alloc_cell] at hp
  split at hp
  · rename_i he
    exact Or.inl ⟨he, (Option.some.inj hp).symm⟩
  · exact Or.inr hp

theorem of_modify {h : Heap α} {p q : Nat} {f : α → α} {b : α}
    (hq : (h.modify p f).cell q = some b) : ∃ a, h.cell q = some a ∧ (b = f a ∨ b = a) := by
  rw [modify_cell] at hq
  split at hq
  · obtain ⟨a, ha, he⟩ := Option.map_eq_some_iff.mp hq
    exact ⟨a, ha, Or.inl he.symm⟩
  · exact ⟨b, hq, Or.inr rfl⟩

theorem of_free {h : Heap α} {p q : Nat} {a : α} (hq : (h.free p).cell q = some a) :
    q ≠ p ∧ h.cell q = some a := by
  rw [free_cell] at hq
  split at hq
  · cases hq
  · rename_i hne
    exact ⟨hne, hq⟩

/-- Objects that know their place in a vector are in no other place. -/
theorem place_inj (h : Heap α) (place : α → Int) {v : List (Option Nat)} {m n p : Nat}
    (hplace : ∀ n p : Nat, v[n]? = some (some p) → ∃ a, h.cell p = some a ∧ place a = n)
    (hm : v[m]? = some (some p)) (hn : v[n]? = some (some p)) : m = n := by
  obtain ⟨a, ha, hplacem⟩ := hplace m p hm
  obtain ⟨b, hb, hplacen⟩ := hplace n p hn
  rw [ha] at hb
  obtain rfl := Option.some.inj hb
  omega

end Heap
end CppPrivate
