import Mathlib.Logic.Function.Basic
import Mathlib.Order.Basic

/-! Objects that are created and released by hand. A ledger counts the releases of each, and notes
the first use of something that is not there, be it released before or never created. -/
namespace CppPrivate

structure Ledger (κ : Type*) where
  created : κ → Bool
  released : κ → Nat
  misused : Bool

namespace Ledger
variable {κ : Type*} {l l' l'' : Ledger κ} {k : κ}

def empty : Ledger κ := ⟨fun _ => false, fun _ => 0, false⟩

def alive (l : Ledger κ) (k : κ) : Bool := l.created k && l.released k == 0

def use (l : Ledger κ) (k : κ) : Ledger κ := { l with misused := l.misused || !l.alive k }

/-- What has been misused or released stays so. -/
def Later (l l' : Ledger κ) : Prop :=
  (l.misused = true → l'.misused = true) ∧ ∀ k, l.released k ≤ l'.released k

theorem alive_iff : l.alive k = true ↔ l.created k = true ∧ l.released k = 0 := by
  simp [alive]

@[simp] theorem use_alive (h : l.alive k = true) : l.use k = l := by
  simp [use, h]

theorem misused_use (h : l.alive k = false) : (l.use k).misused = true := by
  simp [use, h]

theorem Later.refl (l : Ledger κ) : Later l l := ⟨id, fun _ => Nat.le_refl _⟩

theorem Later.trans (h : Later l l') (h' : Later l' l'') : Later l l'' :=
  ⟨fun hm => h'.1 (h.1 hm), fun k => Nat.le_trans (h.2 k) (h'.2 k)⟩

theorem later_use : Later l (l.use k) :=
  ⟨fun hm => by simp [use, hm], fun _ => Nat.le_refl _⟩

section Release
variable [DecidableEq κ]

def create (l : Ledger κ) (k : κ) : Ledger κ := { l with created := Function.update l.created k true }

def release (l : Ledger κ) (k : κ) : Ledger κ where
  created := l.created
  released := Function.update l.released k (l.released k + 1)
  misused := l.misused || !l.alive k

theorem misused_release : (l.release k).misused = (l.misused || !l.alive k) := rfl

@[simp] theorem created_release : (l.release k).created = l.created := rfl

theorem released_release (k j : κ) :
    (l.release k).released j = if j = k then l.released k + 1 else l.released j :=
  Function.update_apply _ _ _ _

@[simp] theorem released_create : (l.create k).released = l.released := rfl

theorem created_create (k j : κ) :
    (l.create k).created j = if j = k then true else l.created j :=
  Function.update_apply _ _ _ _

theorem alive_release (k j : κ) : (l.release k).alive j = (decide (j ≠ k) && l.alive j) := by
  rw [alive, released_release, created_release]
  by_cases h : j = k
  · simp [h]
  · simp [h, alive]

theorem later_release : Later l (l.release k) := by
  refine ⟨fun hm => by simp [misused_release, hm], ?_⟩
  intro j
  rw [released_release]
  split
  · rename_i hjk
    rw [hjk]
    exact Nat.le_succ _
  · exact Nat.le_refl _

end Release

end Ledger
end CppPrivate
