import Mathlib.Order.Defs.Unbundled

/-! Parts of a call. A part changes the state and goes on with a value, or the call is over. -/
namespace CppPrivate

def Part (σ α : Type) : Type := σ → σ × Option α

namespace Part
variable {σ α β : Type}

instance : Monad (Part σ) where
  pure a := fun s => (s, some a)
  bind x f := fun s =>
    match x s with
    | (s, some a) => f a s
    | (s, none) => (s, none)

def leave : Part σ α := fun s => (s, none)

def read (f : σ → α) : Part σ α := fun s => (s, some (f s))

def change (f : σ → σ) : Part σ Unit := fun s => (f s, some ())

@[simp] theorem pure_apply (a : α) (s : σ) : (pure a : Part σ α) s = (s, some a) := rfl

@[simp] theorem leave_apply (s : σ) : (leave : Part σ α) s = (s, none) := rfl

@[simp] theorem read_apply (f : σ → α) (s : σ) : read f s = (s, some (f s)) := rfl

@[simp] theorem change_apply (f : σ → σ) (s : σ) : change f s = (f s, some ()) := rfl

theorem bind_next {x : Part σ α} {f : α → Part σ β} {s s' : σ} {a : α} (h : x s = (s', some a)) :
    (x >>= f) s = f a s' := by
  change (match x s with | (s, some a) => f a s | (s, none) => (s, none)) = _
  rw [h]

theorem bind_leave {x : Part σ α} {f : α → Part σ β} {s s' : σ} (h : x s = (s', none)) :
    (x >>= f) s = (s', none) := by
  change (match x s with | (s, some a) => f a s | (s, none) => (s, none)) = _
  rw [h]

def Keeps (R : σ → σ → Prop) (x : Part σ α) : Prop := ∀ s, R s (x s).1

section Keeps
variable {R : σ → σ → Prop}

theorem Keeps.pure [Std.Refl R] (a : α) : Keeps R (Pure.pure a : Part σ α) := fun s => Std.Refl.refl s

theorem Keeps.leave [Std.Refl R] : Keeps R (leave : Part σ α) := fun s => Std.Refl.refl s

theorem Keeps.read [Std.Refl R] (f : σ → α) : Keeps R (read f) := fun s => Std.Refl.refl s

theorem Keeps.bind [IsTrans σ R] {x : Part σ α} {f : α → Part σ β} (hx : Keeps R x)
    (hf : ∀ a, Keeps R (f a)) : Keeps R (x >>= f) := by
  intro s
  have hfirst := hx s
  cases hr : x s with
  | mk s' a =>
    rw [hr] at hfirst
    cases a with
    | none =>
      rw [bind_leave hr]
      exact hfirst
    | some a =>
      rw [bind_next hr]
      exact IsTrans.trans _ _ _ hfirst (hf a s')

theorem Keeps.mono {S : σ → σ → Prop} {x : Part σ α} (hx : Keeps R x)
    (h : ∀ s s', R s s' → S s s') : Keeps S x := fun s => h _ _ (hx s)

end Keeps

end Part

end CppPrivate
