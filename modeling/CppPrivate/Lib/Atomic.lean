/-! Programs over a state that may throw or be undefined, and what of the state they leave alone.
A program is atomic for a kind of outcome if nothing is seen of it whenever it ends in that way. -/
namespace CppPrivate

/-- What has been stored before an exception stays. -/
def Prog (σ α : Type) := σ → Option (Except Unit α × σ)

namespace Prog
variable {σ α β ρ : Type}

def bind (m : Prog σ α) (f : α → Prog σ β) : Prog σ β := fun s =>
  match m s with
  | some (.ok a, t) => f a t
  | some (.error e, t) => some (.error e, t)
  | none => none

instance : Monad (Prog σ) where
  pure a := fun s => some (.ok a, s)
  bind := bind

def get : Prog σ σ := fun s => some (.ok s, s)

def modify (f : σ → σ) : Prog σ Unit := fun s => some (.ok (), f s)

/-- What throws unless `ok`. -/
def throwUnless (ok : Bool) : Prog σ Unit := fun s => some (if ok then .ok () else .error (), s)

/-- What is undefined without a value. -/
def ofOption (o : Option α) : Prog σ α := fun s => o.map fun a => (.ok a, s)

/-- A handler that returns `a`. -/
def handled (a : α) : Except Unit α → Except Unit α
  | .ok b => .ok b
  | .error _ => .ok a

/-- `try { m } catch(...) { return a; }`. -/
def catchAll (m : Prog σ α) (a : α) : Prog σ α := fun s => (m s).map fun r => (handled a r.1, r.2)

section Apply
variable (m : Prog σ α) (f : α → Prog σ β) (s : σ)

theorem bind_apply : (m >>= f) s = match m s with
    | some (.ok a, t) => f a t
    | some (.error e, t) => some (.error e, t)
    | none => none := rfl

theorem bind_ok {m : Prog σ α} {f : α → Prog σ β} {s t : σ} {a : α}
    (h : m s = some (.ok a, t)) : (m >>= f) s = f a t := by
  rw [bind_apply, h]

theorem bind_none {m : Prog σ α} {f : α → Prog σ β} {s : σ} (h : m s = none) :
    (m >>= f) s = none := by
  rw [bind_apply, h]

theorem pure_apply (a : α) : (pure a : Prog σ α) s = some (.ok a, s) := rfl

theorem get_apply : (get : Prog σ σ) s = some (.ok s, s) := rfl

theorem modify_apply (g : σ → σ) : modify g s = some (.ok (), g s) := rfl

theorem throwUnless_apply (ok : Bool) :
    (throwUnless ok : Prog σ Unit) s = some (if ok then .ok () else .error (), s) := rfl

theorem ofOption_apply (o : Option α) :
    (ofOption o : Prog σ α) s = o.map fun a => (.ok a, s) := rfl

theorem catchAll_apply (a : α) :
    catchAll m a s = (m s).map fun r => (handled a r.1, r.2) := rfl

end Apply

/-- Whenever the program ends with an outcome in `P`, the view of the state is what it was. -/
def Keeps (view : σ → β) (P : Except Unit α → Prop) (m : Prog σ α) : Prop :=
  ∀ s r t, m s = some (r, t) → P r → view t = view s

/-- However the program ends. -/
def Quiet (view : σ → β) (m : Prog σ α) : Prop := Keeps view (fun _ => True) m

/-- The program never ends with an outcome in `P`. -/
def Avoids (P : Except Unit α → Prop) (m : Prog σ α) : Prop := ∀ s r t, m s = some (r, t) → ¬P r

def Threw : Except Unit α → Prop
  | .ok _ => False
  | .error _ => True

variable {view : σ → β} {P : Except Unit α → Prop} {m : Prog σ α}

section Bind
variable {n : Prog σ ρ} {f : ρ → Prog σ α}

/-- Either the first program throws, or the second one runs where it has come to. -/
theorem of_bind {s t : σ} {r : Except Unit α} (h : (n >>= f) s = some (r, t)) :
    (∃ a u, n s = some (.ok a, u) ∧ f a u = some (r, t)) ∨
      ∃ e, n s = some (.error e, t) ∧ r = .error e := by
  rw [bind_apply] at h
  split at h
  · rename_i a u hn
    exact Or.inl ⟨a, u, hn, h⟩
  · rename_i e u hn
    cases h
    exact Or.inr ⟨e, hn, rfl⟩
  · cases h

/-- What comes before the first store. -/
theorem Quiet.bind (hn : Quiet view n) (hf : ∀ a, Keeps view P (f a)) : Keeps view P (n >>= f) := by
  intro s r t h hp
  cases of_bind h with
  | inl hok =>
    obtain ⟨a, u, hu, ht⟩ := hok
    exact (hf a u r t ht hp).trans (hn s _ u hu trivial)
  | inr hthrew =>
    obtain ⟨e, ht, -⟩ := hthrew
    exact hn s _ t ht trivial

/-- The first store: it throws without a trace, and after it no outcome is in `P`. -/
theorem Keeps.bind_avoids (hn : Keeps view Threw n) (hf : ∀ a, Avoids P (f a)) :
    Keeps view P (n >>= f) := by
  intro s r t h hp
  cases of_bind h with
  | inl hok =>
    obtain ⟨a, u, -, ht⟩ := hok
    exact absurd hp (hf a u r t ht)
  | inr hthrew =>
    obtain ⟨e, ht, -⟩ := hthrew
    exact hn s _ t ht trivial

theorem Avoids.bind (hn : Avoids Threw n) (hf : ∀ a, Avoids P (f a)) : Avoids P (n >>= f) := by
  intro s r t h
  cases of_bind h with
  | inl hok =>
    obtain ⟨a, u, -, ht⟩ := hok
    exact hf a u r t ht
  | inr hthrew =>
    obtain ⟨e, ht, -⟩ := hthrew
    exact absurd trivial (hn s _ t ht)

end Bind

theorem Avoids.keeps (h : Avoids P m) : Keeps view P m :=
  fun s r t hm hp => absurd hp (h s r t hm)

theorem Quiet.keeps (h : Quiet view m) : Keeps view P m := fun s r t hm _ => h s r t hm trivial

theorem quiet_pure (a : α) : Quiet view (pure a : Prog σ α) := by
  intro s r t h _
  cases h
  rfl

theorem quiet_get : Quiet view (get : Prog σ σ) := by
  intro s r t h _
  cases h
  rfl

theorem quiet_throwUnless (ok : Bool) : Quiet view (throwUnless ok : Prog σ Unit) := by
  intro s r t h _
  cases h
  rfl

theorem quiet_modify {f : σ → σ} (hf : ∀ s, view (f s) = view s) : Quiet view (modify f) := by
  intro s r t h _
  cases h
  exact hf s

theorem quiet_ofOption (o : Option α) : Quiet view (ofOption o : Prog σ α) := by
  intro s r t h _
  obtain ⟨a, -, ha⟩ := Option.map_eq_some_iff.mp h
  cases ha
  rfl

theorem avoids_pure {a : α} (h : ¬P (.ok a)) : Avoids P (pure a : Prog σ α) := by
  intro s r t hm
  cases hm
  exact h

theorem avoids_get : Avoids Threw (get : Prog σ σ) := by
  intro s r t h
  cases h
  exact id

theorem avoids_modify (f : σ → σ) : Avoids Threw (modify f) := by
  intro s r t h
  cases h
  exact id

theorem avoids_ofOption (o : Option α) : Avoids Threw (ofOption o : Prog σ α) := by
  intro s r t h
  obtain ⟨a, -, ha⟩ := Option.map_eq_some_iff.mp h
  cases ha
  exact id

/-- A handler that returns keeps what its block keeps for that result and for exceptions. -/
theorem Keeps.catchAll {a : α} (h : Keeps view (fun r => P r ∨ Threw r) m) :
    Keeps view P (catchAll m a) := by
  intro s r t hm hp
  obtain ⟨⟨r', u⟩, hr, he⟩ := Option.map_eq_some_iff.mp hm
  cases r' with
  | ok b =>
    cases he
    exact h s _ u hr (Or.inl hp)
  | error e =>
    cases he
    exact h s _ u hr (Or.inr trivial)

end Prog
end CppPrivate
