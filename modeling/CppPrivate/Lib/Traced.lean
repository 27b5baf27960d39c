/-! Programs over a state that leave a trace and may stop on the way, and what holds of every entry of
the trace, whether or not the program comes to its end. -/
namespace CppPrivate

/-- The trace of a program, with its result and the state it has come to unless it has stopped. -/
def Traced (σ τ α : Type) := σ → List τ × Option (α × σ)

namespace Traced
variable {σ τ α β ω : Type}

def bind (m : Traced σ τ α) (f : α → Traced σ τ β) : Traced σ τ β := fun s =>
  match m s with
  | (l, some (a, t)) => (l ++ (f a t).1, (f a t).2)
  | (l, none) => (l, none)

instance : Monad (Traced σ τ) where
  pure a := fun s => ([], some (a, s))
  bind := bind

def get : Traced σ τ σ := fun s => ([], some (s, s))

def modify (f : σ → σ) : Traced σ τ Unit := fun s => ([], some ((), f s))

def emit (x : τ) : Traced σ τ Unit := fun s => ([x], some ((), s))

def stop : Traced σ τ α := fun _ => ([], none)

/-- What stops without a value. -/
def ofOption (o : Option α) : Traced σ τ α := fun s => ([], o.map fun a => (a, s))

theorem bind_apply (m : Traced σ τ α) (f : α → Traced σ τ β) (s : σ) :
    (m >>= f) s = match m s with
      | (l, some (a, t)) => (l ++ (f a t).1, (f a t).2)
      | (l, none) => (l, none) := rfl

/-- The trace goes on where the first program has come to. -/
theorem trace_bind {m : Traced σ τ α} {f : α → Traced σ τ β} {s t : σ} {a : α}
    (h : (m s).2 = some (a, t)) : ((m >>= f) s).1 = (m s).1 ++ (f a t).1 := by
  rw [bind_apply]
  split
  · rename_i l b u hm
    rw [hm] at h ⊢
    cases h
    rfl
  · rename_i l hm
    rw [hm] at h
    cases h

theorem trace_bind_none {m : Traced σ τ α} {f : α → Traced σ τ β} {s : σ} (h : (m s).2 = none) :
    ((m >>= f) s).1 = (m s).1 := by
  rw [bind_apply]
  split
  · rename_i l b u hm
    rw [hm] at h
    cases h
  · rename_i l hm
    rw [hm]

theorem get_bind (f : σ → Traced σ τ β) (s : σ) : (get >>= f) s = f s s := rfl

/-- What the first program leaves stays. -/
theorem mem_bind {m : Traced σ τ α} {f : α → Traced σ τ β} {s : σ} {x : τ} (h : x ∈ (m s).1) :
    x ∈ ((m >>= f) s).1 := by
  cases hm : (m s).2 with
  | none => exact trace_bind_none hm ▸ h
  | some r => exact trace_bind (a := r.1) (t := r.2) hm ▸ List.mem_append_left _ h

/-- From a state with `I` every entry of the trace has `P`, and the state in the end has `I`. -/
def Within (I : σ → Prop) (P : τ → Prop) (m : Traced σ τ α) : Prop :=
  ∀ s, I s → (∀ x ∈ (m s).1, P x) ∧ ∀ a t, (m s).2 = some (a, t) → I t

variable {I : σ → Prop} {P : τ → Prop}

theorem within_pure (a : α) : Within I P (pure a : Traced σ τ α) := by
  intro s hs
  constructor
  · intro x hx
    cases hx
  · intro b t h
    cases h
    exact hs

theorem within_get : Within I P (get : Traced σ τ σ) := by
  intro s hs
  constructor
  · intro x hx
    cases hx
  · intro b t h
    cases h
    exact hs

theorem within_stop : Within I P (stop : Traced σ τ α) := by
  intro s _
  constructor
  · intro x hx
    cases hx
  · intro b t h
    cases h

theorem within_modify {f : σ → σ} (hf : ∀ s, I s → I (f s)) :
    Within I P (modify f : Traced σ τ Unit) := by
  intro s hs
  constructor
  · intro x hx
    cases hx
  · intro b t h
    cases h
    exact hf s hs

theorem within_ofOption (o : Option α) : Within I P (ofOption o : Traced σ τ α) := by
  cases o with
  | none => exact within_stop
  | some a => exact within_pure a

theorem Within.bind {m : Traced σ τ α} {f : α → Traced σ τ β} (hm : Within I P m)
    (hf : ∀ a, Within I P (f a)) : Within I P (m >>= f) := by
  intro s hs
  obtain ⟨htrace, hstate⟩ := hm s hs
  rw [bind_apply]
  split
  · rename_i l a t ha
    rw [ha] at htrace hstate
    obtain ⟨hnext, hend⟩ := hf a t (hstate a t rfl)
    refine ⟨fun x hx => ?_, hend⟩
    cases List.mem_append.mp hx with
    | inl hx => exact htrace x hx
    | inr hx => exact hnext x hx
  · rename_i l ha
    rw [ha] at htrace
    exact ⟨htrace, fun _ _ h => by cases h⟩

theorem Within.map {m : Traced σ τ α} (f : α → β) (hm : Within I P m) :
    Within I P (f <$> m) := hm.bind fun a => within_pure (f a)

theorem within_ite {c : Prop} [Decidable c] {m n : Traced σ τ α} (hm : Within I P m)
    (hn : Within I P n) : Within I P (if c then m else n) := by
  split
  · exact hm
  · exact hn

theorem within_foldlM {f : β → ω → Traced σ τ β} (hf : ∀ b op, Within I P (f b op)) (b : β)
    (ops : List ω) : Within I P (ops.foldlM f b) := by
  induction ops generalizing b with
  | nil => exact within_pure b
  | cons op ops ih =>
    rw [List.foldlM_cons]
    exact (hf b op).bind ih

section Calls
variable (step : ω → Traced σ τ α)

def calls : List ω → Traced σ τ Unit
  | [] => pure ()
  | op :: ops => step op >>= fun _ => calls ops

/-- Each call that is reached meets `C` in the state it is made in. -/
def Meets (C : σ → ω → Prop) : List ω → σ → Prop
  | [], _ => True
  | op :: ops, s => C s op ∧ ∀ a t, (step op s).2 = some (a, t) → Meets C ops t

variable {step} {C : σ → ω → Prop} {s : σ}

theorem within_calls (hstep : ∀ op, Within I P (step op)) (ops : List ω) :
    Within I P (calls step ops) := by
  induction ops with
  | nil => exact within_pure ()
  | cons op ops ih => exact (hstep op).bind fun _ => ih

/-- What every call keeps to where its condition is met. -/
theorem Meets.within (hstep : ∀ s op, I s → C s op → (∀ x ∈ (step op s).1, P x) ∧
      ∀ a t, (step op s).2 = some (a, t) → I t) (hs : I s) {ops : List ω}
    (h : Meets step C ops s) : ∀ x ∈ (calls step ops s).1, P x := by
  induction ops generalizing s with
  | nil =>
    intro x hx
    cases hx
  | cons op ops ih =>
    obtain ⟨hop, hrest⟩ := h
    obtain ⟨htrace, hstate⟩ := hstep s op hs hop
    intro x hx
    cases hr : (step op s).2 with
    | none =>
      rw [calls, trace_bind_none hr] at hx
      exact htrace x hx
    | some r =>
      rw [calls, trace_bind (a := r.1) (t := r.2) hr] at hx
      cases List.mem_append.mp hx with
      | inl hx => exact htrace x hx
      | inr hx => exact ih (hstate r.1 r.2 hr) (hrest r.1 r.2 hr) x hx

/-- A trace with `P` throughout is left only by calls that meet their condition, if a call that does
not leaves an entry without `P`. -/
theorem meets_of_trace (hkeep : ∀ s op, I s → C s op → ∀ a t, (step op s).2 = some (a, t) → I t)
    (hstep : ∀ s op, I s → (∀ x ∈ (step op s).1, P x) → C s op) (hs : I s) {ops : List ω}
    (h : ∀ x ∈ (calls step ops s).1, P x) : Meets step C ops s := by
  induction ops generalizing s with
  | nil => trivial
  | cons op ops ih =>
    have hop : C s op := hstep s op hs fun x hx => h x (mem_bind hx)
    refine ⟨hop, fun a t hr => ?_⟩
    rw [calls, trace_bind hr] at h
    exact ih (hkeep s op hs hop a t hr) fun x hx => h x (List.mem_append_right _ hx)

end Calls

end Traced
end CppPrivate
