import CppPrivate.Http.Chain
import CppPrivate.Lib.Run

/-! The handler chain step by step: the calls of `Next` in progress are kept on a stack, so that
the context can be observed at every point of a request. The runs of the chain end where these
steps lead. -/
namespace CppPrivate.Http
open CppPrivate.Run
variable {σ : Type*}

/-- What is done next: the first call of `Next`, the test of its loop, or what is left of the
handler that runs. -/
inductive Control (σ : Type*) where
  | idle
  | test
  | body (i : Nat) (p : Prog σ)
  | done

/-- A request in progress. The callers are the handlers that wait for a call of `Next`, the
innermost first. -/
structure Config (σ : Type*) where
  state : ChainState σ
  control : Control σ
  callers : List (Nat × (σ → Prog σ))

inductive Call where
  | Next
  | test
  | Abort
  | IsAborted
  | finish
deriving DecidableEq

def Call.raises : Call → Bool
  | .Next | .finish => true
  | _ => false

namespace Config

/-- The context before the engine calls `Next`. -/
def new (world : σ) : Config σ := ⟨.new world, .idle, []⟩

/-- The return of `Next` to the handler that called it, or to the engine. -/
def leave (s : ChainState σ) : List (Nat × (σ → Prog σ)) → Config σ
  | [] => ⟨s.note .leave, .done, []⟩
  | (i, k) :: callers => ⟨s.note .leave, .body i (k s.world), callers⟩

def step (handlers : HandlersChain σ) : Config σ → Call → Option (Config σ)
  | ⟨s, .idle, callers⟩, .Next => some ⟨(s.note .enter).advance, .test, callers⟩
  | ⟨s, .test, callers⟩, .test =>
    match handlers[s.index.toNat]? with
    | none => some (leave s callers)
    | some handler =>
      some ⟨s.note (.start s.index.toNat), .body s.index.toNat (handler s.world), callers⟩
  | ⟨s, .body i (.finish world), callers⟩, .finish =>
    some ⟨((s.setWorld world).note (.finish i)).advance, .test, callers⟩
  | ⟨s, .body i (.Next world k), callers⟩, .Next =>
    some ⟨((s.setWorld world).note .enter).advance, .test, (i, k) :: callers⟩
  | ⟨s, .body i (.Abort world k), callers⟩, .Abort =>
    some ⟨(s.setWorld world).Abort, .body i k, callers⟩
  | ⟨s, .body i (.IsAborted world k), callers⟩, .IsAborted =>
    some ⟨s.setWorld world, .body i (k s.IsAborted), callers⟩
  | _, _ => none

/-- The runs of a request, with no condition on their steps. -/
abbrev Reaches (handlers : HandlersChain σ) (c : Config σ) (calls : List Call) (d : Config σ) :
    Prop :=
  Runs (step handlers) (fun _ _ => True) c calls d

variable {handlers : HandlersChain σ} {s t : ChainState σ} {c d e : Config σ}
  {calls calls' : List Call} {callers : List (Nat × (σ → Prog σ))} {i : Nat}

theorem Reaches.one {call : Call} (h : step handlers c call = some d) :
    Reaches handlers c [call] d :=
  Runs.nil.snoc trivial h

theorem Reaches.next {call : Call} (h : Reaches handlers c calls d)
    (hs : step handlers d call = some e) : Reaches handlers c (calls ++ [call]) e :=
  h.snoc trivial hs

inductive Stepped (handlers : HandlersChain σ) : Config σ → Call → Config σ → Prop
  | enter {s : ChainState σ} {callers : List (Nat × (σ → Prog σ))} :
      Stepped handlers ⟨s, .idle, callers⟩ .Next ⟨(s.note .enter).advance, .test, callers⟩
  | leave {s : ChainState σ} {callers : List (Nat × (σ → Prog σ))} :
      handlers[s.index.toNat]? = none →
      Stepped handlers ⟨s, .test, callers⟩ .test (Config.leave s callers)
  | start {s : ChainState σ} {callers : List (Nat × (σ → Prog σ))} {handler : HandlerFunc σ} :
      handlers[s.index.toNat]? = some handler →
      Stepped handlers ⟨s, .test, callers⟩ .test
        ⟨s.note (.start s.index.toNat), .body s.index.toNat (handler s.world), callers⟩
  | finish {s : ChainState σ} {callers : List (Nat × (σ → Prog σ))} {i : Nat} {world : σ} :
      Stepped handlers ⟨s, .body i (.finish world), callers⟩ .finish
        ⟨((s.setWorld world).note (.finish i)).advance, .test, callers⟩
  | Next {s : ChainState σ} {callers : List (Nat × (σ → Prog σ))} {i : Nat} {world : σ}
      {k : σ → Prog σ} :
      Stepped handlers ⟨s, .body i (.Next world k), callers⟩ .Next
        ⟨((s.setWorld world).note .enter).advance, .test, (i, k) :: callers⟩
  | Abort {s : ChainState σ} {callers : List (Nat × (σ → Prog σ))} {i : Nat} {world : σ}
      {p : Prog σ} :
      Stepped handlers ⟨s, .body i (.Abort world p), callers⟩ .Abort
        ⟨(s.setWorld world).Abort, .body i p, callers⟩
  | IsAborted {s : ChainState σ} {callers : List (Nat × (σ → Prog σ))} {i : Nat} {world : σ}
      {k : Bool → Prog σ} :
      Stepped handlers ⟨s, .body i (.IsAborted world k), callers⟩ .IsAborted
        ⟨s.setWorld world, .body i (k s.IsAborted), callers⟩

theorem stepped_of_step {call : Call} (h : step handlers c call = some d) :
    Stepped handlers c call d := by
  obtain ⟨s, control, callers⟩ := c
  cases control with
  | idle =>
    cases call with
    | Next =>
      obtain rfl := Option.some.inj h
      exact .enter
    | _ => cases h
  | test =>
    cases call with
    | test =>
      simp only [step] at h
      split at h
      · rename_i hnone
        obtain rfl := Option.some.inj h
        exact .leave hnone
      · rename_i handler hsome
        obtain rfl := Option.some.inj h
        exact .start hsome
    | _ => cases h
  | body i p =>
    cases p with
    | finish world =>
      cases call with
      | finish =>
        obtain rfl := Option.some.inj h
        exact .finish
      | _ => cases h
    | Next world k =>
      cases call with
      | Next =>
        obtain rfl := Option.some.inj h
        exact .Next
      | _ => cases h
    | Abort world k =>
      cases call with
      | Abort =>
        obtain rfl := Option.some.inj h
        exact .Abort
      | _ => cases h
    | IsAborted world k =>
      cases call with
      | IsAborted =>
        obtain rfl := Option.some.inj h
        exact .IsAborted
      | _ => cases h
  | done => cases call <;> cases h

theorem step_deterministic : Deterministic (step handlers) := by
  intro c call call' d d' h h'
  have hcall : call = call' := by
    cases stepped_of_step h <;> cases stepped_of_step h' <;> rfl
  subst hcall
  exact ⟨rfl, Option.some.inj (h.symm.trans h')⟩

/-- A handler runs to its end in steps, if its calls of `Next` do. -/
theorem body_reaches {next : ChainState σ → Option (ChainState σ)}
    (hnext : ∀ s t, next s = some t → ∀ i k callers, ∃ calls,
      Reaches handlers ⟨(s.note .enter).advance, .test, (i, k) :: callers⟩ calls
        ⟨t, .body i (k t.world), callers⟩)
    (p : Prog σ) (h : p.run next s = some t) (callers : List (Nat × (σ → Prog σ))) : ∃ calls,
      Reaches handlers ⟨s, .body i p, callers⟩ calls
        ⟨(t.note (.finish i)).advance, .test, callers⟩ := by
  induction p generalizing s with
  | finish world =>
    obtain rfl := Option.some.inj h
    exact ⟨[.finish], .one rfl⟩
  | Next world k ih =>
    obtain ⟨u, hu, ht⟩ := Option.bind_eq_some_iff.mp h
    obtain ⟨calls, hcalls⟩ := hnext _ _ hu i k callers
    obtain ⟨calls', hcalls'⟩ := ih u.world ht
    have hfirst : Reaches handlers ⟨s, .body i (.Next world k), callers⟩ [.Next]
        ⟨((s.setWorld world).note .enter).advance, .test, (i, k) :: callers⟩ := .one rfl
    exact ⟨_, (hfirst.append hcalls).append hcalls'⟩
  | Abort world k ih =>
    obtain ⟨calls, hcalls⟩ := ih h
    exact ⟨.Abort :: calls, Runs.cons trivial rfl hcalls⟩
  | IsAborted world k ih =>
    obtain ⟨calls, hcalls⟩ := ih s.IsAborted h
    exact ⟨.IsAborted :: calls, Runs.cons trivial rfl hcalls⟩

theorem loop_reaches {fuel : Nat} (h : loop handlers fuel s = some t)
    (callers : List (Nat × (σ → Prog σ))) : ∃ calls,
    Reaches handlers ⟨s, .test, callers⟩ calls (leave t callers) := by
  induction fuel generalizing s t callers with
  | zero => cases h
  | succ fuel ih =>
    simp only [loop] at h
    split at h
    · rename_i hnone
      obtain rfl := Option.some.inj h
      refine ⟨[.test], .one ?_⟩
      simp only [step, hnone]
    · rename_i handler hsome
      obtain ⟨u, hu, ht⟩ := Option.bind_eq_some_iff.mp h
      have hstart : step handlers ⟨s, .test, callers⟩ .test = some ⟨s.note (.start s.index.toNat),
          .body s.index.toNat (handler s.world), callers⟩ := by
        simp only [step, hsome]
      have hnext : ∀ s t, nextWith (loop handlers fuel) s = some t → ∀ i k callers, ∃ calls,
          Reaches handlers ⟨(s.note .enter).advance, .test, (i, k) :: callers⟩ calls
            ⟨t, .body i (k t.world), callers⟩ := by
        intro s t hs i k callers
        obtain ⟨v, hv, rfl⟩ := Option.map_eq_some_iff.mp hs
        exact ih hv _
      obtain ⟨calls, hcalls⟩ := body_reaches hnext _ hu callers
      obtain ⟨calls', hcalls'⟩ := ih ht callers
      exact ⟨_, Runs.cons trivial hstart (hcalls.append hcalls')⟩

/-- When the outer call of `Next` returns, the steps of the request end in the same state. -/
theorem reaches_of_Next {world : σ} {fuel : Nat} (h : Http.Next handlers fuel (.new world) = some t) :
    ∃ calls, Reaches handlers (.new world) calls ⟨t, .done, []⟩ := by
  obtain ⟨u, hu, rfl⟩ := Option.map_eq_some_iff.mp h
  obtain ⟨calls, hcalls⟩ := loop_reaches hu []
  exact ⟨.Next :: calls, Runs.cons trivial rfl hcalls⟩

/-- More fuel changes no run of a handler, if it changes no call of `Next`. -/
theorem run_mono {next next' : ChainState σ → Option (ChainState σ)}
    (hnext : ∀ s t, next s = some t → next' s = some t) (p : Prog σ) (h : p.run next s = some t) :
    p.run next' s = some t := by
  induction p generalizing s with
  | finish world => exact h
  | Next world k ih =>
    obtain ⟨u, hu, ht⟩ := Option.bind_eq_some_iff.mp h
    exact Option.bind_eq_some_iff.mpr ⟨u, hnext _ _ hu, ih u.world ht⟩
  | Abort world k ih => exact ih h
  | IsAborted world k ih => exact ih s.IsAborted h

theorem loop_mono {fuel fuel' : Nat} (hle : fuel ≤ fuel') (h : loop handlers fuel s = some t) :
    loop handlers fuel' s = some t := by
  induction fuel generalizing fuel' s t with
  | zero => cases h
  | succ fuel ih =>
    cases fuel' with
    | zero => exact absurd hle (Nat.not_succ_le_zero fuel)
    | succ fuel' =>
      have hle : fuel ≤ fuel' := Nat.le_of_succ_le_succ hle
      simp only [loop] at h ⊢
      split at h
      · exact h
      · obtain ⟨u, hu, ht⟩ := Option.bind_eq_some_iff.mp h
        refine Option.bind_eq_some_iff.mpr ⟨u, ?_, ih hle ht⟩
        refine run_mono (fun s t hs => ?_) _ hu
        obtain ⟨v, hv, rfl⟩ := Option.map_eq_some_iff.mp hs
        exact Option.map_eq_some_iff.mpr ⟨v, ih hle hv, rfl⟩

theorem nextWith_mono {fuel fuel' : Nat} (hle : fuel ≤ fuel')
    (h : nextWith (loop handlers fuel) s = some t) : nextWith (loop handlers fuel') s = some t := by
  obtain ⟨v, hv, rfl⟩ := Option.map_eq_some_iff.mp h
  exact Option.map_eq_some_iff.mpr ⟨v, loop_mono hle hv, rfl⟩

/-- The loop comes to an end within a run of `n` steps that does, and leaves fewer of them. -/
def LoopEnds (handlers : HandlersChain σ) (u : ChainState σ) (n : Nat) : Prop :=
  ∀ s callers calls, calls.length ≤ n → Reaches handlers ⟨s, .test, callers⟩ calls ⟨u, .done, []⟩ →
    ∃ fuel t calls', loop handlers fuel s = some t ∧ calls'.length < calls.length ∧
      Reaches handlers (leave t callers) calls' ⟨u, .done, []⟩

/-- A run that comes to its end has a first step, unless it is there. -/
theorem Reaches.first {u : ChainState σ} (h : Reaches handlers c calls ⟨u, .done, []⟩)
    (hc : c ≠ ⟨u, .done, []⟩) : ∃ call rest d, calls = call :: rest ∧
      Stepped handlers c call d ∧ Reaches handlers d rest ⟨u, .done, []⟩ := by
  cases h.split with
  | inl hnil => exact absurd hnil.2.symm hc
  | inr hcons =>
    obtain ⟨call, rest, d, rfl, -, hstep, hrest⟩ := hcons
    exact ⟨call, rest, d, rfl, stepped_of_step hstep, hrest⟩

theorem body_ends_of_reaches {u : ChainState σ} {n : Nat} (hloop : LoopEnds handlers u n)
    (p : Prog σ) (hn : calls.length ≤ n)
    (h : Reaches handlers ⟨s, .body i p, callers⟩ calls ⟨u, .done, []⟩) : ∃ fuel t calls',
      p.run (nextWith (loop handlers fuel)) s = some t ∧ calls'.length < calls.length ∧
      Reaches handlers ⟨(t.note (.finish i)).advance, .test, callers⟩ calls' ⟨u, .done, []⟩ := by
  induction p generalizing s calls with
  | finish world =>
    obtain ⟨call, rest, d, rfl, hstep, hrest⟩ := h.first (by simp)
    cases hstep
    exact ⟨0, _, rest, rfl, Nat.lt_succ_self _, hrest⟩
  | Next world k ih =>
    obtain ⟨call, rest, d, rfl, hstep, hrest⟩ := h.first (by simp)
    cases hstep
    rw [List.length_cons] at hn
    obtain ⟨fuel, v, calls1, hv, hlen1, hrun1⟩ := hloop _ _ rest (by omega) hrest
    obtain ⟨fuel', t, calls2, ht, hlen2, hrun2⟩ := ih _ (by omega) hrun1
    refine ⟨max fuel fuel', t, calls2, ?_, by rw [List.length_cons]; omega, hrun2⟩
    refine Option.bind_eq_some_iff.mpr ⟨v.note .leave, ?_, ?_⟩
    · exact Option.map_eq_some_iff.mpr ⟨v, loop_mono (Nat.le_max_left _ _) hv, rfl⟩
    · exact run_mono (fun _ _ => nextWith_mono (Nat.le_max_right _ _)) _ ht
  | Abort world k ih =>
    obtain ⟨call, rest, d, rfl, hstep, hrest⟩ := h.first (by simp)
    cases hstep
    rw [List.length_cons] at hn
    obtain ⟨fuel, t, calls', ht, hlen, hrun⟩ := ih (by omega) hrest
    exact ⟨fuel, t, calls', ht, by rw [List.length_cons]; omega, hrun⟩
  | IsAborted world k ih =>
    obtain ⟨call, rest, d, rfl, hstep, hrest⟩ := h.first (by simp)
    cases hstep
    rw [List.length_cons] at hn
    obtain ⟨fuel, t, calls', ht, hlen, hrun⟩ := ih _ (by omega) hrest
    exact ⟨fuel, t, calls', ht, by rw [List.length_cons]; omega, hrun⟩

theorem loopEnds (handlers : HandlersChain σ) (u : ChainState σ) (n : Nat) :
    LoopEnds handlers u n := by
  induction n with
  | zero =>
    intro s callers calls hn h
    obtain ⟨call, rest, d, rfl, -⟩ := h.first (by simp)
    cases hn
  | succ n ih =>
    intro s callers calls hn h
    obtain ⟨call, rest, d, rfl, hstep, hrest⟩ := h.first (by simp)
    rw [List.length_cons] at hn ⊢
    cases hstep with
    | leave hnone =>
      refine ⟨1, s, rest, ?_, Nat.lt_succ_self _, hrest⟩
      simp only [loop, hnone]
    | @start s callers handler hsome =>
      obtain ⟨fuel, v, calls1, hv, hlen1, hrun1⟩ := body_ends_of_reaches ih _ (by omega) hrest
      obtain ⟨fuel', t, calls2, ht, hlen2, hrun2⟩ := ih _ _ calls1 (by omega) hrun1
      refine ⟨max fuel fuel' + 1, t, calls2, ?_, by omega, hrun2⟩
      simp only [loop, hsome]
      refine Option.bind_eq_some_iff.mpr ⟨v, ?_, loop_mono (Nat.le_max_right _ _) ht⟩
      exact run_mono (fun _ _ => nextWith_mono (Nat.le_max_left _ _)) _ hv

/-- The outer call of `Next` returns exactly if the steps of the request come to their end. -/
theorem next_returns_iff {world : σ} : (∃ fuel, Http.Next handlers fuel (.new world) = some t) ↔
    ∃ calls, Reaches handlers (.new world) calls ⟨t, .done, []⟩ := by
  constructor
  · intro h
    obtain ⟨fuel, h⟩ := h
    exact reaches_of_Next h
  · intro h
    obtain ⟨calls, h⟩ := h
    obtain ⟨call, rest, d, rfl, hstep, hrest⟩ := h.first (by simp [Config.new])
    cases hstep
    obtain ⟨fuel, v, calls', hv, -, hrun⟩ := loopEnds handlers t _ _ _ rest (Nat.le_refl _) hrest
    have hdone : (⟨t, .done, []⟩ : Config σ) = leave v [] :=
      hrun.of_stuck fun op => by cases op <;> rfl
    obtain ⟨rfl, -⟩ := Config.mk.inj hdone
    exact ⟨fuel, Option.map_eq_some_iff.mpr ⟨v, hv, rfl⟩⟩

end Config

end CppPrivate.Http
