import CppPrivate.Http.Chain

/-! Middleware as an onion: the first call of `Next` in a handler runs all the handlers behind
it, every later call runs none. The chain of a context is run like this as long as its index,
which counts the calls and the handlers finished, does not wrap. -/
namespace CppPrivate.Http
variable {σ : Type*}

/-- A run of the onion, with the number of times the index has been raised. -/
structure OnionState (σ : Type*) where
  ticks : Nat
  world : σ
  log : List Event

namespace OnionState

def note (s : OnionState σ) (e : Event) : OnionState σ := { s with log := s.log ++ [e] }

def setWorld (s : OnionState σ) (world : σ) : OnionState σ := { s with world }

def tick (s : OnionState σ) : OnionState σ := { s with ticks := s.ticks + 1 }

end OnionState

/-- A handler with `rest` inside it, and whether `rest` is still to be run. -/
def Prog.around (rest : OnionState σ → OnionState σ) :
    Prog σ → Bool → OnionState σ → OnionState σ × Bool
  | .finish world, pending, s => (s.setWorld world, pending)
  | .Next world k, pending, s =>
    let inner := ((s.setWorld world).note .enter).tick
    let t := (if pending then rest inner else inner).note .leave
    (k t.world).around rest false t
  | .Abort world k, pending, s => k.around rest pending (s.setWorld world)
  | .IsAborted world k, pending, s =>
    (k (decide (abortIndex < s.ticks))).around rest pending (s.setWorld world)

/-- The handlers from number `i` on. What no handler has run inside it runs after it. -/
def onion : HandlersChain σ → Nat → OnionState σ → OnionState σ
  | [], _, s => s
  | handler :: rest, i, s =>
    let r := (handler s.world).around (onion rest (i + 1)) true (s.note (.start i))
    let t := (r.1.note (.finish i)).tick
    if r.2 then onion rest (i + 1) t else t

def onionNext (handlers : HandlersChain σ) (world : σ) : OnionState σ :=
  let s : OnionState σ := ⟨0, world, []⟩
  (onion handlers 0 (s.note .enter).tick).note .leave

/-- Handlers finish after they start, and calls are left after they are entered. -/
inductive Event.Pair : Event → Event → Prop
  | handler (i : Nat) : Pair (.start i) (.finish i)
  | call : Pair .enter .leave

/-- The handlers started, in the order in which they are. -/
def starts (log : List Event) : List Nat :=
  log.filterMap fun
    | .start i => some i
    | _ => none

theorem starts_append (l m : List Event) : starts (l ++ m) = starts l ++ starts m :=
  List.filterMap_append

/-- Between `s` and `t` the handlers `ids` start, in a nested run. -/
def Adds (s t : OnionState σ) (ids : List Nat) : Prop :=
  ∃ w, t.log = s.log ++ w ∧ Nested Event.Pair w ∧ starts w = ids ∧
    t.ticks = s.ticks + w.count .enter + ids.length

namespace Adds
variable {s t u : OnionState σ} {ids ids' : List Nat}

theorem same (hlog : t.log = s.log) (hticks : t.ticks = s.ticks) : Adds s t [] :=
  ⟨[], by simp [hlog], .nil, rfl, by simp [hticks]⟩

theorem trans (h : Adds s t ids) (h' : Adds t u ids') : Adds s u (ids ++ ids') := by
  obtain ⟨w, hl, hn, hs, ht⟩ := h
  obtain ⟨w', hl', hn', hs', ht'⟩ := h'
  refine ⟨w ++ w', by rw [hl', hl, List.append_assoc], hn.append hn', ?_, ?_⟩
  · rw [starts_append, hs, hs']
  · rw [ht', ht, List.count_append, List.length_append]
    omega

/-- A call of `Next`, around what runs inside it. -/
theorem call (world : σ) (h : Adds ((s.setWorld world).note .enter).tick t ids) :
    Adds s (t.note .leave) ids := by
  obtain ⟨w, hl, hn, hs, ht⟩ := h
  refine ⟨.enter :: (w ++ [.leave]), ?_, .wrap .call hn, ?_, ?_⟩
  · simp only [OnionState.note, hl, OnionState.tick, OnionState.setWorld]
    simp
  · simp only [starts, List.filterMap_cons, List.filterMap_append]
    simpa [starts] using hs
  · simp only [OnionState.note, ht, OnionState.tick, OnionState.setWorld, List.count_cons,
      List.count_append]
    simp
    omega

/-- A handler, around what runs inside it. -/
theorem handler {i : Nat} (h : Adds (s.note (.start i)) t ids) :
    Adds s (t.note (.finish i)).tick (i :: ids) := by
  obtain ⟨w, hl, hn, hs, ht⟩ := h
  refine ⟨.start i :: (w ++ [.finish i]), ?_, .wrap (.handler i) hn, ?_, ?_⟩
  · simp only [OnionState.note, hl, OnionState.tick]
    simp
  · simp only [starts, List.filterMap_cons, List.filterMap_append]
    simpa [starts] using hs
  · simp only [OnionState.note, ht, OnionState.tick, List.count_cons, List.count_append]
    simp
    omega

theorem le (h : Adds s t ids) : s.ticks + ids.length ≤ t.ticks := by
  obtain ⟨w, -, -, -, ht⟩ := h
  omega

end Adds

/-- A handler starts the handlers behind it at its first call of `Next`, or not at all. -/
theorem Prog.around_adds {rest : OnionState σ → OnionState σ} {ids : List Nat}
    (hrest : ∀ s, Adds s (rest s) ids) (p : Prog σ) (pending : Bool) (s : OnionState σ) :
    Adds s (p.around rest pending s).1
      (if pending && !(p.around rest pending s).2 then ids else []) ∧
    ((p.around rest pending s).2 = true → pending = true) := by
  induction p generalizing pending s with
  | finish world =>
    refine ⟨?_, id⟩
    cases pending <;> exact Adds.same rfl rfl
  | Next world k ih =>
    let inner := ((s.setWorld world).note .enter).tick
    let t := (if pending then rest inner else inner).note .leave
    have hcall : Adds s t (if pending then ids else []) := by
      refine Adds.call world ?_
      split
      · exact hrest inner
      · exact Adds.same rfl rfl
    obtain ⟨hk, hp⟩ := ih t.world false t
    have hfalse : ((k t.world).around rest false t).2 = false :=
      Bool.eq_false_iff.mpr fun h => absurd (hp h) (by decide)
    change Adds s ((k t.world).around rest false t).1
      (if pending && !((k t.world).around rest false t).2 then ids else []) ∧ _
    refine ⟨?_, fun h => absurd (hp h) (by decide)⟩
    simpa [hfalse] using hcall.trans hk
  | Abort world k ih =>
    obtain ⟨h, hp⟩ := ih pending (s.setWorld world)
    exact ⟨h, hp⟩
  | IsAborted world k ih =>
    obtain ⟨h, hp⟩ := ih (decide (abortIndex < s.ticks)) pending (s.setWorld world)
    exact ⟨h, hp⟩

/-- The onion starts each handler once, in order. -/
theorem onion_adds (handlers : HandlersChain σ) (i : Nat) (s : OnionState σ) :
    Adds s (onion handlers i s) (List.range' i handlers.length) := by
  induction handlers generalizing i s with
  | nil => exact Adds.same rfl rfl
  | cons handler rest ih =>
    have hbody := (Prog.around_adds (ih (i + 1)) (handler s.world) true (s.note (.start i))).1
    simp only [onion, List.length_cons, List.range'_succ]
    split
    · rename_i hr
      rw [hr] at hbody
      have hone : Adds s _ [i] := hbody.handler
      exact hone.trans (ih (i + 1) _)
    · rename_i hr
      rw [Bool.not_eq_true] at hr
      rw [hr] at hbody
      exact hbody.handler

theorem onionNext_adds (handlers : HandlersChain σ) (world : σ) :
    Adds ⟨0, world, []⟩ (onionNext handlers world) (List.range handlers.length) := by
  rw [List.range_eq_range']
  exact Adds.call world (onion_adds handlers 0 _)

/-- The context in a state of the onion; its index is one less than the ticks, modulo `2^64`. -/
def concrete (a : OnionState σ) : ChainState σ := ⟨UInt64.ofNat a.ticks - 1, a.world, a.log⟩

theorem concrete_advance (a : OnionState σ) : (concrete a).advance = concrete a.tick := by
  have h : UInt64.ofNat (a.ticks + 1) = UInt64.ofNat a.ticks + 1 := by
    rw [UInt64.ofNat_add]
    rfl
  simp only [concrete, ChainState.advance, OnionState.tick, h, UInt64.sub_add_cancel,
    UInt64.add_sub_cancel]

theorem index_toNat {a : OnionState σ} (h1 : 1 ≤ a.ticks) (h2 : a.ticks ≤ 2 ^ 64) :
    (concrete a).index.toNat = a.ticks - 1 := by
  have hone : (1 : UInt64).toNat = 1 := rfl
  simp only [concrete, UInt64.toNat_sub, UInt64.toNat_ofNat', hone]
  omega

/-- With enough fuel the call ends in the state `a`. -/
def Settles (f : Nat → Option (ChainState σ)) (a : OnionState σ) : Prop :=
  ∃ fuel, ∀ m, fuel ≤ m → f m = some (concrete a)

namespace Settles
variable {f : Nat → Option (ChainState σ)} {a b : OnionState σ}

theorem of_eq (h : ∀ m, f m = some (concrete a)) : Settles f a := ⟨0, fun m _ => h m⟩

theorem bind {g : Nat → ChainState σ → Option (ChainState σ)} (hf : Settles f a)
    (hg : Settles (fun m => g m (concrete a)) b) : Settles (fun m => (f m).bind (g m)) b := by
  obtain ⟨n, hf⟩ := hf
  obtain ⟨n', hg⟩ := hg
  refine ⟨max n n', fun m hm => ?_⟩
  simp only [hf m (by omega), Option.bind_some]
  exact hg m (by omega)

theorem succ {f' : Nat → Option (ChainState σ)} (hf : Settles f a) (h : ∀ m, f' (m + 1) = f m) :
    Settles f' a := by
  obtain ⟨n, hf⟩ := hf
  refine ⟨n + 1, fun m hm => ?_⟩
  obtain ⟨k, rfl⟩ : ∃ k, m = k + 1 := ⟨m - 1, by omega⟩
  rw [h]
  exact hf k (by omega)

end Settles

/-- Past the last handler the loop ends at once. -/
theorem loop_done {handlers : HandlersChain σ} {a : OnionState σ}
    (h : handlers.length + 1 ≤ a.ticks) (hbound : a.ticks ≤ 2 ^ 64) :
    Settles (fun m => loop handlers m (concrete a)) a := by
  have hidx := index_toNat (by omega : 1 ≤ a.ticks) hbound
  have hnone : handlers[(concrete a).index.toNat]? = none :=
    List.getElem?_eq_none_iff.mpr (by omega)
  have hsome : Settles (fun _ => some (concrete a)) a := .of_eq fun _ => rfl
  refine hsome.succ fun m => ?_
  simp only [loop, hnone]

theorem concrete_isAborted {a : OnionState σ} (h1 : 1 ≤ a.ticks) (h2 : a.ticks ≤ 2 ^ 64) :
    (concrete a).IsAborted = decide (abortIndex < a.ticks) := by
  have hidx := index_toNat h1 h2
  have habort : (UInt64.ofNat abortIndex).toNat = abortIndex := by decide
  simp only [ChainState.IsAborted, ge_iff_le, UInt64.le_iff_toNat_le, hidx, habort]
  congr 1
  exact propext (by omega)

/-- Behind a call of `Next` the index is past the chain. -/
theorem inner_ticks {n i : Nat} {rest : HandlersChain σ} (hlen : n = i + 1 + rest.length)
    {pending : Bool} {inner : OnionState σ} (hpend : pending = true → inner.ticks = i + 2)
    (hdone : pending = false → n + 1 ≤ inner.ticks) :
    n + 1 ≤ (if pending then onion rest (i + 1) inner else inner).ticks := by
  cases pending with
  | true =>
    have hticks := hpend rfl
    have hadds := (onion_adds rest (i + 1) inner).le
    rw [List.length_range'] at hadds
    change n + 1 ≤ (onion rest (i + 1) inner).ticks
    omega
  | false => exact hdone rfl

/-- Until a handler calls `Next` the index stays at its number, then it is past the chain. -/
theorem Prog.around_ticks {n i : Nat} {rest : HandlersChain σ} (hlen : n = i + 1 + rest.length)
    (p : Prog σ) (pending : Bool) (a : OnionState σ) (hpend : pending = true → a.ticks = i + 1)
    (hdone : pending = false → n + 1 ≤ a.ticks) :
    ((p.around (onion rest (i + 1)) pending a).2 = true →
        (p.around (onion rest (i + 1)) pending a).1.ticks = i + 1) ∧
      ((p.around (onion rest (i + 1)) pending a).2 = false →
        n + 1 ≤ (p.around (onion rest (i + 1)) pending a).1.ticks) := by
  induction p generalizing pending a with
  | finish world => exact ⟨hpend, hdone⟩
  | Next world k ih =>
    let inner := ((a.setWorld world).note .enter).tick
    let r := if pending then onion rest (i + 1) inner else inner
    have hr : n + 1 ≤ r.ticks :=
      inner_ticks hlen (fun h => congrArg (· + 1) (hpend h)) fun h => Nat.le_succ_of_le (hdone h)
    exact ih r.world false (r.note .leave) (fun h => absurd h (by decide)) fun _ => hr
  | Abort world k ih => exact ih pending (a.setWorld world) hpend hdone
  | IsAborted world k ih => exact ih _ pending (a.setWorld world) hpend hdone

/-- A handler runs in a context as it does in the onion, if the loop does so for the handlers
behind it. -/
theorem Prog.settles {handlers rest : HandlersChain σ} {i : Nat}
    (hlen : handlers.length = i + 1 + rest.length)
    (hrest : ∀ a : OnionState σ, a.ticks = i + 2 → (onion rest (i + 1) a).ticks ≤ 2 ^ 64 →
      Settles (fun m => loop handlers m (concrete a)) (onion rest (i + 1) a))
    (p : Prog σ) (hp : p.NeverAborts) (pending : Bool) (a : OnionState σ)
    (hpend : pending = true → a.ticks = i + 1)
    (hdone : pending = false → handlers.length + 1 ≤ a.ticks)
    (hbound : (p.around (onion rest (i + 1)) pending a).1.ticks ≤ 2 ^ 64) :
    Settles (fun m => p.run (nextWith (loop handlers m)) (concrete a))
      (p.around (onion rest (i + 1)) pending a).1 := by
  have hpos : 1 ≤ a.ticks := by
    cases pending with
    | true => have := hpend rfl; omega
    | false => have := hdone rfl; omega
  induction p generalizing pending a with
  | finish world => exact .of_eq fun _ => rfl
  | Next world k ih =>
    let inner := ((a.setWorld world).note .enter).tick
    let r := if pending then onion rest (i + 1) inner else inner
    let t := r.note .leave
    have hinner : inner.ticks = a.ticks + 1 := rfl
    have hle : r.ticks ≤ 2 ^ 64 := by
      have := (Prog.around_adds (onion_adds rest (i + 1)) (k t.world) false t).1.le
      exact Nat.le_trans (Nat.le_trans (Nat.le_add_right _ _) this) hbound
    have hlast : handlers.length + 1 ≤ r.ticks :=
      inner_ticks hlen (fun h => congrArg (· + 1) (hpend h)) fun h => Nat.le_succ_of_le (hdone h)
    have hr : Settles (fun m => loop handlers m (concrete inner)) r := by
      cases pending with
      | true =>
        have hticks : inner.ticks = i + 2 := by rw [hinner, hpend rfl]
        exact hrest inner hticks hle
      | false => exact loop_done hlast hle
    have hnext : Settles (fun m => nextWith (loop handlers m) ((concrete a).setWorld world)) t := by
      obtain ⟨fuel, hfuel⟩ := hr
      refine ⟨fuel, fun m hm => ?_⟩
      have hstart : (((concrete a).setWorld world).note .enter).advance = concrete inner :=
        concrete_advance ((a.setWorld world).note .enter)
      simp only [nextWith, hstart, hfuel m hm, Option.map_some]
      rfl
    have hk := ih t.world (hp t.world) false t (fun h => absurd h (by decide)) (fun _ => hlast)
      hbound (Nat.le_trans (Nat.le_add_left 1 _) hlast)
    exact hnext.bind hk
  | Abort world k ih => exact hp.elim
  | IsAborted world k ih =>
    have hle : a.ticks ≤ 2 ^ 64 := by
      have := (Prog.around_adds (onion_adds rest (i + 1)) (.IsAborted world k) pending a).1.le
      omega
    have hk := ih (decide (abortIndex < a.ticks)) (hp _) pending (a.setWorld world) hpend hdone
      hbound hpos
    simp only [Prog.run, concrete_isAborted hpos hle]
    exact hk

theorem of_drop_cons {handlers rest : HandlersChain σ} {handler : HandlerFunc σ} {i : Nat}
    (h : handlers.drop i = handler :: rest) : handlers.length = i + 1 + rest.length ∧
      handlers[i]? = some handler ∧ handlers.drop (i + 1) = rest := by
  refine ⟨?_, ?_, ?_⟩
  · have := congrArg List.length h
    rw [List.length_drop, List.length_cons] at this
    omega
  · rw [← Nat.add_zero i, ← List.getElem?_drop, h]
    rfl
  · rw [← List.drop_drop, h]
    rfl

/-- The loop that starts at handler `i` runs the onion from there. -/
theorem loop_settles {handlers : HandlersChain σ}
    (hnever : ∀ handler ∈ handlers, ∀ world, (handler world).NeverAborts)
    (rest : HandlersChain σ) (i : Nat) (hdrop : handlers.drop i = rest) (a : OnionState σ)
    (ha : a.ticks = i + 1) (hi : i ≤ handlers.length)
    (hbound : (onion rest i a).ticks ≤ 2 ^ 64) :
    Settles (fun m => loop handlers m (concrete a)) (onion rest i a) := by
  induction rest generalizing i a with
  | nil =>
    have := List.drop_eq_nil_iff.mp hdrop
    exact loop_done (by omega) hbound
  | cons handler rest ih =>
    obtain ⟨hlen, hget, hdrop'⟩ := of_drop_cons hdrop
    have hle : a.ticks ≤ 2 ^ 64 := by
      have := (onion_adds (handler :: rest) i a).le
      omega
    let r := (handler a.world).around (onion rest (i + 1)) true (a.note (.start i))
    let t := (r.1.note (.finish i)).tick
    have hres : onion (handler :: rest) i a = if r.2 then onion rest (i + 1) t else t := rfl
    have hr1 : r.1.ticks + 1 ≤ 2 ^ 64 := by
      have ht : t.ticks = r.1.ticks + 1 := rfl
      rw [hres] at hbound
      split at hbound
      · have := (onion_adds rest (i + 1) t).le
        omega
      · omega
    have hbody := Prog.settles hlen
      (fun b hb hbb => ih (i + 1) hdrop' b hb (by omega) hbb) (handler a.world)
      (hnever handler (List.mem_of_getElem? hget) a.world) true (a.note (.start i)) (fun _ => ha)
      (fun h => absurd h (by decide)) (Nat.le_of_succ_le hr1)
    obtain ⟨hpend, hdone⟩ := Prog.around_ticks hlen (handler a.world) true (a.note (.start i))
      (fun _ => ha) (fun h => absurd h (by decide))
    have htail : Settles (fun m => loop handlers m (concrete t)) (onion (handler :: rest) i a) := by
      rw [hres] at hbound ⊢
      split
      · rename_i h
        rw [if_pos h] at hbound
        have ht : t.ticks = i + 2 := congrArg (· + 1) (hpend h)
        exact ih (i + 1) hdrop' t ht (by omega) hbound
      · rename_i h
        have ht : handlers.length + 1 + 1 ≤ t.ticks :=
          Nat.succ_le_succ (hdone (Bool.eq_false_iff.mpr h))
        exact loop_done (by omega) hr1
    have hidx : (concrete a).index.toNat = i := by
      rw [index_toNat (by omega) hle]
      omega
    have hloop : Settles (fun m => ((handler a.world).run (nextWith (loop handlers m))
        ((concrete a).note (.start i))).bind fun s =>
          loop handlers m (s.note (.finish i)).advance) (onion (handler :: rest) i a) := by
      have hend : ((concrete r.1).note (.finish i)).advance = concrete t :=
        concrete_advance (r.1.note (.finish i))
      refine hbody.bind ?_
      rw [← hend] at htail
      exact htail
    refine hloop.succ fun m => ?_
    simp only [loop, hidx, hget]
    rfl

/-- The outer call of `Next` runs the onion, as long as calls and handlers together do not
exceed the range of the index. -/
theorem next_settles {handlers : HandlersChain σ} {world : σ}
    (hnever : ∀ handler ∈ handlers, ∀ world, (handler world).NeverAborts)
    (hcalls : (onionNext handlers world).log.count .enter + handlers.length ≤ 2 ^ 64) :
    Settles (fun m => Next handlers m (.new world)) (onionNext handlers world) := by
  let a : OnionState σ := ((⟨0, world, []⟩ : OnionState σ).note .enter).tick
  have hbound : (onion handlers 0 a).ticks ≤ 2 ^ 64 := by
    obtain ⟨w, hlog, -, -, hticks⟩ := onionNext_adds handlers world
    rw [hlog, List.nil_append] at hcalls
    simp only [List.length_range, Nat.zero_add] at hticks
    have : (onionNext handlers world).ticks = (onion handlers 0 a).ticks := rfl
    omega
  obtain ⟨fuel, hfuel⟩ := loop_settles hnever handlers 0 rfl a rfl (Nat.zero_le _) hbound
  refine ⟨fuel, fun m hm => ?_⟩
  have hstart : (((ChainState.new world).note .enter).advance) = concrete a := rfl
  simp only [Next, nextWith, hstart, hfuel m hm, Option.map_some]
  rfl

/-- All ticks but `n` are calls of `Next`. -/
def OnionState.Spends (a : OnionState σ) (n : Nat) : Prop := a.ticks ≤ a.log.count .enter + n

namespace OnionState.Spends
variable {a b : OnionState σ} {ids : List Nat} {n k : Nat}

theorem mono (h : a.Spends n) (hk : n ≤ k) : a.Spends k := by
  simp only [OnionState.Spends] at *
  omega

theorem enter (h : a.Spends n) (world : σ) : ((a.setWorld world).note .enter).tick.Spends n := by
  simp only [OnionState.Spends, tick, note, setWorld, List.count_append,
    List.count_singleton_self] at *
  omega

theorem note (h : a.Spends n) {e : Event} (he : e ≠ .enter) : (a.note e).Spends n := by
  simpa [OnionState.Spends, OnionState.note, List.count_append, List.count_singleton, he] using h

theorem finish (h : a.Spends n) (i : Nat) : (a.note (.finish i)).tick.Spends (n + 1) :=
  Nat.succ_le_succ (h.note (e := .finish i) nofun)

theorem adds (h : a.Spends n) (hadds : Adds a b ids) : b.Spends (n + ids.length) := by
  obtain ⟨w, hlog, -, -, hticks⟩ := hadds
  simp only [OnionState.Spends, hlog, hticks, List.count_append] at *
  omega

theorem ticks_le (h : a.Spends n) (hk : a.log.count .enter ≤ k) (hcalls : k + n ≤ 2 ^ 64) :
    a.ticks ≤ 2 ^ 64 := by
  simp only [OnionState.Spends] at h
  omega

end OnionState.Spends

theorem inner_spends {i : Nat} {rest : HandlersChain σ} {pending : Bool} {inner : OnionState σ}
    (h : inner.Spends (if pending then i else i + rest.length)) :
    (if pending then onion rest (i + 1) inner else inner).Spends (i + rest.length) := by
  cases pending with
  | true =>
    have hall := h.adds (onion_adds rest (i + 1) inner)
    rw [List.length_range'] at hall
    exact hall
  | false => exact h

/-- A handler that has not called `Next` has had none run, otherwise all behind it. -/
theorem Prog.around_spends {i : Nat} {rest : HandlersChain σ} {a : OnionState σ}
    (h : a.Spends i) (p : Prog σ) :
    ((p.around (onion rest (i + 1)) true a).2 = true →
        (p.around (onion rest (i + 1)) true a).1.Spends i) ∧
      (p.around (onion rest (i + 1)) true a).1.Spends (i + rest.length) := by
  have hadds := (Prog.around_adds (onion_adds rest (i + 1)) p true a).1
  have hr := h.adds hadds
  constructor
  · intro hpending
    rw [hpending] at hr
    exact hr
  · refine hr.mono (Nat.add_le_add_left ?_ i)
    split
    · exact Nat.le_of_eq List.length_range'
    · exact Nat.zero_le _

/-- What a note in the log adds to the number of events `e`. -/
theorem count_note (s : ChainState σ) (c e : Event) :
    (s.note c).log.count e = s.log.count e + if c = e then 1 else 0 := by
  simp [ChainState.note, List.count_append, List.count_singleton]

theorem nextWith_enters {f : ChainState σ → Option (ChainState σ)} {s t : ChainState σ}
    (hf : ∀ u v, f u = some v → u.log.count .enter ≤ v.log.count .enter)
    (h : nextWith f s = some t) : s.log.count .enter ≤ t.log.count .enter := by
  obtain ⟨u, hu, rfl⟩ := Option.map_eq_some_iff.mp h
  have hle := hf _ _ hu
  rw [log_advance, count_note] at hle
  rw [count_note]
  omega

theorem Prog.run_enters {next : ChainState σ → Option (ChainState σ)} {s t : ChainState σ}
    (hnext : ∀ u v, next u = some v → u.log.count .enter ≤ v.log.count .enter) (p : Prog σ)
    (h : p.run next s = some t) : s.log.count .enter ≤ t.log.count .enter := by
  induction p generalizing s with
  | finish world =>
    cases h
    exact Nat.le_refl _
  | Next world k ih =>
    obtain ⟨u, hu, hk⟩ := Option.bind_eq_some_iff.mp h
    exact Nat.le_trans (hnext (s.setWorld world) u hu) (ih u.world hk)
  | Abort world k ih => exact ih (s := (s.setWorld world).Abort) h
  | IsAborted world k ih => exact ih s.IsAborted (s := s.setWorld world) h

/-- Calls of `Next` stay in the log. -/
theorem loop_enters {handlers : HandlersChain σ} {m : Nat} {s t : ChainState σ}
    (h : loop handlers m s = some t) : s.log.count .enter ≤ t.log.count .enter := by
  induction m generalizing s t with
  | zero => cases h
  | succ m ih =>
    rw [loop] at h
    split at h
    · cases h
      exact Nat.le_refl _
    · obtain ⟨u, hu, htail⟩ := Option.bind_eq_some_iff.mp h
      have hbody := Prog.run_enters (fun _ _ => nextWith_enters fun _ _ => ih) _ hu
      have hrest := ih htail
      rw [count_note] at hbody
      rw [log_advance, count_note] at hrest
      omega

/-- Past the last handler the loop changes nothing. -/
theorem loop_idle {handlers : HandlersChain σ} {m : Nat} {a : OnionState σ} {t : ChainState σ}
    (hdone : handlers.length + 1 ≤ a.ticks) (hspends : a.Spends handlers.length)
    (h : loop handlers m (concrete a) = some t)
    (hcalls : t.log.count .enter + handlers.length ≤ 2 ^ 64) : t = concrete a := by
  have hidx := index_toNat (by omega) (hspends.ticks_le (loop_enters h) hcalls)
  have hnone : handlers[(concrete a).index.toNat]? = none :=
    List.getElem?_eq_none_iff.mpr (by omega)
  cases m with
  | zero => cases h
  | succ m =>
    simp only [loop, hnone] at h
    exact (Option.some.inj h).symm

/-- A run of a handler in a context that ends is the one in the onion, if those of the loop are for
the handlers behind it. -/
theorem Prog.follows {handlers rest : HandlersChain σ} {i m : Nat}
    (hlen : handlers.length = i + 1 + rest.length)
    (hrest : ∀ (a : OnionState σ) (t : ChainState σ), a.ticks = i + 2 → a.Spends (i + 1) →
      loop handlers m (concrete a) = some t → t.log.count .enter + handlers.length ≤ 2 ^ 64 →
        t = concrete (onion rest (i + 1) a))
    (p : Prog σ) (hp : p.NeverAborts) (pending : Bool) (a : OnionState σ)
    (hpend : pending = true → a.ticks = i + 1)
    (hdone : pending = false → handlers.length + 1 ≤ a.ticks)
    (hspends : a.Spends (if pending then i else i + rest.length)) {t : ChainState σ}
    (h : p.run (nextWith (loop handlers m)) (concrete a) = some t)
    (hcalls : t.log.count .enter + handlers.length ≤ 2 ^ 64) :
    t = concrete (p.around (onion rest (i + 1)) pending a).1 := by
  have hnext : ∀ u v : ChainState σ, nextWith (loop handlers m) u = some v →
      u.log.count .enter ≤ v.log.count .enter := fun _ _ => nextWith_enters fun _ _ => loop_enters
  induction p generalizing pending a with
  | finish world =>
    cases h
    rfl
  | Next world k ih =>
    let inner := ((a.setWorld world).note .enter).tick
    let r := if pending then onion rest (i + 1) inner else inner
    have hinner : inner.ticks = a.ticks + 1 := rfl
    obtain ⟨u, hu, hk⟩ := Option.bind_eq_some_iff.mp h
    obtain ⟨v, hv, rfl⟩ := Option.map_eq_some_iff.mp hu
    have hstart : (((concrete a).setWorld world).note .enter).advance = concrete inner :=
      concrete_advance ((a.setWorld world).note .enter)
    rw [hstart] at hv
    have hv_calls : v.log.count .enter + handlers.length ≤ 2 ^ 64 := by
      have hle := Prog.run_enters hnext _ hk
      rw [count_note] at hle
      omega
    have hinner_spends := hspends.enter world
    have hlast : handlers.length + 1 ≤ r.ticks :=
      inner_ticks hlen (fun h => congrArg (· + 1) (hpend h)) fun h => Nat.le_succ_of_le (hdone h)
    have hr : v = concrete r := by
      cases pending with
      | true =>
        have hticks : inner.ticks = i + 2 := by rw [hinner, hpend rfl]
        exact hrest inner v hticks (hinner_spends.mono (Nat.le_succ i)) hv hv_calls
      | false =>
        have hmany : inner.Spends (i + rest.length) := hinner_spends
        exact loop_idle hlast (hmany.mono (by omega)) hv hv_calls
    subst hr
    exact ih r.world (hp r.world) false (r.note .leave) (fun h => absurd h (by decide))
      (fun _ => hlast) ((inner_spends hinner_spends).note nofun) hk
  | Abort world k ih => exact hp.elim
  | IsAborted world k ih =>
    have hpos : 1 ≤ a.ticks := by
      cases pending with
      | true => have := hpend rfl; omega
      | false => have := hdone rfl; omega
    have hle : a.ticks ≤ 2 ^ 64 := by
      have hgrow : a.log.count .enter ≤ t.log.count .enter := Prog.run_enters hnext _ h
      have hall : a.Spends (i + rest.length) := hspends.mono (by split <;> omega)
      exact hall.ticks_le hgrow (by omega)
    simp only [Prog.run, concrete_isAborted hpos hle] at h
    exact ih _ (hp _) pending (a.setWorld world) hpend hdone hspends h

/-- A run of the loop from handler `i` on that ends is the onion's. -/
theorem loop_follows {handlers : HandlersChain σ}
    (hnever : ∀ handler ∈ handlers, ∀ world, (handler world).NeverAborts) {m : Nat}
    (rest : HandlersChain σ) (i : Nat) (hdrop : handlers.drop i = rest) (a : OnionState σ)
    (ha : a.ticks = i + 1) (hi : i ≤ handlers.length) (hspends : a.Spends i) {t : ChainState σ}
    (h : loop handlers m (concrete a) = some t)
    (hcalls : t.log.count .enter + handlers.length ≤ 2 ^ 64) : t = concrete (onion rest i a) := by
  induction m generalizing rest i a t with
  | zero => cases h
  | succ m ih =>
    have hgrow : a.log.count .enter ≤ t.log.count .enter := loop_enters h
    cases rest with
    | nil =>
      have := List.drop_eq_nil_iff.mp hdrop
      have hlast : handlers.length + 1 ≤ a.ticks := by omega
      exact loop_idle hlast (hspends.mono hi) h hcalls
    | cons handler rest =>
      obtain ⟨hlen, hget, hdrop'⟩ := of_drop_cons hdrop
      have hidx : (concrete a).index.toNat = i := by
        rw [index_toNat (by omega) (hspends.ticks_le hgrow (by omega))]
        omega
      simp only [loop, hidx, hget] at h
      obtain ⟨u, hu, htail⟩ := Option.bind_eq_some_iff.mp h
      have hu_calls : u.log.count .enter + handlers.length ≤ 2 ^ 64 := by
        have hle := loop_enters htail
        rw [log_advance, count_note] at hle
        omega
      let b := a.note (.start i)
      let r := (handler a.world).around (onion rest (i + 1)) true b
      have hb : b.Spends i := hspends.note nofun
      have hfalse : true = false → handlers.length + 1 ≤ b.ticks := fun h => absurd h (by decide)
      have hbody : u = concrete r.1 := Prog.follows hlen
        (fun c v hc hs hv hv_calls => ih rest (i + 1) hdrop' c hc (by omega) hs hv hv_calls)
        (handler a.world) (hnever handler (List.mem_of_getElem? hget) a.world) true b (fun _ => ha)
        hfalse hb hu hu_calls
      obtain ⟨hpend, hdone⟩ := Prog.around_ticks hlen (handler a.world) true b (fun _ => ha) hfalse
      obtain ⟨hnone, hall⟩ := @Prog.around_spends _ i rest b hb (handler a.world)
      let c := (r.1.note (.finish i)).tick
      have hend : ((concrete r.1).note (.finish i)).advance = concrete c :=
        concrete_advance (r.1.note (.finish i))
      rw [hbody, hend] at htail
      have hres : onion (handler :: rest) i a = if r.2 then onion rest (i + 1) c else c := rfl
      rw [hres]
      split
      · rename_i hr
        have hticks : c.ticks = i + 2 := congrArg (· + 1) (hpend hr)
        have hc : c.Spends (i + 1) := (hnone hr).finish i
        exact ih rest (i + 1) hdrop' c hticks (by omega) hc htail hcalls
      · rename_i hr
        have hticks : handlers.length + 1 + 1 ≤ c.ticks :=
          Nat.succ_le_succ (hdone (Bool.eq_false_iff.mpr hr))
        have hc : c.Spends handlers.length := (hall.finish i).mono (by omega)
        exact loop_idle (by omega) hc htail hcalls

/-- An outer call of `Next` that ends, and in which calls and handlers do not exceed the range of the
index, is a run of the onion. -/
theorem next_follows {handlers : HandlersChain σ} {world : σ} {m : Nat} {t : ChainState σ}
    (hnever : ∀ handler ∈ handlers, ∀ world, (handler world).NeverAborts)
    (h : Next handlers m (.new world) = some t)
    (hcalls : t.log.count .enter + handlers.length ≤ 2 ^ 64) :
    t = concrete (onionNext handlers world) := by
  let a : OnionState σ := ((⟨0, world, []⟩ : OnionState σ).note .enter).tick
  obtain ⟨u, hu, rfl⟩ := Option.map_eq_some_iff.mp h
  have hstart : (((ChainState.new world).note .enter).advance) = concrete a := rfl
  rw [hstart] at hu
  have hu_calls : u.log.count .enter + handlers.length ≤ 2 ^ 64 := by
    rw [count_note] at hcalls
    omega
  rw [loop_follows hnever handlers 0 rfl a rfl (Nat.zero_le _) (Nat.le_refl 1) hu hu_calls]
  rfl

/-- When a call of `Next` is left, the handlers started inside it have finished. -/
theorem finished_at_leave {log : List Event} (h : Nested Event.Pair log) {u v : List Event}
    (hlog : log = u ++ .enter :: v) :
    ∃ x y, v = x ++ .leave :: y ∧ ∀ i, x.count (.start i) = x.count (.finish i) := by
  have hopen : ∀ c, ¬ Event.Pair c .enter := by
    intro c hc
    cases hc
  obtain ⟨x, b, y, hv, hb, hx⟩ := h.closed hlog hopen
  cases hb
  refine ⟨x, y, hv, fun i => hx.count_eq ?_ ?_ ?_⟩
  · intro c d hcd
    cases hcd <;> simp
  · intro c hc
    cases hc
  · intro d hd
    cases hd

/-- What is observed of a call that runs `n` handlers: each starts once, in order, and the run is
nested. -/
def Orderly (n : Nat) (log : List Event) : Prop :=
  starts log = List.range n ∧ Nested Event.Pair log ∧
    ∀ u v, log = u ++ .enter :: v →
      ∃ x y, v = x ++ .leave :: y ∧ ∀ i, x.count (.start i) = x.count (.finish i)

theorem orderly_onionNext (handlers : HandlersChain σ) (world : σ) :
    Orderly handlers.length (concrete (onionNext handlers world)).log := by
  obtain ⟨w, hlog, hnest, hstarts, -⟩ := onionNext_adds handlers world
  rw [List.nil_append] at hlog
  have hn : Nested Event.Pair (onionNext handlers world).log := by
    rw [hlog]
    exact hnest
  refine ⟨?_, hn, fun u v h => finished_at_leave hn h⟩
  simp only [concrete, hlog, hstarts]

/-- Handlers that never abort, run by an outer call of `Next`. A run that ends with no more than
`2^64` calls of `Next` and handlers together is orderly, and a call whose onion has no more ends. -/
theorem chain_runs_nested {handlers : HandlersChain σ} {world : σ}
    (hnever : ∀ handler ∈ handlers, ∀ world, (handler world).NeverAborts) :
    (∀ m t, Next handlers m (.new world) = some t →
      t.log.count .enter + handlers.length ≤ 2 ^ 64 → Orderly handlers.length t.log) ∧
    ((onionNext handlers world).log.count .enter + handlers.length ≤ 2 ^ 64 →
      ∃ fuel, ∀ m, fuel ≤ m → ∃ t, Next handlers m (.new world) = some t ∧
        t.log.count .enter + handlers.length ≤ 2 ^ 64 ∧ Orderly handlers.length t.log) := by
  constructor
  · intro m t h hcalls
    rw [next_follows hnever h hcalls]
    exact orderly_onionNext handlers world
  · intro hcalls
    obtain ⟨fuel, hfuel⟩ := next_settles hnever hcalls
    exact ⟨fuel, fun m hm => ⟨_, hfuel m hm, hcalls, orderly_onionNext handlers world⟩⟩

/-- A handler that calls `Next` once, as the middleware of the test program does. -/
def Access : HandlerFunc Unit := fun _ => .Next () fun _ => .finish ()

/-- A handler that calls no function of the chain. -/
def GET_TEST : HandlerFunc Unit := fun _ => .finish ()

/-- Two middleware handlers and a route handler. -/
theorem chain_runs_nested_test : ∃ t, Next [Access, Access, GET_TEST] 4 (.new ()) = some t ∧
    t.log.count .enter = 3 ∧ Orderly 3 t.log ∧ ∃ fuel, ∀ m, fuel ≤ m →
      ∃ t, Next [Access, Access, GET_TEST] m (.new ()) = some t ∧
        t.log.count .enter + 3 ≤ 2 ^ 64 ∧ Orderly 3 t.log := by
  have hnever : ∀ handler ∈ [Access, Access, GET_TEST], ∀ world : Unit,
      (handler world).NeverAborts := by
    intro handler h world
    simp only [List.mem_cons, List.not_mem_nil, or_false] at h
    rcases h with rfl | rfl | rfl
    · exact fun _ => trivial
    · exact fun _ => trivial
    · trivial
  obtain ⟨hruns, hends⟩ := @chain_runs_nested Unit _ () hnever
  have h : (Next [Access, Access, GET_TEST] 4 (.new ())).map (fun t => t.log.count .enter) =
      some 3 := by decide
  obtain ⟨t, ht, hcount⟩ := Option.map_eq_some_iff.mp h
  exact ⟨t, ht, hcount, hruns 4 t ht (by rw [hcount]; decide), hends (by decide)⟩

def nexts (world : σ) : Nat → Prog σ
  | 0 => .finish world
  | n + 1 => .Next world fun _ => nexts world n

/-- Calls of `Next` `n` times, but only at its first start. -/
def once (n : Nat) : HandlerFunc Bool := fun started =>
  if started then .finish true else nexts true n

theorem nexts_neverAborts (world : σ) (n : Nat) : (nexts world n).NeverAborts := by
  induction n with
  | zero => trivial
  | succ n ih => exact fun _ => ih

theorem once_neverAborts (n : Nat) (started : Bool) : (once n started).NeverAborts := by
  cases started
  · exact nexts_neverAborts true n
  · trivial

theorem advance_toNat (s : ChainState σ) : s.advance.index.toNat = (s.index.toNat + 1) % 2 ^ 64 :=
  UInt64.toNat_add s.index 1

/-- Behind a chain of one handler, calls of `Next` only raise the index, up to its last value. -/
theorem nexts_idle (handler : HandlerFunc σ) (world : σ) (m n k : Nat) (s : ChainState σ)
    (h : s.index.toNat + n < 2 ^ 64) :
    ∃ t : ChainState σ, (nexts world (n + k)).run (nextWith (loop [handler] (m + 1))) s =
        (nexts world k).run (nextWith (loop [handler] (m + 1))) t ∧
      t.index.toNat = s.index.toNat + n ∧
      t.log.count (.start 0) = s.log.count (.start 0) := by
  induction n generalizing s with
  | zero => exact ⟨s, by rw [Nat.zero_add], rfl, rfl⟩
  | succ n ih =>
    let s' := ((s.setWorld world).note .enter).advance
    have hidx : s'.index.toNat = s.index.toNat + 1 := by
      have : s'.index.toNat = (s.index.toNat + 1) % 2 ^ 64 := advance_toNat _
      omega
    have hnone : [handler][s'.index.toNat]? = none := List.getElem?_eq_none_iff.mpr (by
      rw [List.length_singleton]
      omega)
    have hnext : nextWith (loop [handler] (m + 1)) (s.setWorld world) = some (s'.note .leave) := by
      have hloop : loop [handler] (m + 1) s' = some s' := by simp only [loop, hnone]
      simp only [nextWith, s'] at hloop ⊢
      rw [hloop]
      rfl
    have hidx' : (s'.note .leave).index.toNat = s.index.toNat + 1 := hidx
    obtain ⟨t, hrun, hindex, hcount⟩ := ih (s'.note .leave) (by omega)
    refine ⟨t, ?_, by omega, ?_⟩
    · rw [show n + 1 + k = n + k + 1 by omega, nexts, Prog.run, hnext]
      exact hrun
    · rw [hcount]
      simp [s', ChainState.note, ChainState.advance, ChainState.setWorld]

theorem loop_start {handler : HandlerFunc σ} {m : Nat} {s t : ChainState σ}
    (h0 : s.index.toNat = 0)
    (hrun : (handler s.world).run (nextWith (loop [handler] m)) (s.note (.start 0)) = some t) :
    loop [handler] (m + 1) s = loop [handler] m (t.note (.finish 0)).advance := by
  simp only [loop, h0, List.getElem?_cons_zero, hrun, Option.bind_some]

theorem loop_end {handler : HandlerFunc σ} {m : Nat} {s : ChainState σ} (h : 1 ≤ s.index.toNat) :
    loop [handler] (m + 1) s = some s := by
  have hnone : [handler][s.index.toNat]? = none := List.getElem?_eq_none_iff.mpr h
  simp only [loop, hnone]

theorem count_starts (log : List Event) (i : Nat) : (starts log).count i = log.count (.start i) := by
  induction log with
  | nil => rfl
  | cons e log ih =>
    rw [List.count_cons, ← ih]
    cases e <;> simp [starts, List.count_cons]

theorem once_restarts {n : Nat} (hn : n = 2 ^ 64) :
    ∃ t, Next [once n] 3 (.new false) = some t ∧ t.log.count (.start 0) = 2 := by
  let s := ((ChainState.new false).note .enter).advance
  have hs : s.index.toNat = 0 := rfl
  have hroom : (s.note (.start 0)).index.toNat + (2 ^ 64 - 1) < 2 ^ 64 := by
    change 0 + _ < _
    omega
  obtain ⟨t, hidle, hidx, hcount⟩ := nexts_idle (once n) true 1 (2 ^ 64 - 1) 1 _ hroom
  have hidx : t.index.toNat = 2 ^ 64 - 1 := by
    rw [hidx]
    change 0 + _ = _
    omega
  -- the last call raises the index to zero again
  let u := ((t.setWorld true).note .enter).advance
  have hu : u.index.toNat = 0 := by
    have : u.index.toNat = (t.index.toNat + 1) % 2 ^ 64 := advance_toNat _
    omega
  let v := ((u.note (.start 0)).note (.finish 0)).advance
  have hv : v.index.toNat = 1 := by
    have : v.index.toNat = (u.index.toNat + 1) % 2 ^ 64 := advance_toNat _
    omega
  have hagain : loop [once n] 2 u = some v := by
    rw [loop_start hu rfl]
    exact loop_end (Nat.le_of_eq hv.symm)
  let w := ((v.note .leave).setWorld true).note (.finish 0)
  have hw : 1 ≤ w.advance.index.toNat := by
    have : w.advance.index.toNat = (v.index.toNat + 1) % 2 ^ 64 := advance_toNat _
    omega
  have hbody : (once n s.world).run (nextWith (loop [once n] 2)) (s.note (.start 0)) =
      some ((v.note .leave).setWorld true) := by
    have hsum : n = 2 ^ 64 - 1 + 1 := by omega
    have honce : once n s.world = nexts true (2 ^ 64 - 1 + 1) := by
      rw [← hsum]
      rfl
    have hnext : nextWith (loop [once n] 2) (t.setWorld true) = some (v.note .leave) := by
      simp only [nextWith]
      rw [show ((t.setWorld true).note .enter).advance = u from rfl, hagain]
      rfl
    rw [honce, hidle, nexts, Prog.run, hnext]
    rfl
  refine ⟨w.advance.note .leave, ?_, ?_⟩
  · simp only [Next, nextWith]
    rw [show ((ChainState.new false).note .enter).advance = s from rfl, loop_start hs hbody,
      loop_end hw]
    rfl
  · have hcount : t.log.count (.start 0) = 1 := hcount
    have hlog : (w.advance.note .leave).log = (((((t.note .enter).note (.start 0)).note
        (.finish 0)).note .leave).note (.finish 0)).log ++ [.leave] := rfl
    rw [hlog, List.count_append, count_note, count_note, count_note, count_note, count_note, hcount]
    rfl

/-- With `2^64` calls of `Next` in it, the only handler of a chain is started twice. -/
theorem index_wraps : ∃ t, Next [once (2 ^ 64)] 3 (.new false) = some t ∧
    (∀ handler ∈ [once (2 ^ 64)], ∀ world, (handler world).NeverAborts) ∧
    t.log.count (.start 0) = 2 ∧ starts t.log ≠ List.range 1 := by
  obtain ⟨t, hrun, hcount⟩ := once_restarts (rfl : 2 ^ 64 = 2 ^ 64)
  refine ⟨t, hrun, ?_, hcount, ?_⟩
  · intro handler h world
    rw [List.mem_singleton.mp h]
    exact once_neverAborts _ world
  · intro h
    have h2 : (starts t.log).count 0 = 2 := (count_starts t.log 0).trans hcount
    rw [h] at h2
    cases h2

end CppPrivate.Http
