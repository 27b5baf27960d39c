import CppPrivate.Http.Onion
import CppPrivate.Http.Steps

/-! What `Abort` stops. It moves the index to 63, where it keeps counting, so that it ends a
chain of at most 64 handlers and no longer one. -/
namespace CppPrivate.Http
namespace Config
open CppPrivate.Run
variable {σ : Type*} {handlers : HandlersChain σ} {world : σ} {s t : ChainState σ}
  {c d e : Config σ} {calls calls' : List Call} {callers : List (Nat × (σ → Prog σ))}

/-- The index does not wrap in the step, other than in the first one. -/
def Room (c : Config σ) (call : Call) : Prop :=
  c.control ≠ .idle → call = .Next ∨ call = .finish → c.state.index.toNat + 1 < 2 ^ 64

def Bounded (handlers : HandlersChain σ) (world : σ) : Prop :=
  ∀ calls c call d, Reaches handlers (.new world) calls c → step handlers c call = some d →
    c.Room call

def Ends (handlers : HandlersChain σ) (c : Config σ) : Prop :=
  ∃ calls t, Reaches handlers c calls ⟨t, .done, []⟩

/-- What a call of `Abort` promises: of all handlers only those run that have started, none of
them starts again, and the request comes to its end. -/
structure Stops (handlers : HandlersChain σ) (c : Config σ) : Prop where
  no_new : ∀ calls d, Reaches handlers c calls d →
    ∀ i ∈ starts d.state.log, i ∈ starts c.state.log
  once : ∀ calls d, Reaches handlers c calls d → (starts d.state.log).Nodup
  ends : Ends handlers c

theorem starts_note (s : ChainState σ) (e : Event) :
    starts (s.note e).log = starts s.log ++ starts [e] :=
  starts_append s.log [e]

theorem starts_note_start (s : ChainState σ) (i : Nat) :
    starts (s.note (.start i)).log = starts s.log ++ [i] :=
  starts_note s (.start i)

@[simp] theorem starts_note_enter (s : ChainState σ) :
    starts (s.note .enter).log = starts s.log :=
  (starts_note s .enter).trans (List.append_nil _)

@[simp] theorem starts_note_leave (s : ChainState σ) :
    starts (s.note .leave).log = starts s.log :=
  (starts_note s .leave).trans (List.append_nil _)

@[simp] theorem starts_note_finish (s : ChainState σ) (i : Nat) :
    starts (s.note (.finish i)).log = starts s.log :=
  (starts_note s (.finish i)).trans (List.append_nil _)

@[simp] theorem index_note (s : ChainState σ) (e : Event) : (s.note e).index = s.index := rfl

theorem starts_leave (s : ChainState σ) (callers : List (Nat × (σ → Prog σ))) :
    starts (leave s callers).state.log = starts s.log := by
  cases callers with
  | nil => exact starts_note_leave s
  | cons caller callers => exact starts_note_leave s

theorem index_leave (s : ChainState σ) (callers : List (Nat × (σ → Prog σ))) :
    (leave s callers).state.index = s.index := by
  cases callers <;> rfl

theorem index_Abort (s : ChainState σ) : s.Abort.index.toNat = 63 := rfl

theorem advance_of_room (h : s.index.toNat + 1 < 2 ^ 64) :
    s.advance.index.toNat = s.index.toNat + 1 := by
  rw [advance_toNat]
  exact Nat.mod_eq_of_lt h

/-- The handlers that have started are below this number. -/
def limit (c : Config σ) : Nat :=
  match c.control with
  | .idle => 0
  | .test | .done => c.state.index.toNat
  | .body _ _ => c.state.index.toNat + 1

theorem limit_leave (s : ChainState σ) (callers : List (Nat × (σ → Prog σ))) :
    s.index.toNat ≤ (leave s callers).limit := by
  cases callers with
  | nil => exact Nat.le_refl _
  | cons caller callers => exact Nat.le_succ _

structure Ordered (handlers : HandlersChain σ) (c : Config σ) : Prop where
  sorted : (starts c.state.log).Pairwise (· < ·)
  lt_length : ∀ i ∈ starts c.state.log, i < handlers.length
  lt_limit : ∀ i ∈ starts c.state.log, i < c.limit

theorem ordered_new (handlers : HandlersChain σ) (world : σ) :
    Ordered handlers (.new world) := by
  refine ⟨.nil, ?_, ?_⟩ <;> intro i hi <;> cases hi

theorem Ordered.quiet (hc : Ordered handlers c) (hlog : starts d.state.log = starts c.state.log)
    (hlimit : ∀ i ∈ starts c.state.log, i < d.limit) : Ordered handlers d := by
  refine ⟨?_, ?_, ?_⟩
  · rw [hlog]
    exact hc.sorted
  · rw [hlog]
    exact hc.lt_length
  · rw [hlog]
    exact hlimit

/-- In a chain of at most 64 handlers every step keeps the order. -/
theorem ordered_step {call : Call} (hlen : handlers.length ≤ 64) (hc : Ordered handlers c)
    (hroom : c.Room call) (h : step handlers c call = some d) : Ordered handlers d := by
  have hlimit := hc.lt_limit
  cases stepped_of_step h with
  | enter =>
    apply hc.quiet (by simp)
    intro i hi
    exact absurd (hlimit i hi) (Nat.not_lt_zero i)
  | leave =>
    apply hc.quiet (starts_leave _ _)
    intro i hi
    exact Nat.lt_of_lt_of_le (hlimit i hi) (limit_leave _ _)
  | start hget =>
    have hlt := (List.getElem?_eq_some_iff.mp hget).1
    refine ⟨?_, ?_, ?_⟩
    · rw [starts_note_start]
      apply List.pairwise_append.mpr ⟨hc.sorted, List.pairwise_singleton _ _, ?_⟩
      intro i hi j hj
      rw [List.mem_singleton.mp hj]
      exact hlimit i hi
    · rw [starts_note_start]
      exact List.forall_mem_append.mpr ⟨hc.lt_length, List.forall_mem_singleton.mpr hlt⟩
    · rw [starts_note_start]
      refine List.forall_mem_append.mpr ⟨?_, List.forall_mem_singleton.mpr (Nat.lt_succ_self _)⟩
      intro i hi
      exact Nat.lt_succ_of_lt (hlimit i hi)
  | @finish s callers i w =>
    have hadv := @advance_of_room σ ((s.setWorld w).note (.finish i)) (hroom (by simp) (Or.inr rfl))
    apply hc.quiet (by simp)
    simp only [limit, hadv]
    exact hlimit
  | @Next s callers i w k =>
    have hadv := @advance_of_room σ ((s.setWorld w).note .enter) (hroom (by simp) (Or.inl rfl))
    apply hc.quiet (by simp)
    simp only [limit, hadv]
    exact hlimit
  | Abort =>
    apply hc.quiet (by simp)
    intro j hj
    have := hc.lt_length j hj
    simp only [limit, index_Abort]
    omega
  | IsAborted => exact hc.quiet (by simp) hlimit

/-- In a request whose index does not wrap, every step leaves room for itself. -/
theorem Bounded.runs (hb : Bounded handlers world) (hc : Reaches handlers (.new world) calls c)
    (h : Reaches handlers c calls' d) : Runs (step handlers) Room c calls' d := by
  induction h with
  | nil => exact .nil
  | snoc hr _ hstep ih => exact ih.snoc (hb _ _ _ _ (hc.append hr) hstep) hstep

theorem Bounded.ordered (hb : Bounded handlers world) (hlen : handlers.length ≤ 64)
    (h : Reaches handlers (.new world) calls c) : Ordered handlers c :=
  (hb.runs .nil h).invariant (Ordered handlers) (ordered_new handlers world)
    fun _ _ _ hc hroom hstep => ordered_step hlen hc hroom hstep

/-- Past a call of `Abort` the index has passed 63, which is past every handler. -/
def Past (c : Config σ) : Prop :=
  match c.control with
  | .idle => False
  | .test | .done => 64 ≤ c.state.index.toNat
  | .body _ _ => 63 ≤ c.state.index.toNat

theorem past_leave (h : 64 ≤ s.index.toNat) : (leave s callers).Past := by
  cases callers with
  | nil => exact h
  | cons caller callers => exact Nat.le_of_succ_le h

/-- Past a call of `Abort` no step starts a handler. -/
theorem past_step {call : Call} (hlen : handlers.length ≤ 64) (hc : c.Past) (hroom : c.Room call)
    (h : step handlers c call = some d) :
    d.Past ∧ starts d.state.log = starts c.state.log := by
  cases stepped_of_step h with
  | enter => exact hc.elim
  | leave => exact ⟨past_leave hc, starts_leave _ _⟩
  | @start s callers handler hget =>
    have hlt := (List.getElem?_eq_some_iff.mp hget).1
    have hindex : 64 ≤ s.index.toNat := hc
    omega
  | @finish s callers i w =>
    have hadv := @advance_of_room σ ((s.setWorld w).note (.finish i)) (hroom (by simp) (Or.inr rfl))
    refine ⟨?_, by simp⟩
    simp only [Past, hadv]
    exact Nat.succ_le_succ hc
  | @Next s callers i w k =>
    have hadv := @advance_of_room σ ((s.setWorld w).note .enter) (hroom (by simp) (Or.inl rfl))
    refine ⟨?_, by simp⟩
    simp only [Past, hadv]
    exact Nat.succ_le_succ hc
  | Abort => exact ⟨Nat.le_of_eq (index_Abort _).symm, by simp⟩
  | IsAborted => exact ⟨hc, by simp⟩

theorem test_leaves (h : handlers.length ≤ s.index.toNat) :
    step handlers ⟨s, .test, callers⟩ .test = some (leave s callers) := by
  have hnone : handlers[s.index.toNat]? = none := List.getElem?_eq_none_iff.mpr h
  simp only [step, hnone]

theorem test_starts (s : ChainState σ) (callers : List (Nat × (σ → Prog σ)))
    (h : s.index.toNat < handlers.length) : ∃ d,
    step handlers ⟨s, .test, callers⟩ .test = some d ∧
    starts d.state.log = starts s.log ++ [s.index.toNat] := by
  have hsome := List.getElem?_eq_getElem h
  refine ⟨⟨s.note (.start s.index.toNat), .body s.index.toNat (handlers[s.index.toNat] s.world),
    callers⟩, ?_, starts_note_start s s.index.toNat⟩
  simp only [step, hsome]

theorem Ends.step {call : Call} (hs : step handlers c call = some d) (h : Ends handlers d) :
    Ends handlers c := by
  obtain ⟨calls, t, hd⟩ := h
  exact ⟨call :: calls, t, Runs.cons trivial hs hd⟩

/-- Past a call of `Abort` a handler runs to its end, and so does its caller. -/
theorem body_ends (hb : Bounded handlers world) (hlen : handlers.length ≤ 64)
    (hret : ∀ s calls, Reaches handlers (.new world) calls (leave s callers) →
      64 ≤ s.index.toNat → Ends handlers (leave s callers))
    (i : Nat) (p : Prog σ) (hr : Reaches handlers (.new world) calls ⟨s, .body i p, callers⟩)
    (h63 : 63 ≤ s.index.toNat) : Ends handlers ⟨s, .body i p, callers⟩ := by
  induction p generalizing s calls with
  | finish w =>
    let t := ((s.setWorld w).note (.finish i)).advance
    have hfinish : step handlers ⟨s, .body i (.finish w), callers⟩ .finish =
        some ⟨t, .test, callers⟩ := rfl
    have hroom := hb _ _ _ _ hr hfinish (by simp) (Or.inr rfl)
    have hidx : t.index.toNat = s.index.toNat + 1 := advance_of_room hroom
    have htest : step handlers ⟨t, .test, callers⟩ .test = some (leave t callers) :=
      test_leaves (by omega)
    have hleave := hret t _ ((hr.next hfinish).next htest) (by omega)
    exact (hleave.step htest).step hfinish
  | Next w k ih =>
    let t := ((s.setWorld w).note .enter).advance
    have hcall : step handlers ⟨s, .body i (.Next w k), callers⟩ .Next =
        some ⟨t, .test, (i, k) :: callers⟩ := rfl
    have hroom := hb _ _ _ _ hr hcall (by simp) (Or.inl rfl)
    have hidx : t.index.toNat = s.index.toNat + 1 := advance_of_room hroom
    have htest : step handlers ⟨t, .test, (i, k) :: callers⟩ .test =
        some (leave t ((i, k) :: callers)) :=
      test_leaves (by omega)
    have hback : 63 ≤ (t.note .leave).index.toNat := by
      change 63 ≤ t.index.toNat
      omega
    have hrest := ih t.world ((hr.next hcall).next htest) hback
    exact Ends.step hcall (Ends.step htest hrest)
  | Abort w k ih =>
    have habort : step handlers ⟨s, .body i (.Abort w k), callers⟩ .Abort =
        some ⟨(s.setWorld w).Abort, .body i k, callers⟩ := rfl
    exact (ih (hr.next habort) (Nat.le_of_eq (index_Abort _).symm)).step habort
  | IsAborted w k ih =>
    have hask : step handlers ⟨s, .body i (.IsAborted w k), callers⟩ .IsAborted =
        some ⟨s.setWorld w, .body i (k s.IsAborted), callers⟩ := rfl
    exact (ih s.IsAborted (hr.next hask) h63).step hask

theorem past_ends (hb : Bounded handlers world) (hlen : handlers.length ≤ 64)
    (callers : List (Nat × (σ → Prog σ))) (i : Nat) (p : Prog σ)
    (hr : Reaches handlers (.new world) calls ⟨s, .body i p, callers⟩) (h63 : 63 ≤ s.index.toNat) :
    Ends handlers ⟨s, .body i p, callers⟩ := by
  induction callers generalizing i p s calls with
  | nil => exact body_ends hb hlen (fun s _ _ _ => ⟨[], s.note .leave, .nil⟩) i p hr h63
  | cons caller callers ih =>
    apply body_ends hb hlen _ i p hr h63
    intro t calls' ht h64
    exact ih caller.1 (caller.2 t.world) ht (Nat.le_of_succ_le h64)

theorem abort_cases (h : step handlers c .Abort = some d) : ∃ i w k,
    c.control = .body i (.Abort w k) ∧ d = ⟨(c.state.setWorld w).Abort, .body i k, c.callers⟩ := by
  cases stepped_of_step h with
  | @Abort s callers i w k => exact ⟨i, w, k, rfl, rfl⟩

/-- A short chain stops, as long as the index does not wrap. -/
theorem stops_of_short (hb : Bounded handlers world) (hlen : handlers.length ≤ 64)
    (hr : Reaches handlers (.new world) calls c) (habort : step handlers c .Abort = some d) :
    Stops handlers d := by
  have hd := hr.next habort
  obtain ⟨i, w, k, -, heq⟩ := abort_cases habort
  have hpast : d.Past := by
    rw [heq]
    exact Nat.le_of_eq (index_Abort _).symm
  have hquiet : ∀ calls e, Reaches handlers d calls e →
      starts e.state.log = starts d.state.log := by
    intro calls e he
    have hinv := (hb.runs hd he).invariant
      (fun e => e.Past ∧ starts e.state.log = starts d.state.log) ⟨hpast, rfl⟩ (by
        intro t call u ht hroom hstep
        obtain ⟨hp, hs⟩ := past_step hlen ht.1 hroom hstep
        exact ⟨hp, hs.trans ht.2⟩)
    exact hinv.2
  refine ⟨?_, ?_, ?_⟩
  · intro calls e he i hi
    rw [hquiet calls e he] at hi
    exact hi
  · intro calls e he
    exact (hb.ordered hlen (hd.append he)).sorted.imp Nat.ne_of_lt
  · subst heq
    exact past_ends hb hlen c.callers i k hd hpast

/-- In a longer chain the next step of the index leads from 63 to handler 64. -/
theorem starts_64 (hlen : 64 < handlers.length) (callers : List (Nat × (σ → Prog σ))) (i : Nat)
    (p : Prog σ)
    (h63 : s.index.toNat = 63) : ∃ calls e,
      Reaches handlers ⟨s, .body i p, callers⟩ calls e ∧
      starts e.state.log = starts s.log ++ [64] := by
  have htest : ∀ t : ChainState σ, ∀ callers, t.index.toNat = 63 → starts t.log = starts s.log →
      ∃ e, step handlers ⟨t.advance, .test, callers⟩ .test = some e ∧
        starts e.state.log = starts s.log ++ [64] := by
    intro t callers ht hlog
    have hidx : t.advance.index.toNat = 64 := by
      rw [advance_of_room (by omega), ht]
    have hlt : t.advance.index.toNat < handlers.length := by omega
    obtain ⟨e, he, hstart⟩ := test_starts t.advance callers hlt
    refine ⟨e, he, ?_⟩
    rw [hstart, hidx, log_advance, hlog]
  induction p generalizing s with
  | finish w =>
    obtain ⟨e, he, hlog⟩ := htest ((s.setWorld w).note (.finish i)) callers h63 (by simp)
    exact ⟨[.finish, .test], e, (Reaches.one rfl).next he, hlog⟩
  | Next w k ih =>
    obtain ⟨e, he, hlog⟩ := htest ((s.setWorld w).note .enter) ((i, k) :: callers) h63 (by simp)
    exact ⟨[.Next, .test], e, (Reaches.one rfl).next he, hlog⟩
  | Abort w k ih =>
    obtain ⟨calls, e, he, hlog⟩ := ih (s := (s.setWorld w).Abort) (index_Abort _) htest
    exact ⟨.Abort :: calls, e, Runs.cons trivial rfl he, hlog⟩
  | IsAborted w k ih =>
    obtain ⟨calls, e, he, hlog⟩ := ih s.IsAborted (s := s.setWorld w) h63 htest
    exact ⟨.IsAborted :: calls, e, Runs.cons trivial rfl he, hlog⟩

/-- A longer chain does not stop. -/
theorem not_stops_of_long (hlen : 64 < handlers.length) (habort : step handlers c .Abort = some d) :
    ¬ Stops handlers d := by
  intro hs
  obtain ⟨i, w, k, -, rfl⟩ := abort_cases habort
  obtain ⟨calls, e, he, hlog⟩ := starts_64 hlen c.callers i k (index_Abort _)
  have hold := hs.no_new calls e he 64 (by simp [hlog])
  have honce := hs.once calls e he
  rw [hlog] at honce
  exact (List.nodup_append.mp honce).2.2 64 hold 64 (List.mem_singleton_self _) rfl

/-- Once a handler runs, the first one has started. -/
def Begun (handlers : HandlersChain σ) (c : Config σ) : Prop :=
  match c.control with
  | .idle => c.state.index = -1 ∧ c.callers = []
  | .test => (0 ∈ starts c.state.log ∧ handlers ≠ []) ∨ (c.state.index = 0 ∧ c.callers = [])
  | .body _ _ => 0 ∈ starts c.state.log ∧ handlers ≠ []
  | .done => True

theorem begun_leave
    (h : 0 ∈ starts (leave s callers).state.log ∧ handlers ≠ []) :
    Begun handlers (leave s callers) := by
  cases callers with
  | nil => trivial
  | cons caller callers => exact h

theorem begun_step {call : Call} (hc : Begun handlers c) (h : step handlers c call = some d) :
    Begun handlers d := by
  cases stepped_of_step h with
  | @enter s callers =>
    have hindex : s.index = -1 := hc.1
    right
    refine ⟨?_, hc.2⟩
    simp only [ChainState.advance, index_note, hindex]
    decide
  | @leave s callers _ =>
    cases hc with
    | inl hc =>
      apply begun_leave
      rw [starts_leave]
      exact hc
    | inr hc =>
      obtain rfl : callers = [] := hc.2
      trivial
  | @start s callers handler hget =>
    have hne : handlers ≠ [] := by
      intro hnil
      rw [hnil] at hget
      cases hget
    refine ⟨?_, hne⟩
    rw [starts_note_start]
    cases hc with
    | inl hc => exact List.mem_append_left _ hc.1
    | inr hc =>
      have hindex : s.index = 0 := hc.1
      simp [hindex]
  | finish => exact Or.inl ⟨by simpa using hc.1, hc.2⟩
  | Next => exact Or.inl ⟨by simpa using hc.1, hc.2⟩
  | Abort => exact hc
  | IsAborted => exact hc

theorem begun_of_reaches (h : Reaches handlers (.new world) calls c) : Begun handlers c :=
  h.invariant (Begun handlers) (show Begun handlers (.new world) from ⟨rfl, rfl⟩)
    fun _ _ _ hc _ hstep => begun_step hc hstep

/-- Where the index wraps, the first handler starts again. -/
theorem wrap_restarts {call : Call} (hr : Reaches handlers (.new world) calls c)
    (h : step handlers c call = some d) (hroom : ¬ c.Room call) : ∃ e,
      step handlers d .test = some e ∧ ¬ (starts e.state.log).Nodup := by
  have hbegun := begun_of_reaches hr
  have hmax : c.control ≠ .idle ∧ (call = .Next ∨ call = .finish) ∧
      c.state.index.toNat = 2 ^ 64 - 1 := by
    simp only [Room, Classical.not_imp] at hroom
    have := c.state.index.toNat_lt
    exact ⟨hroom.1, hroom.2.1, by omega⟩
  obtain ⟨hidle, hcall, hindex⟩ := hmax
  have hagain : ∀ s : ChainState σ, ∀ callers, s.index = c.state.index →
      starts s.log = starts c.state.log → 0 ∈ starts c.state.log → handlers ≠ [] →
      ∃ e, step handlers ⟨s.advance, .test, callers⟩ .test = some e ∧
        ¬ (starts e.state.log).Nodup := by
    intro s callers hs hlog hmem hne
    have hzero : s.advance.index.toNat = 0 := by
      rw [advance_toNat, hs, hindex]
      rfl
    have hlt : s.advance.index.toNat < handlers.length := by
      rw [hzero]
      exact List.length_pos_iff.mpr hne
    obtain ⟨e, he, hstart⟩ := test_starts s.advance callers hlt
    refine ⟨e, he, ?_⟩
    rw [hstart, hzero, log_advance, hlog]
    intro hnodup
    exact (List.nodup_append.mp hnodup).2.2 0 hmem 0 (List.mem_singleton_self _) rfl
  cases stepped_of_step h with
  | enter => exact absurd rfl hidle
  | leave => simp at hcall
  | start => simp at hcall
  | finish => exact hagain _ _ rfl (by simp) hbegun.1 hbegun.2
  | Next => exact hagain _ _ rfl (by simp) hbegun.1 hbegun.2
  | Abort => simp at hcall
  | IsAborted => simp at hcall

/-- A step only adds to the handlers that have started. -/
theorem starts_step {call : Call} (h : step handlers c call = some d) :
    starts c.state.log <+: starts d.state.log := by
  cases stepped_of_step h with
  | enter => simp
  | leave => simp only [starts_leave, List.prefix_rfl]
  | start =>
    rw [starts_note_start]
    exact List.prefix_append _ _
  | finish => simp
  | Next => simp
  | Abort => simp
  | IsAborted => simp

theorem starts_reaches (h : Reaches handlers c calls d) :
    starts c.state.log <+: starts d.state.log :=
  h.invariant (fun d => starts c.state.log <+: starts d.state.log) List.prefix_rfl
    fun _ _ _ ht _ hstep => ht.trans (starts_step hstep)

/-- In a request whose call of `Abort` stops it the index does not wrap, before the call or
after it. -/
theorem bounded_of_stops (hr : Reaches handlers (.new world) calls d) (hs : Stops handlers d) :
    Bounded handlers world := by
  intro calls' c call c' hc hstep
  by_contra hroom
  obtain ⟨e, he, hdup⟩ := wrap_restarts hc hstep hroom
  have hre := (hc.next hstep).next he
  cases Runs.linear step_deterministic hr hre with
  | inl hafter =>
    obtain ⟨l, -, hl⟩ := hafter
    exact hdup (hs.once l e hl)
  | inr hbefore =>
    obtain ⟨l, -, hl⟩ := hbefore
    exact hdup ((starts_reaches hl).sublist.nodup (hs.once [] d .nil))

/-- A call of `Abort` sets the index, and any other step raises it by one or leaves it alone. -/
theorem index_step {call : Call} (h : step handlers c call = some d) :
    (call = .Abort ∧ d.state.index.toNat = 63) ∨
    (call ≠ .Abort ∧ d.state.index.toNat =
      (c.state.index.toNat + if call.raises then 1 else 0) % 2 ^ 64) := by
  have hsame : c.state.index.toNat = (c.state.index.toNat + 0) % 2 ^ 64 :=
    (Nat.mod_eq_of_lt c.state.index.toNat_lt).symm
  cases stepped_of_step h with
  | enter => exact Or.inr ⟨by decide, advance_toNat _⟩
  | leave =>
    refine Or.inr ⟨by decide, ?_⟩
    rw [index_leave]
    exact hsame
  | start => exact Or.inr ⟨by decide, hsame⟩
  | finish => exact Or.inr ⟨by decide, advance_toNat _⟩
  | Next => exact Or.inr ⟨by decide, advance_toNat _⟩
  | Abort => exact Or.inl ⟨rfl, index_Abort _⟩
  | IsAborted => exact Or.inr ⟨by decide, hsame⟩

theorem call_of_idle {call : Call} (hc : c.control = .idle) (h : step handlers c call = some d) :
    call = .Next := by
  cases stepped_of_step h with
  | enter => rfl
  | _ => cases hc

/-- Each step raises the index by one at most, unless it is the first or a call of `Abort`. -/
theorem index_le (h : Reaches handlers (.new world) calls c) :
    c.control = .idle ∨ c.state.index.toNat ≤ calls.length + 63 := by
  induction h with
  | nil => exact Or.inl rfl
  | @snoc calls c d call hr _ hstep ih =>
    right
    have hbegun := begun_of_reaches hr
    rw [List.length_append, List.length_singleton]
    cases index_step hstep with
    | inl habort => omega
    | inr hother =>
      rw [hother.2]
      cases ih with
      | inl hidle =>
        obtain rfl := call_of_idle hidle hstep
        simp only [Begun, hidle] at hbegun
        rw [hbegun.1]
        exact Nat.zero_le _
      | inr hle =>
        have hmod := Nat.mod_le (c.state.index.toNat + if call.raises then 1 else 0) (2 ^ 64)
        have hone : (if call.raises then 1 else 0) ≤ 1 := by split <;> decide
        omega

/-- The index does not wrap in a request of fewer than `2^64 - 63` steps. -/
theorem bounded_of_done (h : Reaches handlers (.new world) calls ⟨t, .done, []⟩)
    (hlen : calls.length < 2 ^ 64 - 63) : Bounded handlers world := by
  intro calls' c call d hc hstep hidle _
  have hle : c.state.index.toNat ≤ calls'.length + 63 :=
    (index_le hc).resolve_left hidle
  have hshort : (calls' ++ [call]).length ≤ calls.length := by
    cases Runs.linear step_deterministic (hc.next hstep) h with
    | inl hafter =>
      obtain ⟨l, rfl, -⟩ := hafter
      exact (List.prefix_append _ _).length_le
    | inr hbefore =>
      obtain ⟨l, hl, hrun⟩ := hbefore
      cases hrun.split with
      | inl hnil =>
        apply Nat.le_of_eq
        rw [hl, hnil.1, List.append_nil]
      | inr hcons =>
        obtain ⟨call', l', u, -, -, hdone, -⟩ := hcons
        cases call' <;> cases hdone
  rw [List.length_append, List.length_singleton] at hshort
  omega

/-- A call of `Abort` stops the chain if and only if the chain has at most 64 handlers and the
index does not wrap during the request. -/
theorem abort_stops (hr : Reaches handlers (.new world) calls c)
    (habort : step handlers c .Abort = some d) :
    Stops handlers d ↔ handlers.length ≤ 64 ∧ Bounded handlers world := by
  constructor
  · intro hs
    refine ⟨?_, bounded_of_stops (hr.next habort) hs⟩
    by_contra hlen
    exact not_stops_of_long (by omega) habort hs
  · intro h
    exact stops_of_short h.2 h.1 hr habort

end Config

/-- A handler that lets nobody in. -/
def Deny : HandlerFunc Unit := fun _ => .Abort () (.finish ())

/-- A middleware handler that aborts, and a route handler. -/
theorem abort_stops_test : ∃ c d,
    Config.Reaches [Deny, GET_TEST] (.new ()) [.Next, .test] c ∧
    Config.step [Deny, GET_TEST] c .Abort = some d ∧ Config.Stops [Deny, GET_TEST] d := by
  have hrun : Config.Reaches [Deny, GET_TEST] (.new ()) [.Next, .test] _ := Run.runs_of_exec rfl
  have hdone : Config.Reaches [Deny, GET_TEST] (.new ()) [.Next, .test, .Abort, .finish, .test]
      ⟨_, .done, []⟩ := Run.runs_of_exec rfl
  refine ⟨_, _, hrun, rfl, (Config.abort_stops hrun rfl).mpr ⟨by decide, ?_⟩⟩
  exact Config.bounded_of_done hdone (by decide)

/-- With 63 handlers between the two, the route handler is started after the call of `Abort`. -/
theorem long_chain_goes_on : ∃ c d,
    Config.Reaches (Deny :: List.replicate 64 GET_TEST) (.new ()) [.Next, .test] c ∧
    Config.step (Deny :: List.replicate 64 GET_TEST) c .Abort = some d ∧
    ¬ Config.Stops (Deny :: List.replicate 64 GET_TEST) d := by
  let s : ChainState Unit := ⟨0, (), [.enter, .start 0]⟩
  have hrun : Config.Reaches (Deny :: List.replicate 64 GET_TEST) (.new ()) [.Next, .test]
      ⟨s, .body 0 (.Abort () (.finish ())), []⟩ := Run.runs_of_exec rfl
  have habort : Config.step (Deny :: List.replicate 64 GET_TEST)
      ⟨s, .body 0 (.Abort () (.finish ())), []⟩ .Abort =
        some ⟨s.Abort, .body 0 (.finish ()), []⟩ := rfl
  exact ⟨_, _, hrun, habort, Config.not_stops_of_long (by decide) habort⟩

end CppPrivate.Http
