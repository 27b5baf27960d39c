import CppPrivate.Lib.Buckets
import CppPrivate.Lib.Machine
import CppPrivate.Lib.Run
import Mathlib.Data.List.Perm.Subperm

/-! The timers of a `TimeTicker`: calls that add timers, `stop`, and passes of the loop in `run`,
in any order and with any readings of the clock. -/
namespace CppPrivate.Public
open CppPrivate.Run

inductive TimerType where
  | eTimerTypeOnce
  | eTimerTypeLoop
deriving DecidableEq

/-- A timer, with its number among all that were made. -/
structure Timer where
  id : Nat
  m_nSortTime : UInt64
  m_nNextTime : UInt64
  m_nDuration : UInt64
  m_nType : TimerType
  /-- There is an `m_pTimerCallback`. -/
  callback : Bool

namespace Timer

def setTimer (id : Nat) (now nDuration : UInt64) : Timer where
  id := id
  m_nNextTime := now
  m_nDuration := nDuration
  m_nSortTime := now + nDuration
  m_nType := .eTimerTypeLoop
  callback := true

def setTimerAfter (id : Nat) (now nAfterTime nDuration : UInt64) : Timer where
  id := id
  m_nNextTime := nAfterTime + now
  m_nDuration := nDuration
  m_nSortTime := nAfterTime + now + nDuration
  m_nType := .eTimerTypeLoop
  callback := true

def reset (t : Timer) : Timer := { t with m_nNextTime := t.m_nNextTime + t.m_nDuration }

end Timer

structure Made where
  start : Nat
  duration : Nat
  type : TimerType

/-- An `Execute` of the callback of a timer, in a pass that had read the clock. -/
structure Firing where
  timer : Nat
  pass : Nat
  nCurTime : UInt64

inductive TickPhase where
  | test
  | lock
  | entry (pass mapIt : Nat)
  | list (pass mapIt : Nat) (nCurTime : UInt64) (listIt : Nat)
  | sleep
  | left

/-- A call that has not taken the mutex yet. -/
inductive TickCall where
  | adding (t : Timer)
  | stopping
  | returned

/-- The firings of one timer, the first one first. -/
def firings (fired : List Firing) (id : Nat) : List Firing := fired.filter (·.timer = id)

structure Ticks where
  m_nTimerCnt : UInt32
  m_isEnable : Bool
  /-- The thread that holds the mutex; the calls hold it within one step. -/
  m_mutex : Option Nat
  m_mapTimer : Buckets UInt64 Timer
  threads : List TickPhase
  calls : List TickCall
  made : List Made
  passes : Nat
  fired : List Firing

inductive TickOp where
  | addTimer (nDuration now : UInt64)
  | addTimerAfter (nAfterTime nDuration now : UInt64)
  /-- `addTimer(Timer*)`. -/
  | addTimerPtr (pTimer : Timer)
  | start
  | stop
  /-- What a call does while it holds the mutex. -/
  | call (c : Nat)
  | thread (i : Nat) (now : UInt64)

namespace Ticks

def new : Ticks := ⟨0, false, none, [], [], [], [], 0, []⟩

/-- A call that adds a timer comes to the mutex. -/
def enter (m : Ticks) (t : Timer) (start : Nat) : Ticks :=
  { m with
    calls := m.calls ++ [.adding t]
    made := m.made ++ [⟨start, t.m_nDuration.toNat, t.m_nType⟩] }

/-- The part of `addTimer` under the mutex. -/
def insert (m : Ticks) (t : Timer) : Ticks :=
  { m with
    m_mapTimer := m.m_mapTimer.insert t.m_nSortTime t
    m_nTimerCnt := m.m_nTimerCnt + 1 }

/-- That of `stop`: every timer is erased and counted down. -/
def clear (m : Ticks) : Ticks :=
  { m with
    m_mapTimer := []
    m_nTimerCnt := m.m_nTimerCnt - UInt32.ofNat m.m_mapTimer.values.length }

def stepCall (m : Ticks) (c : Nat) : TickCall → Option Ticks
  | .adding t =>
    match m.m_mutex with
    | none => some { m.insert t with calls := m.calls.set c .returned }
    | some _ => none
  | .stopping =>
    match m.m_mutex with
    | none => some { m.clear with calls := m.calls.set c .returned }
    | some _ => none
  | .returned => none

def setThread (m : Ticks) (i : Nat) (x : TickPhase) : Ticks := { m with threads := m.threads.set i x }

def execute (m : Ticks) (t : Timer) (pass : Nat) (nCurTime : UInt64) : Ticks :=
  { m with fired := m.fired ++ if t.callback then [⟨t.id, pass, nCurTime⟩] else [] }

/-- The loop over a list comes to the timer `p`. -/
def visit (m : Ticks) (i pass mapIt : Nat) (nCurTime : UInt64) (listIt : Nat) (key : UInt64)
    (list : List Timer) (p : Timer) : Ticks :=
  if nCurTime < p.m_nNextTime then m.setThread i (.list pass mapIt nCurTime (listIt + 1))
  else
    let m := m.execute p pass nCurTime
    if p.m_nType = .eTimerTypeOnce then
      { m.setThread i (.list pass mapIt nCurTime listIt) with
        m_nTimerCnt := m.m_nTimerCnt - 1
        m_mapTimer := m.m_mapTimer.set mapIt (key, list.eraseIdx listIt) }
    else
      { m.setThread i (.list pass mapIt nCurTime (listIt + 1)) with
        m_mapTimer := m.m_mapTimer.set mapIt (key, list.set listIt p.reset) }

/-- The steps of `run`. The clock is read once for every list of the map. -/
def stepThread (m : Ticks) (i : Nat) (now : UInt64) : TickPhase → Option Ticks
  | .test => some (m.setThread i (if m.m_isEnable then .lock else .left))
  | .lock =>
    match m.m_mutex with
    | none =>
      some { m.setThread i (.entry m.passes 0) with m_mutex := some i, passes := m.passes + 1 }
    | some _ => none
  | .entry pass mapIt =>
    match m.m_mapTimer[mapIt]? with
    | none => some { m.setThread i .sleep with m_mutex := none }
    | some _ => some (m.setThread i (.list pass mapIt now 0))
  | .list pass mapIt nCurTime listIt =>
    m.m_mapTimer[mapIt]?.map fun x =>
      match x.2[listIt]? with
      | none => m.setThread i (.entry pass (mapIt + 1))
      | some p => m.visit i pass mapIt nCurTime listIt x.1 x.2 p
  | .sleep => some (m.setThread i .test)
  | .left => none

def step (m : Ticks) : TickOp → Option Ticks
  | .addTimer nDuration now =>
    some (m.enter (.setTimer m.made.length now nDuration) now.toNat)
  | .addTimerAfter nAfterTime nDuration now =>
    some (m.enter (.setTimerAfter m.made.length now nAfterTime nDuration)
      (now.toNat + nAfterTime.toNat))
  | .addTimerPtr pTimer =>
    some (m.enter { pTimer with id := m.made.length } pTimer.m_nNextTime.toNat)
  | .start => some { m with m_isEnable := true, threads := m.threads ++ [.test] }
  | .stop => some { m with m_isEnable := false, calls := m.calls ++ [.stopping] }
  | .call c => m.calls[c]?.bind (m.stepCall c)
  | .thread i now => m.threads[i]?.bind (m.stepThread i now)

def timers (m : Ticks) : List Timer := m.m_mapTimer.values

/-- The timers a call has made and not registered yet. -/
def pending (m : Ticks) : List Timer :=
  m.calls.filterMap fun
    | .adding t => some t
    | _ => none

def held (m : Ticks) : List Timer := m.timers ++ m.pending

end Ticks

namespace TickPhase

def pass? : TickPhase → Option Nat
  | .entry pass _ | .list pass .. => some pass
  | _ => none

/-- The timers a pass has not come to yet. -/
def ahead (map : Buckets UInt64 Timer) : TickPhase → List Timer
  | .entry _ mapIt => map.ahead mapIt 0
  | .list _ mapIt _ listIt => map.ahead mapIt listIt
  | _ => []

end TickPhase

namespace Ticks

/-- The fields of a timer against what it was made with and how often it has fired. -/
structure Known (made : List Made) (fired : List Firing) (t : Timer) (r : Made) : Prop where
  made : made[t.id]? = some r
  duration : t.m_nDuration.toNat = r.duration
  type : t.m_nType = r.type
  next : t.callback = true →
    t.m_nNextTime.toNat = (r.start + (firings fired t.id).length * r.duration) % 2 ^ 64

/-- What holds of the firings of a timer, of which `held` may fire again. -/
structure Fires (fired : List Firing) (held : List Timer) (id : Nat) (r : Made) : Prop where
  /-- At most once per pass. -/
  distinct : ((firings fired id).map Firing.pass).Nodup
  due : ∀ k f, (firings fired id)[k]? = some f → r.start + (k + 1) * r.duration < 2 ^ 64 →
    r.start + k * r.duration ≤ f.nCurTime.toNat
  once : r.type = .eTimerTypeOnce → firings fired id ≠ [] →
    (firings fired id).length = 1 ∧ ∀ t ∈ held, t.id ≠ id

/-- The same firings are right when no other timer comes in. -/
theorem Fires.kept {fired fired' : List Firing} {l l' : List Timer} {id : Nat} {r : Made}
    (h : Fires fired l id r) (hfired : firings fired' id = firings fired id)
    (hids : ∀ t ∈ l', ∃ s ∈ l, s.id = t.id) : Fires fired' l' id r := by
  refine ⟨?_, ?_, ?_⟩
  · rw [hfired]
    exact h.distinct
  · rw [hfired]
    exact h.due
  · rw [hfired]
    intro hone hne
    obtain ⟨hlen, hall⟩ := h.once hone hne
    refine ⟨hlen, fun t ht => ?_⟩
    obtain ⟨s, hs, hid⟩ := hids t ht
    rw [← hid]
    exact hall s hs

/-- With fewer timers the same firings are right. -/
theorem Fires.mono {fired : List Firing} {l l' : List Timer} {id : Nat} {r : Made}
    (h : Fires fired l id r) (hsub : ∀ t ∈ l', t ∈ l) : Fires fired l' id r :=
  h.kept rfl fun t ht => ⟨t, hsub t ht, rfl⟩

structure Valid (m : Ticks) : Prop where
  holder : ∀ (i : Nat) (x : TickPhase) (p : Nat), m.threads[i]? = some x → x.pass? = some p →
    m.m_mutex = some i ∧ p < m.passes
  ids : (m.held.map Timer.id).Nodup
  known : ∀ t ∈ m.held, ∃ r, Known m.made m.fired t r
  log : ∀ f ∈ m.fired, f.pass < m.passes ∧ f.timer < m.made.length
  fresh : ∀ (i : Nat) (x : TickPhase) (p : Nat), m.threads[i]? = some x → x.pass? = some p →
    ∀ t ∈ x.ahead m.m_mapTimer, ∀ f ∈ m.fired, f.timer = t.id → f.pass ≠ p
  fires : ∀ id r, m.made[id]? = some r → Fires m.fired m.held id r
  count : m.m_nTimerCnt.toNat = m.timers.length % 2 ^ 32

variable {m m' : Ticks} {i : Nat} {x y : TickPhase} {t p : Timer}

/-- A phase after the step of the thread `i`. -/
theorem getElem?_setThread {j : Nat} (h : (m.setThread i y).threads[j]? = some x) :
    (j = i ∧ x = y) ∨ (j ≠ i ∧ m.threads[j]? = some x) := by
  obtain ⟨rfl, rfl⟩ | ⟨hne, hx⟩ := getElem?_set_cases h
  · exact Or.inl ⟨rfl, rfl⟩
  · exact Or.inr ⟨Ne.symm hne, hx⟩

theorem getElem?_concat {α : Type} {l : List α} {a b : α} {j : Nat} (h : (l ++ [a])[j]? = some b) :
    l[j]? = some b ∨ b = a := by
  by_cases hj : j < l.length
  · rw [List.getElem?_append_left hj] at h
    exact Or.inl h
  · rw [List.getElem?_append_right (Nat.le_of_not_lt hj), List.getElem?_singleton] at h
    split at h
    · exact Or.inr (Option.some.inj h).symm
    · cases h

namespace Valid

theorem new : Valid .new where
  holder := fun _ _ _ h => by cases h
  ids := List.nodup_nil
  known := fun _ h => by cases h
  log := fun _ h => by cases h
  fresh := fun _ _ _ h => by cases h
  fires := fun _ _ h => by cases h
  count := rfl

/-- A thread goes on without a change to the timers. -/
theorem setThread (h : m.Valid) (hx : m.threads[i]? = some x)
    (hpass : y.pass? = x.pass? ∨ y.pass? = none)
    (hahead : ∀ t ∈ y.ahead m.m_mapTimer, t ∈ x.ahead m.m_mapTimer) : (m.setThread i y).Valid where
  holder := by
    intro j z p hz hp
    cases getElem?_setThread hz with
    | inl hj =>
      obtain ⟨rfl, rfl⟩ := hj
      cases hpass with
      | inl hpass => exact h.holder j x p hx (hpass ▸ hp)
      | inr hpass => rw [hpass] at hp; cases hp
    | inr hj => exact h.holder j z p hj.2 hp
  ids := h.ids
  known := h.known
  log := h.log
  fresh := by
    intro j z p hz hp
    cases getElem?_setThread hz with
    | inl hj =>
      obtain ⟨rfl, rfl⟩ := hj
      cases hpass with
      | inl hpass => exact fun t ht => h.fresh j x p hx (hpass ▸ hp) t (hahead t ht)
      | inr hpass => rw [hpass] at hp; cases hp
    | inr hj => exact h.fresh j z p hj.2 hp
  fires := h.fires
  count := h.count

/-- While no thread is in a pass the map may be anything. -/
theorem outside (h : m.Valid) (hmutex : m.m_mutex = none) {j : Nat} {z : TickPhase} {q : Nat}
    (hz : m.threads[j]? = some z) : z.pass? ≠ some q := by
  intro hq
  have hj := (h.holder j z q hz hq).1
  rw [hmutex] at hj
  cases hj

theorem lock (h : m.Valid) (hmutex : m.m_mutex = none) :
    Valid { m.setThread i (.entry m.passes 0) with m_mutex := some i, passes := m.passes + 1 } where
  holder := by
    intro j z p hz hp
    cases getElem?_setThread hz with
    | inl hj =>
      obtain ⟨rfl, rfl⟩ := hj
      cases hp
      exact ⟨rfl, Nat.lt_succ_self _⟩
    | inr hj => exact absurd hp (h.outside hmutex hj.2)
  ids := h.ids
  known := h.known
  log := fun f hf => ⟨Nat.lt_succ_of_lt (h.log f hf).1, (h.log f hf).2⟩
  fresh := by
    intro j z p hz hp
    cases getElem?_setThread hz with
    | inl hj =>
      obtain ⟨rfl, rfl⟩ := hj
      cases hp
      exact fun t _ f hf _ => Nat.ne_of_lt (h.log f hf).1
    | inr hj => exact absurd hp (h.outside hmutex hj.2)
  fires := h.fires
  count := h.count

/-- The thread that holds the mutex is the only one in a pass. -/
theorem alone (h : m.Valid) {pass : Nat} (hx : m.threads[i]? = some x) (hpass : x.pass? = some pass)
    {j : Nat} {z : TickPhase} {q : Nat} (hz : m.threads[j]? = some z) (hq : z.pass? = some q) :
    j = i := by
  have hi := (h.holder i x pass hx hpass).1
  have hj := (h.holder j z q hz hq).1
  exact Option.some.inj (hj.symm.trans hi)

theorem unlock (h : m.Valid) {pass : Nat} (hx : m.threads[i]? = some x)
    (hpass : x.pass? = some pass) : Valid { m.setThread i .sleep with m_mutex := none } where
  holder := by
    intro j z p hz hp
    cases getElem?_setThread hz with
    | inl hj =>
      obtain ⟨rfl, rfl⟩ := hj
      cases hp
    | inr hj => exact absurd (h.alone hx hpass hj.2 hp) hj.1
  ids := h.ids
  known := h.known
  log := h.log
  fresh := by
    intro j z p hz hp
    cases getElem?_setThread hz with
    | inl hj =>
      obtain ⟨rfl, rfl⟩ := hj
      cases hp
    | inr hj => exact absurd (h.alone hx hpass hj.2 hp) hj.1
  fires := h.fires
  count := h.count

theorem firings_eq_nil (h : m.Valid) {id : Nat} (hid : m.made.length ≤ id) :
    firings m.fired id = [] := by
  refine List.filter_eq_nil_iff.mpr fun f hf heq => ?_
  have hlt := (h.log f hf).2
  rw [of_decide_eq_true heq] at hlt
  omega

theorem id_lt (h : m.Valid) (ht : t ∈ m.held) : t.id < m.made.length := by
  obtain ⟨r, hr⟩ := h.known t ht
  exact (List.getElem?_eq_some_iff.mp hr.made).1

theorem enter (h : m.Valid) {start : Nat} (hid : t.id = m.made.length)
    (hstart : t.m_nNextTime.toNat = start % 2 ^ 64) : (m.enter t start).Valid := by
  have hheld : (m.enter t start).held = m.held ++ [t] := by
    simp [Ticks.enter, held, pending, timers]
  have hnil := h.firings_eq_nil (Nat.le_of_eq hid.symm)
  have hmade : (m.enter t start).made = m.made ++ [⟨start, t.m_nDuration.toNat, t.m_nType⟩] := rfl
  refine ⟨h.holder, ?_, ?_, ?_, h.fresh, ?_, h.count⟩
  · rw [hheld, List.map_append, List.map_singleton]
    refine List.nodup_append.mpr ⟨h.ids, List.nodup_singleton _, fun a ha b hb => ?_⟩
    obtain ⟨u, hu, rfl⟩ := List.mem_map.mp ha
    have := h.id_lt hu
    rw [List.mem_singleton.mp hb]
    omega
  · intro u hu
    rw [hheld] at hu
    cases List.mem_append.mp hu with
    | inl hu =>
      obtain ⟨r, hr⟩ := h.known u hu
      refine ⟨r, ?_, hr.duration, hr.type, hr.next⟩
      rw [hmade, List.getElem?_append_left (h.id_lt hu)]
      exact hr.made
    | inr hu =>
      obtain rfl := List.mem_singleton.mp hu
      refine ⟨⟨start, u.m_nDuration.toNat, u.m_nType⟩, ?_, rfl, rfl, fun _ => ?_⟩
      · rw [hmade, hid, List.getElem?_concat_length]
      · change _ = (start + (firings m.fired u.id).length * _) % 2 ^ 64
        rw [hnil, List.length_nil, Nat.zero_mul, Nat.add_zero, hstart]
  · intro f hf
    refine ⟨(h.log f hf).1, ?_⟩
    rw [hmade, List.length_append]
    exact Nat.lt_add_right 1 (h.log f hf).2
  · intro id r hr
    rw [hheld]
    rw [hmade] at hr
    by_cases hlt : id < m.made.length
    · rw [List.getElem?_append_left hlt] at hr
      have hfires := h.fires id r hr
      refine ⟨hfires.distinct, hfires.due, fun hone hne => ?_⟩
      obtain ⟨hlen, hall⟩ := hfires.once hone hne
      refine ⟨hlen, fun u hu => ?_⟩
      cases List.mem_append.mp hu with
      | inl hu => exact hall u hu
      | inr hu =>
        rw [List.mem_singleton.mp hu, hid]
        omega
    · have hnone : firings (m.enter t start).fired id = [] :=
        h.firings_eq_nil (Nat.le_of_not_lt hlt)
      refine ⟨?_, ?_, ?_⟩
      · rw [hnone]
        exact List.nodup_nil
      · intro k f hf
        rw [hnone] at hf
        cases hf
      · intro _ hne
        exact absurd hnone hne

/-- Timers change places, or some are gone, while no thread is in a pass. -/
theorem replace (h : m.Valid) (hmutex : m.m_mutex = none) (hthreads : m'.threads = m.threads)
    (hpasses : m'.passes = m.passes) (hmade : m'.made = m.made)
    (hfired : m'.fired = m.fired) (hsub : m'.held.Subperm m.held)
    (hcount : m'.m_nTimerCnt.toNat = m'.timers.length % 2 ^ 32) : m'.Valid where
  holder := by
    intro j z q hz hq
    rw [hthreads] at hz
    exact absurd hq (h.outside hmutex hz)
  ids := by
    obtain ⟨l, hl, hsub⟩ := hsub
    have hl' := hl.map Timer.id
    exact hl'.nodup_iff.mp (h.ids.sublist (hsub.map Timer.id))
  known := by
    intro t ht
    rw [hmade, hfired]
    exact h.known t (hsub.subset ht)
  log := by
    rw [hmade, hfired, hpasses]
    exact h.log
  fresh := by
    intro j z q hz hq
    rw [hthreads] at hz
    exact absurd hq (h.outside hmutex hz)
  fires := by
    intro id r hr
    rw [hmade] at hr
    rw [hfired]
    exact (h.fires id r hr).mono hsub.subset
  count := hcount

theorem insert (h : m.Valid) {c : Nat} (hc : m.calls[c]? = some (.adding t))
    (hmutex : m.m_mutex = none) : Valid { m.insert t with calls := m.calls.set c .returned } := by
  have hperm := Buckets.insert_perm t.m_nSortTime t m.m_mapTimer
  refine h.replace hmutex rfl rfl rfl rfl (List.Perm.subperm ?_) ?_
  · obtain ⟨c₁, c₂, hcalls, rfl⟩ := Buckets.exists_middle hc
    simp only [held, timers, pending, Ticks.insert, hcalls, List.set_append_right, Nat.le_refl,
      Nat.sub_self, List.set_cons_zero, List.filterMap_append, List.filterMap_cons_none]
    have hfront := hperm.append_right
      (c₁.filterMap (fun | .adding t => some t | _ => none) ++
        c₂.filterMap (fun | .adding t => some t | _ => none))
    refine hfront.trans ?_
    rw [List.cons_append, ← List.append_assoc, ← List.append_assoc]
    exact List.perm_middle.symm
  · change (m.m_nTimerCnt + 1).toNat = (m.m_mapTimer.insert t.m_nSortTime t).values.length % 2 ^ 32
    rw [hperm.length_eq, List.length_cons, UInt32.toNat_add, h.count]
    exact Nat.mod_add_mod _ _ _

theorem clear (h : m.Valid) {c : Nat} (hc : m.calls[c]? = some .stopping)
    (hmutex : m.m_mutex = none) : Valid { m.clear with calls := m.calls.set c .returned } := by
  refine h.replace hmutex rfl rfl rfl rfl (List.Sublist.subperm ?_) ?_
  · obtain ⟨c₁, c₂, hcalls, rfl⟩ := Buckets.exists_middle hc
    simp only [held, timers, pending, Ticks.clear, hcalls, List.set_append_right, Nat.le_refl,
      Nat.sub_self, List.set_cons_zero, List.filterMap_append, List.filterMap_cons_none]
    exact List.sublist_append_right _ _
  · change (m.m_nTimerCnt - UInt32.ofNat m.timers.length).toNat = 0
    have hcnt : m.m_nTimerCnt = UInt32.ofNat m.timers.length := by
      refine UInt32.toNat_inj.mp ?_
      rw [h.count, UInt32.toNat_ofNat']
    rw [hcnt, UInt32.sub_self]
    rfl

/-- A call or a thread is added that has no timer. -/
theorem start (h : m.Valid) :
    Valid { m with m_isEnable := true, threads := m.threads ++ [.test] } where
  holder := by
    intro j z q hz hq
    cases getElem?_concat hz with
    | inl hz => exact h.holder j z q hz hq
    | inr hz => rw [hz] at hq; cases hq
  ids := h.ids
  known := h.known
  log := h.log
  fresh := by
    intro j z q hz hq
    cases getElem?_concat hz with
    | inl hz => exact h.fresh j z q hz hq
    | inr hz => rw [hz] at hq; cases hq
  fires := h.fires
  count := h.count

theorem stop (h : m.Valid) :
    Valid { m with m_isEnable := false, calls := m.calls ++ [.stopping] } := by
  have hheld : held { m with m_isEnable := false, calls := m.calls ++ [.stopping] } = m.held := by
    simp [held, pending, timers]
  refine ⟨h.holder, ?_, ?_, h.log, h.fresh, ?_, h.count⟩
  · rw [hheld]
    exact h.ids
  · rw [hheld]
    exact h.known
  · rw [hheld]
    exact h.fires

/-- The timer a pass has come to is due: it fires if it has a callback, and `rest`, nothing or the
timer reset, takes its place. -/
structure Visited (m m' : Ticks) (i : Nat) (x y : TickPhase) (pass : Nat) (now : UInt64) (p : Timer)
    (rest pre post : List Timer) : Prop where
  thread : m.threads[i]? = some x
  threads : m'.threads = m.threads.set i y
  inside : x.pass? = some pass
  inside' : y.pass? = some pass
  mutex : m'.m_mutex = m.m_mutex
  passes : m'.passes = m.passes
  made : m'.made = m.made
  calls : m'.calls = m.calls
  fired : m'.fired = m.fired ++ if p.callback then [⟨p.id, pass, now⟩] else []
  timers : m.timers = pre ++ p :: post
  ahead : x.ahead m.m_mapTimer = p :: post
  timers' : m'.timers = pre ++ (rest ++ post)
  ahead' : y.ahead m'.m_mapTimer = post
  due : ¬ now < p.m_nNextTime
  place : (p.m_nType = .eTimerTypeOnce ∧ rest = [] ∧ m'.m_nTimerCnt = m.m_nTimerCnt - 1) ∨
    (p.m_nType = .eTimerTypeLoop ∧ rest = [p.reset] ∧ m'.m_nTimerCnt = m.m_nTimerCnt)

namespace Visited
variable {pass : Nat} {now : UInt64} {rest pre post : List Timer}

theorem held (v : Visited m m' i x y pass now p rest pre post) :
    m.held = pre ++ p :: (post ++ m.pending) ∧ m'.held = pre ++ (rest ++ (post ++ m.pending)) := by
  have hpending : m'.pending = m.pending := by
    simp only [pending, v.calls]
  refine ⟨?_, ?_⟩
  · simp only [Ticks.held, v.timers, List.append_assoc, List.cons_append]
  · simp only [Ticks.held, v.timers', hpending, List.append_assoc]

theorem mem_self (v : Visited m m' i x y pass now p rest pre post) : p ∈ m.held := by
  rw [v.held.1]
  exact List.mem_append_right _ List.mem_cons_self

theorem other (v : Visited m m' i x y pass now p rest pre post) (h : m.Valid) :
    (∀ t ∈ pre, t.id ≠ p.id) ∧ ∀ t ∈ post ++ m.pending, t.id ≠ p.id := by
  have hids := h.ids
  rw [v.held.1, List.map_append, List.map_cons] at hids
  obtain ⟨-, hback, hne⟩ := List.nodup_append.mp hids
  refine ⟨fun t ht => ?_, fun t ht he => ?_⟩
  · exact hne t.id (List.mem_map_of_mem ht) p.id List.mem_cons_self
  · exact (List.nodup_cons.mp hback).1 (he ▸ List.mem_map_of_mem ht)

theorem mem_rest (v : Visited m m' i x y pass now p rest pre post) (ht : t ∈ rest) :
    t = p.reset ∧ p.m_nType = .eTimerTypeLoop := by
  cases v.place with
  | inl hr =>
    rw [hr.2.1] at ht
    cases ht
  | inr hr =>
    rw [hr.2.1] at ht
    exact ⟨List.mem_singleton.mp ht, hr.1⟩

theorem mem_held (v : Visited m m' i x y pass now p rest pre post) (ht : t ∈ m'.held) :
    (t ∈ m.held ∧ (t ∈ pre ∨ t ∈ post ++ m.pending)) ∨
      (t = p.reset ∧ p.m_nType = .eTimerTypeLoop) := by
  rw [v.held.2] at ht
  rw [v.held.1]
  cases List.mem_append.mp ht with
  | inl ht => exact Or.inl ⟨List.mem_append_left _ ht, Or.inl ht⟩
  | inr ht =>
    cases List.mem_append.mp ht with
    | inl ht => exact Or.inr (v.mem_rest ht)
    | inr ht =>
      exact Or.inl ⟨List.mem_append_right _ (List.mem_cons_of_mem p ht), Or.inr ht⟩

theorem firings_other (v : Visited m m' i x y pass now p rest pre post) {id : Nat}
    (hid : id ≠ p.id) : firings m'.fired id = firings m.fired id := by
  rw [firings, v.fired, List.filter_append]
  split
  · simp [firings, Ne.symm hid]
  · simp [firings]

theorem firings_self (v : Visited m m' i x y pass now p rest pre post) :
    firings m'.fired p.id =
      firings m.fired p.id ++ if p.callback then [⟨p.id, pass, now⟩] else [] := by
  rw [firings, v.fired, List.filter_append]
  split
  · simp [firings]
  · simp [firings]

/-- The timer is reset by as much as its firing counts. -/
theorem known (v : Visited m m' i x y pass now p rest pre post) (h : m.Valid) (ht : t ∈ m'.held) :
    ∃ r, Known m'.made m'.fired t r := by
  obtain ⟨hpre, hpost⟩ := v.other h
  rw [v.made]
  cases v.mem_held ht with
  | inl ht =>
    obtain ⟨hheld, hplace⟩ := ht
    have hne : t.id ≠ p.id := by
      cases hplace with
      | inl hp => exact hpre t hp
      | inr hp => exact hpost t hp
    obtain ⟨r, hr⟩ := h.known t hheld
    refine ⟨r, hr.made, hr.duration, hr.type, ?_⟩
    rw [v.firings_other hne]
    exact hr.next
  | inr ht =>
    obtain ⟨rfl, -⟩ := ht
    obtain ⟨r, hr⟩ := h.known p v.mem_self
    refine ⟨r, hr.made, hr.duration, hr.type, fun hcall => ?_⟩
    have hcall : p.callback = true := hcall
    change (p.m_nNextTime + p.m_nDuration).toNat = (r.start + (firings m'.fired p.id).length * _) % _
    rw [v.firings_self, if_pos hcall, List.length_append, List.length_singleton, UInt64.toNat_add,
      hr.next hcall, hr.duration, Nat.mod_add_mod, Nat.add_mul, Nat.one_mul, Nat.add_assoc]

/-- No other timer comes in. -/
theorem ids_held (v : Visited m m' i x y pass now p rest pre post) (ht : t ∈ m'.held) :
    ∃ s ∈ m.held, s.id = t.id := by
  cases v.mem_held ht with
  | inl ht => exact ⟨t, ht.1, rfl⟩
  | inr ht =>
    obtain ⟨rfl, -⟩ := ht
    exact ⟨p, v.mem_self, rfl⟩

section Executed
variable {r : Made}

/-- The timer has not fired in this pass. -/
theorem distinct (v : Visited m m' i x y pass now p rest pre post) (h : m.Valid)
    (hfires : Fires m.fired m.held p.id r) :
    ((firings m.fired p.id ++ [(⟨p.id, pass, now⟩ : Firing)]).map Firing.pass).Nodup := by
  rw [List.map_append, List.map_singleton]
  refine List.nodup_append.mpr ⟨hfires.distinct, List.nodup_singleton _, fun q hq q' hq' => ?_⟩
  rw [List.mem_singleton.mp hq']
  obtain ⟨f, hf, rfl⟩ := List.mem_map.mp hq
  obtain ⟨hf, hfid⟩ := List.mem_filter.mp hf
  refine h.fresh i x pass v.thread v.inside p ?_ f hf (of_decide_eq_true hfid)
  rw [v.ahead]
  exact List.mem_cons_self

/-- The clock has come to the time at which the timer is due. -/
theorem due_at (v : Visited m m' i x y pass now p rest pre post)
    (hr : Known m.made m.fired p r) (hcall : p.callback = true)
    (hfires : Fires m.fired m.held p.id r) {k : Nat} {f : Firing}
    (hk : (firings m.fired p.id ++ [⟨p.id, pass, now⟩])[k]? = some f)
    (hlt : r.start + (k + 1) * r.duration < 2 ^ 64) :
    r.start + k * r.duration ≤ f.nCurTime.toNat := by
  by_cases hold : k < (firings m.fired p.id).length
  · rw [List.getElem?_append_left hold] at hk
    exact hfires.due k f hk hlt
  · rw [List.getElem?_append_right (Nat.le_of_not_lt hold), List.getElem?_singleton] at hk
    split at hk
    · obtain rfl := Option.some.inj hk
      have hkeq : (firings m.fired p.id).length = k := by omega
      have hnext := hr.next hcall
      have hdue := v.due
      rw [UInt64.lt_iff_toNat_lt, hnext, hkeq] at hdue
      rw [Nat.add_mul, Nat.one_mul] at hlt
      rw [Nat.mod_eq_of_lt (by omega)] at hdue
      exact Nat.le_of_not_lt hdue
    · cases hk

/-- A timer that is to fire once has not fired before, and is taken off. -/
theorem once (v : Visited m m' i x y pass now p rest pre post) (h : m.Valid)
    (hfires : Fires m.fired m.held p.id r) (hone : p.m_nType = .eTimerTypeOnce)
    (hone' : r.type = .eTimerTypeOnce) :
    firings m.fired p.id = [] ∧ ∀ t ∈ m'.held, t.id ≠ p.id := by
  refine ⟨?_, fun t ht => ?_⟩
  · by_contra hne
    exact (hfires.once hone' hne).2 p v.mem_self rfl
  · cases v.mem_held ht with
    | inl ht =>
      cases ht.2 with
      | inl hpre => exact (v.other h).1 t hpre
      | inr hpost => exact (v.other h).2 t hpost
    | inr ht =>
      have hloop := ht.2
      rw [hone] at hloop
      cases hloop

end Executed

/-- The one firing that may be new is in this pass, and not before its time. -/
theorem fires (v : Visited m m' i x y pass now p rest pre post) (h : m.Valid) {id : Nat} {r : Made}
    (hmade : m'.made[id]? = some r) : Fires m'.fired m'.held id r := by
  rw [v.made] at hmade
  have hfires := h.fires id r hmade
  by_cases hself : p.callback = true ∧ id = p.id
  · obtain ⟨hcall, rfl⟩ := hself
    obtain ⟨r', hr⟩ := h.known p v.mem_self
    obtain rfl := Option.some.inj (hr.made.symm.trans hmade)
    have hnew : firings m'.fired p.id = firings m.fired p.id ++ [⟨p.id, pass, now⟩] := by
      rw [v.firings_self, if_pos hcall]
    refine ⟨?_, ?_, ?_⟩
    · rw [hnew]
      exact v.distinct h hfires
    · rw [hnew]
      exact fun k f hk hlt => v.due_at hr hcall hfires hk hlt
    · intro hone _
      obtain ⟨hnil, hgone⟩ := v.once h hfires (hr.type.trans hone) hone
      rw [hnew, hnil]
      exact ⟨rfl, hgone⟩
  · refine hfires.kept ?_ fun t => v.ids_held
    by_cases hid : id = p.id
    · subst hid
      have hcall : ¬ p.callback = true := fun hcall => hself ⟨hcall, rfl⟩
      rw [v.firings_self, if_neg hcall, List.append_nil]
    · exact v.firings_other hid

theorem count (v : Visited m m' i x y pass now p rest pre post) (h : m.Valid) :
    m'.m_nTimerCnt.toNat = m'.timers.length % 2 ^ 32 := by
  have hold := h.count
  rw [v.timers, List.length_append, List.length_cons] at hold
  rw [v.timers', List.length_append, List.length_append]
  cases v.place with
  | inl hr =>
    rw [hr.2.2, hr.2.1, List.length_nil]
    have hsub : m.m_nTimerCnt - 1 = UInt32.ofNat (pre.length + post.length) := by
      have hcnt : m.m_nTimerCnt = UInt32.ofNat (pre.length + post.length) + 1 := by
        refine UInt32.toNat_inj.mp ?_
        rw [hold, UInt32.toNat_add, UInt32.toNat_ofNat']
        change _ = (_ % 2 ^ 32 + 1) % 2 ^ 32
        omega
      rw [hcnt, UInt32.add_sub_cancel]
    rw [hsub, UInt32.toNat_ofNat', Nat.zero_add]
  | inr hr =>
    rw [hr.2.2, hr.2.1, List.length_singleton, hold, Nat.add_comm 1]

theorem valid (v : Visited m m' i x y pass now p rest pre post) (h : m.Valid) : m'.Valid where
  holder := by
    intro j z q hz hq
    rw [v.mutex, v.passes]
    rw [v.threads] at hz
    cases getElem?_setThread hz with
    | inl hj =>
      obtain ⟨rfl, rfl⟩ := hj
      obtain rfl := Option.some.inj (v.inside'.symm.trans hq)
      exact h.holder j x pass v.thread v.inside
    | inr hj => exact h.holder j z q hj.2 hq
  ids := by
    have hids := h.ids
    obtain ⟨hpre, hpost⟩ := v.other h
    rw [v.held.1, List.map_append, List.map_cons] at hids
    rw [v.held.2, List.map_append, List.map_append]
    cases v.place with
    | inl hr =>
      rw [hr.2.1]
      exact hids.sublist (List.Sublist.append_left (List.sublist_cons_self _ _) _)
    | inr hr =>
      rw [hr.2.1]
      exact hids
  known := fun t ht => v.known h ht
  log := by
    intro f hf
    rw [v.passes, v.made]
    rw [v.fired] at hf
    cases List.mem_append.mp hf with
    | inl hf => exact h.log f hf
    | inr hf =>
      split at hf
      · rw [List.mem_singleton.mp hf]
        refine ⟨(h.holder i x pass v.thread v.inside).2, h.id_lt ?_⟩
        rw [v.held.1]
        exact List.mem_append_right _ List.mem_cons_self
      · cases hf
  fresh := by
    intro j z q hz hq t ht f hf he
    rw [v.threads] at hz
    cases getElem?_setThread hz with
    | inr hj => exact absurd (h.alone v.thread v.inside hj.2 hq) hj.1
    | inl hj =>
      obtain ⟨rfl, rfl⟩ := hj
      obtain rfl := Option.some.inj (v.inside'.symm.trans hq)
      rw [v.ahead'] at ht
      rw [v.fired] at hf
      cases List.mem_append.mp hf with
      | inl hf =>
        refine h.fresh j x pass v.thread v.inside t ?_ f hf he
        rw [v.ahead]
        exact List.mem_cons_of_mem p ht
      | inr hf =>
        split at hf
        · rw [List.mem_singleton.mp hf] at he
          exact absurd he.symm ((v.other h).2 t (List.mem_append_left _ ht))
        · cases hf
  fires := fun _ _ hmade => v.fires h hmade
  count := v.count h

end Visited

theorem visit (h : m.Valid) {pass mapIt listIt : Nat} {nCurTime key : UInt64} {list : List Timer}
    (hx : m.threads[i]? = some (.list pass mapIt nCurTime listIt))
    (hmap : m.m_mapTimer[mapIt]? = some (key, list)) (hp : list[listIt]? = some p) :
    (m.visit i pass mapIt nCurTime listIt key list p).Valid := by
  obtain ⟨pre, post, haround⟩ := Buckets.exists_around hmap hp
  by_cases hdue : nCurTime < p.m_nNextTime
  · rw [Ticks.visit, if_pos hdue]
    refine h.setThread hx (Or.inl rfl) fun t ht => ?_
    change t ∈ m.m_mapTimer.ahead mapIt (listIt + 1) at ht
    change t ∈ m.m_mapTimer.ahead mapIt listIt
    rw [haround.skip] at ht
    rw [haround.ahead]
    exact List.mem_cons_of_mem p ht
  · rw [Ticks.visit, if_neg hdue]
    by_cases hone : p.m_nType = .eTimerTypeOnce
    · simp only [if_pos hone]
      refine @Visited.valid m _ i (.list pass mapIt nCurTime listIt) (.list pass mapIt nCurTime listIt)
        p pass nCurTime [] pre post ?_ h
      exact ⟨hx, rfl, rfl, rfl, rfl, rfl, rfl, rfl, rfl, haround.values, haround.ahead,
        haround.erase, haround.ahead_erase, hdue, Or.inl ⟨hone, rfl, rfl⟩⟩
    · have hloop : p.m_nType = .eTimerTypeLoop := by
        cases htype : p.m_nType with
        | eTimerTypeOnce => exact absurd htype hone
        | eTimerTypeLoop => rfl
      simp only [if_neg hone]
      refine @Visited.valid m _ i (.list pass mapIt nCurTime listIt)
        (.list pass mapIt nCurTime (listIt + 1)) p pass nCurTime [p.reset] pre post ?_ h
      exact ⟨hx, rfl, rfl, rfl, rfl, rfl, rfl, rfl, rfl, haround.values, haround.ahead,
        haround.set p.reset, haround.ahead_set p.reset, hdue, Or.inr ⟨hloop, rfl, rfl⟩⟩

theorem stepThread (h : m.Valid) {now : UInt64} (hx : m.threads[i]? = some x)
    (hs : m.stepThread i now x = some m') : m'.Valid := by
  cases x with
  | test =>
    cases hs
    refine h.setThread hx (Or.inr ?_) ?_
    · split <;> rfl
    · intro t ht
      split at ht <;> exact ht
  | lock =>
    simp only [Ticks.stepThread] at hs
    split at hs
    · rename_i hmutex
      cases hs
      exact h.lock hmutex
    · cases hs
  | entry pass mapIt =>
    simp only [Ticks.stepThread] at hs
    split at hs
    · cases hs
      exact h.unlock hx rfl
    · cases hs
      exact h.setThread hx (Or.inl rfl) fun t ht => ht
  | list pass mapIt nCurTime listIt =>
    obtain ⟨⟨key, list⟩, hmap, hs⟩ := Option.map_eq_some_iff.mp hs
    simp only at hs
    split at hs
    · rename_i hend
      subst hs
      refine h.setThread hx (Or.inl rfl) fun t ht => ?_
      change t ∈ m.m_mapTimer.ahead (mapIt + 1) 0 at ht
      change t ∈ m.m_mapTimer.ahead mapIt listIt
      rw [Buckets.ahead_next hmap hend]
      exact ht
    · rename_i p hp
      subst hs
      exact h.visit hx hmap hp
  | sleep =>
    cases hs
    exact h.setThread hx (Or.inr rfl) fun t ht => ht
  | left => cases hs

theorem step (h : m.Valid) {op : TickOp} (hs : m.step op = some m') : m'.Valid := by
  cases op with
  | addTimer nDuration now =>
    cases hs
    exact h.enter rfl (Nat.mod_eq_of_lt now.toNat_lt).symm
  | addTimerAfter nAfterTime nDuration now =>
    cases hs
    refine h.enter rfl ?_
    change (nAfterTime + now).toNat = _
    rw [UInt64.toNat_add, Nat.add_comm]
  | addTimerPtr pTimer =>
    cases hs
    exact h.enter rfl (Nat.mod_eq_of_lt pTimer.m_nNextTime.toNat_lt).symm
  | start =>
    cases hs
    exact h.start
  | stop =>
    cases hs
    exact h.stop
  | call c =>
    obtain ⟨k, hc, hs⟩ := Option.bind_eq_some_iff.mp hs
    cases k with
    | adding t =>
      simp only [stepCall] at hs
      split at hs
      · rename_i hmutex
        cases hs
        exact h.insert hc hmutex
      · cases hs
    | stopping =>
      simp only [stepCall] at hs
      split at hs
      · rename_i hmutex
        cases hs
        exact h.clear hc hmutex
      · cases hs
    | returned => cases hs
  | thread i now =>
    obtain ⟨x, hx, hs⟩ := Option.bind_eq_some_iff.mp hs
    exact h.stepThread hx hs

end Valid

theorem valid_run {ops : List TickOp} (h : Runs step (fun _ _ => True) new ops m) : m.Valid :=
  h.invariant Valid Valid.new fun _ _ _ h _ hs => h.step hs

def Adds (m : Ticks) : TickOp → Prop
  | .call c => ∃ t, m.calls[c]? = some (.adding t)
  | _ => False

structure Kept (m : Ticks) : Prop where
  fires : ∀ id r, m.made[id]? = some r → Fires m.fired m.timers id r
  /-- When `stop` returns, nothing fires until a timer is registered again. -/
  stopped : ∀ c m' ops m'', m.calls[c]? = some .stopping → m.step (.call c) = some m' →
    Runs step (fun m op => ¬ m.Adds op) m' ops m'' → m''.fired = m'.fired
  count : m.m_nTimerCnt.toNat = m.timers.length % 2 ^ 32

/-- In an empty map a pass finds no timer. -/
theorem no_timer (hempty : m.timers = []) {mapIt listIt : Nat} {key : UInt64} {list : List Timer}
    (hmap : m.m_mapTimer[mapIt]? = some (key, list)) : list[listIt]? = none := by
  cases hp : list[listIt]? with
  | none => rfl
  | some p =>
    obtain ⟨pre, post, haround⟩ := Buckets.exists_around hmap hp
    have hvalues := haround.values
    change m.timers = _ at hvalues
    rw [hempty] at hvalues
    simp at hvalues

theorem step_empty (hempty : m.timers = []) {op : TickOp} (hadds : ¬ m.Adds op)
    (hs : m.step op = some m') : m'.timers = [] ∧ m'.fired = m.fired := by
  cases op with
  | addTimer nDuration now =>
    cases hs
    exact ⟨hempty, rfl⟩
  | addTimerAfter nAfterTime nDuration now =>
    cases hs
    exact ⟨hempty, rfl⟩
  | addTimerPtr pTimer =>
    cases hs
    exact ⟨hempty, rfl⟩
  | start =>
    cases hs
    exact ⟨hempty, rfl⟩
  | stop =>
    cases hs
    exact ⟨hempty, rfl⟩
  | call c =>
    obtain ⟨k, hc, hs⟩ := Option.bind_eq_some_iff.mp hs
    cases k with
    | adding t => exact absurd ⟨t, hc⟩ hadds
    | stopping =>
      simp only [stepCall] at hs
      split at hs
      · cases hs
        exact ⟨rfl, rfl⟩
      · cases hs
    | returned => cases hs
  | thread i now =>
    obtain ⟨x, hx, hs⟩ := Option.bind_eq_some_iff.mp hs
    cases x with
    | test =>
      cases hs
      exact ⟨hempty, rfl⟩
    | lock =>
      simp only [stepThread] at hs
      split at hs
      · cases hs
        exact ⟨hempty, rfl⟩
      · cases hs
    | entry pass mapIt =>
      simp only [stepThread] at hs
      split at hs
      · cases hs
        exact ⟨hempty, rfl⟩
      · cases hs
        exact ⟨hempty, rfl⟩
    | list pass mapIt nCurTime listIt =>
      obtain ⟨⟨key, list⟩, hmap, hs⟩ := Option.map_eq_some_iff.mp hs
      simp only [no_timer hempty hmap] at hs
      subst hs
      exact ⟨hempty, rfl⟩
    | sleep =>
      cases hs
      exact ⟨hempty, rfl⟩
    | left => cases hs

theorem run_empty {ops : List TickOp} (hempty : m.timers = [])
    (h : Runs step (fun m op => ¬ m.Adds op) m ops m') : m'.timers = [] ∧ m'.fired = m.fired := by
  refine h.invariant (fun u => u.timers = [] ∧ u.fired = m.fired) ⟨hempty, rfl⟩ ?_
  intro u op u' hu hadds hs
  obtain ⟨hempty', hfired⟩ := step_empty hu.1 hadds hs
  exact ⟨hempty', hfired.trans hu.2⟩

/-- In every run the timers fire at most once per pass and not before their time, one that fires
once is then gone, `stop` ends the firing, and the counter is right up to a multiple of `2^32`. -/
theorem ticker_kept {ops : List TickOp} (h : Runs step (fun _ _ => True) new ops m) : m.Kept where
  fires := fun id r hr =>
    ((valid_run h).fires id r hr).mono fun _ ht => List.mem_append_left _ ht
  stopped := by
    intro c m' ops m'' hc hs hrun
    have hempty : m'.timers = [] := by
      simp only [step, hc, Option.bind_some, stepCall] at hs
      split at hs
      · cases hs
        rfl
      · cases hs
    exact (run_empty hempty hrun).2
  count := (valid_run h).count

/-- A timer of five milliseconds is added, and a pass finds it due at once. -/
def oneTick : List TickOp :=
  [.addTimer 5 100, .call 0, .start, .thread 0 0, .thread 0 0, .thread 0 100, .thread 0 0,
    .thread 0 0]

theorem ticker_kept_once : ∃ m, Runs step (fun _ _ => True) new oneTick m ∧ m.Kept := by
  have h : (exec step (fun _ _ => True) new oneTick).isSome := by decide
  obtain ⟨m, hm⟩ := Option.isSome_iff_exists.mp h
  exact ⟨m, runs_of_exec hm, ticker_kept (runs_of_exec hm)⟩

/-- Any number of timers can be added. -/
theorem exists_timers (n : Nat) : ∃ ops m, Runs step (fun _ _ => True) new ops m ∧
    m.m_mutex = none ∧ m.timers.length = n := by
  induction n with
  | zero => exact ⟨[], new, .nil, rfl, rfl⟩
  | succ n ih =>
    obtain ⟨ops, m, hrun, hmutex, hlen⟩ := ih
    let t := Timer.setTimer m.made.length 0 0
    let u := m.enter t 0
    have hadd : m.step (.addTimer 0 0) = some u := rfl
    have hc : u.calls[m.calls.length]? = some (.adding t) := List.getElem?_concat_length
    have hcall : u.step (.call m.calls.length) =
        some { u.insert t with calls := u.calls.set m.calls.length .returned } := by
      have hu : u.m_mutex = none := hmutex
      simp only [step, hc, Option.bind_some, stepCall, hu]
    refine ⟨_, _, (hrun.snoc trivial hadd).snoc trivial hcall, hmutex, ?_⟩
    have hperm := Buckets.insert_perm t.m_nSortTime t m.m_mapTimer
    exact hperm.length_eq.trans (congrArg (· + 1) hlen)

/-- With `2^32` timers the counter is zero. -/
theorem counter_wraps : ∃ ops m, Runs step (fun _ _ => True) new ops m ∧
    m.timers.length = 2 ^ 32 ∧ m.m_nTimerCnt.toNat = 0 := by
  obtain ⟨ops, m, hrun, -, hlen⟩ := exists_timers (2 ^ 32)
  refine ⟨ops, m, hrun, hlen, ?_⟩
  rw [(valid_run hrun).count, hlen, Nat.mod_self]

end Ticks
end CppPrivate.Public
