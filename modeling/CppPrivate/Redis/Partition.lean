import CppPrivate.Redis.Capacity

/-! While nobody changes the size of the Redis pool, the clients on loan and the lists of the
hosts partition its slots. -/
namespace CppPrivate.Redis
open Run CRedisClientPool

/-- The call leaves the number of slots as it is. -/
def Op.KeepsSize : Op → Prop
  | .setClientCnt _ => False
  | _ => True

instance : (op : Op) → Decidable op.KeepsSize
  | .setClientCnt _ => inferInstanceAs (Decidable False)
  | .getClient .. | .getClusterClient .. | .returnClient .. | .checkConnection .. | .setTimeout .. =>
    inferInstanceAs (Decidable True)

def occupied (s : CRedisClientPool) : Nat := s.m_VecClient.countP Option.isSome

theorem occupied_set_some {v : VecRedisClient} {n p : Nat} (h : v[n]? = some none) :
    (v.set n (some p)).countP Option.isSome = v.countP Option.isSome + 1 := by
  obtain ⟨hlt, hn⟩ := List.getElem?_eq_some_iff.mp h
  rw [List.countP_set hlt, hn]
  rfl

theorem occupied_set_none {v : VecRedisClient} {n p : Nat} (h : v[n]? = some (some p)) :
    (v.set n none).countP Option.isSome = v.countP Option.isSome - 1 := by
  obtain ⟨hlt, hn⟩ := List.getElem?_eq_some_iff.mp h
  rw [List.countP_set hlt, hn]
  rfl

theorem occupied_pos {v : VecRedisClient} {n p : Nat} (h : v[n]? = some (some p)) :
    0 < v.countP Option.isSome :=
  List.countP_pos_iff.mpr ⟨_, List.mem_of_getElem? h, rfl⟩

/-- What holds besides in a pool that keeps its ten slots: the entry of the free list stays, no
other list is empty, and the clients are counted. -/
structure Steady (s : CRedisClientPool) : Prop where
  count : s.m_nCurClientCnt = m_nDefaultClientCnt
  size : s.m_VecClient.length = m_nDefaultClientCnt.toNat
  hasFree : (s.m_MapUseable nullHost).isSome
  noEmpty : ∀ k, k ≠ nullHost → s.m_MapUseable k ≠ some []
  used : s.m_nUsedClientCnt.toNat = occupied s

namespace Steady
variable {s : CRedisClientPool} {loans : List Nat} {host key : Bytes} {i : Int}
  {rest : ListUseableIndex} {n p : Nat} {c : CRedisClientEx}

theorem new : Steady CRedisClientPool.new where
  count := rfl
  size := by decide
  hasFree := by simp [CRedisClientPool.new]
  noEmpty := by
    intro k hk
    simp [CRedisClientPool.new, hk]
  used := by decide

theorem popFront_hasFree (h : Steady s) (hh : host ≠ nullHost) :
    (popFront s.m_MapUseable host key rest nullHost).isSome := by
  simp only [popFront, Ne.symm hh, false_and, if_false]
  split
  · rfl
  · exact h.hasFree

theorem popFront_noEmpty (h : Steady s) (hl : s.getUseableList host = some (key, i :: rest))
    {k : Bytes} (hk : k ≠ nullHost) : popFront s.m_MapUseable host key rest k ≠ some [] := by
  have hcases := (getUseableList_cases hl).2
  rw [popFront]
  split
  · simp
  · rename_i hne
    split
    · rename_i hkey
      -- the list is the host's own, so an empty rest would have been erased
      have hhost : key = host := hcases.resolve_right fun hcase => hk (hkey.trans hcase.1)
      intro hrest
      exact hne ⟨hkey.trans hhost, Option.some.inj hrest⟩
    · exact h.noEmpty k hk

theorem handNew (h : Steady s) (hh : host ≠ nullHost)
    (hl : s.getUseableList host = some (key, i :: rest)) (hi : at? s.m_VecClient i = some none)
    {client : CRedisClient} {now : UInt64} : Steady (s.handNew host key rest i client now) where
  count := h.count
  size := by simpa [CRedisClientPool.handNew] using h.size
  hasFree := h.popFront_hasFree hh
  noEmpty := fun _ => h.popFront_noEmpty hl
  used := by
    have hle : occupied s ≤ 10 := Nat.le_trans List.countP_le_length (Nat.le_of_eq h.size)
    have hused := h.used
    simp only [occupied] at hused hle
    simp only [occupied, CRedisClientPool.handNew, UInt32.toNat_add, UInt32.toNat_one]
    rw [occupied_set_some (at?_eq_some.mp hi).2]
    omega

theorem handFound (h : Steady s) (hh : host ≠ nullHost)
    (hl : s.getUseableList host = some (key, i :: rest)) :
    Steady (s.handFound host key rest i p) :=
  ⟨h.count, h.size, h.popFront_hasFree hh, fun _ => h.popFront_noEmpty hl, h.used⟩

theorem takeClient (h : Steady s) (hh : host ≠ nullHost) {client : CRedisClient}
    {connected : Bool} {now : UInt64} {r : CRedisClientPool × Option Nat}
    (hr : s.takeClient host client connected now = some r) : Steady r.1 := by
  rcases takeClient_cases hr with rfl | ⟨key, i, rest, hl, ⟨hi, rfl⟩ | ⟨p, c, hi, -, rfl⟩⟩
  · exact h
  · exact h.handNew hh hl hi
  · exact h.handFound hh hl

theorem giveBack (h : Steady s) (hh : host ≠ nullHost) {heap : Heap CRedisClientEx} :
    Steady { s with heap := heap, m_MapUseable := pushHost s.m_MapUseable host i } where
  count := h.count
  size := h.size
  hasFree := by
    simp only [pushHost, Ne.symm hh, if_false]
    exact h.hasFree
  noEmpty := by
    intro k hk
    simp only [pushHost]
    split
    · simp
    · exact h.noEmpty k hk
  used := h.used

/-- The entry of the free list is there when the sweep has an index for it. -/
theorem takesBack (h : Steady s) (hh : host ≠ nullHost) :
    (removeFound s.m_MapUseable host i nullHost).isSome := by
  simp only [removeFound, Ne.symm hh, if_false]
  exact h.hasFree

theorem reap (h : Steady s) (hp : s.m_VecClient[n]? = some (some p)) (hh : c.m_Host ≠ nullHost) :
    Steady (s.reap n p c) where
  count := h.count
  size := by simpa [CRedisClientPool.reap] using h.size
  hasFree := by
    simp only [CRedisClientPool.reap, pushFound, if_true, Option.isSome_map]
    exact h.takesBack hh
  noEmpty := by
    intro k hk
    simp only [CRedisClientPool.reap, pushFound, hk, if_false, removeFound]
    split
    · cases s.m_MapUseable c.m_Host with
      | none => simp
      | some l =>
        simp only [Option.bind_some]
        split
        · simp
        · rename_i hne
          simpa using hne
    · exact h.noEmpty k hk
  used := by
    have hpos := occupied_pos hp
    have hused := h.used
    have hlt := s.m_nUsedClientCnt.toNat_lt
    simp only [occupied, CRedisClientPool.reap] at hused ⊢
    rw [occupied_set_none hp, ← hused, UInt32.toNat_sub]
    simp only [UInt32.toNat_one]
    omega

theorem checkConnection (h : Steady s) (hin : InRange s loans) {now : Nat → UInt64}
    {ping : Nat → Bool} {t : CRedisClientPool} (ht : s.checkConnection now ping = some t) :
    Steady t := by
  obtain ⟨u, hu, hr⟩ := Option.bind_eq_some_iff.mp ht
  have hsweep : InRange u loans ∧ Steady u := by
    refine reapLoop_invariant (fun u => InRange u loans ∧ Steady u) ?_ hu ⟨hin, h⟩
    intro v n p c hv hp hc he
    simp only [expired, Bool.and_eq_true, Bool.not_eq_true'] at he
    obtain ⟨-, -, hh, -⟩ := hv.1.exclusive.slot_cell hp hc
    exact ⟨hv.1.reap hp hc he.1 (hv.2.takesBack hh), hv.2.reap hp hh⟩
  -- the vector has the length it is to have, so nothing is shortened
  have hlen : u.m_VecClient.length ≤ u.m_nCurClientCnt.toNat := by
    refine Nat.le_of_eq ?_
    rw [hsweep.2.count, hsweep.2.size]
  rw [shrink_of_le hlen] at hr
  exact Option.some.inj hr ▸ hsweep.2

/-- Every call of a run that keeps the size has its entry of the free list. -/
theorem keepsFree {s : System} (h : Steady s.pool) (hin : InRange s.pool s.loans) {op : Op}
    (hsize : op.KeepsSize) : KeepsFree s op := by
  cases op with
  | checkConnection now ping =>
    simp only [KeepsFree, Option.all_eq_true]
    intro n hn
    obtain ⟨p, c, hp, hc, -⟩ := reapable_eq_true.mp (List.find?_some hn)
    obtain ⟨-, -, hh, -⟩ := hin.exclusive.slot_cell hp hc
    simp only [CppPrivate.Redis.takesBack, clientAt_eq_some.mpr hp, Option.bind_some, hc]
    exact h.takesBack hh
  | setClientCnt nCnt => cases hsize
  | getClient ip port passwd connected now => trivial
  | getClusterClient strHost passwd connected now => trivial
  | returnClient pClient now => trivial
  | setTimeout nTimeout => trivial

theorem sized {s : System} (h : Steady s.pool) (hin : InRange s.pool s.loans) : Sized s where
  kept := hin.kept
  atLeast := by
    refine Nat.le_of_eq ?_
    rw [h.count, h.size]
  positive := by
    rw [h.count]
    decide

theorem step {s t : System} {op : Op} (h : Steady s.pool) (hin : InRange s.pool s.loans)
    (hop : op.NotReserved) (hsize : op.KeepsSize) (hs : s.step op = some t) :
    Steady t.pool ∧ InRange t.pool t.loans := by
  have hpos : op.Positive := by cases op <;> trivial
  have hclear : GrowthClear s op := by cases op <;> trivial
  refine ⟨?_, hin.step (h.sized hin) hop hpos hclear (h.keepsFree hin hsize) hs⟩
  cases stepped_of_step hs with
  | lend hhost hr => exact h.takeClient (hhost hop) hr
  | nothing => exact h
  | @giveBack p c now hp hc =>
    obtain ⟨n, hn⟩ := hin.exclusive.lent p hp
    obtain ⟨-, -, hh, -⟩ := hin.exclusive.slot_cell hn hc
    exact h.giveBack hh
  | checkConnection _ hu => exact h.checkConnection hin hu
  | setClientCnt hcall _ =>
    subst hcall
    cases hsize
  | setTimeout n => exact ⟨h.count, h.size, h.hasFree, h.noEmpty, h.used⟩

end Steady

def Lent (s : System) (n : Nat) : Prop := ∃ p ∈ s.loans, s.pool.m_VecClient[n]? = some (some p)

/-- Each of the slots is on loan and in no list, or it is in one list, once: in the free list when
it is empty, otherwise in that of its client's host. -/
structure Partitioned (s : System) : Prop where
  size : s.pool.m_VecClient.length = s.pool.m_nCurClientCnt.toNat
  once : s.loans.Nodup
  lent : ∀ p ∈ s.loans, ∃ n < s.pool.m_nCurClientCnt.toNat, s.pool.m_VecClient[n]? = some (some p)
  out : ∀ n, Lent s n → ∀ k, (n : Int) ∉ listAt s.pool.m_MapUseable k
  filed : ∀ n < s.pool.m_nCurClientCnt.toNat, ¬Lent s n →
    ∃ k, (listAt s.pool.m_MapUseable k).count (n : Int) = 1 ∧
      ∀ k', (n : Int) ∈ listAt s.pool.m_MapUseable k' → k' = k
  range : ∀ k, ∀ x ∈ listAt s.pool.m_MapUseable k, 0 ≤ x ∧ x < s.pool.m_nCurClientCnt.toNat
  free : ∀ n : Nat, (n : Int) ∈ listAt s.pool.m_MapUseable nullHost ↔
    s.pool.m_VecClient[n]? = some none
  idle : ∀ n p : Nat, s.pool.m_VecClient[n]? = some (some p) → p ∉ s.loans → ∃ c,
    s.pool.heap.cell p = some c ∧ c.m_Host ≠ nullHost ∧
      (listAt s.pool.m_MapUseable c.m_Host).count (n : Int) = 1
  noEmpty : ∀ k, k ≠ nullHost → s.pool.m_MapUseable k ≠ some []
  used : s.pool.m_nUsedClientCnt.toNat = occupied s.pool

section
variable {s : System} (h : InRange s.pool s.loans) {n p : Nat}
include h

/-- A client in a slot is idle in the list of its host, unless it is on loan. -/
theorem InRange.filed_idle (hp : s.pool.m_VecClient[n]? = some (some p)) (hout : p ∉ s.loans) :
    ∃ c, s.pool.heap.cell p = some c ∧ c.m_Host ≠ nullHost ∧
      (n : Int) ∈ listAt s.pool.m_MapUseable c.m_Host := by
  obtain ⟨c, hc, hci, -, hh, hused⟩ := h.exclusive.slot n p hp
  obtain ⟨-, -, hidle⟩ := h.kept.slot_cell hp hc
  have hu : c.m_Used = false := by
    rw [Bool.eq_false_iff, Ne, hused]
    exact hout
  exact ⟨c, hc, hh, hci ▸ hidle hu⟩

/-- The list an index is filed in: the free list for an empty slot, otherwise that of the host of
the client in the slot, who is not on loan. -/
theorem InRange.of_mem {k : Bytes} (hk : (n : Int) ∈ listAt s.pool.m_MapUseable k) :
    k = nullHost ∧ s.pool.m_VecClient[n]? = some none ∨
      ∃ p c, s.pool.m_VecClient[n]? = some (some p) ∧ s.pool.heap.cell p = some c ∧
        c.m_Host = k ∧ k ≠ nullHost ∧ p ∉ s.loans := by
  by_cases hnull : k = nullHost
  · subst hnull
    obtain ⟨-, hlt⟩ := h.free _ hk
    have hslot := h.exclusive.free _ hk
    simp only [at?_natCast] at hslot
    have hlen : n < s.pool.m_VecClient.length := by omega
    rw [List.getElem?_eq_getElem hlen] at hslot ⊢
    cases hv : s.pool.m_VecClient[n] with
    | none => exact Or.inl ⟨rfl, rfl⟩
    | some p => exact absurd (congrArg some hv) (hslot p)
  · obtain ⟨p, c, hp, hc, hhost, hu⟩ := h.exclusive.idle k hnull _ hk
    rw [at?_natCast] at hp
    obtain ⟨-, -, -, hused⟩ := h.exclusive.slot_cell hp hc
    refine Or.inr ⟨p, c, hp, hc, hhost, hnull, ?_⟩
    rw [← hused, hu]
    exact Bool.false_ne_true

theorem InRange.partitioned (hsteady : Steady s.pool) : Partitioned s := by
  have hsize : s.pool.m_VecClient.length = s.pool.m_nCurClientCnt.toNat := by
    rw [hsteady.count, hsteady.size]
  have hcount : ∀ {k} {n : Nat}, (n : Int) ∈ listAt s.pool.m_MapUseable k →
      (listAt s.pool.m_MapUseable k).count (n : Int) = 1 :=
    fun hmem => List.count_eq_one_of_mem (h.exclusive.nodup _) hmem
  refine ⟨hsize, h.exclusive.once, ?_, ?_, ?_, ?_, ?_, ?_, hsteady.noEmpty, hsteady.used⟩
  · intro p hp
    obtain ⟨n, hn⟩ := h.exclusive.lent p hp
    exact ⟨n, hsize ▸ (List.getElem?_eq_some_iff.mp hn).1, hn⟩
  · intro n hcase k hk
    obtain ⟨p, hp, hn⟩ := hcase
    rcases h.of_mem hk with ⟨-, hv⟩ | ⟨q, c, hq, -, -, -, hout⟩
    · rw [hn] at hv
      cases hv
    · rw [hn] at hq
      cases hq
      exact hout hp
  · intro n hn hout
    have hlen : n < s.pool.m_VecClient.length := by omega
    cases hv : s.pool.m_VecClient[n] with
    | none =>
      have hslot : s.pool.m_VecClient[n]? = some none := by rw [List.getElem?_eq_getElem hlen, hv]
      refine ⟨nullHost, hcount (h.kept.empty n hslot), ?_⟩
      intro k hk
      rcases h.of_mem hk with ⟨hnull, -⟩ | ⟨q, c, hq, -⟩
      · exact hnull
      · rw [hslot] at hq
        cases hq
    | some p =>
      have hslot : s.pool.m_VecClient[n]? = some (some p) := by
        rw [List.getElem?_eq_getElem hlen, hv]
      obtain ⟨c, hc, -, hmem⟩ := h.filed_idle hslot fun hp => hout ⟨p, hp, hslot⟩
      refine ⟨c.m_Host, hcount hmem, ?_⟩
      intro k hk
      rcases h.of_mem hk with ⟨-, hv⟩ | ⟨q, d, hq, hd, hhost, -⟩
      · rw [hslot] at hv
        cases hv
      · rw [hslot] at hq
        cases hq
        rw [hc] at hd
        cases hd
        exact hhost.symm
  · intro k x hx
    rw [← hsize]
    by_cases hnull : k = nullHost
    · exact h.free x (hnull ▸ hx)
    · obtain ⟨p, c, hp, -⟩ := h.exclusive.idle k hnull x hx
      exact at?_lt hp
  · intro n
    refine ⟨fun hk => ?_, h.kept.empty n⟩
    rcases h.of_mem hk with ⟨-, hv⟩ | ⟨q, c, -, -, -, hne, -⟩
    · exact hv
    · exact absurd rfl hne
  · intro n p hp hout
    obtain ⟨c, hc, hh, hmem⟩ := h.filed_idle hp hout
    exact ⟨c, hc, hh, hcount hmem⟩

end

theorem steady_of_runs {ops : List Op} {t : System}
    (h : Runs System.step (fun _ op => op.NotReserved ∧ op.KeepsSize) .new ops t) :
    Steady t.pool ∧ InRange t.pool t.loans :=
  h.invariant (fun s => Steady s.pool ∧ InRange s.pool s.loans) ⟨Steady.new, InRange.new⟩
    fun _ _ _ hi hc hs => hi.1.step hi.2 hc.1 hc.2 hs

/-- The clients on loan and the lists partition the slots of a pool of unchanged size, and every
call a borrower makes once per loan is defined. -/
theorem slots_partitioned {ops : List Op} {t : System}
    (h : Runs System.step (fun _ op => op.NotReserved ∧ op.KeepsSize) .new ops t) :
    Partitioned t ∧ ∀ op : Op, (∀ p now, op = .returnClient (some p) now → p ∈ t.loans) →
      (t.step op).isSome := by
  obtain ⟨hsteady, hin⟩ := steady_of_runs h
  exact ⟨hin.partitioned hsteady, fun op hp => hin.exclusive.step_isSome hp⟩

/-- Two hosts, one of them in both modes; one client comes back and expires while another is on
loan. -/
theorem slots_partitioned_expired : ∃ t,
    Runs System.step (fun _ op => op.NotReserved ∧ op.KeepsSize) .new
      [.getClient (bytes "a") 1 [] true 0, .getClusterClient (bytes "a:1") [] true 0,
        .getClient (bytes "b") 2 [] false 0, .returnClient (some 0) 5,
        .checkConnection (fun _ => 900) (fun _ => true)] t ∧ Partitioned t := by
  have h : (exec System.step (fun _ op => op.NotReserved ∧ op.KeepsSize) .new
      [.getClient (bytes "a") 1 [] true 0, .getClusterClient (bytes "a:1") [] true 0,
        .getClient (bytes "b") 2 [] false 0, .returnClient (some 0) 5,
        .checkConnection (fun _ => 900) (fun _ => true)]).isSome := by decide
  obtain ⟨t, ht⟩ := Option.isSome_iff_exists.mp h
  exact ⟨t, runs_of_exec ht, (slots_partitioned (runs_of_exec ht)).1⟩

end CppPrivate.Redis
