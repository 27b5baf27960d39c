import CppPrivate.Lib.Cut
import CppPrivate.Lib.Owned
import CppPrivate.Redis.Loans

/-! The loop that shortens the Redis pool stands in `checkConnection` and again in `setClientCnt`,
where it does not count off the clients that it deletes. -/
namespace CppPrivate.Redis
open Run CRedisClientPool

namespace CRedisClientPool
variable {s t : CRedisClientPool} {n p : Nat} {c : CRedisClientEx} {host key : Bytes} {i : Int}
  {rest : ListUseableIndex} {countOff : Bool} {target fuel : Nat}

/-- No slot holds a deleted client, and no client is in two slots. -/
def Owned (s : CRedisClientPool) : Prop := s.heap.Owned s.m_VecClient

namespace Owned

theorem new : Owned CRedisClientPool.new :=
  Heap.Owned.of_empty fun _ hx => List.eq_of_mem_replicate hx

theorem takeClient (h : s.Owned) {client : CRedisClient} {connected : Bool} {now : UInt64}
    {r : CRedisClientPool × Option Nat} (hr : s.takeClient host client connected now = some r) :
    r.1.Owned := by
  obtain rfl | ⟨key, i, rest, -, ⟨-, rfl⟩ | ⟨p, c, -, -, rfl⟩⟩ := takeClient_cases hr
  · exact h
  · exact h.alloc _ _
  · exact h.modify _ _

theorem dropFree (h : s.Owned) : s.dropFree.Owned := h.dropLast

theorem dropIdle (h : s.Owned)
    (hlast : s.m_VecClient[s.m_VecClient.length - 1]? = some (some p)) :
    (s.dropIdle countOff p c).Owned := h.free_dropLast hlast

theorem shrink (h : s.Owned) (ht : s.shrink countOff target = some t) : t.Owned :=
  shrinkLoop_invariant Owned (fun _ hs _ _ => hs.dropFree)
    (fun _ _ _ hs _ hlast _ _ => hs.dropIdle hlast) ht h

theorem shrink_isSome (h : s.Owned) (countOff : Bool) (target : Nat) :
    (s.shrink countOff target).isSome :=
  shrinkLoop_isSome Owned
    (fun _ n p hs hp => Option.isSome_iff_exists.mpr (hs.live n p hp))
    (fun _ hs _ => hs.dropFree) (fun _ _ _ hs hlast _ _ => hs.dropIdle hlast) h

theorem checkConnection (h : s.Owned) {now : Nat → UInt64} {ping : Nat → Bool}
    (ht : s.checkConnection now ping = some t) : t.Owned := by
  obtain ⟨u, hu, hr⟩ := Option.bind_eq_some_iff.mp ht
  exact shrink (reapLoop_invariant Owned (fun _ _ _ _ hs hp _ _ => hs.free_set hp) hu h) hr

theorem setClientCnt (h : s.Owned) {nCnt : UInt32} (ht : s.setClientCnt nCnt = some t) :
    t.Owned := by
  obtain rfl | ⟨-, rfl⟩ | ⟨-, u, hu, rfl⟩ := setClientCnt_cases ht
  · exact h
  · exact h.append fun _ hx => List.eq_of_mem_replicate hx
  · have hu := h.shrink hu
    exact hu

end Owned
end CRedisClientPool

theorem owned_step {s t : System} {op : Op} (h : s.pool.Owned) (hs : s.step op = some t) :
    t.pool.Owned := by
  cases stepped_of_step hs with
  | lend _ hr => exact h.takeClient hr
  | nothing => exact h
  | giveBack _ _ => exact h.modify _ _
  | checkConnection _ hu => exact h.checkConnection hu
  | setClientCnt _ hu => exact h.setClientCnt hu
  | setTimeout n => exact h

/-- In every run, whatever its calls. -/
theorem owned_of_runs {ops : List Op} {t : System} {C : System → Op → Prop}
    (h : Runs System.step C .new ops t) : t.pool.Owned :=
  h.invariant (fun s => s.pool.Owned) Owned.new fun _ _ _ hi _ hs => owned_step hi hs

namespace CRedisClientPool
variable {s t : CRedisClientPool} {n p : Nat} {c : CRedisClientEx} {countOff : Bool}
  {target fuel : Nat} {nCnt k : UInt32}

/-- An empty slot, or one whose client nobody has on loan. -/
def unused (s : CRedisClientPool) : Option Nat → Bool
  | none => true
  | some p => (s.heap.cell p).any fun c => !c.m_Used

/-- The slots from `n` on that are behind every slot on loan, from the end of the vector. -/
def looseSlots (s : CRedisClientPool) (n : Nat) : VecRedisClient :=
  (s.m_VecClient.drop n).reverse.takeWhile s.unused

/-- How many clients they hold. -/
def looseClients (s : CRedisClientPool) (n : Nat) : Nat := (s.looseSlots n).countP Option.isSome

theorem looseSlots_of_le (h : s.m_VecClient.length ≤ n) : s.looseSlots n = [] := by
  rw [looseSlots, List.drop_eq_nil_of_le h]
  rfl

theorem looseSlots_used (hlt : n < s.m_VecClient.length)
    (hlast : s.m_VecClient[s.m_VecClient.length - 1]? = some (some p))
    (hc : s.heap.cell p = some c) (hu : c.m_Used = true) : s.looseSlots n = [] := by
  rw [looseSlots, reverse_drop hlt hlast, List.takeWhile_cons_of_neg]
  simp only [unused, hc, Option.any_some, hu, Bool.not_true, Bool.false_eq_true, not_false_eq_true]

theorem looseSlots_dropFree (hlt : n < s.m_VecClient.length)
    (hlast : s.m_VecClient[s.m_VecClient.length - 1]? = some none) :
    s.looseSlots n = none :: s.dropFree.looseSlots n := by
  rw [looseSlots, reverse_drop hlt hlast, List.takeWhile_cons_of_pos rfl]
  rfl

/-- Deleting the last slot's client leaves the others as they are. -/
theorem looseSlots_dropIdle (ho : s.Owned) (hlt : n < s.m_VecClient.length)
    (hlast : s.m_VecClient[s.m_VecClient.length - 1]? = some (some p))
    (hc : s.heap.cell p = some c) (hu : c.m_Used = false) :
    s.looseSlots n = some p :: (s.dropIdle countOff p c).looseSlots n := by
  rw [looseSlots, reverse_drop hlt hlast, List.takeWhile_cons_of_pos]
  · rw [looseSlots]
    refine congrArg (some p :: ·) (takeWhile_congr ?_)
    intro x hx
    cases x with
    | none => rfl
    | some q =>
      have hmem := List.mem_of_mem_drop (List.mem_reverse.mp hx)
      obtain ⟨m, hm⟩ := List.getElem?_of_mem hmem
      obtain ⟨hm, hne⟩ := getElem?_of_dropLast hm
      have hqp : q ≠ p := by
        intro he
        exact hne (ho.once m _ p (he ▸ hm) hlast)
      simp only [unused, dropIdle, Heap.free_of_ne hqp]
  · simp only [unused, hc, Option.any_some, hu, Bool.not_false]

theorem looseClients_dropFree (hlt : n < s.m_VecClient.length)
    (hlast : s.m_VecClient[s.m_VecClient.length - 1]? = some none) :
    s.looseClients n = s.dropFree.looseClients n := by
  rw [looseClients, looseSlots_dropFree hlt hlast]
  exact List.countP_cons_of_neg (by simp)

theorem looseClients_dropIdle (ho : s.Owned) (hlt : n < s.m_VecClient.length)
    (hlast : s.m_VecClient[s.m_VecClient.length - 1]? = some (some p))
    (hc : s.heap.cell p = some c) (hu : c.m_Used = false) :
    s.looseClients n = (s.dropIdle countOff p c).looseClients n + 1 := by
  rw [looseClients, looseSlots_dropIdle ho hlt hlast hc hu]
  exact List.countP_cons_of_pos rfl

/-- In a vector of fewer than `2^32` slots no multiple but zero occurs. -/
theorem dvd_looseClients_iff (h : s.m_VecClient.length < 2 ^ 32) :
    2 ^ 32 ∣ s.looseClients n ↔ ∀ x ∈ s.looseSlots n, x = none := by
  have hle : s.looseClients n ≤ s.m_VecClient.length := by
    calc s.looseClients n ≤ (s.looseSlots n).length := List.countP_le_length
      _ ≤ (s.m_VecClient.drop n).reverse.length := (List.takeWhile_sublist _).length_le
      _ ≤ s.m_VecClient.length := by rw [List.length_reverse, List.length_drop]; omega
  have hzero : 2 ^ 32 ∣ s.looseClients n ↔ s.looseClients n = 0 :=
    ⟨fun hdvd => Nat.eq_zero_of_dvd_of_lt hdvd (by omega), fun hz => hz ▸ ⟨0, rfl⟩⟩
  rw [hzero, looseClients, List.countP_eq_zero]
  simp only [Option.not_isSome_iff_eq_none]

theorem shrinkLoop_of_le (h : s.m_VecClient.length ≤ target) :
    shrinkLoop countOff target fuel s = some s := by
  cases fuel with
  | zero => rfl
  | succ fuel => rw [shrinkLoop, if_neg (by omega)]

theorem shrinkLoop_used (hlt : target < s.m_VecClient.length)
    (hlast : s.m_VecClient[s.m_VecClient.length - 1]? = some (some p))
    (hc : s.heap.cell p = some c) (hu : c.m_Used = true) :
    shrinkLoop countOff target (fuel + 1) s = some s := by
  simp only [shrinkLoop, if_pos hlt, popTail, hlast, hc, Option.map_some, hu, if_true]

theorem shrinkLoop_free (hlt : target < s.m_VecClient.length)
    (hlast : s.m_VecClient[s.m_VecClient.length - 1]? = some none) :
    shrinkLoop countOff target (fuel + 1) s = shrinkLoop countOff target fuel s.dropFree := by
  simp only [shrinkLoop, if_pos hlt, popTail, hlast]

theorem shrinkLoop_idle (hlt : target < s.m_VecClient.length)
    (hlast : s.m_VecClient[s.m_VecClient.length - 1]? = some (some p))
    (hc : s.heap.cell p = some c) (hu : c.m_Used = false) :
    shrinkLoop countOff target (fuel + 1) s =
      shrinkLoop countOff target fuel (s.dropIdle countOff p c) := by
  simp only [shrinkLoop, if_pos hlt, popTail, hlast, hc, Option.map_some, hu, Bool.false_eq_true,
    if_false]

/-- The pool with another size asked for and `k` clients counted off. -/
def lessUsed (nCnt k : UInt32) (s : CRedisClientPool) : CRedisClientPool :=
  { s with m_nCurClientCnt := nCnt, m_nUsedClientCnt := s.m_nUsedClientCnt - k }

theorem dropIdle_lessUsed : (s.lessUsed nCnt k).dropIdle true p c =
    (s.dropIdle false p c).lessUsed nCnt (k + 1) := by
  have hcount : s.m_nUsedClientCnt - k - 1 = s.m_nUsedClientCnt - (k + 1) := by
    rw [UInt32.sub_eq_add_neg, UInt32.sub_eq_add_neg, UInt32.sub_eq_add_neg, UInt32.neg_add,
      UInt32.add_assoc, UInt32.sub_eq_add_neg]
  simp only [dropIdle, lessUsed, hcount, if_true, Bool.false_eq_true, if_false]

/-- Where the loop stops nothing is counted off. -/
theorem lessUsed_of_stop (h : s.looseSlots n = []) : some (s.lessUsed nCnt k) =
    (some s).map (lessUsed nCnt (k + UInt32.ofNat (s.looseClients n))) := by
  have hcount : k + UInt32.ofNat (s.looseClients n) = k := by
    rw [looseClients, h]
    exact UInt32.add_zero k
  rw [Option.map_some, hcount]

/-- Turn by turn the two loops do the same, but one counts off the clients that it drops. -/
theorem shrinkLoop_lessUsed (ho : s.Owned) (hfuel : s.m_VecClient.length ≤ fuel) :
    shrinkLoop true target fuel (s.lessUsed nCnt k) =
      (shrinkLoop false target fuel s).map
        (lessUsed nCnt (k + UInt32.ofNat (s.looseClients target))) := by
  induction fuel generalizing s k with
  | zero => exact lessUsed_of_stop (looseSlots_of_le (by omega))
  | succ fuel ih =>
    by_cases hlt : target < s.m_VecClient.length
    · obtain ⟨x, hlast⟩ : ∃ x, s.m_VecClient[s.m_VecClient.length - 1]? = some x :=
        ⟨_, List.getElem?_eq_getElem (by omega)⟩
      have hshort : s.m_VecClient.dropLast.length ≤ fuel := by
        rw [List.length_dropLast]
        omega
      cases x with
      | none =>
        rw [shrinkLoop_free hlt hlast, shrinkLoop_free (s := s.lessUsed nCnt k) hlt hlast,
          looseClients_dropFree hlt hlast]
        exact ih ho.dropFree hshort
      | some p =>
        obtain ⟨c, hc⟩ := ho.live _ p hlast
        cases hu : c.m_Used with
        | true =>
          rw [shrinkLoop_used hlt hlast hc hu,
            shrinkLoop_used (s := s.lessUsed nCnt k) hlt hlast hc hu]
          exact lessUsed_of_stop (looseSlots_used hlt hlast hc hu)
        | false =>
          have hcount : k + 1 + UInt32.ofNat ((s.dropIdle false p c).looseClients target) =
              k + UInt32.ofNat (s.looseClients target) := by
            rw [looseClients_dropIdle ho hlt hlast hc hu, Nat.add_comm, UInt32.ofNat_add,
              UInt32.add_assoc]
            rfl
          rw [shrinkLoop_idle hlt hlast hc hu,
            shrinkLoop_idle (s := s.lessUsed nCnt k) hlt hlast hc hu, dropIdle_lessUsed,
            ih (ho.dropIdle hlast) hshort, hcount]
    · have hle : s.m_VecClient.length ≤ target := Nat.le_of_not_lt hlt
      rw [shrinkLoop_of_le hle, shrinkLoop_of_le (s := s.lessUsed nCnt k) hle]
      exact lessUsed_of_stop (looseSlots_of_le hle)

def slotKept (s : CRedisClientPool) (i : Nat) (now : UInt64) (ping : Bool) : Bool :=
  (clientAt s i).all fun p => (s.heap.cell p).all fun c => !s.expired c now ping

/-- No idle client is too old or does not answer. -/
def NoneExpired (s : CRedisClientPool) (now : Nat → UInt64) (ping : Nat → Bool) : Prop :=
  ∀ i < s.m_VecClient.length, s.slotKept i (now i) (ping i) = true

instance (s : CRedisClientPool) (now : Nat → UInt64) (ping : Nat → Bool) :
    Decidable (s.NoneExpired now ping) :=
  inferInstanceAs (Decidable (∀ i < s.m_VecClient.length, s.slotKept i (now i) (ping i) = true))

variable {now : Nat → UInt64} {ping : Nat → Bool}

theorem reapSlot_kept (ho : s.Owned) (h : s.slotKept n (now n) (ping n) = true) :
    reapSlot now ping s n = some s := by
  rw [reapSlot]
  split
  · rename_i p hp
    obtain ⟨c, hc⟩ := ho.live n p hp
    have hkept : s.expired c (now n) (ping n) = false := by
      simpa only [slotKept, clientAt_eq_some.mpr hp, Option.all_some, hc, Bool.not_eq_true'] using h
    rw [hc, Option.map_some, hkept]
    rfl
  · rfl

theorem checkConnection_noneExpired (ho : s.Owned) (h : s.NoneExpired now ping) :
    s.checkConnection now ping = s.shrink true s.m_nCurClientCnt.toNat := by
  have hsweep : (List.range s.m_VecClient.length).foldlM (reapSlot now ping) s = some s :=
    foldlM_fixed fun i hi => reapSlot_kept ho (h i (List.mem_range.mp hi))
  rw [checkConnection, hsweep]
  rfl

/-- Shrinking to `nCnt` by `setClientCnt` and by the loop of `checkConnection` leaves the same
slots, the same lists and the same number of clients in use. -/
def ShrinksAlike (s : CRedisClientPool) (nCnt : UInt32) (now : Nat → UInt64) (ping : Nat → Bool) :
    Prop :=
  ∃ t u, s.setClientCnt nCnt = some t ∧
    { s with m_nCurClientCnt := nCnt }.checkConnection now ping = some u ∧
    t.m_VecClient = u.m_VecClient ∧ t.m_MapUseable = u.m_MapUseable ∧
    t.m_nUsedClientCnt = u.m_nUsedClientCnt

theorem sub_eq_self_iff {a : UInt32} {m : Nat} : a = a - UInt32.ofNat m ↔ 2 ^ 32 ∣ m := by
  have hzero : a = a - 0 := (UInt32.sub_zero a).symm
  nth_rewrite 1 [hzero]
  rw [UInt32.sub_right_inj, eq_comm, UInt32.ofNat_eq_iff_mod_eq_toNat]
  exact (Nat.dvd_iff_mod_eq_zero).symm

end CRedisClientPool

/-- The two ways to shrink a pool agree exactly if the slots that go hold no client, or as many as
the counter has values. -/
theorem shrinksAlike_iff {s : CRedisClientPool} {nCnt : UInt32} {now : Nat → UInt64}
    {ping : Nat → Bool} (ho : s.Owned) (hlt : nCnt < s.m_nCurClientCnt)
    (h : s.NoneExpired now ping) :
    s.ShrinksAlike nCnt now ping ↔ 2 ^ 32 ∣ s.looseClients nCnt.toNat := by
  obtain ⟨t, ht⟩ := Option.isSome_iff_exists.mp (ho.shrink_isSome false nCnt.toNat)
  have hset : s.setClientCnt nCnt = some { t with m_nCurClientCnt := nCnt } := by
    have hle : nCnt ≤ s.m_nCurClientCnt := UInt32.le_of_lt hlt
    rw [setClientCnt, if_neg (UInt32.ne_of_lt hlt), if_neg (UInt32.not_lt.mpr hle), ht]
    rfl
  have hstart : { s with m_nCurClientCnt := nCnt } = s.lessUsed nCnt 0 := by
    rw [lessUsed, UInt32.sub_zero]
  have hcheck : { s with m_nCurClientCnt := nCnt }.checkConnection now ping =
      some (t.lessUsed nCnt (0 + UInt32.ofNat (s.looseClients nCnt.toNat))) := by
    have hturns := @shrinkLoop_lessUsed s nCnt.toNat _ nCnt 0 ho (Nat.le_refl _)
    rw [shrink] at ht
    rw [ht, Option.map_some, ← hstart] at hturns
    rw [checkConnection_noneExpired (s := { s with m_nCurClientCnt := nCnt }) ho h]
    exact hturns
  rw [UInt32.zero_add] at hcheck
  constructor
  · intro halike
    obtain ⟨t', u, ht', hu, -, -, hused⟩ := halike
    rw [hset] at ht'
    rw [hcheck] at hu
    cases ht'
    cases hu
    exact sub_eq_self_iff.mp hused
  · exact fun hdvd => ⟨_, _, hset, hcheck, rfl, rfl, sub_eq_self_iff.mpr hdvd⟩

/-- A pool with a client of `a` idle and one of `b` on loan behind it shrinks to one slot. -/
theorem shrinksAlike_lent : ∃ t, Runs System.step (fun _ _ => True) .new
    [.getClient (bytes "a") 1 [] true 0, .getClient (bytes "b") 1 [] true 0,
      .returnClient (some 0) 0] t ∧
    t.pool.ShrinksAlike 1 (fun _ => 0) (fun _ => true) := by
  have hexec : (exec System.step (fun _ _ => True) .new
      [.getClient (bytes "a") 1 [] true 0, .getClient (bytes "b") 1 [] true 0,
        .returnClient (some 0) 0]).any
      (fun t => decide (1 < t.pool.m_nCurClientCnt ∧
        t.pool.NoneExpired (fun _ => 0) (fun _ => true) ∧ t.pool.looseClients 1 = 0)) = true := by
    decide
  obtain ⟨t, ht, hcheck⟩ := exists_of_exec hexec
  obtain ⟨hlt, hnone, hloose⟩ := of_decide_eq_true hcheck
  exact ⟨t, ht, (shrinksAlike_iff (owned_of_runs ht) hlt hnone).mpr ⟨0, hloose⟩⟩

/-- With both clients back the one of `b` goes, and `setClientCnt` counts two as before. -/
theorem dropped_client_counted : ∃ t, Runs System.step (fun _ _ => True) .new
    [.getClient (bytes "a") 1 [] true 0, .getClient (bytes "b") 1 [] true 0,
      .returnClient (some 0) 0, .returnClient (some 1) 0] t ∧
    1 < t.pool.m_nCurClientCnt ∧ t.pool.NoneExpired (fun _ => 0) (fun _ => true) ∧
    ¬ t.pool.ShrinksAlike 1 (fun _ => 0) (fun _ => true) := by
  have hexec : (exec System.step (fun _ _ => True) .new
      [.getClient (bytes "a") 1 [] true 0, .getClient (bytes "b") 1 [] true 0,
        .returnClient (some 0) 0, .returnClient (some 1) 0]).any
      (fun t => decide (1 < t.pool.m_nCurClientCnt ∧
        t.pool.NoneExpired (fun _ => 0) (fun _ => true) ∧
        (t.pool.setClientCnt 1).map (·.m_nUsedClientCnt) = some 2 ∧
        ({ t.pool with m_nCurClientCnt := 1 }.checkConnection (fun _ => 0) (fun _ => true)).map
          CRedisClientPool.m_nUsedClientCnt = some 1)) = true := by
    decide
  obtain ⟨t, ht, hcheck⟩ := exists_of_exec hexec
  obtain ⟨hlt, hnone, htwo, hone⟩ := of_decide_eq_true hcheck
  refine ⟨t, ht, hlt, hnone, ?_⟩
  intro halike
  obtain ⟨u, v, hu, hv, -, -, hused⟩ := halike
  rw [hu, Option.map_some, Option.some.injEq] at htwo
  rw [hv, Option.map_some, Option.some.injEq, ← hused, htwo] at hone
  exact absurd hone (by decide)

end CppPrivate.Redis
