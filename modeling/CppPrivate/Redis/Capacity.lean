import CppPrivate.Redis.Loans

/-! The Redis pool loses no slot, as long as no call misses the entry of the free list.
Shrinking erases that entry when it is empty; a later call that needs it drops its index. -/
namespace CppPrivate.Redis
open Run CRedisClientPool

/-- Every slot that nobody has on loan is filed: an empty one as free, an idle client under
its host. Here a slot may be filed twice. -/
structure Kept (s : CRedisClientPool) (loans : List Nat) : Prop where
  slot : ∀ (n p : Nat), s.m_VecClient[n]? = some (some p) → ∃ c, s.heap.cell p = some c ∧
    c.m_Index = n ∧ (c.m_Used = true → p ∈ loans) ∧
    (c.m_Used = false → c.m_Index ∈ listAt s.m_MapUseable c.m_Host)
  live : ∀ p c, s.heap.cell p = some c → ∃ n : Nat, s.m_VecClient[n]? = some (some p)
  empty : ∀ n : Nat, s.m_VecClient[n]? = some none → (n : Int) ∈ listAt s.m_MapUseable nullHost
  small : s.m_VecClient.length ≤ 2 ^ 31

namespace Kept
variable {s : CRedisClientPool} {loans : List Nat} {host key : Bytes} {i : Int}
  {rest : ListUseableIndex} {n p : Nat} {c : CRedisClientEx}

theorem slot_cell (h : Kept s loans) (hp : s.m_VecClient[n]? = some (some p))
    (hc : s.heap.cell p = some c) : c.m_Index = n ∧ (c.m_Used = true → p ∈ loans) ∧
      (c.m_Used = false → c.m_Index ∈ listAt s.m_MapUseable c.m_Host) := by
  obtain ⟨c', hc', hrest⟩ := h.slot n p hp
  rw [hc] at hc'
  cases hc'
  exact hrest

theorem slot_inj (h : Kept s loans) {m n p : Nat} (hm : s.m_VecClient[m]? = some (some p))
    (hn : s.m_VecClient[n]? = some (some p)) : m = n := by
  refine s.heap.place_inj (·.m_Index) (fun n p hp => ?_) hm hn
  obtain ⟨c, hc, hi, -⟩ := h.slot n p hp
  exact ⟨c, hc, hi⟩

theorem new : Kept CRedisClientPool.new [] where
  slot := by
    intro n p hp
    have := List.getElem?_eq_some_iff.mp hp
    simp [CRedisClientPool.new] at this
  live := by
    intro p c hc
    simp [CRedisClientPool.new] at hc
  empty := by
    intro n hn
    have hlt : n < 10 := (List.getElem?_eq_some_iff.mp hn).1
    simp only [CRedisClientPool.new, listAt, if_true, Option.getD_some]
    exact List.mem_map.mpr ⟨n, List.mem_range.mpr hlt, cInt_of_lt (by omega)⟩
  small := by decide

/-- Taking the head of a list leaves every other index filed. -/
theorem mem_popFront (hl : s.getUseableList host = some (key, i :: rest)) {k : Bytes} {x : Int}
    (hx : x ∈ listAt s.m_MapUseable k) (hne : x ≠ i) :
    x ∈ listAt (popFront s.m_MapUseable host key rest) k := by
  rw [listAt_popFront hl]
  split
  · rename_i hk
    rw [hk, listAt_useable hl] at hx
    exact (List.mem_cons.mp hx).resolve_left hne
  · exact hx

theorem mem_removeFound {m : MapUseableHost} {k : Bytes} {x : Int} (hx : x ∈ listAt m k)
    (hne : k = host → x ≠ i) : x ∈ listAt (removeFound m host i) k := by
  rw [listAt_removeFound]
  split
  · rename_i hk
    exact mem_removeIndex.mpr ⟨hk ▸ hx, hne hk⟩
  · exact hx

theorem handNew (h : Kept s loans) {client : CRedisClient} {now : UInt64}
    (hl : s.getUseableList host = some (key, i :: rest)) (hi : at? s.m_VecClient i = some none) :
    Kept (s.handNew host key rest i client now) (s.heap.next :: loans) := by
  obtain ⟨hi0, hilen⟩ := at?_lt hi
  have hset : ∀ m : Nat, i.toNat ≠ m →
      (s.handNew host key rest i client now).m_VecClient[m]? = s.m_VecClient[m]? :=
    fun m hm => List.getElem?_set_ne hm
  have hself : (s.handNew host key rest i client now).m_VecClient[i.toNat]? =
      some (some s.heap.next) := List.getElem?_set_self (by omega)
  refine ⟨?_, ?_, ?_, ?_⟩
  · intro m q hq
    by_cases hm : i.toNat = m
    · subst hm
      rw [hself] at hq
      cases hq
      exact ⟨_, Heap.alloc_self _ _, by simp only; omega, by simp, by simp⟩
    · rw [hset m hm] at hq
      obtain ⟨d, hd, h1, h2, h3⟩ := h.slot m q hq
      exact ⟨d, Heap.alloc_of_live hd, h1, fun hu => List.mem_cons_of_mem _ (h2 hu),
        fun hu => mem_popFront hl (h3 hu) (by omega)⟩
  · intro q d hd
    cases Heap.of_alloc hd with
    | inl hcase =>
      obtain ⟨rfl, -⟩ := hcase
      exact ⟨_, hself⟩
    | inr hd =>
      obtain ⟨m, hm⟩ := h.live q d hd
      exact ⟨m, getElem?_set_other (at?_eq_some.mp hi).2 hm (by simp)⟩
  · intro m hm
    obtain ⟨hne, hv⟩ := of_getElem?_set hm (by simp)
    exact mem_popFront hl (h.empty m hv) (by omega)
  · simpa [CRedisClientPool.handNew] using h.small

theorem handFound (h : Kept s loans) (hl : s.getUseableList host = some (key, i :: rest))
    (hi : at? s.m_VecClient i = some (some p)) :
    Kept (s.handFound host key rest i p) (p :: loans) := by
  obtain ⟨hi0, hv⟩ := at?_eq_some.mp hi
  refine ⟨?_, ?_, ?_, h.small⟩
  · intro m q hq
    obtain ⟨d, hd, h1, h2, h3⟩ := h.slot m q hq
    by_cases hqp : q = p
    · subst hqp
      have := h.slot_inj hq hv
      exact ⟨_, Heap.modify_self _ hd, by simp only; omega, by simp, by simp⟩
    · have hm : m ≠ i.toNat := by
        intro heq
        subst heq
        exact hqp (Option.some.inj (Option.some.inj (hq.symm.trans hv)))
      exact ⟨d, by rw [CRedisClientPool.handFound, Heap.modify_of_ne _ hqp, hd], h1,
        fun hu => List.mem_cons_of_mem _ (h2 hu), fun hu => mem_popFront hl (h3 hu) (by omega)⟩
  · intro q d hd
    obtain ⟨d', hd', -⟩ := Heap.of_modify hd
    exact h.live q d' hd'
  · intro m hm
    refine mem_popFront hl (h.empty m hm) ?_
    intro heq
    subst heq
    cases hm.symm.trans hv

theorem giveBack (h : Kept s loans) (hc : s.heap.cell p = some c) {now : UInt64} :
    Kept { s with
      heap := s.heap.modify p fun c => { c with m_Used := false, m_Timestamp := now }
      m_MapUseable := pushHost s.m_MapUseable c.m_Host c.m_Index } (loans.erase p) := by
  have hmem : ∀ {k x}, x ∈ listAt s.m_MapUseable k →
      x ∈ listAt (pushHost s.m_MapUseable c.m_Host c.m_Index) k := by
    intro k x hx
    rw [listAt_pushHost]
    split
    · rename_i hk
      exact List.mem_append_left _ (hk ▸ hx)
    · exact hx
  refine ⟨?_, ?_, fun m hm => hmem (h.empty m hm), h.small⟩
  · intro m q hq
    obtain ⟨d, hd, h1, h2, h3⟩ := h.slot m q hq
    by_cases hqp : q = p
    · subst hqp
      rw [hc] at hd
      cases hd
      exact ⟨_, Heap.modify_self _ hc, h1, by simp, fun _ => by simp [listAt_pushHost]⟩
    · exact ⟨d, by simp only [Heap.modify_of_ne _ hqp, hd], h1,
        fun hu => (List.mem_erase_of_ne hqp).mpr (h2 hu), fun hu => hmem (h3 hu)⟩
  · intro q d hd
    obtain ⟨d', hd', -⟩ := Heap.of_modify hd
    exact h.live q d' hd'

/-- Slot `n` and its client are gone from a pool; what happened to the index of that slot
does not matter for the others. -/
theorem others (h : Kept s loans) (hp : s.m_VecClient[n]? = some (some p))
    (hc : s.heap.cell p = some c) {m q : Nat} (hq : s.m_VecClient[m]? = some (some q)) (hm : m ≠ n)
    {map : MapUseableHost} (hmap : ∀ k x, x ∈ listAt s.m_MapUseable k →
      (k = c.m_Host → x ≠ c.m_Index) → x ∈ listAt map k) :
    ∃ d, (s.heap.free p).cell q = some d ∧ d.m_Index = m ∧
      (d.m_Used = true → q ∈ loans) ∧ (d.m_Used = false → d.m_Index ∈ listAt map d.m_Host) := by
  obtain ⟨hci, -⟩ := h.slot_cell hp hc
  obtain ⟨d, hd, h1, h2, h3⟩ := h.slot m q hq
  have hqp : q ≠ p := by
    intro heq
    subst heq
    exact hm (h.slot_inj hq hp)
  exact ⟨d, by rw [Heap.free_of_ne hqp, hd], h1, h2, fun hu => hmap _ _ (h3 hu) (by omega)⟩

theorem mem_reap {k : Bytes} {x : Int} (hx : x ∈ listAt s.m_MapUseable k)
    (hne : k = c.m_Host → x ≠ c.m_Index) : x ∈ listAt (s.reap n p c).m_MapUseable k := by
  have hx := mem_removeFound hx hne
  simp only [CRedisClientPool.reap, listAt_pushFound]
  split
  · rename_i hk
    exact List.mem_append_left _ (hk.1 ▸ hx)
  · exact hx

theorem reap (h : Kept s loans) (hp : s.m_VecClient[n]? = some (some p))
    (hc : s.heap.cell p = some c)
    (hback : (removeFound s.m_MapUseable c.m_Host c.m_Index nullHost).isSome) :
    Kept (s.reap n p c) loans := by
  obtain ⟨hci, -⟩ := h.slot_cell hp hc
  have hlen := (List.getElem?_eq_some_iff.mp hp).1
  refine ⟨?_, ?_, ?_, ?_⟩
  · intro m q hq
    obtain ⟨hm, hv⟩ := of_getElem?_set hq (by simp)
    exact h.others hp hc hv (Ne.symm hm) fun k x => mem_reap
  · intro q d hd
    obtain ⟨hqp, hd⟩ := Heap.of_free hd
    obtain ⟨m, hm⟩ := h.live q d hd
    refine ⟨m, getElem?_set_other hp hm ?_⟩
    intro heq
    cases heq
    exact hqp rfl
  · intro m hm
    by_cases hmn : n = m
    · subst hmn
      simp only [CRedisClientPool.reap, listAt_pushFound, hback, and_self, if_true]
      simp [hci]
    · simp only [CRedisClientPool.reap] at hm
      rw [List.getElem?_set_ne hmn] at hm
      exact mem_reap (h.empty m hm) fun _ => by omega
  · simpa [CRedisClientPool.reap] using h.small

/-- With another slot empty the free list survives the filing off of one index. -/
theorem takes_back (h : Kept s loans) {m : Nat} (hm : s.m_VecClient[m]? = some none)
    (hp : s.m_VecClient[n]? = some (some p)) (hc : s.heap.cell p = some c) :
    (removeFound s.m_MapUseable c.m_Host c.m_Index nullHost).isSome := by
  obtain ⟨hci, -⟩ := h.slot_cell hp hc
  have hne : (m : Int) ≠ c.m_Index := by
    intro he
    have hmn : m = n := by omega
    rw [hmn, hp] at hm
    cases hm
  have hmem := mem_removeFound (h.empty m hm) fun _ : nullHost = c.m_Host => hne
  rw [listAt] at hmem
  cases hmap : removeFound s.m_MapUseable c.m_Host c.m_Index nullHost with
  | none => simp [hmap] at hmem
  | some l => rfl

theorem dropFree (h : Kept s loans) (hpos : 0 < s.m_VecClient.length)
    (hlast : s.m_VecClient[s.m_VecClient.length - 1]? = some none) : Kept s.dropFree loans := by
  have hsmall := h.small
  have hidx : cInt (s.m_VecClient.length - 1 : Nat) = (s.m_VecClient.length - 1 : Nat) :=
    cInt_of_lt (by omega)
  refine ⟨?_, ?_, ?_, ?_⟩
  · intro m q hq
    obtain ⟨hq, hm⟩ := getElem?_of_dropLast hq
    obtain ⟨d, hd, h1, h2, h3⟩ := h.slot m q hq
    exact ⟨d, hd, h1, h2, fun hu => mem_removeFound (h3 hu) fun _ => by rw [hidx]; omega⟩
  · intro q d hd
    obtain ⟨m, hm⟩ := h.live q d hd
    exact ⟨m, getElem?_dropLast_other hlast hm (by simp)⟩
  · intro m hm
    obtain ⟨hm, hne⟩ := getElem?_of_dropLast hm
    refine mem_removeFound (h.empty m hm) fun _ => ?_
    rw [hidx]
    omega
  · simp only [CRedisClientPool.dropFree, List.length_dropLast]
    omega

theorem dropIdle (h : Kept s loans) {countOff : Bool}
    (hlast : s.m_VecClient[s.m_VecClient.length - 1]? = some (some p))
    (hc : s.heap.cell p = some c) : Kept (s.dropIdle countOff p c) loans := by
  have hsmall := h.small
  obtain ⟨hci, -⟩ := h.slot_cell hlast hc
  have hlen := (List.getElem?_eq_some_iff.mp hlast).1
  have hidx : cInt (s.m_VecClient.length - 1 : Nat) = c.m_Index := by
    rw [cInt_of_lt (by omega), hci]
  refine ⟨?_, ?_, ?_, ?_⟩
  · intro m q hq
    obtain ⟨hv, hm⟩ := getElem?_of_dropLast hq
    refine h.others hlast hc hv hm ?_
    intro k x hx hne
    simp only [CRedisClientPool.dropIdle, hidx]
    exact mem_removeFound hx hne
  · intro q d hd
    obtain ⟨hqp, hd⟩ := Heap.of_free hd
    obtain ⟨m, hm⟩ := h.live q d hd
    refine ⟨m, getElem?_dropLast_other hlast hm ?_⟩
    intro heq
    cases heq
    exact hqp rfl
  · intro m hm
    obtain ⟨hm, hne⟩ := getElem?_of_dropLast hm
    exact mem_removeFound (h.empty m hm) fun _ => by rw [hidx]; omega
  · simp only [CRedisClientPool.dropIdle, List.length_dropLast]
    omega

theorem takeClient (h : Kept s loans) {client : CRedisClient} {connected : Bool}
    {now : UInt64} {r : CRedisClientPool × Option Nat}
    (hr : s.takeClient host client connected now = some r) :
    Kept r.1 (r.2.toList ++ loans) ∧ r.1.m_nCurClientCnt = s.m_nCurClientCnt ∧
      r.1.m_VecClient.length = s.m_VecClient.length := by
  rcases takeClient_cases hr with rfl | ⟨key, i, rest, hl, ⟨hi, rfl⟩ | ⟨p, c, hi, -, rfl⟩⟩
  · exact ⟨h, rfl, rfl⟩
  · exact ⟨h.handNew hl hi, rfl, by simp [CRedisClientPool.handNew]⟩
  · exact ⟨h.handFound hl hi, rfl, rfl⟩

theorem shrink (h : Kept s loans) {countOff : Bool} {target : Nat} {t : CRedisClientPool}
    (hle : target ≤ s.m_VecClient.length) (ht : s.shrink countOff target = some t) :
    Kept t loans ∧ target ≤ t.m_VecClient.length ∧ t.m_nCurClientCnt = s.m_nCurClientCnt := by
  refine shrinkLoop_invariant (fun t => Kept t loans ∧ target ≤ t.m_VecClient.length ∧
    t.m_nCurClientCnt = s.m_nCurClientCnt) ?_ ?_ ht ⟨h, hle, rfl⟩
  · intro u hcase hlt hlast
    obtain ⟨hu, -, hcnt⟩ := hcase
    refine ⟨hu.dropFree (by omega) hlast, ?_, hcnt⟩
    simp only [CRedisClientPool.dropFree, List.length_dropLast]
    omega
  · intro u p c hcase hlt hlast hc _
    obtain ⟨hu, -, hcnt⟩ := hcase
    refine ⟨hu.dropIdle hlast hc, ?_, hcnt⟩
    simp only [CRedisClientPool.dropIdle, List.length_dropLast]
    omega

end Kept

def reapable (s : CRedisClientPool) (now : Nat → UInt64) (ping : Nat → Bool) (n : Nat) : Bool :=
  match (clientAt s n).bind s.heap.cell with
  | some c => s.expired c (now n) (ping n)
  | none => false

theorem reapable_eq_true {s : CRedisClientPool} {now : Nat → UInt64} {ping : Nat → Bool} {n : Nat} :
    reapable s now ping n = true ↔ ∃ p c, s.m_VecClient[n]? = some (some p) ∧
      s.heap.cell p = some c ∧ s.expired c (now n) (ping n) = true := by
  rw [reapable]
  cases hp : clientAt s n with
  | none =>
    have := clientAt_eq_none.mp hp
    simp [this]
  | some p =>
    rw [clientAt_eq_some] at hp
    cases hc : s.heap.cell p <;> simp [hp, hc]

/-- The free list is there to take the index of slot `n`, once its client is filed off. -/
def takesBack (s : CRedisClientPool) (n : Nat) : Bool :=
  match (clientAt s n).bind s.heap.cell with
  | some c => (removeFound s.m_MapUseable c.m_Host c.m_Index nullHost).isSome
  | none => true

theorem reapLoop_of_none {s t : CRedisClientPool} {now : Nat → UInt64} {ping : Nat → Bool}
    {slots : List Nat} (hnone : ∀ n ∈ slots, reapable s now ping n = false)
    (h : slots.foldlM (reapSlot now ping) s = some t) : t = s := by
  induction slots generalizing s with
  | nil => exact (Option.some.inj h).symm
  | cons n slots ih =>
    rw [List.foldlM_cons] at h
    obtain ⟨u, hu, hr⟩ := Option.bind_eq_some_iff.mp h
    cases reapSlot_cases hu with
    | inl heq =>
      subst heq
      exact ih (fun m hm => hnone m (List.mem_cons_of_mem _ hm)) hr
    | inr hcase =>
      obtain ⟨p, c, hp, hc, he, -⟩ := hcase
      have := reapable_eq_true.mpr ⟨p, c, hp, hc, he⟩
      rw [hnone n List.mem_cons_self] at this
      cases this

/-- The sweep keeps what closing one client keeps. Only the first client to close can miss the
free list: after it the list holds an index, and that of an empty slot. -/
theorem sweep_invariant (I : CRedisClientPool → Prop) {loans : List Nat} {now : Nat → UInt64}
    {ping : Nat → Bool} {s t : CRedisClientPool} {slots : List Nat}
    (hkept : ∀ u, I u → Kept u loans)
    (hI : ∀ u n p c, I u → u.m_VecClient[n]? = some (some p) → u.heap.cell p = some c →
      u.expired c (now n) (ping n) = true →
      (removeFound u.m_MapUseable c.m_Host c.m_Index nullHost).isSome → I (u.reap n p c))
    (hfirst : (slots.find? (reapable s now ping)).all (takesBack s) = true)
    (ht : slots.foldlM (reapSlot now ping) s = some t) (hs : I s) : I t := by
  cases hf : slots.find? (reapable s now ping) with
  | none =>
    have hnone : ∀ n ∈ slots, reapable s now ping n = false := by simpa using hf
    exact reapLoop_of_none hnone ht ▸ hs
  | some n =>
    obtain ⟨hn, before, after, rfl, hbefore⟩ := List.find?_eq_some_iff_append.mp hf
    rw [List.foldlM_append] at ht
    obtain ⟨u, hu, hrest⟩ := Option.bind_eq_some_iff.mp ht
    obtain rfl : u = s := reapLoop_of_none (by simpa using hbefore) hu
    rw [List.foldlM_cons] at hrest
    obtain ⟨p, c, hp, hc, he⟩ := reapable_eq_true.mp hn
    have hback : (removeFound u.m_MapUseable c.m_Host c.m_Index nullHost).isSome := by
      simpa [hf, takesBack, clientAt_eq_some.mpr hp, hc] using hfirst
    have hslot : reapSlot now ping u n = some (u.reap n p c) := by
      simp [reapSlot, hp, hc, he]
    rw [hslot] at hrest
    have hlen := (List.getElem?_eq_some_iff.mp hp).1
    refine (reapLoop_invariant (fun w => I w ∧ ∃ m : Nat, w.m_VecClient[m]? = some none) ?_ hrest
      ⟨hI u n p c hs hp hc he hback, n, List.getElem?_set_self hlen⟩).1
    intro w k q d hcase hq hd he
    obtain ⟨hw, m, hm⟩ := hcase
    have hlen := (List.getElem?_eq_some_iff.mp hq).1
    exact ⟨hI w k q d hw hq hd he ((hkept w hw).takes_back hm hq hd), k,
      List.getElem?_set_self hlen⟩

/-- Counts are at least one. -/
def Op.Positive : Op → Prop
  | .setClientCnt nCnt => 0 < nCnt.toNat
  | _ => True

/-- No index is dropped: the free list has its entry whenever the call has an index to put in
it, and indices fit in the `int` of the lists. -/
def KeepsFree (s : System) : Op → Prop
  | .setClientCnt nCnt => nCnt.toNat ≤ 2 ^ 31 ∧
      (s.pool.m_VecClient.length < nCnt.toNat → (s.pool.m_MapUseable nullHost).isSome)
  | .checkConnection now ping =>
      ((List.range s.pool.m_VecClient.length).find? (reapable s.pool now ping)).all
        (takesBack s.pool) = true
  | _ => True

instance : (op : Op) → Decidable op.Positive
  | .setClientCnt nCnt => inferInstanceAs (Decidable (0 < nCnt.toNat))
  | .getClient .. | .getClusterClient .. | .returnClient .. | .checkConnection .. | .setTimeout .. =>
    inferInstanceAs (Decidable True)

instance (s : System) : (op : Op) → Decidable (KeepsFree s op)
  | .setClientCnt nCnt => inferInstanceAs (Decidable (nCnt.toNat ≤ 2 ^ 31 ∧
      (s.pool.m_VecClient.length < nCnt.toNat → (s.pool.m_MapUseable nullHost).isSome)))
  | .checkConnection now ping => inferInstanceAs (Decidable
      (((List.range s.pool.m_VecClient.length).find? (reapable s.pool now ping)).all
        (takesBack s.pool) = true))
  | .getClient .. | .getClusterClient .. | .returnClient .. | .setTimeout .. =>
    inferInstanceAs (Decidable True)

theorem Kept.checkConnection {s t : CRedisClientPool} {loans : List Nat} (h : Kept s loans)
    {now : Nat → UInt64} {ping : Nat → Bool} (hcur : s.m_nCurClientCnt.toNat ≤ s.m_VecClient.length)
    (hk : ((List.range s.m_VecClient.length).find? (reapable s now ping)).all (takesBack s) = true)
    (ht : s.checkConnection now ping = some t) :
    Kept t loans ∧ t.m_nCurClientCnt = s.m_nCurClientCnt ∧
      t.m_nCurClientCnt.toNat ≤ t.m_VecClient.length := by
  obtain ⟨u, hu, hr⟩ := Option.bind_eq_some_iff.mp ht
  obtain ⟨hk', hcnt, hlen⟩ := sweep_invariant (fun u => Kept u loans ∧
      u.m_nCurClientCnt = s.m_nCurClientCnt ∧ u.m_VecClient.length = s.m_VecClient.length)
    (fun _ hu => hu.1)
    (fun v n p c hv hp hc _ hback => ⟨hv.1.reap hp hc hback, hv.2.1,
      by simpa [CRedisClientPool.reap] using hv.2.2⟩) hk hu ⟨h, rfl, rfl⟩
  obtain ⟨h1, h2, h3⟩ := hk'.shrink (by rw [hcnt, hlen]; exact hcur) hr
  exact ⟨h1, h3.trans hcnt, by rw [h3]; exact h2⟩

/-- With indices in the range of `int` the vector grows to the requested count exactly. -/
theorem nTmp_eq {s : CRedisClientPool} {nCnt : UInt32} (hlen : 0 < s.m_VecClient.length)
    (hsmall : s.m_VecClient.length ≤ 2 ^ 31) (hcnt : nCnt.toNat ≤ 2 ^ 31) :
    (s.nTmp nCnt).toNat = nCnt.toNat - s.m_VecClient.length := by
  simp only [nTmp, cInt, Int.bmod_def]
  omega

theorem Kept.grow {s : CRedisClientPool} {loans : List Nat} (h : Kept s loans) {nCnt : UInt32}
    (hcur : s.m_nCurClientCnt.toNat ≤ s.m_VecClient.length) (hpos : 0 < s.m_nCurClientCnt.toNat)
    (hcnt : nCnt.toNat ≤ 2 ^ 31)
    (hnull : s.m_VecClient.length < nCnt.toNat → (s.m_MapUseable nullHost).isSome) :
    Kept { s with
      m_MapUseable := (growRange s.m_nCurClientCnt nCnt).foldl pushFree s.m_MapUseable
      m_VecClient := s.m_VecClient ++ List.replicate (s.nTmp nCnt).toNat none
      m_nCurClientCnt := nCnt } loans ∧
    nCnt.toNat ≤ (s.m_VecClient ++ List.replicate (s.nTmp nCnt).toNat none).length := by
  have hsmall := h.small
  have hn : (s.nTmp nCnt).toNat = _ := nTmp_eq (by omega) hsmall hcnt
  have hlen : (s.m_VecClient ++ List.replicate (s.nTmp nCnt).toNat none).length =
      max s.m_VecClient.length nCnt.toNat := by
    simp only [List.length_append, List.length_replicate, hn]
    omega
  have hslot : ∀ {m : Nat} {a : Option Nat},
      (s.m_VecClient ++ List.replicate (s.nTmp nCnt).toNat none)[m]? = some a →
      s.m_VecClient[m]? = some a ∨ a = none ∧ s.m_VecClient.length ≤ m ∧ m < nCnt.toNat := by
    intro m a ha
    have hm := (List.getElem?_eq_some_iff.mp ha).1
    rw [List.getElem?_append] at ha
    split at ha
    · exact Or.inl ha
    · exact Or.inr ⟨List.eq_of_mem_replicate (List.mem_of_getElem? ha), by omega, by omega⟩
  have hmem : ∀ {k x}, x ∈ listAt s.m_MapUseable k →
      x ∈ listAt ((growRange s.m_nCurClientCnt nCnt).foldl pushFree s.m_MapUseable) k := by
    intro k x hx
    by_cases hk : k = nullHost
    · subst hk
      exact mem_grow.mpr (Or.inl hx)
    · simpa only [listAt, grow_of_ne hk] using hx
  refine ⟨⟨?_, ?_, ?_, by simp only [hlen]; omega⟩, by rw [hlen]; omega⟩
  · intro m q hq
    cases hslot hq with
    | inl hq =>
      obtain ⟨d, hd, h1, h2, h3⟩ := h.slot m q hq
      exact ⟨d, hd, h1, h2, fun hu => hmem (h3 hu)⟩
    | inr hcase =>
      obtain ⟨hq, -⟩ := hcase
      cases hq
  · intro q d hd
    obtain ⟨m, hm⟩ := h.live q d hd
    exact ⟨m, by rw [List.getElem?_append_left (List.getElem?_eq_some_iff.mp hm).1, hm]⟩
  · intro m hm
    cases hslot hm with
    | inl hm => exact hmem (h.empty m hm)
    | inr hcase =>
      obtain ⟨-, hge, hlt⟩ := hcase
      refine mem_grow.mpr (Or.inr ⟨hnull (by omega), m, ?_, (cInt_of_lt (by omega)).symm⟩)
      rw [mem_growRange hpos]
      omega

/-- The free list holds indices of the vector only. -/
def FreeInRange (s : CRedisClientPool) : Prop :=
  ∀ x ∈ listAt s.m_MapUseable nullHost, 0 ≤ x ∧ x < s.m_VecClient.length

structure Sized (s : System) : Prop where
  kept : Kept s.pool s.loans
  atLeast : s.pool.m_nCurClientCnt.toNat ≤ s.pool.m_VecClient.length
  positive : 0 < s.pool.m_nCurClientCnt.toNat

theorem Sized.step {s t : System} {op : Op} (h : Sized s) (hpos : op.Positive)
    (hk : KeepsFree s op) (hs : s.step op = some t) : Sized t := by
  cases stepped_of_step hs with
  | lend _ hr =>
    obtain ⟨h1, h2, h3⟩ := h.kept.takeClient hr
    refine ⟨h1, ?_, ?_⟩ <;> simp only [System.lend, h2, h3]
    · exact h.atLeast
    · exact h.positive
  | nothing => exact h
  | giveBack _ hc => exact ⟨h.kept.giveBack hc, h.atLeast, h.positive⟩
  | checkConnection hcall hu =>
    subst hcall
    obtain ⟨h1, h2, h3⟩ := h.kept.checkConnection h.atLeast hk hu
    exact ⟨h1, h3, h2 ▸ h.positive⟩
  | @setClientCnt nCnt _ hcall hresized =>
    subst hcall
    obtain rfl | ⟨-, rfl⟩ | ⟨hle, u, hu, rfl⟩ := setClientCnt_cases hresized
    · exact h
    · obtain ⟨h1, h2⟩ := h.kept.grow h.atLeast h.positive hk.1 hk.2
      exact ⟨h1, h2, hpos⟩
    · have hlt : nCnt.toNat ≤ s.pool.m_nCurClientCnt.toNat := UInt32.le_iff_toNat_le.mp hle
      obtain ⟨h1, h2, -⟩ := h.kept.shrink (Nat.le_trans hlt h.atLeast) hu
      exact ⟨⟨h1.slot, h1.live, h1.empty, h1.small⟩, h2, hpos⟩
  | setTimeout n =>
    exact ⟨⟨h.kept.slot, h.kept.live, h.kept.empty, h.kept.small⟩, h.atLeast, h.positive⟩

theorem Sized.new : Sized System.new := ⟨Kept.new, by decide, by decide⟩

/-- No slot is lost: there are as many as asked for, and each one whose client is not on
loan is in a list. -/
def NoSlotLost (s : System) : Prop :=
  s.pool.m_nCurClientCnt.toNat ≤ s.pool.m_VecClient.length ∧
  ∀ n < s.pool.m_VecClient.length, (∀ p ∈ clientAt s.pool n, p ∉ s.loans) →
    ∃ k l, s.pool.m_MapUseable k = some l ∧ (n : Int) ∈ l

theorem mem_listAt {m : MapUseableHost} {k : Bytes} {x : Int} (h : x ∈ listAt m k) :
    ∃ k l, m k = some l ∧ x ∈ l := by
  rw [listAt] at h
  cases hm : m k with
  | none => simp [hm] at h
  | some l => exact ⟨k, l, hm, by simpa [hm] using h⟩

theorem Sized.noSlotLost {s : System} (h : Sized s) : NoSlotLost s := by
  refine ⟨h.atLeast, ?_⟩
  intro n hn hout
  cases hslot : s.pool.m_VecClient[n]? with
  | none =>
    have := List.getElem?_eq_none_iff.mp hslot
    omega
  | some a =>
    cases a with
    | none => exact mem_listAt (h.kept.empty n hslot)
    | some p =>
      obtain ⟨c, -, hci, hused, hidle⟩ := h.kept.slot n p hslot
      have hp : p ∉ s.loans := hout p (clientAt_eq_some.mpr hslot)
      have hu : c.m_Used = false := by
        cases hc : c.m_Used with
        | false => rfl
        | true => exact absurd (hused hc) hp
      exact hci ▸ mem_listAt (hidle hu)

/-- Exclusive filing keeps the free list inside the vector: an index leaves it no later than
its slot leaves the vector. -/
structure InRange (s : CRedisClientPool) (loans : List Nat) : Prop where
  exclusive : Exclusive s loans
  kept : Kept s loans
  free : FreeInRange s

namespace InRange
variable {s : CRedisClientPool} {loans : List Nat} {n p : Nat} {c : CRedisClientEx}

theorem takeClient (h : InRange s loans) {host : Bytes} (hh : host ≠ nullHost)
    {client : CRedisClient} {connected : Bool} {now : UInt64} {r : CRedisClientPool × Option Nat}
    (hr : s.takeClient host client connected now = some r) :
    InRange r.1 (r.2.toList ++ loans) := by
  refine ⟨h.exclusive.takeClient hh hr, (h.kept.takeClient hr).1, ?_⟩
  have hsub : ∀ {key i rest} {x : Int}, s.getUseableList host = some (key, i :: rest) →
      x ∈ listAt (popFront s.m_MapUseable host key rest) nullHost →
      x ∈ listAt s.m_MapUseable nullHost := by
    intro key i rest x hl hx
    rw [listAt_popFront hl] at hx
    split at hx
    · rename_i hk
      rw [hk, listAt_useable hl]
      exact List.mem_cons_of_mem _ hx
    · exact hx
  rcases takeClient_cases hr with rfl | ⟨key, i, rest, hl, ⟨-, rfl⟩ | ⟨p, c, -, -, rfl⟩⟩
  · exact h.free
  · intro x hx
    simpa [CRedisClientPool.handNew] using h.free x (hsub hl hx)
  · exact fun x hx => h.free x (hsub hl hx)

theorem reap (h : InRange s loans) (hp : s.m_VecClient[n]? = some (some p))
    (hc : s.heap.cell p = some c) (hu : c.m_Used = false)
    (hback : (removeFound s.m_MapUseable c.m_Host c.m_Index nullHost).isSome) :
    InRange (s.reap n p c) loans := by
  refine ⟨h.exclusive.reap hp hc hu, h.kept.reap hp hc hback, ?_⟩
  obtain ⟨hci, -⟩ := h.kept.slot_cell hp hc
  have hlen := (List.getElem?_eq_some_iff.mp hp).1
  intro x hx
  simp only [CRedisClientPool.reap, List.length_set]
  cases Exclusive.mem_reap_null hx with
  | inl hx => exact h.free x hx
  | inr hx => omega

theorem shrink (h : InRange s loans) {countOff : Bool} {target : Nat} {t : CRedisClientPool}
    (ht : s.shrink countOff target = some t) : InRange t loans := by
  refine shrinkLoop_invariant (InRange · loans) ?_ ?_ ht h
  · intro u hu hlt hlast
    refine ⟨hu.exclusive.dropFree hlast, hu.kept.dropFree (by omega) hlast, ?_⟩
    have hsmall := hu.kept.small
    have hidx : cInt (u.m_VecClient.length - 1 : Nat) = (u.m_VecClient.length - 1 : Nat) :=
      cInt_of_lt (by omega)
    intro x hx
    simp only [CRedisClientPool.dropFree, listAt_removeFound, if_true, mem_removeIndex, hidx] at hx
    have := hu.free x hx.1
    simp only [CRedisClientPool.dropFree, List.length_dropLast]
    omega
  · intro u p c hu hlt hlast hc hidle
    refine ⟨hu.exclusive.dropIdle hlast hc hidle, hu.kept.dropIdle hlast hc, ?_⟩
    intro x hx
    have hx := Exclusive.mem_of_removeFound hx
    have hr := hu.free x hx
    have hne : x ≠ (u.m_VecClient.length - 1 : Nat) := by
      intro heq
      subst heq
      exact hu.exclusive.not_free (by rw [at?_natCast, hlast]) hx
    simp only [CRedisClientPool.dropIdle, List.length_dropLast]
    omega

theorem checkConnection (h : InRange s loans) {now : Nat → UInt64} {ping : Nat → Bool}
    {t : CRedisClientPool}
    (hk : ((List.range s.m_VecClient.length).find? (reapable s now ping)).all (takesBack s) = true)
    (ht : s.checkConnection now ping = some t) : InRange t loans := by
  obtain ⟨u, hu, hr⟩ := Option.bind_eq_some_iff.mp ht
  refine shrink (sweep_invariant (InRange · loans) (fun _ hv => hv.kept) ?_ hk hu h) hr
  intro v n p c hv hp hc he hback
  simp only [expired, Bool.and_eq_true, Bool.not_eq_true'] at he
  exact hv.reap hp hc he.1 hback

theorem step {s t : System} {op : Op} (h : InRange s.pool s.loans) (hsz : Sized s)
    (hop : op.NotReserved) (hpos : op.Positive) (hg : GrowthClear s op) (hk : KeepsFree s op)
    (hs : s.step op = some t) : InRange t.pool t.loans := by
  have hex := h.exclusive.step hop hg hs
  have hkept := (hsz.step hpos hk hs).kept
  refine ⟨hex, hkept, ?_⟩
  cases stepped_of_step hs with
  | lend hhost hr => exact (h.takeClient (hhost hop) hr).free
  | nothing => exact h.free
  | @giveBack p c now _ hc =>
    obtain ⟨n, hn⟩ := h.kept.live p c hc
    obtain ⟨-, -, hh, -⟩ := h.exclusive.slot_cell hn hc
    intro x hx
    simp only [listAt_pushHost, if_neg (Ne.symm hh)] at hx
    exact h.free x hx
  | checkConnection hcall hu =>
    subst hcall
    exact (h.checkConnection hk hu).free
  | @setClientCnt nCnt _ hcall hresized =>
    subst hcall
    obtain rfl | ⟨-, rfl⟩ | ⟨-, u, hu, rfl⟩ := setClientCnt_cases hresized
    · exact h.free
    · have hlen := (h.kept.grow hsz.atLeast hsz.positive hk.1 hk.2).2
      have hcnt := hk.1
      simp only [List.length_append, List.length_replicate] at hlen
      intro x hx
      simp only [List.length_append, List.length_replicate]
      cases mem_grow.mp hx with
      | inl hx =>
        have := h.free x hx
        omega
      | inr hcase =>
        obtain ⟨-, n, hn, hxn⟩ := hcase
        have hn := (mem_growRange hsz.positive).mp hn
        rw [cInt_of_lt (by omega)] at hxn
        omega
    · exact (h.shrink hu).free
  | setTimeout n => exact h.free

theorem new : InRange CRedisClientPool.new [] where
  exclusive := Exclusive.new
  kept := Kept.new
  free := by
    have h : ∀ x ∈ listAt CRedisClientPool.new.m_MapUseable nullHost, 0 ≤ x ∧ x < 10 := by decide
    exact h

end InRange

/-- A host without a list of its own gets a client as long as some slot is empty and its
server can be reached. -/
def ServesNewHost (s : CRedisClientPool) : Prop :=
  (∃ n : Nat, s.m_VecClient[n]? = some none) →
    (∀ ip port passwd now, s.m_MapUseable (createHostString ip port) = none →
      ∃ t p, s.getClient ip port passwd true now = some (t, some p)) ∧
    ∀ strHost passwd now, s.m_MapUseable strHost = none →
      ∃ t p, s.getClusterClient strHost passwd true now = some (t, some p)

theorem InRange.servesNewHost {s : CRedisClientPool} {loans : List Nat} (h : InRange s loans) :
    ServesNewHost s := by
  intro hcase
  obtain ⟨n, hn⟩ := hcase
  have take : ∀ {host : Bytes} {client : CRedisClient} {now : UInt64}, s.m_MapUseable host = none →
      ∃ t p, s.takeClient host client true now = some (t, some p) := by
    intro host client now hhost
    have hmem := h.kept.empty n hn
    cases hl : s.m_MapUseable nullHost with
    | none => simp [listAt, hl] at hmem
    | some l =>
      have he : listAt s.m_MapUseable nullHost = l := by simp [listAt, hl]
      cases l with
      | nil => simp [he] at hmem
      | cons i rest =>
        -- the head of the free list is an empty slot of the vector
        have hi : i ∈ listAt s.m_MapUseable nullHost := by simp [he]
        obtain ⟨hi0, hilen⟩ := h.free i hi
        have hlt : i.toNat < s.m_VecClient.length := by omega
        have hslot : at? s.m_VecClient i = some none := by
          rw [at?, if_pos hi0, List.getElem?_eq_getElem hlt]
          cases ha : s.m_VecClient[i.toNat] with
          | none => rfl
          | some p =>
            refine absurd ?_ (h.exclusive.free i hi p)
            rw [at?, if_pos hi0, List.getElem?_eq_getElem hlt, ha]
        have huse : s.getUseableList host = some (nullHost, i :: rest) := by
          simp [getUseableList, hhost, hl]
        refine ⟨s.handNew host nullHost rest i client now, s.heap.next, ?_⟩
        simp only [CRedisClientPool.takeClient, huse, hslot, if_true]
  exact ⟨fun ip port passwd now hh => take hh, fun strHost passwd now hh => take hh⟩

/-- The calls of a run that drops no index, with any counts from one on. -/
def DropsNone (s : System) (op : Op) : Prop := op.Positive ∧ KeepsFree s op

instance (s : System) (op : Op) : Decidable (DropsNone s op) :=
  inferInstanceAs (Decidable (op.Positive ∧ KeepsFree s op))

theorem sized_of_runs {ops : List Op} {t : System} (h : Runs System.step DropsNone .new ops t) :
    Sized t :=
  h.invariant Sized Sized.new fun _ _ _ hi hc hs => hi.step hc.1 hc.2 hs

theorem inRange_of_runs {ops : List Op} {t : System}
    (h : Runs System.step (fun s op => DropsNone s op ∧ op.NotReserved ∧ GrowthClear s op) .new
      ops t) : InRange t.pool t.loans :=
  h.invariant_with Sized (fun s => InRange s.pool s.loans) InRange.new
    (fun hr => sized_of_runs (hr.mono fun _ _ hc => hc.1))
    fun _ _ _ hsz hi hc hs => hi.step hsz hc.2.1 hc.1.1 hc.2.2 hc.1.2 hs

/-- A run that never misses the entry of the free list loses no slot; if in addition it never
grows over a client nor names the reserved key, every empty slot can serve a new host. -/
theorem no_slot_lost {ops : List Op} {t : System} (h : Runs System.step DropsNone .new ops t) :
    NoSlotLost t ∧
      (Runs System.step (fun s op => DropsNone s op ∧ op.NotReserved ∧ GrowthClear s op) .new
        ops t → ServesNewHost t.pool) :=
  ⟨(sized_of_runs h).noSlotLost, fun hg => (inRange_of_runs hg).servesNewHost⟩

/-- A pool shrinks to one slot, its client comes back and expires, and the pool grows again. -/
theorem no_slot_lost_resized : ∃ t, Runs System.step DropsNone .new
    [.setClientCnt 2, .getClient (bytes "a") 1 [] true 0, .returnClient (some 0) 1,
      .checkConnection (fun _ => 900) (fun _ => true), .setClientCnt 4] t ∧ NoSlotLost t := by
  have h : (exec System.step DropsNone .new
      [.setClientCnt 2, .getClient (bytes "a") 1 [] true 0, .returnClient (some 0) 1,
        .checkConnection (fun _ => 900) (fun _ => true), .setClientCnt 4]).isSome := by decide
  obtain ⟨t, ht⟩ := Option.isSome_iff_exists.mp h
  exact ⟨t, runs_of_exec ht, (no_slot_lost (runs_of_exec ht)).1⟩

/-- With slot 0 on loan the pool shrinks to that slot, which empties the free list and erases
its entry; the slot added by the next call is in no list. -/
theorem shrunk_pool_loses_slot : ∃ t, Runs System.step (fun _ op => op.NotReserved ∧ op.Positive)
    .new [.getClient (bytes "a") 1 [] true 0, .setClientCnt 1, .setClientCnt 2] t ∧
    ¬ NoSlotLost t := by
  have h : (exec System.step (fun s op => op.NotReserved ∧ op.Positive ∧ GrowthClear s op) .new
      [.getClient (bytes "a") 1 [] true 0, .setClientCnt 1, .setClientCnt 2]).map
      (fun t => (t.pool.m_VecClient, t.pool.m_MapUseable nullHost)) =
        some ([some 0, none], none) := by decide
  obtain ⟨t, ht, hpool⟩ := Option.map_eq_some_iff.mp h
  have hruns := runs_of_exec ht
  have hex : Exclusive t.pool t.loans :=
    exclusive_of_runs (hruns.mono fun _ _ hc => ⟨hc.1, hc.2.2⟩)
  simp only [Prod.mk.injEq] at hpool
  refine ⟨t, hruns.mono fun _ _ hc => ⟨hc.1, hc.2.1⟩, ?_⟩
  intro hcase
  obtain ⟨-, hall⟩ := hcase
  obtain ⟨k, l, hk, hmem⟩ := hall 1 (by simp [hpool.1]) (by simp [clientAt, hpool.1])
  by_cases hnull : k = nullHost
  · rw [hnull, hpool.2] at hk
    cases hk
  · obtain ⟨p, c, hp, -⟩ := hex.idle k hnull 1 (by simpa [listAt, hk] using hmem)
    simp [at?, hpool.1] at hp

end CppPrivate.Redis
