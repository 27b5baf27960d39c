import CppPrivate.Redis.Index

/-! No client of the Redis pool is on loan twice, as long as the pool never grows over a
slot that holds a client. Growing over one files that slot as free. -/
namespace CppPrivate.Redis
open Run CRedisClientPool

/-- The client in slot `n`, idle or on loan. -/
def clientAt (s : CRedisClientPool) (n : Nat) : Option Nat := s.m_VecClient[n]?.join

theorem clientAt_eq_some {s : CRedisClientPool} {n p : Nat} :
    clientAt s n = some p ↔ s.m_VecClient[n]? = some (some p) := by
  simp [clientAt, Option.join_eq_some_iff]

theorem clientAt_eq_none {s : CRedisClientPool} {n : Nat} :
    clientAt s n = none ↔ ∀ p, s.m_VecClient[n]? ≠ some (some p) := by
  rw [Option.eq_none_iff_forall_ne_some]
  exact forall_congr' fun p => not_congr clientAt_eq_some

/-- The host string is not the reserved key of the free list. -/
def Op.NotReserved : Op → Prop
  | .getClusterClient strHost .. => strHost ≠ nullHost
  | _ => True

instance : (op : Op) → Decidable op.NotReserved
  | .getClusterClient strHost .. => inferInstanceAs (Decidable (strHost ≠ nullHost))
  | .getClient .. | .returnClient .. | .checkConnection .. | .setClientCnt .. | .setTimeout .. =>
    inferInstanceAs (Decidable True)

/-- A call that grows the pool finds no client in the slots its loop files as free. -/
def GrowthClear (s : System) : Op → Prop
  | .setClientCnt nCnt =>
    s.pool.m_nCurClientCnt < nCnt → (s.pool.m_MapUseable nullHost).isSome →
      ∀ n ∈ growRange s.pool.m_nCurClientCnt nCnt, clientAt s.pool n = none
  | _ => True

instance (s : System) : (op : Op) → Decidable (GrowthClear s op)
  | .setClientCnt nCnt => inferInstanceAs (Decidable (s.pool.m_nCurClientCnt < nCnt →
      (s.pool.m_MapUseable nullHost).isSome →
        ∀ n ∈ growRange s.pool.m_nCurClientCnt nCnt, clientAt s.pool n = none))
  | .getClient .. | .getClusterClient .. | .returnClient .. | .checkConnection .. | .setTimeout .. =>
    inferInstanceAs (Decidable True)

/-- Each slot is either free, idle under the host of its client, or on loan once, and the
lists file exactly the first two kinds. -/
structure Exclusive (s : CRedisClientPool) (loans : List Nat) : Prop where
  slot : ∀ (n p : Nat), s.m_VecClient[n]? = some (some p) → ∃ c, s.heap.cell p = some c ∧
    c.m_Index = n ∧ n < 2 ^ 31 ∧ c.m_Host ≠ nullHost ∧ (c.m_Used = true ↔ p ∈ loans)
  lent : ∀ p ∈ loans, ∃ n : Nat, s.m_VecClient[n]? = some (some p)
  once : loans.Nodup
  idle : ∀ k, k ≠ nullHost → ∀ x ∈ listAt s.m_MapUseable k, ∃ p c,
    at? s.m_VecClient x = some (some p) ∧ s.heap.cell p = some c ∧ c.m_Host = k ∧ c.m_Used = false
  free : ∀ x ∈ listAt s.m_MapUseable nullHost, ∀ p, at? s.m_VecClient x ≠ some (some p)
  nodup : ∀ k, (listAt s.m_MapUseable k).Nodup
  range : ∀ k, ∀ x ∈ listAt s.m_MapUseable k, x < 2 ^ 31

namespace Exclusive
variable {s : CRedisClientPool} {loans : List Nat} {host key : Bytes} {i : Int}
  {rest : ListUseableIndex} {n p : Nat} {c : CRedisClientEx}

theorem slot_cell (h : Exclusive s loans) (hp : s.m_VecClient[n]? = some (some p))
    (hc : s.heap.cell p = some c) :
    c.m_Index = n ∧ n < 2 ^ 31 ∧ c.m_Host ≠ nullHost ∧ (c.m_Used = true ↔ p ∈ loans) := by
  obtain ⟨c', hc', hrest⟩ := h.slot n p hp
  rw [hc] at hc'
  cases hc'
  exact hrest

theorem slot_inj (h : Exclusive s loans) {m n p : Nat} (hm : s.m_VecClient[m]? = some (some p))
    (hn : s.m_VecClient[n]? = some (some p)) : m = n := by
  refine s.heap.place_inj (·.m_Index) (fun n p hp => ?_) hm hn
  obtain ⟨c, hc, hi, -⟩ := h.slot n p hp
  exact ⟨c, hc, hi⟩

/-- The client of a slot, at the `int` index its lists use. -/
theorem slot_at (h : Exclusive s loans) (hx : at? s.m_VecClient i = some (some p)) :
    ∃ c, s.heap.cell p = some c ∧ c.m_Index = i ∧ c.m_Host ≠ nullHost ∧
      (c.m_Used = true ↔ p ∈ loans) := by
  obtain ⟨h0, hv⟩ := at?_eq_some.mp hx
  obtain ⟨c, hc, hi, -, hh, hu⟩ := h.slot _ _ hv
  exact ⟨c, hc, by omega, hh, hu⟩

theorem at_inj (h : Exclusive s loans) {x y : Int} (hx : at? s.m_VecClient x = some (some p))
    (hy : at? s.m_VecClient y = some (some p)) : x = y :=
  at?_inj h.slot_inj hx hy

theorem live (h : Exclusive s loans) (hp : s.m_VecClient[n]? = some (some p)) :
    (s.heap.cell p).isSome := by
  obtain ⟨c, hc, -⟩ := h.slot n p hp
  rw [hc]
  rfl

/-- An index filed under a host is in no other list. -/
theorem not_free (h : Exclusive s loans) (hx : at? s.m_VecClient i = some (some p)) :
    i ∉ listAt s.m_MapUseable nullHost := fun hi => h.free i hi p hx

/-- The client at an index of a host's list is one of the host, and idle. -/
theorem idle_at (h : Exclusive s loans) (hat : at? s.m_VecClient i = some (some p))
    (hc : s.heap.cell p = some c) {k : Bytes} (hk : k ≠ nullHost)
    (hi : i ∈ listAt s.m_MapUseable k) : c.m_Host = k ∧ c.m_Used = false := by
  obtain ⟨q, d, hq, hd, hrest⟩ := h.idle k hk i hi
  rw [hat] at hq
  cases hq
  rw [hc] at hd
  cases hd
  exact hrest

theorem new : Exclusive CRedisClientPool.new [] where
  slot := by
    intro n p hp
    have := List.getElem?_eq_some_iff.mp hp
    simp [CRedisClientPool.new] at this
  lent := by simp
  once := List.nodup_nil
  idle := by
    intro k hk x hx
    simp [CRedisClientPool.new, listAt, hk] at hx
  free := by
    intro x _ p hp
    obtain ⟨-, hv⟩ := at?_eq_some.mp hp
    have := List.getElem?_eq_some_iff.mp hv
    simp [CRedisClientPool.new] at this
  nodup := by
    intro k
    by_cases hk : k = nullHost
    · simp only [listAt, CRedisClientPool.new, hk, if_true, Option.getD_some]
      decide
    · simp [listAt, CRedisClientPool.new, hk]
  range := by
    intro k x hx
    by_cases hk : k = nullHost
    · simp only [listAt, CRedisClientPool.new, hk, if_true, Option.getD_some, List.mem_map] at hx
      obtain ⟨n, -, rfl⟩ := hx
      exact cInt_lt _
    · simp [listAt, CRedisClientPool.new, hk] at hx

/-- A new client takes a slot of the list that serves its host: the free list, since the
slots of a host's own list are not empty. -/
theorem handNew (h : Exclusive s loans) (hh : host ≠ nullHost) {client : CRedisClient}
    {now : UInt64} (hl : s.getUseableList host = some (key, i :: rest))
    (hi : at? s.m_VecClient i = some none) :
    Exclusive (s.handNew host key rest i client now) (s.heap.next :: loans) := by
  have hmem : i ∈ listAt s.m_MapUseable key := by simp [listAt_useable hl]
  have hnd : (i :: rest).Nodup := listAt_useable hl ▸ h.nodup key
  have hkey : key = nullHost := by
    by_contra hk
    obtain ⟨p, c, hp, -⟩ := h.idle key hk i hmem
    rw [hi] at hp
    cases hp
  subst hkey
  obtain ⟨hi0, hilen⟩ := at?_lt hi
  have hlive : ∀ {n p : Nat}, s.m_VecClient[n]? = some (some p) → p ≠ s.heap.next := by
    intro n p hp
    obtain ⟨c, hc, -⟩ := h.slot n p hp
    exact Heap.ne_next hc
  have hnew : s.heap.next ∉ loans := by
    intro hm
    obtain ⟨n, hn⟩ := h.lent _ hm
    exact hlive hn rfl
  have hlist : ∀ k, listAt (s.handNew host nullHost rest i client now).m_MapUseable k =
      if k = nullHost then rest else listAt s.m_MapUseable k := fun k => listAt_popFront hl
  refine ⟨?_, ?_, List.nodup_cons.mpr ⟨hnew, h.once⟩, ?_, ?_, ?_, ?_⟩
  · intro n p hp
    by_cases hpn : p = s.heap.next
    · subst hpn
      have hn : i.toNat = n := by
        by_contra hne
        simp only [CRedisClientPool.handNew] at hp
        rw [List.getElem?_set_ne hne] at hp
        exact hlive hp rfl
      have := h.range _ i hmem
      exact ⟨_, Heap.alloc_self _ _, by simp only; omega, by omega, hh, by simp⟩
    · obtain ⟨-, hv⟩ := of_getElem?_set hp fun he => hpn (Option.some.inj he).symm
      obtain ⟨c, hc, h1, h2, h3, h4⟩ := h.slot n p hv
      exact ⟨c, Heap.alloc_of_live hc, h1, h2, h3, by simp [h4, hpn]⟩
  · intro p hp
    cases List.mem_cons.mp hp with
    | inl heq =>
      subst heq
      exact ⟨i.toNat, List.getElem?_set_self (by omega)⟩
    | inr hp =>
      obtain ⟨n, hn⟩ := h.lent p hp
      exact ⟨n, getElem?_set_other (at?_eq_some.mp hi).2 hn (by simp)⟩
  · intro k hk x hx
    rw [hlist, if_neg hk] at hx
    obtain ⟨p, c, hp, hc, h1, h2⟩ := h.idle k hk x hx
    exact ⟨p, c, at?_set_other hi hp (by simp), Heap.alloc_of_live hc, h1, h2⟩
  · intro x hx p hp
    rw [hlist, if_pos rfl] at hx
    have hne : x ≠ i := by
      intro hsame
      subst hsame
      exact (List.nodup_cons.mp hnd).1 hx
    rw [CRedisClientPool.handNew, at?_set_ne hi0 hne] at hp
    exact h.free x (by simp [listAt_useable hl, hx]) p hp
  · intro k
    rw [hlist]
    split
    · exact (List.nodup_cons.mp hnd).2
    · exact h.nodup k
  · intro k x hx
    rw [hlist] at hx
    split at hx
    · exact h.range nullHost x (by simp [listAt_useable hl, hx])
    · exact h.range k x hx

/-- A client found at the head of a list is idle and of the host asked for. -/
theorem found (h : Exclusive s loans) (hl : s.getUseableList host = some (key, i :: rest))
    (hi : at? s.m_VecClient i = some (some p)) :
    key = host ∧ ∃ c, s.heap.cell p = some c ∧ c.m_Host = host ∧ c.m_Used = false := by
  have hmem : i ∈ listAt s.m_MapUseable key := by simp [listAt_useable hl]
  have hkey : key ≠ nullHost := by
    intro he
    subst he
    exact h.free i hmem p hi
  obtain ⟨q, c, hq, hc, h1, h2⟩ := h.idle key hkey i hmem
  rw [hi] at hq
  cases hq
  cases (getUseableList_cases hl).2 with
  | inl heq =>
    subst heq
    exact ⟨rfl, c, hc, h1, h2⟩
  | inr hcase =>
    obtain ⟨rfl, -⟩ := hcase
    exact absurd rfl hkey

theorem handFound (h : Exclusive s loans) (hh : host ≠ nullHost)
    (hl : s.getUseableList host = some (key, i :: rest))
    (hi : at? s.m_VecClient i = some (some p)) :
    Exclusive (s.handFound host key rest i p) (p :: loans) := by
  have hnd : (i :: rest).Nodup := listAt_useable hl ▸ h.nodup key
  obtain ⟨rfl, c, hc, hch, hcu⟩ := h.found hl hi
  obtain ⟨c', hc', hci, -, hused⟩ := h.slot_at hi
  rw [hc] at hc'
  cases hc'
  have hout : p ∉ loans := by simp [← hused, hcu]
  obtain ⟨hi0, hv⟩ := at?_eq_some.mp hi
  have hother : ∀ {x q}, at? s.m_VecClient x = some (some q) → x ≠ i → q ≠ p := by
    intro x q hq hne he
    subst he
    exact hne (h.at_inj hq hi)
  have hlist : ∀ k, listAt (s.handFound key key rest i p).m_MapUseable k =
      if k = key then rest else listAt s.m_MapUseable k := fun k => listAt_popFront hl
  refine ⟨?_, ?_, List.nodup_cons.mpr ⟨hout, h.once⟩, ?_, ?_, ?_, ?_⟩
  · intro n q hq
    obtain ⟨d, hd, h1, h2, h3, h4⟩ := h.slot n q hq
    by_cases hqp : q = p
    · subst hqp
      have hn := h.slot_inj hq hv
      exact ⟨_, Heap.modify_self _ hd, by simp only; omega, h2, h3, by simp⟩
    · refine ⟨d, ?_, h1, h2, h3, by simp [h4, hqp]⟩
      rw [CRedisClientPool.handFound, Heap.modify_of_ne _ hqp, hd]
  · intro q hq
    cases List.mem_cons.mp hq with
    | inl heq =>
      subst heq
      exact ⟨_, hv⟩
    | inr hq => exact h.lent q hq
  · intro k hk x hx
    rw [hlist] at hx
    have hx' : x ∈ listAt s.m_MapUseable k ∧ x ≠ i := by
      split at hx
      · rename_i hkk
        subst hkk
        refine ⟨by simp [listAt_useable hl, hx], ?_⟩
        intro he
        subst he
        exact (List.nodup_cons.mp hnd).1 hx
      · rename_i hkk
        refine ⟨hx, ?_⟩
        intro he
        subst he
        exact hkk ((h.idle_at hi hc hk hx).1.symm.trans hch)
    obtain ⟨q, d, hq, hd, h1, h2⟩ := h.idle k hk x hx'.1
    refine ⟨q, d, hq, ?_, h1, h2⟩
    rw [CRedisClientPool.handFound, Heap.modify_of_ne _ (hother hq hx'.2), hd]
  · intro x hx
    rw [hlist, if_neg (Ne.symm hh)] at hx
    exact h.free x hx
  · intro k
    rw [hlist]
    split
    · exact (List.nodup_cons.mp hnd).2
    · exact h.nodup k
  · intro k x hx
    rw [hlist] at hx
    split at hx
    · exact h.range key x (by simp [listAt_useable hl, hx])
    · exact h.range k x hx

theorem giveBack (h : Exclusive s loans) (hp : p ∈ loans) (hc : s.heap.cell p = some c)
    {now : UInt64} :
    Exclusive { s with
      heap := s.heap.modify p fun c => { c with m_Used := false, m_Timestamp := now }
      m_MapUseable := pushHost s.m_MapUseable c.m_Host c.m_Index } (loans.erase p) := by
  obtain ⟨n, hn⟩ := h.lent p hp
  obtain ⟨hci, hlt, hh, hu⟩ := h.slot_cell hn hc
  have hused : c.m_Used = true := hu.mpr hp
  have hat : at? s.m_VecClient c.m_Index = some (some p) := by rw [hci, at?_natCast, hn]
  have hnew : ∀ k, k ≠ nullHost → c.m_Index ∉ listAt s.m_MapUseable k := by
    intro k hk hx
    have hidle := (h.idle_at hat hc hk hx).2
    rw [hused] at hidle
    cases hidle
  refine ⟨?_, fun q hq => h.lent q (List.mem_of_mem_erase hq), h.once.erase p, ?_, ?_, ?_, ?_⟩
  · intro m q hq
    obtain ⟨d, hd, h1, h2, h3, h4⟩ := h.slot m q hq
    by_cases hqp : q = p
    · subst hqp
      exact ⟨_, Heap.modify_self _ hd, h1, h2, h3, by simp [h.once.not_mem_erase]⟩
    · refine ⟨d, by simp only [Heap.modify_of_ne _ hqp, hd], h1, h2, h3, ?_⟩
      rw [h4, List.mem_erase_of_ne hqp]
  · intro k hk x hx
    rw [listAt_pushHost] at hx
    have hx' : x ∈ listAt s.m_MapUseable k ∨ k = c.m_Host ∧ x = c.m_Index := by
      split at hx
      · rename_i hkh
        subst hkh
        exact (List.mem_append.mp hx).imp id fun h => ⟨rfl, List.mem_singleton.mp h⟩
      · exact Or.inl hx
    cases hx' with
    | inl hx =>
      obtain ⟨q, d, hq, hd, h1, h2⟩ := h.idle k hk x hx
      have hqp : q ≠ p := by
        intro heq
        subst heq
        exact hnew k hk (h.at_inj hq hat ▸ hx)
      exact ⟨q, d, hq, by simp only [Heap.modify_of_ne _ hqp, hd], h1, h2⟩
    | inr hcase =>
      obtain ⟨rfl, rfl⟩ := hcase
      exact ⟨p, _, hat, Heap.modify_self _ hc, rfl, rfl⟩
  · intro x hx
    rw [listAt_pushHost, if_neg (Ne.symm hh)] at hx
    exact h.free x hx
  · intro k
    rw [listAt_pushHost]
    split
    · simpa using List.Nodup.concat (hnew _ hh) (h.nodup c.m_Host)
    · exact h.nodup k
  · intro k x hx
    rw [listAt_pushHost] at hx
    split at hx
    · cases List.mem_append.mp hx with
      | inl hx => exact h.range _ x hx
      | inr hx =>
        rw [List.mem_singleton.mp hx, hci]
        omega
    · exact h.range k x hx

/-- An idle client leaves with its index; the lists of the other hosts do not notice. -/
theorem idle_of_removed (h : Exclusive s loans) (hat : at? s.m_VecClient i = some (some p))
    (hc : s.heap.cell p = some c) {k : Bytes} {x : Int} (hk : k ≠ nullHost)
    (hx : x ∈ listAt (removeFound s.m_MapUseable c.m_Host i) k) :
    x ∈ listAt s.m_MapUseable k ∧ x ≠ i := by
  rw [listAt_removeFound] at hx
  split at hx
  · rename_i hkh
    subst hkh
    exact mem_removeIndex.mp hx
  · rename_i hkh
    refine ⟨hx, ?_⟩
    intro heq
    subst heq
    exact hkh (h.idle_at hat hc hk hx).1.symm

theorem nodup_removeFound {m : MapUseableHost} (h : ∀ k, (listAt m k).Nodup) (k : Bytes) :
    (listAt (removeFound m host i) k).Nodup := by
  rw [listAt_removeFound]
  split
  · exact nodup_removeIndex (h host)
  · exact h k

theorem mem_of_removeFound {m : MapUseableHost} {k : Bytes} {x : Int}
    (hx : x ∈ listAt (removeFound m host i) k) : x ∈ listAt m k := by
  rw [listAt_removeFound] at hx
  split at hx
  · rename_i hk
    exact hk ▸ (mem_removeIndex.mp hx).1
  · exact hx

theorem listAt_reap_of_ne {k : Bytes} (hk : k ≠ nullHost) : listAt (s.reap n p c).m_MapUseable k =
    listAt (removeFound s.m_MapUseable c.m_Host c.m_Index) k := by
  simp [CRedisClientPool.reap, listAt_pushFound, hk]

theorem mem_reap_null {x : Int}
    (hx : x ∈ listAt (s.reap n p c).m_MapUseable nullHost) :
    x ∈ listAt s.m_MapUseable nullHost ∨ x = c.m_Index := by
  simp only [CRedisClientPool.reap, listAt_pushFound] at hx
  split at hx
  · cases List.mem_append.mp hx with
    | inl hx => exact Or.inl (mem_of_removeFound hx)
    | inr hx => exact Or.inr (List.mem_singleton.mp hx)
  · exact Or.inl (mem_of_removeFound hx)

/-- An idle client is deleted and its slot no longer holds it. The others stay in their slots, and
only the free list may still have its index. -/
theorem vacate (h : Exclusive s loans) {t : CRedisClientPool}
    (hp : s.m_VecClient[n]? = some (some p)) (hc : s.heap.cell p = some c)
    (hu : c.m_Used = false) (hheap : t.heap = s.heap.free p)
    (hgone : ∀ m q : Nat, t.m_VecClient[m]? = some (some q) →
      m ≠ n ∧ s.m_VecClient[m]? = some (some q))
    (hkept : ∀ m q : Nat, s.m_VecClient[m]? = some (some q) → q ≠ p →
      t.m_VecClient[m]? = some (some q))
    (hlist : ∀ k, k ≠ nullHost → ∀ x ∈ listAt t.m_MapUseable k,
      x ∈ listAt (removeFound s.m_MapUseable c.m_Host c.m_Index) k)
    (hfree : ∀ x ∈ listAt t.m_MapUseable nullHost,
      x ∈ listAt s.m_MapUseable nullHost ∨ x = c.m_Index)
    (hnodup : ∀ k, (listAt t.m_MapUseable k).Nodup) : Exclusive t loans := by
  obtain ⟨hci, hlt, -, hused⟩ := h.slot_cell hp hc
  have hat : at? s.m_VecClient c.m_Index = some (some p) := by rw [hci, at?_natCast, hp]
  refine ⟨?_, ?_, h.once, ?_, ?_, hnodup, ?_⟩
  · intro m q hq
    obtain ⟨hm, hv⟩ := hgone m q hq
    obtain ⟨d, hd, hrest⟩ := h.slot m q hv
    have hqp : q ≠ p := by
      intro he
      subst he
      exact hm (h.slot_inj hv hp)
    exact ⟨d, by rw [hheap, Heap.free_of_ne hqp, hd], hrest⟩
  · intro q hq
    obtain ⟨m, hm⟩ := h.lent q hq
    refine ⟨m, hkept m q hm ?_⟩
    intro he
    subst he
    rw [hused.mpr hq] at hu
    cases hu
  · intro k hk x hx
    obtain ⟨hx, hne⟩ := h.idle_of_removed hat hc hk (hlist k hk x hx)
    obtain ⟨q, d, hq, hd, h1, h2⟩ := h.idle k hk x hx
    have hqp : q ≠ p := by
      intro he
      subst he
      exact hne (h.at_inj hq hat)
    obtain ⟨h0, hv⟩ := at?_eq_some.mp hq
    exact ⟨q, d, at?_eq_some.mpr ⟨h0, hkept _ q hv hqp⟩,
      by rw [hheap, Heap.free_of_ne hqp, hd], h1, h2⟩
  · intro x hx q hq
    obtain ⟨h0, hv⟩ := at?_eq_some.mp hq
    obtain ⟨hm, hv⟩ := hgone _ q hv
    exact h.free x ((hfree x hx).resolve_right (by omega)) q (at?_eq_some.mpr ⟨h0, hv⟩)
  · intro k x hx
    by_cases hk : k = nullHost
    · subst hk
      cases hfree x hx with
      | inl hx => exact h.range _ x hx
      | inr heq =>
        subst heq
        omega
    · exact h.range k x (mem_of_removeFound (hlist k hk x hx))

theorem reap (h : Exclusive s loans) (hp : s.m_VecClient[n]? = some (some p))
    (hc : s.heap.cell p = some c) (hu : c.m_Used = false) : Exclusive (s.reap n p c) loans := by
  obtain ⟨hci, -⟩ := h.slot_cell hp hc
  have hat : at? s.m_VecClient c.m_Index = some (some p) := by rw [hci, at?_natCast, hp]
  refine h.vacate hp hc hu rfl ?_ ?_ ?_ (fun _ => mem_reap_null) ?_
  · intro m q hq
    obtain ⟨hm, hv⟩ := of_getElem?_set hq (by simp)
    exact ⟨Ne.symm hm, hv⟩
  · intro m q hq hne
    exact getElem?_set_other hp hq fun he => hne (Option.some.inj he).symm
  · intro k hk x hx
    rw [listAt_reap_of_ne hk] at hx
    exact hx
  · intro k
    by_cases hk : k = nullHost
    · subst hk
      simp only [CRedisClientPool.reap, listAt_pushFound]
      split
      · have hold := h.not_free hat
        simpa using List.Nodup.concat (fun hx => hold (mem_of_removeFound hx))
          (nodup_removeFound h.nodup nullHost)
      · exact nodup_removeFound h.nodup nullHost
    · rw [listAt_reap_of_ne hk]
      exact nodup_removeFound h.nodup k

theorem dropFree (h : Exclusive s loans)
    (hlast : s.m_VecClient[s.m_VecClient.length - 1]? = some none) :
    Exclusive s.dropFree loans := by
  refine ⟨?_, ?_, h.once, ?_, ?_, ?_, ?_⟩
  · intro m q hq
    exact h.slot m q (getElem?_of_dropLast hq).1
  · intro q hq
    obtain ⟨m, hm⟩ := h.lent q hq
    exact ⟨m, getElem?_dropLast_other hlast hm (by simp)⟩
  · intro k hk x hx
    obtain ⟨q, d, hq, hrest⟩ := h.idle k hk x (mem_of_removeFound hx)
    exact ⟨q, d, at?_dropLast_other hlast hq (by simp), hrest⟩
  · intro x hx q hq
    exact h.free x (mem_of_removeFound hx) q (of_at?_dropLast hq)
  · exact nodup_removeFound h.nodup
  · intro k x hx
    exact h.range k x (mem_of_removeFound hx)

theorem dropIdle (h : Exclusive s loans) {countOff : Bool}
    (hlast : s.m_VecClient[s.m_VecClient.length - 1]? = some (some p))
    (hc : s.heap.cell p = some c) (hu : c.m_Used = false) :
    Exclusive (s.dropIdle countOff p c) loans := by
  obtain ⟨hci, hlt, -⟩ := h.slot_cell hlast hc
  have hidx : cInt (s.m_VecClient.length - 1 : Nat) = c.m_Index := by rw [cInt_of_lt hlt, hci]
  refine h.vacate hlast hc hu rfl ?_ ?_ ?_ ?_ (nodup_removeFound h.nodup)
  · intro m q hq
    obtain ⟨hv, hm⟩ := getElem?_of_dropLast hq
    exact ⟨hm, hv⟩
  · intro m q hq hne
    exact getElem?_dropLast_other hlast hq fun he => hne (Option.some.inj he).symm
  · intro k _ x hx
    rw [CRedisClientPool.dropIdle, hidx] at hx
    exact hx
  · exact fun x hx => Or.inl (mem_of_removeFound hx)

theorem shrink (h : Exclusive s loans) {countOff : Bool} {target : Nat} {t : CRedisClientPool}
    (ht : s.shrink countOff target = some t) : Exclusive t loans :=
  shrinkLoop_invariant (Exclusive · loans)
    (fun _ hs _ hlast => hs.dropFree hlast)
    (fun _ _ _ hs _ hlast hc hu => hs.dropIdle hlast hc hu) ht h

theorem shrink_isSome (h : Exclusive s loans) (countOff : Bool) (target : Nat) :
    (s.shrink countOff target).isSome :=
  shrinkLoop_isSome (Exclusive · loans) (fun _ _ _ hs hp => hs.live hp)
    (fun _ hs hlast => hs.dropFree hlast) (fun _ _ _ hs hlast hc hu => hs.dropIdle hlast hc hu) h

theorem reapSlot (h : Exclusive s loans) {now : Nat → UInt64} {ping : Nat → Bool}
    {t : CRedisClientPool} (ht : reapSlot now ping s n = some t) : Exclusive t loans := by
  cases reapSlot_cases ht with
  | inl heq =>
    subst heq
    exact h
  | inr hcase =>
    obtain ⟨p, c, hp, hc, he, rfl⟩ := hcase
    simp only [expired, Bool.and_eq_true, Bool.not_eq_true'] at he
    exact h.reap hp hc he.1

theorem checkConnection (h : Exclusive s loans) {now : Nat → UInt64} {ping : Nat → Bool}
    {t : CRedisClientPool} (ht : s.checkConnection now ping = some t) : Exclusive t loans := by
  obtain ⟨u, hu, hr⟩ := Option.bind_eq_some_iff.mp ht
  exact shrink (foldlM_invariant (Exclusive · loans) (fun _ _ _ hs => hs.reapSlot) hu h) hr

theorem checkConnection_isSome (h : Exclusive s loans) (now : Nat → UInt64) (ping : Nat → Bool) :
    (s.checkConnection now ping).isSome := by
  have hloop : ((List.range s.m_VecClient.length).foldlM (CRedisClientPool.reapSlot now ping)
      s).isSome := by
    refine foldlM_isSome (Exclusive · loans) (fun _ _ _ hs => hs.reapSlot) ?_ h
    intro u n hu
    rw [CRedisClientPool.reapSlot]
    split
    · rename_i p hp
      simpa using hu.live hp
    · rfl
  obtain ⟨u, hu⟩ := Option.isSome_iff_exists.mp hloop
  have hx := foldlM_invariant (Exclusive · loans) (fun _ _ _ hs => hs.reapSlot) hu h
  simp only [CRedisClientPool.checkConnection, hu, Option.bind_some]
  exact hx.shrink_isSome true _

/-- Growing keeps the slots and their clients; what it files as free must hold no client. -/
theorem grow (h : Exclusive s loans) {slots : List Nat} {w : VecRedisClient} {cnt : UInt32}
    (hw : ∀ a ∈ w, a = none)
    (hclear : (s.m_MapUseable nullHost).isSome → ∀ n ∈ slots, n < 2 ^ 32 ∧ clientAt s n = none) :
    Exclusive { s with
      m_MapUseable := slots.foldl pushFree s.m_MapUseable
      m_VecClient := s.m_VecClient ++ w
      m_nCurClientCnt := cnt } loans := by
  have hslot : ∀ {m q : Nat}, (s.m_VecClient ++ w)[m]? = some (some q) →
      s.m_VecClient[m]? = some (some q) := by
    intro m q hq
    rw [List.getElem?_append] at hq
    split at hq
    · exact hq
    · cases hw _ (List.mem_of_getElem? hq)
  have hlist : ∀ k, k ≠ nullHost → listAt (slots.foldl pushFree s.m_MapUseable) k =
      listAt s.m_MapUseable k := by
    intro k hk
    simp only [listAt, grow_of_ne hk]
  refine ⟨?_, ?_, h.once, ?_, ?_, ?_, ?_⟩
  · exact fun m q hq => h.slot m q (hslot hq)
  · intro q hq
    obtain ⟨m, hm⟩ := h.lent q hq
    exact ⟨m, by rw [List.getElem?_append_left (List.getElem?_eq_some_iff.mp hm).1, hm]⟩
  · intro k hk x hx
    rw [hlist k hk] at hx
    obtain ⟨q, d, hq, hrest⟩ := h.idle k hk x hx
    exact ⟨q, d, at?_append w hq, hrest⟩
  · intro x hx q hq
    obtain ⟨h0, hv⟩ := at?_eq_some.mp hq
    have hv := hslot hv
    cases mem_grow.mp hx with
    | inl hx => exact h.free x hx q (at?_eq_some.mpr ⟨h0, hv⟩)
    | inr hcase =>
      obtain ⟨hnull, n, hn, hxn⟩ := hcase
      obtain ⟨hlt, hclient⟩ := hclear hnull n hn
      have he : x = n := hxn.trans (cInt_eq_of_nonneg hlt (hxn ▸ h0))
      rw [he, Int.toNat_natCast] at hv
      exact clientAt_eq_none.mp hclient q hv
  · intro k
    by_cases hk : k = nullHost
    · exact hk ▸ nodup_grow (h.nodup nullHost)
    · simp only [hlist k hk]
      exact h.nodup k
  · intro k x hx
    by_cases hk : k = nullHost
    · subst hk
      cases mem_grow.mp hx with
      | inl hx => exact h.range _ x hx
      | inr hcase =>
        obtain ⟨-, n, -, hxn⟩ := hcase
        exact hxn ▸ cInt_lt _
    · rw [hlist k hk] at hx
      exact h.range k x hx

theorem takeClient (h : Exclusive s loans) (hh : host ≠ nullHost) {client : CRedisClient}
    {connected : Bool} {now : UInt64} {r : CRedisClientPool × Option Nat}
    (hr : s.takeClient host client connected now = some r) :
    Exclusive r.1 (r.2.toList ++ loans) := by
  rcases takeClient_cases hr with rfl | ⟨key, i, rest, hl, ⟨hi, rfl⟩ | ⟨p, c, hi, -, rfl⟩⟩
  · exact h
  · exact h.handNew hh hl hi
  · exact h.handFound hh hl hi

theorem takeClient_isSome (h : Exclusive s loans) {client : CRedisClient} {connected : Bool}
    {now : UInt64} : (s.takeClient host client connected now).isSome := by
  rw [CRedisClientPool.takeClient]
  split
  · rfl
  · rfl
  · split
    · rfl
    · split <;> rfl
    · rename_i p hi
      obtain ⟨c, hc, -⟩ := h.slot_at hi
      simp [hc]

theorem takeClient_host (h : Exclusive s loans) {client : CRedisClient} {connected : Bool}
    {now : UInt64} {t : CRedisClientPool} {p : Nat}
    (hr : s.takeClient host client connected now = some (t, some p)) :
    ∃ c, t.heap.cell p = some c ∧ c.m_Host = host := by
  rcases takeClient_cases hr with hr | ⟨key, i, rest, hl, ⟨hi, hr⟩ | ⟨q, c, hi, -, hr⟩⟩
  · cases hr
  · cases hr
    exact ⟨_, Heap.alloc_self _ _, rfl⟩
  · cases hr
    obtain ⟨-, d, hd, hdh, -⟩ := h.found hl hi
    exact ⟨_, Heap.modify_self _ hd, hdh⟩

end Exclusive

theorem createHostString_ne (ip : Bytes) (port : Int) : createHostString ip port ≠ nullHost := by
  intro h
  have hc : (58 : UInt8) ∈ createHostString ip port := by
    simp [createHostString, bytes]
  rw [h] at hc
  revert hc
  decide

inductive System.Stepped (s : System) (op : Op) : System → Prop
  | lend {host : Bytes} {client : CRedisClient} {connected : Bool} {now : UInt64}
      {r : CRedisClientPool × Option Nat} (hhost : op.NotReserved → host ≠ nullHost)
      (hr : s.pool.takeClient host client connected now = some r) : Stepped s op (s.lend r)
  | nothing : Stepped s op s
  | giveBack {p : Nat} {c : CRedisClientEx} {now : UInt64} (hp : p ∈ s.loans)
      (hc : s.pool.heap.cell p = some c) : Stepped s op ⟨{ s.pool with
        heap := s.pool.heap.modify p fun c => { c with m_Used := false, m_Timestamp := now }
        m_MapUseable := pushHost s.pool.m_MapUseable c.m_Host c.m_Index }, s.loans.erase p⟩
  | checkConnection {now : Nat → UInt64} {ping : Nat → Bool} {u : CRedisClientPool}
      (hop : op = .checkConnection now ping) (hu : s.pool.checkConnection now ping = some u) :
      Stepped s op ⟨u, s.loans⟩
  | setClientCnt {nCnt : UInt32} {u : CRedisClientPool} (hop : op = .setClientCnt nCnt)
      (hu : s.pool.setClientCnt nCnt = some u) : Stepped s op ⟨u, s.loans⟩
  | setTimeout (n : UInt32) : Stepped s op ⟨{ s.pool with m_nCurTimeout := n }, s.loans⟩

theorem stepped_of_step {s t : System} {op : Op} (h : s.step op = some t) : s.Stepped op t := by
  cases op with
  | getClient ip port passwd connected now =>
    obtain ⟨r, hr, rfl⟩ := Option.map_eq_some_iff.mp h
    exact .lend (fun _ => createHostString_ne ip port) hr
  | getClusterClient strHost passwd connected now =>
    obtain ⟨r, hr, rfl⟩ := Option.map_eq_some_iff.mp h
    exact .lend id hr
  | returnClient pClient now =>
    cases pClient with
    | none =>
      obtain rfl := Option.some.inj h
      exact .nothing
    | some p =>
      simp only [System.step] at h
      split at h
      · rename_i hp
        obtain ⟨r, hr, rfl⟩ := Option.map_eq_some_iff.mp h
        obtain ⟨c, hc, rfl⟩ := Option.map_eq_some_iff.mp hr
        exact .giveBack hp hc
      · cases h
  | checkConnection now ping =>
    obtain ⟨u, hu, rfl⟩ := Option.map_eq_some_iff.mp h
    exact .checkConnection rfl hu
  | setClientCnt nCnt =>
    obtain ⟨u, hu, rfl⟩ := Option.map_eq_some_iff.mp h
    exact .setClientCnt rfl hu
  | setTimeout nTimeout =>
    obtain rfl := Option.some.inj h
    obtain ⟨n, hn⟩ := s.pool.setTimeout_eq nTimeout
    rw [hn]
    exact .setTimeout n

theorem Exclusive.step {s t : System} {op : Op} (h : Exclusive s.pool s.loans)
    (hop : op.NotReserved) (hg : GrowthClear s op) (hs : s.step op = some t) :
    Exclusive t.pool t.loans := by
  cases stepped_of_step hs with
  | lend hhost hr => exact h.takeClient (hhost hop) hr
  | nothing => exact h
  | giveBack hp hc => exact h.giveBack hp hc
  | checkConnection _ hu => exact h.checkConnection hu
  | @setClientCnt nCnt _ hcall hresized =>
    subst hcall
    obtain rfl | ⟨hlt, rfl⟩ | ⟨-, u, hu, rfl⟩ := setClientCnt_cases hresized
    · exact h
    · refine h.grow (fun a ha => List.eq_of_mem_replicate ha) ?_
      intro hnull n hn
      refine ⟨?_, hg hlt hnull n hn⟩
      have := (List.mem_range'_1.mp hn).2
      have := nCnt.toNat_lt
      have := (s.pool.m_nCurClientCnt - 1).toNat_lt
      omega
    · have hx := h.shrink hu
      exact ⟨hx.slot, hx.lent, hx.once, hx.idle, hx.free, hx.nodup, hx.range⟩
  | setTimeout n => exact ⟨h.slot, h.lent, h.once, h.idle, h.free, h.nodup, h.range⟩

/-- No call uses a deleted client; a borrower returns what it holds. -/
theorem Exclusive.step_isSome {s : System} {op : Op} (h : Exclusive s.pool s.loans)
    (hp : ∀ p now, op = .returnClient (some p) now → p ∈ s.loans) : (s.step op).isSome := by
  cases op with
  | getClient ip port passwd connected now =>
    simpa [System.step, CRedisClientPool.getClient] using h.takeClient_isSome
  | getClusterClient strHost passwd connected now =>
    simpa [System.step, CRedisClientPool.getClusterClient] using h.takeClient_isSome
  | returnClient pClient now =>
    cases pClient with
    | none => rfl
    | some p =>
      have hmem := hp p now rfl
      obtain ⟨n, hn⟩ := h.lent p hmem
      simpa [System.step, hmem, CRedisClientPool.returnClient] using h.live hn
  | checkConnection now ping => simpa [System.step] using h.checkConnection_isSome now ping
  | setClientCnt nCnt =>
    simp only [System.step, Option.isSome_map, CRedisClientPool.setClientCnt]
    split
    · rfl
    · split
      · rfl
      · simpa using h.shrink_isSome false nCnt.toNat
  | setTimeout nTimeout => rfl

/-- Every client handed out for a host is a client of that host. -/
def ServesHost (s : CRedisClientPool) : Prop :=
  (∀ ip port passwd connected now t p,
    s.getClient ip port passwd connected now = some (t, some p) →
      ∃ c, t.heap.cell p = some c ∧ c.m_Host = createHostString ip port) ∧
  ∀ strHost passwd connected now t p, strHost ≠ nullHost →
    s.getClusterClient strHost passwd connected now = some (t, some p) →
      ∃ c, t.heap.cell p = some c ∧ c.m_Host = strHost

theorem Exclusive.servesHost {s : CRedisClientPool} {loans : List Nat} (h : Exclusive s loans) :
    ServesHost s :=
  ⟨fun _ _ _ _ _ _ _ hr => h.takeClient_host hr, fun _ _ _ _ _ _ _ hr => h.takeClient_host hr⟩

theorem exclusive_of_runs {ops : List Op} {t : System}
    (h : Runs System.step (fun s op => op.NotReserved ∧ GrowthClear s op) .new ops t) :
    Exclusive t.pool t.loans :=
  h.invariant (fun s => Exclusive s.pool s.loans) Exclusive.new
    fun _ _ _ hi hc hs => hi.step hc.1 hc.2 hs

/-- Without growth over a client every further call is defined, whatever the run did before. -/
theorem calls_defined {ops : List Op} {t : System}
    (h : Runs System.step (fun s op => op.NotReserved ∧ GrowthClear s op) .new ops t) {op : Op}
    (hp : ∀ p now, op = .returnClient (some p) now → p ∈ t.loans) : (t.step op).isSome :=
  (exclusive_of_runs h).step_isSome hp

/-- Without growth over a client no client has two borrowers, and each one goes out for its
own host only. -/
theorem clients_lent_once {ops : List Op} {t : System}
    (h : Runs System.step (fun s op => op.NotReserved ∧ GrowthClear s op) .new ops t) :
    t.loans.Nodup ∧ ServesHost t.pool :=
  ⟨(exclusive_of_runs h).once, (exclusive_of_runs h).servesHost⟩

/-- A pool of ten grows to twenty while a client is on loan from its first slot. -/
theorem clients_lent_once_grown : ∃ t, Runs System.step (fun s op => op.NotReserved ∧ GrowthClear s op)
    .new [.getClient (bytes "a") 1 [] true 0, .setClientCnt 20, .getClient (bytes "b") 1 [] true 0,
      .returnClient (some 0) 5, .getClient (bytes "a") 1 [] true 0] t ∧
    t.loans.Nodup ∧ ServesHost t.pool := by
  have h : (exec System.step (fun s op => op.NotReserved ∧ GrowthClear s op) .new
      [.getClient (bytes "a") 1 [] true 0, .setClientCnt 20, .getClient (bytes "b") 1 [] true 0,
        .returnClient (some 0) 5, .getClient (bytes "a") 1 [] true 0]).isSome := by decide
  obtain ⟨t, ht⟩ := Option.isSome_iff_exists.mp h
  exact ⟨t, runs_of_exec ht, clients_lent_once (runs_of_exec ht)⟩

/-- A pool of one slot, lent, grows to two: the loop starts one index too low, files the lent
slot as free, and the next host is handed the same client. -/
theorem grown_pool_lends_twice : ∃ t, Runs System.step (fun _ op => op.NotReserved)
    .new [.setClientCnt 1, .getClient (bytes "a") 1 [] true 0, .setClientCnt 2,
      .getClient (bytes "b") 1 [] true 0] t ∧ ¬ (t.loans.Nodup ∧ ServesHost t.pool) := by
  have h : (exec System.step (fun _ op => op.NotReserved) .new
      [.setClientCnt 1, .getClient (bytes "a") 1 [] true 0, .setClientCnt 2,
        .getClient (bytes "b") 1 [] true 0]).map (·.loans) = some [0, 0] := by decide
  obtain ⟨t, ht, hl⟩ := Option.map_eq_some_iff.mp h
  refine ⟨t, runs_of_exec ht, ?_⟩
  intro hcase
  obtain ⟨hnd, -⟩ := hcase
  rw [hl] at hnd
  revert hnd
  decide

end CppPrivate.Redis
