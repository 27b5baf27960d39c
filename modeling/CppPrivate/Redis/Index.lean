import CppPrivate.Redis.Pool

/-! What each call of the Redis pool can do: its cases, the effect of its list operations
on the list of every host, and the rules by which its loops keep an invariant. -/
namespace CppPrivate.Redis
namespace CRedisClientPool
variable {s t : CRedisClientPool} {m : MapUseableHost} {host k : Bytes} {i x : Int}

theorem listAt_pushHost : listAt (pushHost m host i) k =
    if k = host then listAt m host ++ [i] else listAt m k := by
  unfold pushHost listAt
  split <;> simp_all

theorem listAt_pushFound : listAt (pushFound m host i) k =
    if k = host ∧ (m host).isSome then listAt m host ++ [i] else listAt m k := by
  unfold pushFound listAt
  by_cases hk : k = host
  · subst hk
    cases m k <;> simp
  · simp [hk]

theorem listAt_removeFound : listAt (removeFound m host i) k =
    if k = host then removeIndex (listAt m host) i else listAt m k := by
  unfold removeFound listAt
  by_cases hk : k = host
  · subst hk
    cases h : m k with
    | none => simp [removeIndex]
    | some l =>
      by_cases hl : removeIndex l i = []
      · simp [hl]
      · simp [hl]
  · simp [hk]

/-- A list that serves a host is the host's own, or the free list when the host has none. -/
theorem getUseableList_cases {key : Bytes} {l : ListUseableIndex}
    (h : s.getUseableList host = some (key, l)) :
    s.m_MapUseable key = some l ∧
      (key = host ∨ key = nullHost ∧ s.m_MapUseable host = none) := by
  rw [getUseableList] at h
  split at h
  · rename_i hn
    simp only [Option.map_eq_some_iff, Prod.mk.injEq] at h
    obtain ⟨l', hl, rfl, rfl⟩ := h
    exact ⟨hl, Or.inr ⟨rfl, hn⟩⟩
  · rename_i l' hl
    simp only [Option.some.injEq, Prod.mk.injEq] at h
    obtain ⟨rfl, rfl⟩ := h
    exact ⟨hl, Or.inl rfl⟩

theorem listAt_useable {key : Bytes} {l : ListUseableIndex}
    (h : s.getUseableList host = some (key, l)) : listAt s.m_MapUseable key = l := by
  simp [listAt, (getUseableList_cases h).1]

theorem listAt_popFront {key : Bytes} {rest : ListUseableIndex}
    (h : s.getUseableList host = some (key, i :: rest)) :
    listAt (popFront s.m_MapUseable host key rest) k =
      if k = key then rest else listAt s.m_MapUseable k := by
  obtain ⟨hm, hk⟩ := getUseableList_cases h
  unfold popFront listAt
  cases hk with
  | inl heq =>
    subst heq
    by_cases hkey : k = key
    · subst hkey
      by_cases hr : rest = [] <;> simp [hr]
    · simp [hkey]
  | inr hcase =>
    obtain ⟨rfl, hnone⟩ := hcase
    by_cases hh : k = host
    · subst hh
      have hne : k ≠ nullHost := by
        intro he
        subst he
        rw [hm] at hnone
        cases hnone
      by_cases hr : rest = [] <;> simp [hne, hr, hnone]
    · by_cases hkey : k = nullHost
      · subst hkey
        simp [hh]
      · simp [hh, hkey]

/-- What `getClient` and `getClusterClient` can do: nothing, or hand out the client of the
slot at the head of the list, new or found there. -/
theorem takeClient_cases {client : CRedisClient} {connected : Bool} {now : UInt64}
    {r : CRedisClientPool × Option Nat} (h : s.takeClient host client connected now = some r) :
    r = (s, none) ∨ ∃ key i rest, s.getUseableList host = some (key, i :: rest) ∧
      ((at? s.m_VecClient i = some none ∧
          r = (s.handNew host key rest i client now, some s.heap.next)) ∨
        ∃ p c, at? s.m_VecClient i = some (some p) ∧ s.heap.cell p = some c ∧
          r = (s.handFound host key rest i p, some p)) := by
  rw [takeClient] at h
  split at h
  · exact Or.inl (Option.some.inj h).symm
  · exact Or.inl (Option.some.inj h).symm
  · rename_i key i rest hl
    split at h
    · exact Or.inl (Option.some.inj h).symm
    · rename_i hslot
      split at h
      · exact Or.inr ⟨key, i, rest, hl, Or.inl ⟨hslot, (Option.some.inj h).symm⟩⟩
      · exact Or.inl (Option.some.inj h).symm
    · rename_i p hslot
      obtain ⟨c, hc, hr⟩ := Option.map_eq_some_iff.mp h
      exact Or.inr ⟨key, i, rest, hl, Or.inr ⟨p, c, hslot, hc, hr.symm⟩⟩

theorem reapSlot_cases {now : Nat → UInt64} {ping : Nat → Bool} {n : Nat}
    (h : reapSlot now ping s n = some t) :
    t = s ∨ ∃ p c, s.m_VecClient[n]? = some (some p) ∧ s.heap.cell p = some c ∧
      s.expired c (now n) (ping n) = true ∧ t = s.reap n p c := by
  rw [reapSlot] at h
  split at h
  · rename_i p hslot
    obtain ⟨c, hc, hr⟩ := Option.map_eq_some_iff.mp h
    split at hr
    · rename_i he
      exact Or.inr ⟨p, c, hslot, hc, he, hr.symm⟩
    · exact Or.inl hr.symm
  · exact Or.inl (Option.some.inj h).symm

/-- The loop over the slots keeps what the work on one slot keeps. -/
theorem reapLoop_invariant (I : CRedisClientPool → Prop) {now : Nat → UInt64} {ping : Nat → Bool}
    (hI : ∀ s n p c, I s → s.m_VecClient[n]? = some (some p) → s.heap.cell p = some c →
      s.expired c (now n) (ping n) = true → I (s.reap n p c))
    {slots : List Nat} (h : slots.foldlM (reapSlot now ping) s = some t) (hs : I s) : I t := by
  refine Run.foldlM_invariant I ?_ h hs
  intro u n v hu hv
  cases reapSlot_cases hv with
  | inl heq =>
    subst heq
    exact hu
  | inr hcase =>
    obtain ⟨p, c, hp, hc, he, rfl⟩ := hcase
    exact hI u n p c hu hp hc he

/-- One turn of the loop that shortens the vector drops the last slot, free or with its idle
client, or finds its client on loan. -/
theorem popTail_cases {countOff : Bool} {r : CRedisClientPool × Bool}
    (hpos : 0 < s.m_VecClient.length) (h : popTail countOff s = some r) :
    (s.m_VecClient[s.m_VecClient.length - 1]? = some none ∧ r = (s.dropFree, true)) ∨
    ∃ p c, s.m_VecClient[s.m_VecClient.length - 1]? = some (some p) ∧ s.heap.cell p = some c ∧
      (r = (s, false) ∨ c.m_Used = false ∧ r = (s.dropIdle countOff p c, true)) := by
  rw [popTail] at h
  split at h
  · rename_i p hp
    obtain ⟨c, hc, rfl⟩ := Option.map_eq_some_iff.mp h
    refine Or.inr ⟨p, c, hp, hc, ?_⟩
    cases hu : c.m_Used with
    | true => exact Or.inl rfl
    | false => exact Or.inr ⟨rfl, rfl⟩
  · rename_i hslot
    refine Or.inl ⟨?_, (Option.some.inj h).symm⟩
    have hlt : s.m_VecClient.length - 1 < s.m_VecClient.length := by omega
    rw [List.getElem?_eq_getElem hlt] at hslot ⊢
    cases hv : s.m_VecClient[s.m_VecClient.length - 1] with
    | none => rfl
    | some p => exact absurd (congrArg some hv) (hslot p)

/-- The loop that shortens the vector keeps what one turn keeps. -/
theorem shrinkLoop_invariant (I : CRedisClientPool → Prop) {countOff : Bool} {target fuel : Nat}
    (hfree : ∀ s, I s → target < s.m_VecClient.length →
      s.m_VecClient[s.m_VecClient.length - 1]? = some none → I s.dropFree)
    (hidle : ∀ s p c, I s → target < s.m_VecClient.length →
      s.m_VecClient[s.m_VecClient.length - 1]? = some (some p) → s.heap.cell p = some c →
      c.m_Used = false → I (s.dropIdle countOff p c))
    (h : shrinkLoop countOff target fuel s = some t) (hs : I s) : I t := by
  induction fuel generalizing s with
  | zero => exact (Option.some.inj h) ▸ hs
  | succ fuel ih =>
    rw [shrinkLoop] at h
    split at h
    · rename_i hlt
      cases hr : popTail countOff s with
      | none => simp [hr] at h
      | some r =>
        simp only [hr] at h
        rcases popTail_cases (by omega) hr with ⟨hv, rfl⟩ | ⟨p, c, hv, hc, rfl | ⟨hu, rfl⟩⟩
        · exact ih h (hfree s hs hlt hv)
        · exact Option.some.inj h ▸ hs
        · exact ih h (hidle s p c hs hlt hv hc hu)
    · exact (Option.some.inj h) ▸ hs

/-- A vector that is no longer than asked for stays as it is. -/
theorem shrink_of_le {countOff : Bool} {target : Nat} (h : s.m_VecClient.length ≤ target) :
    s.shrink countOff target = some s := by
  rw [shrink]
  cases hlen : s.m_VecClient.length with
  | zero => rfl
  | succ fuel =>
    rw [shrinkLoop]
    rw [if_neg (by omega)]

/-- It is defined when every slot it finds holds a live client. -/
theorem shrinkLoop_isSome (I : CRedisClientPool → Prop) {countOff : Bool} {target fuel : Nat}
    (hlive : ∀ s (n p : Nat), I s → s.m_VecClient[n]? = some (some p) → (s.heap.cell p).isSome)
    (hfree : ∀ s, I s → s.m_VecClient[s.m_VecClient.length - 1]? = some none → I s.dropFree)
    (hidle : ∀ s p c, I s → s.m_VecClient[s.m_VecClient.length - 1]? = some (some p) →
      s.heap.cell p = some c → c.m_Used = false → I (s.dropIdle countOff p c))
    (hs : I s) : (shrinkLoop countOff target fuel s).isSome := by
  induction fuel generalizing s with
  | zero => rfl
  | succ fuel ih =>
    rw [shrinkLoop]
    split
    · have hdef : (popTail countOff s).isSome := by
        rw [popTail]
        split
        · rename_i p hp
          simpa using hlive s _ p hs hp
        · rfl
      obtain ⟨r, hr⟩ := Option.isSome_iff_exists.mp hdef
      rw [hr]
      rcases popTail_cases (by omega) hr with ⟨hv, rfl⟩ | ⟨p, c, hv, hc, rfl | ⟨hu, rfl⟩⟩
      · exact ih (hfree s hs hv)
      · rfl
      · exact ih (hidle s p c hs hv hc hu)
    · rfl

/-- A call that sets the number of slots does nothing, grows the pool or shrinks it. -/
theorem setClientCnt_cases {nCnt : UInt32} (h : s.setClientCnt nCnt = some t) :
    t = s ∨
    (s.m_nCurClientCnt < nCnt ∧ t = { s with
      m_MapUseable := (growRange s.m_nCurClientCnt nCnt).foldl pushFree s.m_MapUseable
      m_VecClient := s.m_VecClient ++ List.replicate (s.nTmp nCnt).toNat none
      m_nCurClientCnt := nCnt }) ∨
    (nCnt ≤ s.m_nCurClientCnt ∧ ∃ u, s.shrink false nCnt.toNat = some u ∧
      t = { u with m_nCurClientCnt := nCnt }) := by
  rw [setClientCnt] at h
  split at h
  · exact Or.inl (Option.some.inj h).symm
  · split at h
    · rename_i hlt
      exact Or.inr (Or.inl ⟨hlt, (Option.some.inj h).symm⟩)
    · rename_i hle
      obtain ⟨u, hu, ht⟩ := Option.map_eq_some_iff.mp h
      exact Or.inr (Or.inr ⟨UInt32.not_lt.mp hle, u, hu, ht.symm⟩)

theorem setTimeout_eq (s : CRedisClientPool) (nTimeout : UInt32) :
    ∃ n, s.setTimeout nTimeout = { s with m_nCurTimeout := n } := by
  rw [setTimeout]
  split
  · exact ⟨s.m_nCurTimeout, rfl⟩
  · exact ⟨nTimeout, rfl⟩

section Grow
variable {slots : List Nat}

theorem pushFree_of_ne (hk : k ≠ nullHost) {n : Nat} : pushFree m n k = m k := by
  rw [pushFree]
  cases m nullHost with
  | none => rfl
  | some l => by_cases hl : cInt n ∈ l <;> simp [hl, pushFound, hk]

theorem grow_of_ne (hk : k ≠ nullHost) : slots.foldl pushFree m k = m k := by
  induction slots generalizing m with
  | nil => rfl
  | cons n slots ih => rw [List.foldl_cons, ih, pushFree_of_ne hk]

theorem pushFree_isSome {n : Nat} : (pushFree m n nullHost).isSome = (m nullHost).isSome := by
  rw [pushFree]
  cases h : m nullHost with
  | none => simp [h]
  | some l => by_cases hl : cInt n ∈ l <;> simp [hl, pushFound, h]

theorem mem_pushFree {n : Nat} : x ∈ listAt (pushFree m n) nullHost ↔
    x ∈ listAt m nullHost ∨ (m nullHost).isSome ∧ x = cInt n := by
  rw [pushFree]
  cases h : m nullHost with
  | none => simp
  | some l =>
    by_cases hl : cInt n ∈ l
    · have hm : listAt m nullHost = l := by simp [listAt, h]
      simp only [hl, if_true, hm, Option.isSome_some, true_and]
      exact ⟨Or.inl, fun hx => hx.elim id fun he => he ▸ hl⟩
    · simp [hl, listAt_pushFound, h]

/-- The growing loop adds exactly the indices it visits, when there is a free list. -/
theorem mem_grow : x ∈ listAt (slots.foldl pushFree m) nullHost ↔
    x ∈ listAt m nullHost ∨ (m nullHost).isSome ∧ ∃ n ∈ slots, x = cInt n := by
  induction slots generalizing m with
  | nil => simp
  | cons n slots ih =>
    rw [List.foldl_cons, ih, mem_pushFree, pushFree_isSome, or_assoc, ← and_or_left]
    simp only [List.mem_cons, exists_eq_or_imp]

theorem nodup_grow (h : (listAt m nullHost).Nodup) :
    (listAt (slots.foldl pushFree m) nullHost).Nodup := by
  induction slots generalizing m with
  | nil => exact h
  | cons n slots ih =>
    rw [List.foldl_cons]
    apply ih
    rw [pushFree]
    cases hm : m nullHost with
    | none => exact h
    | some l =>
      by_cases hl : cInt n ∈ l
      · simpa [hl] using h
      · have he : listAt m nullHost = l := by simp [listAt, hm]
        simp only [hl, if_false, listAt_pushFound, hm, Option.isSome_some, and_self, if_true, he]
        simpa using List.Nodup.concat hl (he ▸ h)

end Grow

theorem mem_growRange {nCur nCnt : UInt32} {n : Nat} (h0 : 0 < nCur.toNat) :
    n ∈ growRange nCur nCnt ↔ nCur.toNat - 1 ≤ n ∧ n < nCnt.toNat := by
  have hc := nCur.toNat_lt
  have h1 : (nCur - 1).toNat = nCur.toNat - 1 := by
    rw [UInt32.toNat_sub]
    change (2 ^ 32 - 1 + nCur.toNat) % 2 ^ 32 = _
    omega
  simp only [growRange, List.mem_range'_1, h1]
  omega

end CRedisClientPool
end CppPrivate.Redis
