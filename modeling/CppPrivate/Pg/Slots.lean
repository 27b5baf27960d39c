import CppPrivate.Pg.Calls

/-! The slots of the connection pool are divided between the free list, the idle lists and
the borrowers, as long as no broken connection comes back: returning one deletes its item but
leaves the slot pointing at it. -/
namespace CppPrivate.Pg
open Run CPGConnectionPool

/-- The item of every slot is idle under its key or on loan, the free list holds the empty
slots, and nothing is filed twice. -/
structure Divided (s : CPGConnectionPool) (loans : List Nat) : Prop where
  slot : ∀ (n p : Nat), s.m_vecConnPool[n]? = some (some p) → ∃ item, s.heap.cell p = some item ∧
    item.nPoolIndex = n ∧ n < 2 ^ 31 ∧
    ((item.eState = .eConn_Unused ∧ (n : Int) ∈ idleAt s.m_mapUseableConn item.sKey ∧ p ∉ loans) ∨
      (item.eState = .eConn_Used ∧ p ∈ loans))
  lent : ∀ p ∈ loans, ∃ n : Nat, s.m_vecConnPool[n]? = some (some p)
  once : loans.Nodup
  idle : ∀ k, ∀ x ∈ idleAt s.m_mapUseableConn k, ∃ p item,
    at? s.m_vecConnPool x = some (some p) ∧ s.heap.cell p = some item ∧ item.sKey = k ∧
    item.eState = .eConn_Unused
  idleNodup : ∀ k, (idleAt s.m_mapUseableConn k).Nodup
  free : ∀ x ∈ s.m_listUseableConn, ∃ n : Nat, x = cInt n ∧ s.m_vecConnPool[n]? = some none
  freeNodup : s.m_listUseableConn.Nodup
  empty : ∀ n : Nat, s.m_vecConnPool[n]? = some none → cInt n ∈ s.m_listUseableConn
  size : s.m_vecConnPool.length < 2 ^ 32

namespace Divided
variable {s : CPGConnectionPool} {loans : List Nat} {n p : Nat} {item : ConnItem} {x : Int}

theorem slot_inj (h : Divided s loans) {m n p : Nat} (hm : s.m_vecConnPool[m]? = some (some p))
    (hn : s.m_vecConnPool[n]? = some (some p)) : m = n := by
  refine s.heap.place_inj (·.nPoolIndex) (fun n p hp => ?_) hm hn
  obtain ⟨item, hc, hi, -⟩ := h.slot n p hp
  exact ⟨item, hc, hi⟩

theorem at_inj (h : Divided s loans) {x y : Int} (hx : at? s.m_vecConnPool x = some (some p))
    (hy : at? s.m_vecConnPool y = some (some p)) : x = y :=
  at?_inj h.slot_inj hx hy

/-- The item of an idle slot has the key of its list and is unused. -/
theorem idle_item (h : Divided s loans) {key : Bytes} {x : Int}
    (hx : x ∈ idleAt s.m_mapUseableConn key) (hat : at? s.m_vecConnPool x = some (some p))
    (hc : s.heap.cell p = some item) : item.sKey = key ∧ item.eState = .eConn_Unused := by
  obtain ⟨q, d, hq, hd, hkey, hst⟩ := h.idle key x hx
  rw [hat] at hq
  cases hq
  rw [hc] at hd
  cases hd
  exact ⟨hkey, hst⟩

/-- The item of a slot knows its index, and is with no borrower while it is unused. -/
theorem unused (h : Divided s loans) (hv : s.m_vecConnPool[n]? = some (some p))
    (hc : s.heap.cell p = some item) (hst : item.eState = .eConn_Unused) :
    item.nPoolIndex = n ∧ n < 2 ^ 31 ∧ p ∉ loans := by
  obtain ⟨item', hc', hidx, hlt, hown⟩ := h.slot n p hv
  rw [hc] at hc'
  cases hc'
  refine ⟨hidx, hlt, ?_⟩
  cases hown with
  | inl hcase =>
    obtain ⟨-, -, ho⟩ := hcase
    exact ho
  | inr hcase =>
    obtain ⟨hused, -⟩ := hcase
    rw [hst] at hused
    cases hused

/-- Only a free slot is in the free list. -/
theorem free_iff (h : Divided s loans) (hlt : n < 2 ^ 31) :
    (n : Int) ∈ s.m_listUseableConn ↔ s.m_vecConnPool[n]? = some none := by
  constructor
  · intro hm
    obtain ⟨m, he, hv⟩ := h.free _ hm
    have hml := (List.getElem?_eq_some_iff.mp hv).1
    have hsize := h.size
    have : m = n := cInt_inj (by omega) (by omega) (by rw [← he, cInt_of_lt hlt])
    exact this ▸ hv
  · intro hv
    exact cInt_of_lt hlt ▸ h.empty n hv

theorem not_free (h : Divided s loans) (hv : s.m_vecConnPool[n]? = some (some p)) :
    (n : Int) ∉ s.m_listUseableConn := by
  intro hm
  obtain ⟨item, -, -, hlt, -⟩ := h.slot n p hv
  have := (h.free_iff hlt).mp hm
  rw [hv] at this
  cases this

theorem new (nUsed : UInt32) : Divided (CPGConnectionPool.new nUsed) [] where
  slot := by
    intro n p hp
    have := List.getElem?_eq_some_iff.mp hp
    simp [CPGConnectionPool.new] at this
  lent := by simp
  once := List.nodup_nil
  idle := by simp [CPGConnectionPool.new, idleAt]
  idleNodup := by simp [CPGConnectionPool.new, idleAt]
  free := by
    intro x hx
    obtain ⟨n, hn, he⟩ := List.mem_map.mp hx
    have hlt : n < m_nDefaultConnectionCnt.toNat := List.mem_range.mp hn
    refine ⟨n, he.symm, ?_⟩
    simp only [CPGConnectionPool.new]
    rw [List.getElem?_replicate, if_pos hlt]
  freeNodup := by
    refine List.Nodup.map_on ?_ List.nodup_range
    intro a ha b hb he
    have h100 : m_nDefaultConnectionCnt.toNat = 100 := rfl
    rw [List.mem_range, h100] at ha hb
    exact cInt_inj (by omega) (by omega) he
  empty := by
    intro n hn
    have hlt : n < 100 := (List.getElem?_eq_some_iff.mp hn).1
    exact List.mem_map.mpr ⟨n, List.mem_range.mpr hlt, rfl⟩
  size := by
    simp only [CPGConnectionPool.new]
    decide

theorem takeIdle (h : Divided s loans) {key : Bytes} {i : Int} {rest : ListUseabledConnection}
    (hl : s.m_mapUseableConn key = some (i :: rest)) {r : CPGConnectionPool × Connection}
    (hr : s.takeIdle key i rest = some r) :
    Divided r.1 (r.2.pConnItem.toList ++ loans) := by
  have hlist : idleAt s.m_mapUseableConn key = i :: rest := idleAt_eq hl
  obtain ⟨p, item, hat, hc, hkey, hst⟩ := h.idle key i (by simp [hlist])
  simp only [CPGConnectionPool.takeIdle, hat, hc, Option.map_some, Option.some.injEq] at hr
  subst hr
  obtain ⟨hi0, hv⟩ := at?_eq_some.mp hat
  obtain ⟨hidx, hlt, hout⟩ := h.unused hv hc hst
  refine ⟨?_, ?_, List.nodup_cons.mpr ⟨hout, h.once⟩, ?_, nodup_idleAt_update hlist h.idleNodup,
    h.free, h.freeNodup, h.empty, h.size⟩
  · intro m q hq
    obtain ⟨d, hd, h1, h2, h3⟩ := h.slot m q hq
    by_cases hqp : q = p
    · subst hqp
      rw [hc] at hd
      cases hd
      exact ⟨_, Heap.modify_self _ hc, h1, h2, Or.inr ⟨rfl, by simp⟩⟩
    · refine ⟨d, by simp only [Heap.modify_of_ne _ hqp, hd], h1, h2, ?_⟩
      cases h3 with
      | inl hcase =>
        obtain ⟨hu, hm, ho⟩ := hcase
        refine Or.inl ⟨hu, ?_, by simp [hqp, ho]⟩
        simp only [idleAt_update]
        split
        · rename_i hk
          rw [hk, hlist] at hm
          refine (List.mem_cons.mp hm).resolve_left ?_
          intro he
          have : m = i.toNat := by omega
          subst this
          rw [hv] at hq
          cases hq
          exact hqp rfl
        · exact hm
      | inr hcase =>
        obtain ⟨hu, ho⟩ := hcase
        exact Or.inr ⟨hu, List.mem_cons_of_mem _ ho⟩
  · intro q hq
    cases List.mem_cons.mp hq with
    | inl heq =>
      subst heq
      exact ⟨_, hv⟩
    | inr hq => exact h.lent q hq
  · intro k x hx
    obtain ⟨hx, hne⟩ := mem_idleAt_update hlist (h.idleNodup key) hx
    obtain ⟨q, d, hq, hd, h1, h2⟩ := h.idle k x hx
    have hqp : q ≠ p := by
      intro hsame
      subst hsame
      rw [hc] at hd
      cases hd
      exact hne (h1.symm.trans hkey) (h.at_inj hq hat)
    exact ⟨q, d, hq, by simp only [Heap.modify_of_ne _ hqp, hd], h1, h2⟩

theorem install (h : Divided s loans) {r : Request} {a : Answer} {client : CPGClient} {i : Int}
    {rest : ListUseabledConnection} (hl : s.m_listUseableConn = i :: rest)
    (hi : at? s.m_vecConnPool i = some none) :
    Divided (s.install r a client i rest).1 (s.heap.next :: loans) := by
  obtain ⟨hi0, hv⟩ := at?_eq_some.mp hi
  have hlen := (List.getElem?_eq_some_iff.mp hv).1
  have hnd : (i :: rest).Nodup := hl ▸ h.freeNodup
  have hsize := h.size
  obtain ⟨n, he, hn⟩ := h.free i (by simp [hl])
  have hnlen := (List.getElem?_eq_some_iff.mp hn).1
  have hin : i = n := he.trans (cInt_eq_of_nonneg (by omega) (he ▸ hi0))
  have hlt : (n : Int) < 2 ^ 31 := hin ▸ he ▸ cInt_lt _
  subst hin
  have hset : ∀ m : Nat, n ≠ m → (s.install r a client n rest).1.m_vecConnPool[m]? =
      s.m_vecConnPool[m]? := fun m hm => List.getElem?_set_ne hm
  have hself : (s.install r a client n rest).1.m_vecConnPool[n]? = some (some s.heap.next) :=
    List.getElem?_set_self hnlen
  have hlive : ∀ {m q : Nat}, s.m_vecConnPool[m]? = some (some q) → q ≠ s.heap.next := by
    intro m q hq
    obtain ⟨d, hd, -⟩ := h.slot m q hq
    exact Heap.ne_next hd
  have hnew : s.heap.next ∉ loans := by
    intro hm
    obtain ⟨m, hm⟩ := h.lent _ hm
    exact hlive hm rfl
  refine ⟨?_, ?_, List.nodup_cons.mpr ⟨hnew, h.once⟩, ?_, h.idleNodup, ?_, ?_, ?_, ?_⟩
  · intro m q hq
    by_cases hm : n = m
    · subst hm
      rw [hself] at hq
      cases hq
      exact ⟨_, Heap.alloc_self _ _, rfl, by omega, Or.inr ⟨rfl, by simp⟩⟩
    · rw [hset m hm] at hq
      obtain ⟨d, hd, h1, h2, h3⟩ := h.slot m q hq
      refine ⟨d, Heap.alloc_of_live hd, h1, h2, ?_⟩
      cases h3 with
      | inl hcase =>
        obtain ⟨hu, hmem, ho⟩ := hcase
        exact Or.inl ⟨hu, hmem, by simp [ho, hlive hq]⟩
      | inr hcase =>
        obtain ⟨hu, ho⟩ := hcase
        exact Or.inr ⟨hu, List.mem_cons_of_mem _ ho⟩
  · intro q hq
    cases List.mem_cons.mp hq with
    | inl heq =>
      subst heq
      exact ⟨n, hself⟩
    | inr hq =>
      obtain ⟨m, hm⟩ := h.lent q hq
      exact ⟨m, getElem?_set_other hn hm (by simp)⟩
  · intro k x hx
    obtain ⟨q, d, hq, hd, h1, h2⟩ := h.idle k x hx
    exact ⟨q, d, at?_set_other hi hq (by simp), Heap.alloc_of_live hd, h1, h2⟩
  · intro x hx
    obtain ⟨m, hxm, hm⟩ := h.free x (by simp [hl]; exact Or.inr hx)
    refine ⟨m, hxm, ?_⟩
    rw [hset m, hm]
    intro hsame
    subst hsame
    exact (List.nodup_cons.mp hnd).1 (he ▸ hxm ▸ hx)
  · exact (List.nodup_cons.mp hnd).2
  · intro m hm
    obtain ⟨hnm, hv⟩ := of_getElem?_set hm (by simp)
    have hmem := h.empty m hv
    have hml := (List.getElem?_eq_some_iff.mp hv).1
    rw [hl] at hmem
    refine (List.mem_cons.mp hmem).resolve_left ?_
    intro heq
    simp only [Int.toNat_natCast] at hnm
    exact hnm (cInt_inj (by omega) (by omega) (he.symm.trans heq.symm))
  · simpa [CPGConnectionPool.install] using h.size

theorem getConnection (h : Divided s loans) {r : Request} {a : Answer}
    {u : CPGConnectionPool × Connection} (hu : s.getConnection r a = some u) :
    Divided u.1 (u.2.pConnItem.toList ++ loans) := by
  rcases getConnection_cases hu with ⟨he, hn⟩ | ⟨i, rest, hl, hu⟩ | ⟨i, rest, client, hl, hi, -, rfl⟩
  · rw [he, hn]
    exact h
  · exact h.takeIdle hl hu
  · exact h.install hl hi

theorem giveBack (h : Divided s loans) (hp : p ∈ loans) {now : UInt64} {t : CPGConnectionPool}
    (ht : s.returnConnection (some p) true now = some t) : Divided t (loans.erase p) := by
  obtain ⟨n, hn⟩ := h.lent p hp
  obtain ⟨item, hc, hidx, hlt, hown⟩ := h.slot n p hn
  have hused : item.eState = .eConn_Used := by
    cases hown with
    | inl hcase =>
      obtain ⟨-, -, ho⟩ := hcase
      exact absurd hp ho
    | inr hcase =>
      obtain ⟨hu, -⟩ := hcase
      exact hu
  have hat : at? s.m_vecConnPool item.nPoolIndex = some (some p) := by rw [hidx, at?_natCast, hn]
  have hnew : ∀ k, item.nPoolIndex ∉ idleAt s.m_mapUseableConn k := by
    intro k hk
    have hst := (h.idle_item hk hat hc).2
    rw [hused] at hst
    cases hst
  simp only [CPGConnectionPool.returnConnection, hc, Option.map_some, if_true, Option.some.injEq] at ht
  subst ht
  refine ⟨?_, fun q hq => h.lent q (List.mem_of_mem_erase hq), h.once.erase p, ?_,
    nodup_idleAt_append hnew h.idleNodup, h.free, h.freeNodup, h.empty, h.size⟩
  · intro m q hq
    obtain ⟨d, hd, h1, h2, h3⟩ := h.slot m q hq
    by_cases hqp : q = p
    · subst hqp
      rw [hc] at hd
      cases hd
      refine ⟨_, Heap.modify_self _ hc, h1, h2, Or.inl ⟨rfl, ?_, h.once.not_mem_erase⟩⟩
      simp only
      rw [idleAt_append, if_pos rfl]
      simp [h1]
    · refine ⟨d, by simp only [Heap.modify_of_ne _ hqp, hd], h1, h2, ?_⟩
      cases h3 with
      | inl hcase =>
        obtain ⟨hu, hm, ho⟩ := hcase
        refine Or.inl ⟨hu, ?_, fun hq' => ho (List.mem_of_mem_erase hq')⟩
        simp only
        rw [idleAt_append]
        split
        · exact List.mem_append_left _ hm
        · exact hm
      | inr hcase =>
        obtain ⟨hu, ho⟩ := hcase
        exact Or.inr ⟨hu, (List.mem_erase_of_ne hqp).mpr ho⟩
  · intro k x hx
    cases mem_idleAt_append hx with
    | inl hmem =>
      obtain ⟨q, d, hq, hd, h1, h2⟩ := h.idle k x hmem
      have hqp : q ≠ p := by
        intro heq
        subst heq
        exact hnew k (h.at_inj hq hat ▸ hmem)
      exact ⟨q, d, hq, by simp only [Heap.modify_of_ne _ hqp, hd], h1, h2⟩
    | inr hcase =>
      obtain ⟨rfl, rfl⟩ := hcase
      exact ⟨p, _, hat, Heap.modify_self _ hc, rfl, rfl⟩

/-- The sweep drops an idle item: it deletes it and empties its slot. -/
theorem drop (h : Divided s loans) (hn : s.m_vecConnPool[n]? = some (some p))
    (hc : s.heap.cell p = some item) (hst : item.eState = .eConn_Unused) :
    Divided { s.removeConnection p item with m_vecConnPool := s.m_vecConnPool.set n none } loans := by
  obtain ⟨hidx, hlt, hout⟩ := h.unused hn hc hst
  have hlen := (List.getElem?_eq_some_iff.mp hn).1
  have hsize := h.size
  have hat : at? s.m_vecConnPool (n : Int) = some (some p) := by rw [at?_natCast, hn]
  have hlist : ∀ {k x}, x ∈ idleAt (s.removeConnection p item).m_mapUseableConn k →
      x ∈ idleAt s.m_mapUseableConn k ∧ x ≠ n := by
    intro k x hx
    obtain ⟨hx, hne⟩ := mem_idleAt_remove hx
    refine ⟨hx, ?_⟩
    intro heq
    subst heq
    exact hne (h.idle_item hx hat hc).1.symm hidx.symm
  refine ⟨?_, ?_, h.once, ?_, ?_, ?_, ?_, ?_, ?_⟩
  · intro m q hq
    obtain ⟨hm, hv⟩ := of_getElem?_set hq (by simp)
    have hqp : q ≠ p := by
      intro heq
      subst heq
      exact hm (h.slot_inj hn hv)
    obtain ⟨d, hd, h1, h2, h3⟩ := h.slot m q hv
    refine ⟨d, by simp only [removeConnection, Heap.free_of_ne hqp, hd], h1, h2, h3.imp ?_ id⟩
    intro hcase
    obtain ⟨hu, hmem, ho⟩ := hcase
    refine ⟨hu, ?_, ho⟩
    simp only [removeConnection, idleAt_remove]
    split
    · exact mem_removeIndex.mpr ⟨hmem, by omega⟩
    · exact hmem
  · intro q hq
    obtain ⟨m, hm⟩ := h.lent q hq
    refine ⟨m, getElem?_set_other hn hm ?_⟩
    intro heq
    cases heq
    exact hout hq
  · intro k x hx
    obtain ⟨hx, hne⟩ := hlist hx
    obtain ⟨q, d, hq, hd, h1, h2⟩ := h.idle k x hx
    have hqp : q ≠ p := by
      intro heq
      subst heq
      exact hne (h.at_inj hq hat)
    refine ⟨q, d, at?_set_other hat hq ?_, ?_, h1, h2⟩
    · intro heq
      cases heq
      exact hqp rfl
    · simp only [removeConnection, Heap.free_of_ne hqp, hd]
  · intro k
    simp only [removeConnection, idleAt_remove]
    split
    · exact nodup_removeIndex (h.idleNodup k)
    · exact h.idleNodup k
  · intro x hx
    simp only [removeConnection, List.mem_append, List.mem_singleton] at hx
    cases hx with
    | inl hx =>
      obtain ⟨m, hxm, hm⟩ := h.free x hx
      exact ⟨m, hxm, getElem?_set_other hn hm (by simp)⟩
    | inr hx => exact ⟨n, by rw [hx, hidx, cInt_of_lt hlt], List.getElem?_set_self hlen⟩
  · have hnot := h.not_free hn
    simpa [removeConnection] using List.Nodup.concat (hidx ▸ hnot) h.freeNodup
  · intro m hm
    simp only [removeConnection, List.mem_append, List.mem_singleton]
    by_cases hnm : n = m
    · subst hnm
      exact Or.inr (by rw [hidx, cInt_of_lt hlt])
    · simp only at hm
      rw [List.getElem?_set_ne hnm] at hm
      exact Or.inl (h.empty m hm)
  · simpa using h.size

/-- A change that leaves the key, the index and the state of an item alone. -/
theorem touch (h : Divided s loans) {f : ConnItem → ConnItem}
    (hf : ∀ d, (f d).sKey = d.sKey ∧ (f d).nPoolIndex = d.nPoolIndex ∧ (f d).eState = d.eState) :
    Divided { s with heap := s.heap.modify p f } loans := by
  have hmod : ∀ {q d}, s.heap.cell q = some d → ∃ d', (s.heap.modify p f).cell q = some d' ∧
      d'.sKey = d.sKey ∧ d'.nPoolIndex = d.nPoolIndex ∧ d'.eState = d.eState := by
    intro q d hd
    by_cases hqp : q = p
    · subst hqp
      exact ⟨f d, Heap.modify_self f hd, hf d⟩
    · exact ⟨d, by rw [Heap.modify_of_ne f hqp, hd], rfl, rfl, rfl⟩
  refine ⟨?_, h.lent, h.once, ?_, h.idleNodup, h.free, h.freeNodup, h.empty, h.size⟩
  · intro m q hq
    obtain ⟨d, hd, h1, h2, h3⟩ := h.slot m q hq
    obtain ⟨d', hd', e1, e2, e3⟩ := hmod hd
    exact ⟨d', hd', by rw [e2, h1], h2, by rw [e1, e3]; exact h3⟩
  · intro k x hx
    obtain ⟨q, d, hq, hd, h1, h2⟩ := h.idle k x hx
    obtain ⟨d', hd', e1, -, e3⟩ := hmod hd
    exact ⟨q, d', hq, hd', by rw [e1, h1], by rw [e3, h2]⟩

theorem checkConnection (h : Divided s loans) {answers : Nat → Check} {t : CPGConnectionPool}
    (ht : s.checkConnection answers = some t) : Divided t loans := by
  refine foldlM_invariant (Divided · loans) ?_ ht h
  intro u n v hu hv
  rcases checkSlot_cases hv with rfl | ⟨p, item, hn, hc, hst, rfl | rfl⟩
  · exact hu
  · exact hu.drop hn hc hst
  · exact hu.touch fun d => ⟨rfl, rfl, rfl⟩

theorem mem_growRange {nMax nCount : UInt32} {m : Nat} (hlt : nMax < nCount) :
    m ∈ growRange nMax nCount ↔ nMax.toNat ≤ m ∧ m < nCount.toNat := by
  rw [UInt32.lt_iff_toNat_lt] at hlt
  simp only [growRange, List.mem_range'_1]
  omega

/-- The pool may grow as long as it has not grown yet: the new indices then follow the old. -/
theorem grow (h : Divided s loans) {nCount : UInt32}
    (hg : s.m_nMaxConnectionCnt < nCount → s.m_vecConnPool.length = s.m_nMaxConnectionCnt.toNat) :
    Divided (s.setMaxConnectionCnt nCount) loans := by
  rw [setMaxConnectionCnt]
  split
  · rename_i hlt
    have hlen := hg hlt
    have hcount := nCount.toNat_lt
    have hmax := s.m_nMaxConnectionCnt.toNat_lt
    have hnone : ∀ {m : Nat} {a : Option Nat}, (s.m_vecConnPool ++
        (growRange s.m_nMaxConnectionCnt nCount).map fun _ => none)[m]? = some a →
        s.m_vecConnPool[m]? = some a ∨ a = none ∧ m ∈ growRange s.m_nMaxConnectionCnt nCount := by
      intro m a ha
      have hm := (List.getElem?_eq_some_iff.mp ha).1
      rw [List.length_append, List.length_map] at hm
      rw [List.getElem?_append] at ha
      split at ha
      · exact Or.inl ha
      · obtain ⟨-, -, he⟩ := List.mem_map.mp (List.mem_of_getElem? ha)
        refine Or.inr ⟨he.symm, ?_⟩
        rw [mem_growRange hlt]
        simp only [growRange, List.length_range'] at hm
        omega
    have hold : ∀ {m : Nat} {a : Option Nat}, s.m_vecConnPool[m]? = some a → (s.m_vecConnPool ++
        (growRange s.m_nMaxConnectionCnt nCount).map fun _ => none)[m]? = some a := by
      intro m a ha
      rw [List.getElem?_append_left (List.getElem?_eq_some_iff.mp ha).1, ha]
    refine ⟨?_, ?_, h.once, ?_, h.idleNodup, ?_, ?_, ?_, ?_⟩
    · intro m q hq
      cases hnone hq with
      | inl hq => exact h.slot m q hq
      | inr hcase =>
        obtain ⟨he, -⟩ := hcase
        cases he
    · intro q hq
      obtain ⟨m, hm⟩ := h.lent q hq
      exact ⟨m, hold hm⟩
    · intro k x hx
      obtain ⟨q, d, hq, hrest⟩ := h.idle k x hx
      exact ⟨q, d, at?_append _ hq, hrest⟩
    · intro x hx
      cases List.mem_append.mp hx with
      | inl hx =>
        obtain ⟨m, hxm, hm⟩ := h.free x hx
        exact ⟨m, hxm, hold hm⟩
      | inr hx =>
        obtain ⟨m, hm, he⟩ := List.mem_map.mp hx
        have hr := (mem_growRange hlt).mp hm
        refine ⟨m, he.symm, ?_⟩
        have hml : m - s.m_vecConnPool.length < (growRange s.m_nMaxConnectionCnt nCount).length := by
          simp only [growRange, List.length_range']
          omega
        rw [List.getElem?_append_right (by omega), List.getElem?_map,
          List.getElem?_eq_getElem hml]
        rfl
    · refine List.nodup_append.mpr ⟨h.freeNodup, ?_, ?_⟩
      · refine List.Nodup.map_on ?_ List.nodup_range'
        intro a ha b hb he
        have ha := (mem_growRange hlt).mp ha
        have hb := (mem_growRange hlt).mp hb
        exact cInt_inj (by omega) (by omega) he
      · intro x hx y hy he
        obtain ⟨m, hxm, hm⟩ := h.free x hx
        obtain ⟨m', hm', hy⟩ := List.mem_map.mp hy
        have hr := (mem_growRange hlt).mp hm'
        have hml := (List.getElem?_eq_some_iff.mp hm).1
        have := cInt_inj (m := m) (n := m') (by omega) (by omega) (by rw [← hxm, hy, he])
        omega
    · intro m hm
      cases hnone hm with
      | inl hm => exact List.mem_append_left _ (h.empty m hm)
      | inr hcase =>
        obtain ⟨-, hm⟩ := hcase
        exact List.mem_append_right _ (List.mem_map.mpr ⟨m, hm, rfl⟩)
    · simp only [List.length_append, List.length_map, growRange, List.length_range']
      omega
  · exact h

end Divided

/-- An item is returned by a borrower that holds it. -/
def Borrowed (s : System) : Op → Prop
  | .returnConnection (some p) _ _ => p ∈ s.loans
  | _ => True

/-- A connection that comes back is not broken. -/
def Op.Healthy : Op → Prop
  | .returnConnection (some _) status _ => status = true
  | _ => True

/-- The pool grows once at most: a call that would enlarge it finds it at its initial size. -/
def GrowsOnce (s : System) : Op → Prop
  | .setMaxConnectionCnt nCount => s.pool.m_nMaxConnectionCnt < nCount →
      s.pool.m_vecConnPool.length = s.pool.m_nMaxConnectionCnt.toNat
  | _ => True

instance (s : System) : (op : Op) → Decidable (Borrowed s op)
  | .returnConnection (some p) _ _ => inferInstanceAs (Decidable (p ∈ s.loans))
  | .returnConnection none _ _ | .getConnection .. | .checkConnection .. | .setMaxConnectionCnt ..
  | .setTimeout .. => inferInstanceAs (Decidable True)

instance : (op : Op) → Decidable op.Healthy
  | .returnConnection (some _) status _ => inferInstanceAs (Decidable (status = true))
  | .returnConnection none _ _ | .getConnection .. | .checkConnection .. | .setMaxConnectionCnt ..
  | .setTimeout .. => inferInstanceAs (Decidable True)

theorem Divided.step {s t : System} {op : Op} (h : Divided s.pool s.loans) (hb : Borrowed s op)
    (hh : op.Healthy) (hg : GrowsOnce s op) (hs : s.step op = some t) :
    Divided t.pool t.loans := by
  cases op with
  | getConnection r a =>
    obtain ⟨u, hu, rfl⟩ := Option.map_eq_some_iff.mp hs
    exact h.getConnection hu
  | returnConnection pConnItem status now =>
    obtain ⟨u, hu, rfl⟩ := Option.map_eq_some_iff.mp hs
    cases pConnItem with
    | none =>
      cases hu
      exact h
    | some p =>
      have hst : status = true := hh
      subst hst
      exact h.giveBack hb hu
  | checkConnection answers =>
    obtain ⟨u, hu, rfl⟩ := Option.map_eq_some_iff.mp hs
    exact h.checkConnection hu
  | setMaxConnectionCnt nCount =>
    cases hs
    exact h.grow hg
  | setTimeout nTimeout =>
    cases hs
    exact ⟨h.slot, h.lent, h.once, h.idle, h.idleNodup, h.free, h.freeNodup, h.empty, h.size⟩

/-- Slot `i` is empty, and its index is in the free list once and nowhere else. -/
def IsFree (s : System) (i : Nat) : Prop :=
  s.pool.m_vecConnPool[i]? = some none ∧ s.pool.m_listUseableConn.count (i : Int) = 1 ∧
    ∀ k, (i : Int) ∉ idleAt s.pool.m_mapUseableConn k

/-- Slot `i` holds a live unused item, and its index is in the idle list of the item's key
once and nowhere else. -/
def IsIdle (s : System) (i : Nat) : Prop :=
  ∃ p item, s.pool.m_vecConnPool[i]? = some (some p) ∧ s.pool.heap.cell p = some item ∧
    item.eState = .eConn_Unused ∧ (idleAt s.pool.m_mapUseableConn item.sKey).count (i : Int) = 1 ∧
    (∀ k, k ≠ item.sKey → (i : Int) ∉ idleAt s.pool.m_mapUseableConn k) ∧
    (i : Int) ∉ s.pool.m_listUseableConn ∧ p ∉ s.loans

/-- Slot `i` holds a live used item with one borrower, and its index is in no list. -/
def IsLent (s : System) (i : Nat) : Prop :=
  ∃ p item, s.pool.m_vecConnPool[i]? = some (some p) ∧ s.pool.heap.cell p = some item ∧
    item.eState = .eConn_Used ∧ s.loans.count p = 1 ∧
    (∀ k, (i : Int) ∉ idleAt s.pool.m_mapUseableConn k) ∧ (i : Int) ∉ s.pool.m_listUseableConn

/-- Slot `i` is in exactly one of the three situations. -/
def InOneSituation (s : System) (i : Nat) : Prop :=
  (IsFree s i ∧ ¬ IsIdle s i ∧ ¬ IsLent s i) ∨ (¬ IsFree s i ∧ IsIdle s i ∧ ¬ IsLent s i) ∨
    (¬ IsFree s i ∧ ¬ IsIdle s i ∧ IsLent s i)

def NoDangling (s : System) : Prop :=
  ∀ i p : Nat, s.pool.m_vecConnPool[i]? = some (some p) → (s.pool.heap.cell p).isSome

theorem inOneSituation_of_some {s : System} {i : Nat} (h : IsFree s i ∨ IsIdle s i ∨ IsLent s i) :
    InOneSituation s i := by
  have h1 : IsFree s i → ¬ IsIdle s i := by
    intro hcase hother
    obtain ⟨ha, -⟩ := hcase
    obtain ⟨p, item, hb, -⟩ := hother
    rw [ha] at hb
    cases hb
  have h2 : IsFree s i → ¬ IsLent s i := by
    intro hcase hother
    obtain ⟨ha, -⟩ := hcase
    obtain ⟨p, item, hb, -⟩ := hother
    rw [ha] at hb
    cases hb
  have h3 : IsIdle s i → ¬ IsLent s i := by
    intro hcase hother
    obtain ⟨p, item, hp, hc, hst, -⟩ := hcase
    obtain ⟨q, item', hq, hc', hst', -⟩ := hother
    rw [hp] at hq
    cases hq
    rw [hc] at hc'
    cases hc'
    rw [hst] at hst'
    cases hst'
  rcases h with h | h | h
  · exact Or.inl ⟨h, h1 h, h2 h⟩
  · exact Or.inr (Or.inl ⟨fun hf => h1 hf h, h, h3 h⟩)
  · exact Or.inr (Or.inr ⟨fun hf => h2 hf h, fun hi => h3 hi h, h⟩)

theorem Divided.situation {s : System} (h : Divided s.pool s.loans) {i : Nat} (hi : i < 2 ^ 31)
    (hlen : i < s.pool.m_vecConnPool.length) : InOneSituation s i := by
  apply inOneSituation_of_some
  cases hv : s.pool.m_vecConnPool[i]? with
  | none =>
    have := List.getElem?_eq_none_iff.mp hv
    omega
  | some slot =>
    cases slot with
    | none =>
      refine Or.inl ⟨hv, List.count_eq_one_of_mem h.freeNodup ((h.free_iff hi).mpr hv), ?_⟩
      intro k hk
      obtain ⟨p, item, hp, -⟩ := h.idle k _ hk
      rw [at?_natCast, hv] at hp
      cases hp
    | some p =>
      obtain ⟨item, hc, -, -, hown⟩ := h.slot i p hv
      have hother : ∀ k, (i : Int) ∈ idleAt s.pool.m_mapUseableConn k →
          k = item.sKey ∧ item.eState = .eConn_Unused := by
        intro k hk
        have hat : at? s.pool.m_vecConnPool (i : Int) = some (some p) := by rw [at?_natCast, hv]
        obtain ⟨hkey, hst⟩ := h.idle_item hk hat hc
        exact ⟨hkey.symm, hst⟩
      cases hown with
      | inl hcase =>
        obtain ⟨hst, hmem, hout⟩ := hcase
        exact Or.inr (Or.inl ⟨p, item, hv, hc, hst, List.count_eq_one_of_mem (h.idleNodup _) hmem,
          fun k hk hm => hk (hother k hm).1, h.not_free hv, hout⟩)
      | inr hcase =>
        obtain ⟨hst, hin⟩ := hcase
        refine Or.inr (Or.inr ⟨p, item, hv, hc, hst, List.count_eq_one_of_mem h.once hin, ?_,
          h.not_free hv⟩)
        intro k hk
        have := (hother k hk).2
        rw [hst] at this
        cases this

theorem Divided.noDangling {s : System} (h : Divided s.pool s.loans) : NoDangling s := by
  intro i p hp
  obtain ⟨item, hc, -⟩ := h.slot i p hp
  simp [hc]

/-- The calls of borrowers on a pool of constant size. -/
def Plain (s : System) (op : Op) : Prop := Borrowed s op ∧ op.KeepsSize

instance (s : System) (op : Op) : Decidable (Plain s op) :=
  inferInstanceAs (Decidable (Borrowed s op ∧ op.KeepsSize))

theorem growsOnce_of_keepsSize {s : System} {op : Op} (h : op.KeepsSize) : GrowsOnce s op := by
  cases op <;> first | exact trivial | exact h.elim

/-- As long as no broken connection is returned, every slot is free, idle under its own key
or on loan, and none is left pointing at a deleted item. -/
theorem slots_divided {nUsed : UInt32} {ops : List Op} {t : System}
    (h : Runs System.step (fun s op => Plain s op ∧ op.Healthy) (.new nUsed) ops t) :
    (∀ i < t.pool.m_vecConnPool.length, InOneSituation t i) ∧ NoDangling t := by
  have hlen : Divided t.pool t.loans ∧ t.pool.m_vecConnPool.length = 100 := by
    refine h.invariant (fun s => Divided s.pool s.loans ∧ s.pool.m_vecConnPool.length = 100)
      ⟨Divided.new nUsed, rfl⟩ ?_
    intro s op u hcase hother hs
    obtain ⟨hd, hlen⟩ := hcase
    obtain ⟨⟨hb, hk⟩, hh⟩ := hother
    exact ⟨hd.step hb hh (growsOnce_of_keepsSize hk) hs, ((size_step hs).2 hk).trans hlen⟩
  exact ⟨fun i hi => hlen.1.situation (by omega) hi, hlen.1.noDangling⟩

/-- A connection is taken, comes back healthy and times out. -/
theorem slots_divided_swept : ∃ t, Runs System.step (fun s op => Plain s op ∧ op.Healthy) (.new 0)
    [.getConnection ⟨bytes "h", bytes "1", [], [], [], 10, 0⟩ ⟨true, [], 5, 5⟩,
      .returnConnection (some 0) true 6, .checkConnection fun _ => ⟨99, .ok, true⟩] t ∧
    (∀ i < t.pool.m_vecConnPool.length, InOneSituation t i) ∧ NoDangling t := by
  have h : (exec System.step (fun s op => Plain s op ∧ op.Healthy) (.new 0)
      [.getConnection ⟨bytes "h", bytes "1", [], [], [], 10, 0⟩ ⟨true, [], 5, 5⟩,
        .returnConnection (some 0) true 6, .checkConnection fun _ => ⟨99, .ok, true⟩]).isSome := by
    decide
  obtain ⟨t, ht⟩ := Option.isSome_iff_exists.mp h
  exact ⟨t, runs_of_exec ht, slots_divided (runs_of_exec ht)⟩

/-- A broken connection comes back: its item is deleted, and slot 0 still points at it. -/
theorem broken_return_dangles : ∃ t, Runs System.step Plain (.new 0)
    [.getConnection ⟨bytes "h", bytes "1", [], [], [], 10, 0⟩ ⟨true, [], 5, 5⟩,
      .returnConnection (some 0) false 6] t ∧ ¬ InOneSituation t 0 ∧ ¬ NoDangling t := by
  have h : (exec System.step Plain (.new 0)
      [.getConnection ⟨bytes "h", bytes "1", [], [], [], 10, 0⟩ ⟨true, [], 5, 5⟩,
        .returnConnection (some 0) false 6]).map
      (fun t => (t.pool.m_vecConnPool[0]?, (t.pool.heap.cell 0).isSome)) =
        some (some (some 0), false) := by decide
  obtain ⟨t, ht, hpool⟩ := Option.map_eq_some_iff.mp h
  simp only [Prod.mk.injEq] at hpool
  refine ⟨t, runs_of_exec ht, ?_, fun hd => ?_⟩
  · have hdead : ∀ {p item}, t.pool.m_vecConnPool[0]? = some (some p) →
        t.pool.heap.cell p ≠ some item := by
      intro p item hp hc
      rw [hpool.1] at hp
      cases hp
      simp [hc] at hpool
    intro hsituation
    obtain ⟨⟨hn, -⟩, -⟩ | ⟨-, ⟨p, item, hp, hc, -⟩, -⟩ | ⟨-, -, p, item, hp, hc, -⟩ := hsituation
    · rw [hpool.1] at hn
      cases hn
    · exact hdead hp hc
    · exact hdead hp hc
  · have := hd 0 0 hpool.1
    rw [hpool.2] at this
    cases this

end CppPrivate.Pg
