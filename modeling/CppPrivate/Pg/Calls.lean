import CppPrivate.Pg.Pool

/-! What each call of the connection pool can do, and the size of the slot vector, which only
the resizing call changes. -/
namespace CppPrivate.Pg
namespace CPGConnectionPool
variable {s t : CPGConnectionPool}

/-- A request is refused, gets the idle item at the head of its list, or a new one that takes
the slot at the head of the free list. -/
theorem getConnection_cases {r : Request} {a : Answer} {u : CPGConnectionPool × Connection}
    (h : s.getConnection r a = some u) :
    (u.1 = s ∧ u.2.pConnItem = none) ∨
    (∃ i rest, s.m_mapUseableConn r.sUrl = some (i :: rest) ∧ s.takeIdle r.sUrl i rest = some u) ∨
    ∃ i rest client, s.m_listUseableConn = i :: rest ∧ at? s.m_vecConnPool i = some none ∧
      (freshClient r).connect r.host r.port r.username r.password r.dbName r.SSL a.ok a.error =
        (client, true) ∧ u = s.install r a client i rest := by
  rw [getConnection] at h
  split at h
  · rename_i i rest hl
    exact Or.inr (Or.inl ⟨i, rest, hl, h⟩)
  · rw [takeFree] at h
    split at h
    · cases h
      exact Or.inl ⟨rfl, rfl⟩
    · rename_i i rest hl
      split at h
      · cases h
      · cases h
        exact Or.inl ⟨rfl, rfl⟩
      · rename_i hi
        split at h
        · rename_i client hconn
          cases h
          exact Or.inr (Or.inr ⟨i, rest, client, hl, hi, hconn, rfl⟩)
        · cases h
          exact Or.inl ⟨rfl, rfl⟩

/-- The sweep leaves a slot as it is, drops its idle item, or pings it. -/
theorem checkSlot_cases {answers : Nat → Check} {n : Nat} (h : s.checkSlot answers n = some t) :
    t = s ∨ ∃ p item, s.m_vecConnPool[n]? = some (some p) ∧ s.heap.cell p = some item ∧
      item.eState = .eConn_Unused ∧
      (t = { s.removeConnection p item with m_vecConnPool := s.m_vecConnPool.set n none } ∨
        t = { s with heap := s.heap.modify p fun item =>
          { item with PGClient := (item.PGClient.ping (answers n).ping).1 } }) := by
  rw [checkSlot] at h
  split at h
  · rename_i p hn
    obtain ⟨item, hc, rfl⟩ := Option.map_eq_some_iff.mp h
    simp only
    split
    · rename_i hst
      refine Or.inr ⟨p, item, hn, hc, hst, ?_⟩
      split
      · exact Or.inl rfl
      · split
        · exact Or.inl rfl
        · exact Or.inr rfl
    · exact Or.inl rfl
  · exact Or.inl (Option.some.inj h).symm

theorem size_checkConnection {answers : Nat → Check} (h : s.checkConnection answers = some t) :
    t.m_nMaxConnectionCnt = s.m_nMaxConnectionCnt ∧
    t.m_vecConnPool.length = s.m_vecConnPool.length := by
  refine Run.foldlM_invariant (fun u => u.m_nMaxConnectionCnt = s.m_nMaxConnectionCnt ∧
    u.m_vecConnPool.length = s.m_vecConnPool.length) ?_ h ⟨rfl, rfl⟩
  intro u n v hu hv
  rcases checkSlot_cases hv with rfl | ⟨p, item, -, -, -, rfl | rfl⟩
  · exact hu
  · exact ⟨hu.1, List.length_set.trans hu.2⟩
  · exact hu

end CPGConnectionPool

def Op.KeepsSize : Op → Prop
  | .setMaxConnectionCnt _ => False
  | _ => True

instance : (op : Op) → Decidable op.KeepsSize
  | .setMaxConnectionCnt _ => inferInstanceAs (Decidable False)
  | .getConnection .. | .returnConnection .. | .checkConnection .. | .setTimeout .. =>
    inferInstanceAs (Decidable True)

/-- Only the resizing call changes the length of the vector, and none the recorded capacity. -/
theorem size_step {s t : System} {op : Op} (hs : s.step op = some t) :
    t.pool.m_nMaxConnectionCnt = s.pool.m_nMaxConnectionCnt ∧
    (op.KeepsSize → t.pool.m_vecConnPool.length = s.pool.m_vecConnPool.length) := by
  cases op with
  | getConnection r a =>
    obtain ⟨u, hu, rfl⟩ := Option.map_eq_some_iff.mp hs
    rcases CPGConnectionPool.getConnection_cases hu with ⟨he, -⟩ | ⟨i, rest, -, hu⟩ |
      ⟨i, rest, client, -, -, -, rfl⟩
    · simp only [he, implies_true, and_self]
    · rw [CPGConnectionPool.takeIdle] at hu
      split at hu
      · obtain ⟨item, -, rfl⟩ := Option.map_eq_some_iff.mp hu
        exact ⟨rfl, fun _ => rfl⟩
      · cases hu
    · exact ⟨rfl, fun _ => List.length_set⟩
  | returnConnection pConnItem status now =>
    obtain ⟨u, hu, rfl⟩ := Option.map_eq_some_iff.mp hs
    cases pConnItem with
    | none =>
      cases hu
      exact ⟨rfl, fun _ => rfl⟩
    | some p =>
      obtain ⟨item, -, rfl⟩ := Option.map_eq_some_iff.mp hu
      simp only
      split <;> exact ⟨rfl, fun _ => rfl⟩
  | checkConnection answers =>
    obtain ⟨u, hu, rfl⟩ := Option.map_eq_some_iff.mp hs
    have hsize := CPGConnectionPool.size_checkConnection hu
    exact ⟨hsize.1, fun _ => hsize.2⟩
  | setMaxConnectionCnt nCount =>
    cases hs
    refine ⟨?_, fun hop => hop.elim⟩
    simp only [CPGConnectionPool.setMaxConnectionCnt]
    split <;> rfl
  | setTimeout nTimeout =>
    cases hs
    exact ⟨rfl, fun _ => rfl⟩

end CppPrivate.Pg
