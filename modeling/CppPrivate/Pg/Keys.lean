import CppPrivate.Pg.Calls

/-! The keys of the connection pool. A connection is found again under the text of its request;
the text leaves out the SSL mode and joins the other arguments without escaping them. -/
namespace CppPrivate.Pg
open Run CPGConnectionPool

/-- What a connection is opened with: the arguments of the request, the SSL mode as the
connection string has it. -/
structure Target where
  host : Bytes
  port : Bytes
  username : Bytes
  password : Bytes
  dbName : Bytes
  ssl : Bool
deriving DecidableEq

def Request.target (r : Request) : Target :=
  ⟨r.host, r.port, r.username, r.password, r.dbName, decide (r.SSL = PG_ENABLE_SSL)⟩

def CPGClient.target (c : CPGClient) : Target :=
  ⟨c.m_sHost, c.m_sPort, c.m_sUser, c.m_sPassword, c.m_sDbName, decide (c.m_nSSL = PG_ENABLE_SSL)⟩

theorem target_connect (c : CPGClient) (r : Request) (ok : Bool) (error : Bytes) :
    (c.connect r.host r.port r.username r.password r.dbName r.SSL ok error).1.target = r.target := by
  cases ok <;> rfl

theorem target_ping (c : CPGClient) (val : CPGClient.PGPing) : (c.ping val).1.target = c.target := by
  rw [CPGClient.ping]
  split <;> rfl

/-- Every idle index leads to a live item of its key, every live item sits in the slot it
names, and it was opened for a request of `R` with its key. -/
structure Filed (R : Set Request) (s : CPGConnectionPool) : Prop where
  idle : ∀ k, ∀ x ∈ idleAt s.m_mapUseableConn k, ∃ p item,
    at? s.m_vecConnPool x = some (some p) ∧ s.heap.cell p = some item ∧ item.sKey = k
  placed : ∀ p item, s.heap.cell p = some item → at? s.m_vecConnPool item.nPoolIndex = some (some p)
  index : ∀ x p item, at? s.m_vecConnPool x = some (some p) → s.heap.cell p = some item →
    item.nPoolIndex = x
  known : ∀ x p, at? s.m_vecConnPool x = some (some p) → p < s.heap.next
  opened : ∀ p item, s.heap.cell p = some item →
    ∃ r ∈ R, item.sKey = r.sUrl ∧ item.PGClient.target = r.target

namespace Filed
variable {R : Set Request} {s t : CPGConnectionPool} {p : Nat} {item : ConnItem}

theorem new (nUsed : UInt32) : Filed R (.new nUsed) where
  idle := by simp [CPGConnectionPool.new, idleAt]
  placed := by simp [CPGConnectionPool.new]
  index := by simp [CPGConnectionPool.new]
  known := by
    intro x p hp
    have := List.getElem?_eq_some_iff.mp (at?_eq_some.mp hp).2
    simp [CPGConnectionPool.new] at this
  opened := by simp [CPGConnectionPool.new]

/-- The counters and the free list play no part. -/
theorem congr (h : Filed R s) (hheap : t.heap = s.heap) (hvec : t.m_vecConnPool = s.m_vecConnPool)
    (hmap : t.m_mapUseableConn = s.m_mapUseableConn) : Filed R t := by
  refine ⟨?_, ?_, ?_, ?_, ?_⟩
  · rw [hheap, hvec, hmap]
    exact h.idle
  · rw [hheap, hvec]
    exact h.placed
  · rw [hheap, hvec]
    exact h.index
  · rw [hheap, hvec]
    exact h.known
  · rw [hheap]
    exact h.opened

/-- A change of one item that leaves its key, its index and its target alone. -/
theorem touch (h : Filed R s) {f : ConnItem → ConnItem}
    (hf : ∀ d, (f d).sKey = d.sKey ∧ (f d).nPoolIndex = d.nPoolIndex ∧
      (f d).PGClient.target = d.PGClient.target) :
    Filed R { s with heap := s.heap.modify p f } := by
  have hold : ∀ {q d'}, (s.heap.modify p f).cell q = some d' → ∃ d, s.heap.cell q = some d ∧
      d'.sKey = d.sKey ∧ d'.nPoolIndex = d.nPoolIndex ∧ d'.PGClient.target = d.PGClient.target := by
    intro q d' hd'
    obtain ⟨d, hd, rfl | rfl⟩ := Heap.of_modify hd'
    · exact ⟨d, hd, hf d⟩
    · exact ⟨d', hd, rfl, rfl, rfl⟩
  refine ⟨?_, ?_, ?_, h.known, ?_⟩
  · intro k x hx
    obtain ⟨q, d, hq, hd, hk⟩ := h.idle k x hx
    by_cases hqp : q = p
    · subst hqp
      exact ⟨q, f d, hq, Heap.modify_self f hd, by rw [(hf d).1, hk]⟩
    · exact ⟨q, d, hq, (Heap.modify_of_ne f hqp).trans hd, hk⟩
  · intro q d' hd'
    obtain ⟨d, hd, -, h2, -⟩ := hold hd'
    rw [h2]
    exact h.placed q d hd
  · intro x q d' hq hd'
    obtain ⟨d, hd, -, h2, -⟩ := hold hd'
    rw [h2]
    exact h.index x q d hq hd
  · intro q d' hd'
    obtain ⟨d, hd, h1, -, h3⟩ := hold hd'
    obtain ⟨r, hr, hk, ht⟩ := h.opened q d hd
    exact ⟨r, hr, h1.trans hk, h3.trans ht⟩

/-- A change of the idle lists that files live items only. -/
theorem refile (h : Filed R s) {m : MapUseabledConnection}
    (hm : ∀ k, ∀ x ∈ idleAt m k, x ∈ idleAt s.m_mapUseableConn k ∨
      ∃ p item, s.heap.cell p = some item ∧ item.sKey = k ∧ item.nPoolIndex = x) :
    Filed R { s with m_mapUseableConn := m } := by
  refine ⟨?_, h.placed, h.index, h.known, h.opened⟩
  intro k x hx
  cases hm k x hx with
  | inl hx => exact h.idle k x hx
  | inr hcase =>
    obtain ⟨p, item, hc, hk, rfl⟩ := hcase
    exact ⟨p, item, h.placed p item hc, hc, hk⟩

theorem install (h : Filed R s) {r : Request} {a : Answer} {client : CPGClient} {i : Int}
    {rest : ListUseabledConnection} (hr : r ∈ R) (hcl : client.target = r.target)
    (hi : at? s.m_vecConnPool i = some none) : Filed R (s.install r a client i rest).1 := by
  have hi0 := (at?_lt hi).1
  have hself : at? (s.m_vecConnPool.set i.toNat (some s.heap.next)) i = some (some s.heap.next) :=
    at?_set_self hi
  have hkeep : ∀ {x q}, at? s.m_vecConnPool x = some (some q) →
      at? (s.m_vecConnPool.set i.toNat (some s.heap.next)) x = some (some q) :=
    fun hq => at?_set_other hi hq (by simp)
  have hold : ∀ {x q}, at? (s.m_vecConnPool.set i.toNat (some s.heap.next)) x = some (some q) →
      (x = i ∧ q = s.heap.next) ∨ at? s.m_vecConnPool x = some (some q) := by
    intro x q hq
    by_cases hx : x = i
    · subst hx
      rw [hself] at hq
      cases hq
      exact Or.inl ⟨rfl, rfl⟩
    · exact Or.inr ((at?_set_ne hi0 hx).symm.trans hq)
  have hcell : ∀ {q d}, (s.heap.alloc ⟨r.sUrl, client, .eConn_Used, a.accessed, a.connecting, i,
      r.sUrl⟩).cell q = some d → (q = s.heap.next ∧ d.sKey = r.sUrl ∧ d.nPoolIndex = i ∧
        d.PGClient.target = r.target) ∨ s.heap.cell q = some d := by
    intro q d hd
    cases Heap.of_alloc hd with
    | inl hcase =>
      obtain ⟨he, rfl⟩ := hcase
      exact Or.inl ⟨he, rfl, rfl, hcl⟩
    | inr hd => exact Or.inr hd
  refine ⟨?_, ?_, ?_, ?_, ?_⟩
  · intro k x hx
    obtain ⟨q, d, hq, hd, hk⟩ := h.idle k x hx
    exact ⟨q, d, hkeep hq, Heap.alloc_of_live hd, hk⟩
  · intro q d hd
    cases hcell hd with
    | inl hcase =>
      obtain ⟨rfl, -, hidx, -⟩ := hcase
      rw [hidx]
      exact hself
    | inr hd => exact hkeep (h.placed q d hd)
  · intro x q d hq hd
    cases hold hq with
    | inl hcase =>
      obtain ⟨rfl, rfl⟩ := hcase
      rw [CPGConnectionPool.install, Heap.alloc_self] at hd
      cases hd
      rfl
    | inr hq =>
      cases hcell hd with
      | inl hcase =>
        obtain ⟨rfl, -⟩ := hcase
        exact absurd (h.known x _ hq) (by omega)
      | inr hd => exact h.index x q d hq hd
  · intro x q hq
    have hnext : (s.install r a client i rest).1.heap.next = s.heap.next + 1 := rfl
    rw [hnext]
    cases hold hq with
    | inl hcase =>
      obtain ⟨-, rfl⟩ := hcase
      omega
    | inr hq => exact Nat.lt_succ_of_lt (h.known x q hq)
  · intro q d hd
    cases hcell hd with
    | inl hcase =>
      obtain ⟨-, hk, -, ht⟩ := hcase
      exact ⟨r, hr, hk, ht⟩
    | inr hd => exact h.opened q d hd

/-- Deleting an item takes its index off the only idle list that may hold it. The slot is left
as it is or emptied. -/
theorem remove (h : Filed R s) (hc : s.heap.cell p = some item) {v : VecConnectionPool}
    (hv : ∀ x q, at? v x = some (some q) → at? s.m_vecConnPool x = some (some q))
    (hkeep : ∀ x q, q ≠ p → at? s.m_vecConnPool x = some (some q) → at? v x = some (some q)) :
    Filed R { s.removeConnection p item with m_vecConnPool := v } := by
  refine ⟨?_, ?_, ?_, ?_, ?_⟩
  · intro k x hx
    have hx' := mem_idleAt_remove hx
    obtain ⟨q, d, hq, hd, hk⟩ := h.idle k x hx'.1
    have hqp : q ≠ p := by
      intro heq
      subst heq
      rw [hc] at hd
      cases hd
      exact hx'.2 hk.symm (h.index x q item hq hc).symm
    exact ⟨q, d, hkeep x q hqp hq, (Heap.free_of_ne hqp).trans hd, hk⟩
  · intro q d hd
    obtain ⟨hqp, hd⟩ := Heap.of_free hd
    exact hkeep _ q hqp (h.placed q d hd)
  · intro x q d hq hd
    exact h.index x q d (hv x q hq) (Heap.of_free hd).2
  · intro x q hq
    exact h.known x q (hv x q hq)
  · intro q d hd
    exact h.opened q d (Heap.of_free hd).2

/-- The connection a request gets was opened for a request with the same key. -/
theorem getConnection (h : Filed R s) {r : Request} (hr : r ∈ R) {a : Answer}
    {u : CPGConnectionPool × Connection} (hu : s.getConnection r a = some u) :
    Filed R u.1 ∧ ∀ p, u.2.pConnItem = some p → ∃ item, u.1.heap.cell p = some item ∧
      ∃ r' ∈ R, r'.sUrl = r.sUrl ∧ item.PGClient.target = r'.target := by
  rcases getConnection_cases hu with ⟨he, hn⟩ | ⟨i, rest, hl, hu⟩ |
    ⟨i, rest, client, -, hi, hconn, rfl⟩
  · rw [he, hn]
    exact ⟨h, fun p hp => by cases hp⟩
  · have hlist := idleAt_eq hl
    obtain ⟨p, item, hat, hc, hk⟩ := h.idle r.sUrl i (by simp [hlist])
    simp only [takeIdle, hat, hc, Option.map_some, Option.some.injEq] at hu
    subst hu
    constructor
    · have hfile : Filed R { s with
          m_mapUseableConn := fun k =>
            if k = r.sUrl then some rest else s.m_mapUseableConn k } := by
        refine h.refile fun k x hx => ?_
        rw [idleAt_update] at hx
        split at hx
        · rename_i he
          exact Or.inl (by simp [he, hlist, hx])
        · exact Or.inl hx
      have hused := hfile.touch (p := p) (f := fun item => { item with eState := .eConn_Used })
        fun d => ⟨rfl, rfl, rfl⟩
      exact hused.congr rfl rfl rfl
    · intro q hq
      cases hq
      obtain ⟨r', hr', hk', ht⟩ := h.opened p item hc
      exact ⟨_, Heap.modify_self _ hc, r', hr', hk'.symm.trans hk, ht⟩
  · have hcl := target_connect (freshClient r) r a.ok a.error
    rw [hconn] at hcl
    refine ⟨h.install hr hcl hi, fun p hp => ?_⟩
    cases hp
    exact ⟨_, Heap.alloc_self _ _, r, hr, rfl, hcl⟩

theorem returnConnection (h : Filed R s) {pConnItem : Option Nat} {status : Bool} {now : UInt64}
    (ht : s.returnConnection pConnItem status now = some t) : Filed R t := by
  cases pConnItem with
  | none =>
    cases ht
    exact h
  | some p =>
    obtain ⟨item, hc, rfl⟩ := Option.map_eq_some_iff.mp ht
    have htouch := h.touch (p := p)
      (f := fun item => { item with nLastAccessedTime := now, eState := .eConn_Unused })
      fun d => ⟨rfl, rfl, rfl⟩
    simp only
    split
    · have hfile : Filed R { s with
          heap := s.heap.modify p fun item =>
            { item with nLastAccessedTime := now, eState := .eConn_Unused }
          m_mapUseableConn := fun k =>
            if k = item.sKey then some (idleAt s.m_mapUseableConn k ++ [item.nPoolIndex])
            else s.m_mapUseableConn k } := by
        refine htouch.refile fun k x hx => ?_
        refine (mem_idleAt_append hx).imp id fun hcase => ?_
        exact ⟨p, _, Heap.modify_self _ hc, hcase.1.symm, hcase.2.symm⟩
      exact hfile.congr rfl rfl rfl
    · have hrem := htouch.remove (Heap.modify_self _ hc) (fun _ _ hq => hq) (fun _ _ _ hq => hq)
      exact hrem.congr rfl rfl rfl

/-- An item is dropped together with its slot. -/
theorem drop (h : Filed R s) {n : Nat} (hn : s.m_vecConnPool[n]? = some (some p))
    (hc : s.heap.cell p = some item) :
    Filed R { s.removeConnection p item with m_vecConnPool := s.m_vecConnPool.set n none } := by
  refine h.remove hc (fun x q hq => (of_at?_set hq (by simp)).2) ?_
  intro x q hqp hq
  refine at?_set_other (by rw [at?_natCast, hn]) hq ?_
  intro heq
  cases heq
  exact hqp rfl

theorem checkConnection (h : Filed R s) {answers : Nat → Check}
    (ht : s.checkConnection answers = some t) : Filed R t := by
  refine foldlM_invariant (Filed R) ?_ ht h
  intro u n v hu hv
  rcases checkSlot_cases hv with rfl | ⟨p, item, hn, hc, -, rfl | rfl⟩
  · exact hu
  · exact hu.drop hn hc
  · exact hu.touch fun d => ⟨rfl, rfl, target_ping _ _⟩

theorem setMaxConnectionCnt (h : Filed R s) (nCount : UInt32) :
    Filed R (s.setMaxConnectionCnt nCount) := by
  rw [CPGConnectionPool.setMaxConnectionCnt]
  split
  · have hold : ∀ {x q}, at? (s.m_vecConnPool ++
        (growRange s.m_nMaxConnectionCnt nCount).map fun _ => none) x = some (some q) →
        at? s.m_vecConnPool x = some (some q) := by
      intro x q hq
      obtain ⟨h0, hq⟩ := at?_eq_some.mp hq
      refine at?_eq_some.mpr ⟨h0, ?_⟩
      rw [List.getElem?_append] at hq
      split at hq
      · exact hq
      · obtain ⟨-, -, he⟩ := List.mem_map.mp (List.mem_of_getElem? hq)
        cases he
    refine ⟨?_, ?_, ?_, ?_, h.opened⟩
    · intro k x hx
      obtain ⟨q, d, hq, hrest⟩ := h.idle k x hx
      exact ⟨q, d, at?_append _ hq, hrest⟩
    · intro q d hd
      exact at?_append _ (h.placed q d hd)
    · intro x q d hq hd
      exact h.index x q d (hold hq) hd
    · intro x q hq
      exact h.known x q (hold hq)
  · exact h

end Filed

/-- The requests of a run are taken from `R`. -/
def Op.From (R : Set Request) : Op → Prop
  | .getConnection r _ => r ∈ R
  | _ => True

theorem Filed.step {R : Set Request} {s t : System} {op : Op} (h : Filed R s.pool)
    (hop : op.From R) (hs : s.step op = some t) : Filed R t.pool := by
  cases op with
  | getConnection r a =>
    obtain ⟨u, hu, rfl⟩ := Option.map_eq_some_iff.mp hs
    exact (h.getConnection hop hu).1
  | returnConnection pConnItem status now =>
    obtain ⟨u, hu, rfl⟩ := Option.map_eq_some_iff.mp hs
    exact h.returnConnection hu
  | checkConnection answers =>
    obtain ⟨u, hu, rfl⟩ := Option.map_eq_some_iff.mp hs
    exact h.checkConnection hu
  | setMaxConnectionCnt nCount =>
    cases hs
    exact h.setMaxConnectionCnt nCount
  | setTimeout nTimeout =>
    cases hs
    exact h.congr rfl rfl rfl

theorem Filed.of_runs {R : Set Request} {nUsed : UInt32} {ops : List Op} {t : System}
    (h : Runs System.step (fun _ op => op.From R) (.new nUsed) ops t) : Filed R t.pool :=
  h.invariant (fun s => Filed R s.pool) (.new nUsed) fun _ _ _ hf hop hs => hf.step hop hs

/-- After any calls with requests of `R`, a request of `R` gets no connection but one that was
opened with its own arguments. -/
def MatchesRequests (R : Set Request) : Prop :=
  ∀ nUsed ops t, Runs System.step (fun _ op => op.From R) (.new nUsed) ops t →
    ∀ r ∈ R, ∀ a u p, t.pool.getConnection r a = some u → u.2.pConnItem = some p →
      ∃ item, u.1.heap.cell p = some item ∧ item.PGClient.target = r.target

/-- A healthy connection that comes back is filed last under its key. -/
theorem returnConnection_healthy {s : CPGConnectionPool} {p : Nat} {item : ConnItem}
    (hc : s.heap.cell p = some item) (now : UInt64) :
    ∃ t, s.returnConnection (some p) true now = some t ∧
      t.m_mapUseableConn item.sKey =
        some (idleAt s.m_mapUseableConn item.sKey ++ [item.nPoolIndex]) ∧
      t.m_vecConnPool = s.m_vecConnPool ∧
      ∃ item', t.heap.cell p = some item' ∧ item'.PGClient = item.PGClient := by
  simp only [CPGConnectionPool.returnConnection, hc, Option.map_some, if_true]
  exact ⟨_, rfl, if_pos rfl, rfl, _, Heap.modify_self _ hc, rfl⟩

/-- A connection that is opened for one request and returned goes to a request with its key. -/
theorem shared_connection {r r' : Request} (hkey : r.sUrl = r'.sUrl) (a : Answer) :
    ∃ t u item, Runs System.step (fun _ op => op.From {r, r'}) (.new 0)
      [.getConnection r ⟨true, [], 0, 0⟩, .returnConnection (some 0) true 0] t ∧
      t.pool.getConnection r' a = some u ∧ u.2.pConnItem = some 0 ∧
      u.1.heap.cell 0 = some item ∧ item.PGClient.target = r.target := by
  let client := (freshClient r).connect r.host r.port r.username r.password r.dbName r.SSL true []
  let s : System := ⟨((CPGConnectionPool.new 0).install r ⟨true, [], 0, 0⟩ client.1 0
    ((CPGConnectionPool.new 0).m_listUseableConn.tail)).1, [0]⟩
  have hone : System.step (.new 0) (.getConnection r ⟨true, [], 0, 0⟩) = some s := rfl
  have hnew : s.pool.heap.cell 0 = some ⟨r.sUrl, client.1, .eConn_Used, 0, 0, 0, r.sUrl⟩ :=
    Heap.alloc_self _ _
  obtain ⟨t, htwo, hmap, hvec, item, hc, ht⟩ := returnConnection_healthy hnew 0
  have hstep : s.step (.returnConnection (some 0) true 0) = some ⟨t, []⟩ := by
    simp only [System.step, htwo]
    rfl
  have hat : at? t.m_vecConnPool 0 = some (some 0) := by
    rw [hvec]
    rfl
  have hget : t.getConnection r' a = t.takeIdle r'.sUrl 0 [] := by
    rw [CPGConnectionPool.getConnection, ← hkey, hmap]
    rfl
  simp only [CPGConnectionPool.takeIdle, hat, hc, Option.map_some] at hget
  have hfrom : Op.From {r, r'} (.getConnection r ⟨true, [], 0, 0⟩) := Or.inl rfl
  have hreturn : Op.From {r, r'} (.returnConnection (some 0) true 0) := trivial
  refine ⟨⟨t, []⟩, _, _, Runs.cons hfrom hone (Runs.cons hreturn hstep .nil), hget, rfl,
    Heap.modify_self _ hc, ?_⟩
  calc item.PGClient.target = client.1.target := by rw [ht]
    _ = r.target := target_connect _ r true []

theorem matches_of_keys {R : Set Request}
    (h : ∀ r ∈ R, ∀ r' ∈ R, r.sUrl = r'.sUrl → r.target = r'.target) : MatchesRequests R := by
  intro nUsed ops t hrun r hr a u p hget hp
  obtain ⟨item, hc, r', hr', hkey, ht⟩ := ((Filed.of_runs hrun).getConnection hr hget).2 p hp
  exact ⟨item, hc, ht.trans (h r' hr' r hr hkey)⟩

/-- Every connection matches its request exactly for the sets of requests whose keys tell
their arguments and SSL modes apart. -/
theorem connections_match_requests (R : Set Request) :
    MatchesRequests R ↔ ∀ r ∈ R, ∀ r' ∈ R, r.sUrl = r'.sUrl → r.target = r'.target := by
  refine ⟨?_, matches_of_keys⟩
  intro h r hr r' hr' hkey
  obtain ⟨t, u, item, hrun, hget, hp, hc, ht⟩ := shared_connection hkey ⟨true, [], 0, 0⟩
  have hfrom : ∀ (s : System) (op : Op), op.From {r, r'} → op.From R := by
    intro s op hop
    cases op with
    | getConnection q a =>
      cases hop with
      | inl heq =>
        subst heq
        exact hr
      | inr heq =>
        subst heq
        exact hr'
    | _ => trivial
  obtain ⟨item', hc', ht'⟩ := h 0 _ t (hrun.mono hfrom) r' hr' _ u 0 hget hp
  rw [hc] at hc'
  cases hc'
  exact ht.symm.trans ht'

/-- A plaintext connection that is returned goes to a caller that asked for SSL. -/
theorem ssl_mode_not_matched : ¬ MatchesRequests Set.univ ∧
    ∃ t u item, Runs System.step (fun _ op => op.From Set.univ) (.new 0)
      [.getConnection ⟨bytes "h", bytes "1", bytes "u", bytes "p", bytes "d", 10, PG_DISABLE_SSL⟩
        ⟨true, [], 0, 0⟩, .returnConnection (some 0) true 0] t ∧
      t.pool.getConnection ⟨bytes "h", bytes "1", bytes "u", bytes "p", bytes "d", 10,
        PG_ENABLE_SSL⟩ ⟨true, [], 0, 0⟩ = some u ∧ u.2.pConnItem = some 0 ∧
      u.1.heap.cell 0 = some item ∧ item.PGClient.target.ssl = false := by
  let plain : Request := ⟨bytes "h", bytes "1", bytes "u", bytes "p", bytes "d", 10, PG_DISABLE_SSL⟩
  let ssl : Request := { plain with SSL := PG_ENABLE_SSL }
  have hkey : plain.sUrl = ssl.sUrl := rfl
  obtain ⟨t, u, item, hrun, hget, hp, hc, ht⟩ := shared_connection hkey ⟨true, [], 0, 0⟩
  have hfrom : ∀ (s : System) (op : Op), op.From {plain, ssl} → op.From Set.univ := by
    intro s op _
    cases op <;> trivial
  have hrun := hrun.mono hfrom
  have hplain : item.PGClient.target.ssl = false := by
    rw [ht]
    rfl
  refine ⟨fun h => ?_, t, u, item, hrun, hget, hp, hc, hplain⟩
  obtain ⟨item', hc', ht'⟩ := h 0 _ t hrun ssl trivial _ u 0 hget hp
  rw [hc] at hc'
  cases hc'
  rw [ht'] at hplain
  cases hplain

/-- No separator of the key occurs in the argument before it. -/
structure Request.Plain (r : Request) : Prop where
  host : 58 ∉ r.host
  port : 47 ∉ r.port
  dbName : 63 ∉ r.dbName
  username : 38 ∉ r.username

/-- Between plain requests the key tells all arguments apart but the SSL mode. -/
theorem Request.Plain.target_eq {r r' : Request} (h : r.Plain) (h' : r'.Plain)
    (hkey : r.sUrl = r'.sUrl) (hssl : r.SSL = r'.SSL) : r.target = r'.target := by
  have hcut : ∀ q : Request, q.sUrl = bytes "postgresql://" ++ (q.host ++ 58 :: (q.port ++ 47 ::
      (q.dbName ++ 63 :: (bytes "user=" ++ (q.username ++ 38 ::
        (bytes "password=" ++ q.password)))))) := by
    intro q
    simp only [Request.sUrl, List.append_assoc]
    rfl
  rw [hcut, hcut] at hkey
  obtain ⟨hhost, hkey⟩ := cut_inj h.host h'.host (List.append_cancel_left hkey)
  obtain ⟨hport, hkey⟩ := cut_inj h.port h'.port hkey
  obtain ⟨hdb, hkey⟩ := cut_inj h.dbName h'.dbName hkey
  obtain ⟨huser, hkey⟩ := cut_inj h.username h'.username (List.append_cancel_left hkey)
  have hpassword := List.append_cancel_left hkey
  simp only [Request.target, hhost, hport, hdb, huser, hpassword, hssl]

/-- Callers that agree on the SSL mode and keep the separators out of their arguments get the
connections they ask for. -/
theorem plain_matches {R : Set Request} (hplain : ∀ r ∈ R, r.Plain)
    (hssl : ∀ r ∈ R, ∀ r' ∈ R, r.SSL = r'.SSL) : MatchesRequests R :=
  matches_of_keys fun r hr r' hr' hkey =>
    (hplain r hr).target_eq (hplain r' hr') hkey (hssl r hr r' hr')

end CppPrivate.Pg
