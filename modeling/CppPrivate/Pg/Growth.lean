import CppPrivate.Pg.Slots

/-! The capacity of the connection pool. Every growing call appends the indices from the
initial capacity on, since none of them records the new one. The indices in the list are `int`: for
counts above `2^31` what `getConnection` reads is undefined, and nothing is meant by a run with one. -/
namespace CppPrivate.Pg
open Run CPGConnectionPool

/-- The count a call asks for, zero for a call that asks for none. -/
def Op.requested : Op → Nat
  | .setMaxConnectionCnt nCount => nCount.toNat
  | _ => 0

/-- The maximum of the initial capacity and the counts asked for. -/
def capacity (ops : List Op) : Nat :=
  ops.foldl (fun c op => max c op.requested) m_nDefaultConnectionCnt.toNat

def growths (ops : List Op) : Nat :=
  ops.countP fun op => m_nDefaultConnectionCnt.toNat < op.requested

theorem capacity_snoc (ops : List Op) (op : Op) :
    capacity (ops ++ [op]) = max (capacity ops) op.requested := by
  simp [capacity]

theorem growths_snoc (ops : List Op) (op : Op) :
    growths (ops ++ [op]) = growths ops + if 100 < op.requested then 1 else 0 := by
  have h100 : m_nDefaultConnectionCnt.toNat = 100 := rfl
  simp [growths, List.countP_append, List.countP_singleton, h100]

/-- What the size of the vector says about the calls that enlarged it. -/
structure Sized (ops : List Op) (s : System) : Prop where
  recorded : s.pool.m_nMaxConnectionCnt = 100
  asked : 100 ≤ capacity ops
  none : growths ops = 0 → s.pool.m_vecConnPool.length = 100 ∧ capacity ops = 100
  one : growths ops = 1 → s.pool.m_vecConnPool.length = capacity ops
  more : 1 ≤ growths ops → 100 < s.pool.m_vecConnPool.length
  many : 2 ≤ growths ops → capacity ops < s.pool.m_vecConnPool.length

theorem Sized.new (nUsed : UInt32) : Sized [] (.new nUsed) :=
  ⟨rfl, Nat.le_refl _, fun _ => ⟨rfl, rfl⟩, fun h => absurd h (by decide),
    fun h => absurd h (by decide), fun h => absurd h (by decide)⟩

/-- A call adds what it asks for beyond the initial capacity, whatever the pool holds already. -/
theorem length_step {s t : System} {op : Op} (hmax : s.pool.m_nMaxConnectionCnt = 100)
    (hs : s.step op = some t) :
    t.pool.m_vecConnPool.length = s.pool.m_vecConnPool.length + (op.requested - 100) := by
  by_cases hop : op.KeepsSize
  · have hz : op.requested = 0 := by cases op <;> first | rfl | exact hop.elim
    rw [(size_step hs).2 hop, hz]
    rfl
  · cases op with
    | setMaxConnectionCnt nCount =>
      cases hs
      have h100 : (100 : UInt32).toNat = 100 := rfl
      simp only [CPGConnectionPool.setMaxConnectionCnt, hmax, Op.requested]
      split
      · simp [growRange]
      · rename_i hlt
        have hle : nCount.toNat ≤ 100 := by
          rw [← h100, ← UInt32.le_iff_toNat_le]
          exact UInt32.not_lt.mp hlt
        omega
    | _ => exact (hop trivial).elim

theorem Sized.step {ops : List Op} {s t : System} {op : Op} (h : Sized ops s)
    (hs : s.step op = some t) : Sized (ops ++ [op]) t := by
  have hlen := length_step h.recorded hs
  have hcap := capacity_snoc ops op
  have hgrow := growths_snoc ops op
  obtain ⟨hrec, hask, hnone, hone, hmore, hmany⟩ := h
  refine ⟨(size_step hs).1.trans hrec, ?_, ?_, ?_, ?_, ?_⟩ <;> split at hgrow <;> omega

/-- The item of slot `i` is on loan or idle under another key than `k`. -/
def BusyFor (s : System) (k : Bytes) (i : Nat) : Prop :=
  ∃ p item, s.pool.m_vecConnPool[i]? = some (some p) ∧ s.pool.heap.cell p = some item ∧
    (p ∈ s.loans ∨ (item.eState = .eConn_Unused ∧ item.sKey ≠ k ∧
      (i : Int) ∈ idleAt s.pool.m_mapUseableConn item.sKey))

/-- A pool of the given capacity: a request that a reachable server accepts is refused only
when every slot is busy for it. -/
structure Serves (s : System) (capacity : Nat) : Prop where
  freeNodup : s.pool.m_listUseableConn.Nodup
  size : s.pool.m_vecConnPool.length = capacity
  refused : ∀ r a u, a.ok = true → s.pool.getConnection r a = some u → u.2.pConnItem = none →
    ∀ i < capacity, BusyFor s r.sUrl i
  defined : capacity ≤ 2 ^ 31 → ∀ r a, (s.pool.getConnection r a).isSome

namespace Divided
variable {s : CPGConnectionPool} {loans : List Nat}

theorem takeIdle_lends (h : Divided s loans) {key : Bytes} {i : Int} {rest : ListUseabledConnection}
    (hl : s.m_mapUseableConn key = some (i :: rest)) :
    ∃ u p, s.takeIdle key i rest = some u ∧ u.2.pConnItem = some p := by
  obtain ⟨p, item, hat, hc, -⟩ := h.idle key i (by simp [idleAt_eq hl])
  simp [CPGConnectionPool.takeIdle, hat, hc]

/-- With the free list in order, a new connection is missed only when the list is empty. -/
theorem takeFree_refuses (h : Divided s loans) {r : Request} {a : Answer}
    {u : CPGConnectionPool × Connection} (ha : a.ok = true) (hu : s.takeFree r a = some u)
    (hn : u.2.pConnItem = none) : s.m_listUseableConn = [] := by
  rw [takeFree] at hu
  split at hu
  · rename_i hl
    exact hl
  · rename_i i rest hl
    obtain ⟨n, he, hv⟩ := h.free i (by simp [hl])
    split at hu
    · cases hu
    · rename_i p hp
      have hlen := (List.getElem?_eq_some_iff.mp hv).1
      have hsize := h.size
      have hin : i = n := he.trans (cInt_eq_of_nonneg (by omega) (he ▸ (at?_lt hp).1))
      rw [hin, at?_natCast, hv] at hp
      cases hp
    · split at hu
      · cases hu
        cases hn
      · rename_i client hcl
        have := congrArg Prod.snd hcl
        rw [CPGClient.connect_snd, ha] at this
        cases this

theorem takeFree_isSome (h : Divided s loans) (hlen : s.m_vecConnPool.length ≤ 2 ^ 31)
    (r : Request) (a : Answer) : (s.takeFree r a).isSome := by
  rw [takeFree]
  split
  · rfl
  · rename_i i rest hl
    obtain ⟨n, he, hv⟩ := h.free i (by simp [hl])
    have hn := (List.getElem?_eq_some_iff.mp hv).1
    rw [he, cInt_of_lt (by omega), at?_natCast, hv]
    simp only
    split <;> rfl

theorem getConnection_isSome (h : Divided s loans) (hlen : s.m_vecConnPool.length ≤ 2 ^ 31)
    (r : Request) (a : Answer) : (s.getConnection r a).isSome := by
  rw [CPGConnectionPool.getConnection]
  split
  · rename_i i rest hl
    obtain ⟨u, -, hu, -⟩ := h.takeIdle_lends hl
    simp [hu]
  · exact h.takeFree_isSome hlen r a

/-- A refusal means that no slot is empty and none is idle under the requested key. -/
theorem getConnection_refuses (h : Divided s loans) {r : Request} {a : Answer}
    {u : CPGConnectionPool × Connection} (ha : a.ok = true) (hu : s.getConnection r a = some u)
    (hn : u.2.pConnItem = none) :
    s.m_listUseableConn = [] ∧ idleAt s.m_mapUseableConn r.sUrl = [] := by
  rw [CPGConnectionPool.getConnection] at hu
  split at hu
  · rename_i i rest hl
    obtain ⟨u', p, hu', hp⟩ := h.takeIdle_lends hl
    rw [hu] at hu'
    cases hu'
    rw [hn] at hp
    cases hp
  · rename_i hl
    refine ⟨h.takeFree_refuses ha hu hn, ?_⟩
    rw [idleAt]
    cases hm : s.m_mapUseableConn r.sUrl with
    | none => rfl
    | some l =>
      cases l with
      | nil => rfl
      | cons i rest => exact absurd hm (hl i rest)

end Divided

theorem Divided.busyFor {s : System} (h : Divided s.pool s.loans) {k : Bytes} {i : Nat}
    (hfree : s.pool.m_listUseableConn = []) (hidle : idleAt s.pool.m_mapUseableConn k = [])
    (hi : i < s.pool.m_vecConnPool.length) : BusyFor s k i := by
  have hv := List.getElem?_eq_getElem hi
  cases hp : s.pool.m_vecConnPool[i] with
  | none =>
    have := h.empty i (by rw [hv, hp])
    rw [hfree] at this
    cases this
  | some p =>
    rw [hp] at hv
    obtain ⟨item, hc, -, -, hown⟩ := h.slot i p hv
    refine ⟨p, item, hv, hc, ?_⟩
    cases hown with
    | inl hcase =>
      obtain ⟨hst, hm, -⟩ := hcase
      refine Or.inr ⟨hst, ?_, hm⟩
      intro heq
      subst heq
      rw [hidle] at hm
      cases hm
    | inr hcase =>
      obtain ⟨-, hm⟩ := hcase
      exact Or.inl hm

theorem Divided.serves {s : System} (h : Divided s.pool s.loans) :
    Serves s s.pool.m_vecConnPool.length where
  freeNodup := h.freeNodup
  size := rfl
  refused := by
    intro r a u ha hu hn i hi
    obtain ⟨hfree, hidle⟩ := h.getConnection_refuses ha hu hn
    exact h.busyFor hfree hidle hi
  defined := fun hlen r a => h.getConnection_isSome hlen r a

theorem growsOnce_of_growths {ops : List Op} {s : System} {op : Op} (h : Sized ops s)
    (hg : growths (ops ++ [op]) ≤ 1) : GrowsOnce s op := by
  cases op with
  | setMaxConnectionCnt nCount =>
    intro hlt
    rw [h.recorded] at hlt ⊢
    have h100 : (100 : UInt32).toNat = 100 := rfl
    have hreq : 100 < Op.requested (.setMaxConnectionCnt nCount) :=
      h100 ▸ UInt32.lt_iff_toNat_lt.mp hlt
    rw [growths_snoc, if_pos hreq] at hg
    exact (h.none (by omega)).1
  | _ => trivial

/-- Borrowers of healthy connections see a pool of the capacity asked for exactly as long as
no more than one call has enlarged it. -/
theorem capacity_kept {nUsed : UInt32} {ops : List Op} {t : System}
    (h : Runs System.step (fun s op => Borrowed s op ∧ op.Healthy) (.new nUsed) ops t) :
    Serves t (capacity ops) ↔ growths ops ≤ 1 := by
  have hsized : Sized ops t := h.history Sized (.new nUsed) fun _ _ _ _ hi _ hs => hi.step hs
  constructor
  · intro hserve
    by_contra hg
    have := hsized.many (by omega)
    have := hserve.size
    omega
  · intro hg
    have hdiv : Sized ops t ∧ (growths ops ≤ 1 → Divided t.pool t.loans) := by
      refine h.history (fun ops t => Sized ops t ∧ (growths ops ≤ 1 → Divided t.pool t.loans))
        ⟨.new nUsed, fun _ => Divided.new nUsed⟩ ?_
      intro ops s op u hcase hother hs
      obtain ⟨hsz, hd⟩ := hcase
      obtain ⟨hb, hh⟩ := hother
      refine ⟨hsz.step hs, fun hg => ?_⟩
      have hless : growths ops ≤ 1 := by
        rw [growths_snoc] at hg
        omega
      exact (hd hless).step hb hh (growsOnce_of_growths hsz hg) hs
    have hlen : t.pool.m_vecConnPool.length = capacity ops := by
      cases Nat.le_one_iff_eq_zero_or_eq_one.mp hg with
      | inl h0 =>
        obtain ⟨h1, h2⟩ := hsized.none h0
        rw [h1, h2]
      | inr h1 => exact hsized.one h1
    exact hlen ▸ (hdiv.2 hg).serves

/-- A pool that is enlarged once, with a connection taken before and returned after. -/
theorem capacity_kept_grown : ∃ t, Runs System.step (fun s op => Borrowed s op ∧ op.Healthy)
    (.new 0) [.getConnection ⟨bytes "h", bytes "1", [], [], [], 10, 0⟩ ⟨true, [], 5, 5⟩,
      .setMaxConnectionCnt 101, .returnConnection (some 0) true 6, .setMaxConnectionCnt 50] t ∧
    Serves t 101 := by
  have h : (exec System.step (fun s op => Borrowed s op ∧ op.Healthy) (.new 0)
      [.getConnection ⟨bytes "h", bytes "1", [], [], [], 10, 0⟩ ⟨true, [], 5, 5⟩,
        .setMaxConnectionCnt 101, .returnConnection (some 0) true 6,
        .setMaxConnectionCnt 50]).isSome := by decide
  obtain ⟨t, ht⟩ := Option.isSome_iff_exists.mp h
  exact ⟨t, runs_of_exec ht, (capacity_kept (runs_of_exec ht)).mpr (by decide)⟩

/-- The same count asked for twice: the vector gets a slot too many, and the index 100 is
free twice. -/
theorem second_growth_repeats : ∃ t, Runs System.step (fun s op => Borrowed s op ∧ op.Healthy)
    (.new 0) [.setMaxConnectionCnt 101, .setMaxConnectionCnt 101] t ∧
    t.pool.m_vecConnPool.length = 102 ∧ ¬ t.pool.m_listUseableConn.Nodup ∧ ¬ Serves t 101 := by
  have h : (exec System.step (fun s op => Borrowed s op ∧ op.Healthy) (.new 0)
      [.setMaxConnectionCnt 101, .setMaxConnectionCnt 101]).map
      (fun t => (t.pool.m_vecConnPool.length, decide t.pool.m_listUseableConn.Nodup)) =
        some (102, false) := by decide
  obtain ⟨t, ht, hpool⟩ := Option.map_eq_some_iff.mp h
  simp only [Prod.mk.injEq, decide_eq_false_iff_not] at hpool
  exact ⟨t, runs_of_exec ht, hpool.1, hpool.2, fun hs => hpool.2 hs.freeNodup⟩

end CppPrivate.Pg
