import CppPrivate.Pg.Keys

/-! The objects through which callers borrow from the connection pool. Their copy operations are
those the compiler makes, and copy the pointer to the borrowed item. -/
namespace CppPrivate.Pg
open Run CPGConnectionPool

structure CPGClientWrap where
  m_pConnItem : Option Nat
  m_pPGClient : Option Nat  -- the client inside the item
  m_sError : Bytes
  m_sConnectionURL : Bytes

namespace CPGClientWrap

def construct (pool : CPGConnectionPool) (r : Request) (a : Answer) :
    Option (CPGConnectionPool × CPGClientWrap) :=
  (pool.getConnection r a).map fun (pool, conn) =>
    match conn.pConnItem with
    | some p => (pool, ⟨some p, some p, [], conn.sConnectionURL⟩)
    | none => (pool, ⟨none, none, conn.sError, conn.sConnectionURL⟩)

def isVaild (w : CPGClientWrap) : Bool := w.m_pPGClient.isSome

/-- A wrapper borrows what the pool gives for its request, and is valid if that is an item. -/
theorem construct_eq {pool : CPGConnectionPool} {r : Request} {a : Answer}
    {u : CPGConnectionPool × CPGClientWrap} (h : construct pool r a = some u) :
    ∃ conn, pool.getConnection r a = some (u.1, conn) ∧ u.2.m_pConnItem = conn.pConnItem ∧
      u.2.isVaild = conn.pConnItem.isSome := by
  obtain ⟨⟨t, conn⟩, hget, rfl⟩ := Option.map_eq_some_iff.mp h
  refine ⟨conn, ?_⟩
  cases hp : conn.pConnItem with
  | none => simp only [hp, hget, isVaild, Option.isSome_none, and_self]
  | some p => simp only [hp, hget, isVaild, Option.isSome_some, and_self]

/-- The destructor; `status` is what the item's connection reports. -/
def destruct (pool : CPGConnectionPool) (w : CPGClientWrap) (status : Bool) (now : UInt64) :
    Option CPGConnectionPool :=
  if w.m_pConnItem.isSome then pool.returnConnection w.m_pConnItem status now else some pool

end CPGClientWrap

/-- A wrapper, with the number of the construction its item comes from. -/
structure Wrapper where
  wrap : CPGClientWrap
  loan : Nat

def Wrapper.holds (w : Wrapper) : Option (Nat × Nat) := w.wrap.m_pConnItem.map (·, w.loan)

/-- The pool and its wrappers, those that are destroyed left out of their places. -/
structure Wrappers where
  pool : CPGConnectionPool
  wraps : List (Option Wrapper)
  constructed : Nat
  returned : List Nat  -- the loans for which an item was given back

inductive WrapOp where
  | construct (r : Request) (a : Answer)
  | copy (source : Nat)
  | assign (target source : Nat)
  | destruct (i : Nat) (status : Bool) (now : UInt64)
  | checkConnection (answers : Nat → Check)
  | setMaxConnectionCnt (nCount : UInt32)
  | setTimeout (nTimeout : UInt32)

namespace Wrappers

def new (nUsed : UInt32) : Wrappers := ⟨.new nUsed, [], 0, []⟩

def live (s : Wrappers) (i : Nat) : Option Wrapper := s.wraps[i]?.join

/-- No result: the wrapper named does not live, or the pool uses a deleted item. -/
def step (s : Wrappers) : WrapOp → Option Wrappers
  | .construct r a => (CPGClientWrap.construct s.pool r a).map fun (pool, wrap) =>
    { s with pool, wraps := s.wraps ++ [some ⟨wrap, s.constructed⟩]
             constructed := s.constructed + 1 }
  | .copy source => (s.live source).map fun w => { s with wraps := s.wraps ++ [some w] }
  | .assign target source => do
    let _ ← s.live target
    let w ← s.live source
    some { s with wraps := s.wraps.set target (some w) }
  | .destruct i status now => do
    let w ← s.live i
    let pool ← w.wrap.destruct s.pool status now
    some { s with pool, wraps := s.wraps.set i none
                  returned := (w.holds.map Prod.snd).toList ++ s.returned }
  | .checkConnection answers =>
    (s.pool.checkConnection answers).map fun pool => { s with pool }
  | .setMaxConnectionCnt nCount => some { s with pool := s.pool.setMaxConnectionCnt nCount }
  | .setTimeout nTimeout => some { s with pool := s.pool.setTimeout nTimeout }

def held (s : Wrappers) : List (Nat × Nat) := s.wraps.flatMap fun w => (w.bind Wrapper.holds).toList

end Wrappers

/-- Each loan ends once at most, and two wrappers hold one item only as copies of each other. -/
structure LentOnce (s : Wrappers) : Prop where
  returnedOnce : s.returned.Nodup
  oneLoan : ∀ i j v w p, s.live i = some v → s.live j = some w → v.wrap.m_pConnItem = some p →
    w.wrap.m_pConnItem = some p → v.loan = w.loan

/-- A wrapper that holds an item is not copied. -/
def KeepsItem (s : Wrappers) : WrapOp → Prop
  | .copy source => ∀ w ∈ s.live source, w.wrap.m_pConnItem = none
  | .assign _ source => ∀ w ∈ s.live source, w.wrap.m_pConnItem = none
  | _ => True

instance (s : Wrappers) : (op : WrapOp) → Decidable (KeepsItem s op)
  | .copy source => inferInstanceAs (Decidable (∀ w ∈ s.live source, w.wrap.m_pConnItem = none))
  | .assign _ source => inferInstanceAs (Decidable (∀ w ∈ s.live source, w.wrap.m_pConnItem = none))
  | .construct .. | .destruct .. | .checkConnection .. | .setMaxConnectionCnt .. | .setTimeout .. =>
    inferInstanceAs (Decidable True)

/-- No item that is out is idle in the pool as well. Items may be deleted on their return. -/
structure Out (s : CPGConnectionPool) (items : List Nat) : Prop where
  filed : Filed Set.univ s
  nodup : ∀ k, (idleAt s.m_mapUseableConn k).Nodup
  idle : ∀ k, ∀ x ∈ idleAt s.m_mapUseableConn k, ∀ p,
    at? s.m_vecConnPool x = some (some p) → p ∉ items
  once : items.Nodup
  known : ∀ p ∈ items, p < s.heap.next

namespace Out
variable {s t : CPGConnectionPool} {items : List Nat} {p : Nat} {item : ConnItem}

theorem new (nUsed : UInt32) : Out (.new nUsed) [] where
  filed := .new nUsed
  nodup := by simp [CPGConnectionPool.new, idleAt]
  idle := by simp
  once := List.nodup_nil
  known := by simp

theorem perm {items' : List Nat} (h : Out s items) (hp : items.Perm items') : Out s items' where
  filed := h.filed
  nodup := h.nodup
  idle := fun k x hx p hxp hin => h.idle k x hx p hxp (hp.mem_iff.mpr hin)
  once := hp.nodup_iff.mp h.once
  known := fun p hin => h.known p (hp.mem_iff.mpr hin)

/-- A pool whose idle lists have only lost entries. -/
theorem mono (h : Out s items) (hfiled : Filed Set.univ t)
    (hmap : ∀ k, (idleAt t.m_mapUseableConn k).Sublist (idleAt s.m_mapUseableConn k))
    (hvec : ∀ k, ∀ x ∈ idleAt s.m_mapUseableConn k, ∀ p,
      at? t.m_vecConnPool x = some (some p) →
        at? s.m_vecConnPool x = some (some p))
    (hnext : s.heap.next ≤ t.heap.next) : Out t items where
  filed := hfiled
  nodup := fun k => (h.nodup k).sublist (hmap k)
  idle := fun k x hx p hp => h.idle k x ((hmap k).subset hx) p (hvec k x ((hmap k).subset hx) p hp)
  once := h.once
  known := fun p hin => Nat.lt_of_lt_of_le (h.known p hin) hnext

theorem removed_sublist {m : MapUseabledConnection} {key : Bytes} {x : Int} (k : Bytes) :
    (idleAt (fun k => if k = key then (m k).map (removeIndex · x) else m k) k).Sublist
      (idleAt m k) := by
  rw [idleAt_remove]
  split
  · exact List.filter_sublist
  · exact List.Sublist.refl _

theorem takeIdle (h : Out s items) {key : Bytes} {i : Int} {rest : ListUseabledConnection}
    (hl : s.m_mapUseableConn key = some (i :: rest)) {u : CPGConnectionPool × Connection}
    (hu : s.takeIdle key i rest = some u) (hfiled : Filed Set.univ u.1) :
    Out u.1 (u.2.pConnItem.toList ++ items) := by
  have hlist := idleAt_eq hl
  obtain ⟨p, item, hat, hc, hkey⟩ := h.filed.idle key i (by simp [hlist])
  simp only [CPGConnectionPool.takeIdle, hat, hc, Option.map_some, Option.some.injEq] at hu
  subst hu
  refine ⟨hfiled, nodup_idleAt_update hlist h.nodup, ?_, ?_, ?_⟩
  · intro k x hx q hq
    obtain ⟨hold, hne⟩ := mem_idleAt_update hlist (h.nodup key) hx
    have hqp : q ≠ p := by
      intro he
      subst he
      -- its item stands at one index only, and under its own key
      have hxi : x = i := (h.filed.index x q item hq hc).symm.trans (h.filed.index i q item hat hc)
      obtain ⟨q', item', hq', hc', hk⟩ := h.filed.idle k x hold
      rw [hq] at hq'
      cases hq'
      rw [hc] at hc'
      cases hc'
      exact hne (hk.symm.trans hkey) hxi
    simp [hqp, h.idle k x hold q hq]
  · exact List.nodup_cons.mpr ⟨h.idle key i (by simp [hlist]) p hat, h.once⟩
  · intro q hq
    cases List.mem_cons.mp hq with
    | inl heq =>
      subst heq
      exact h.filed.known i q hat
    | inr hq => exact h.known q hq

theorem install (h : Out s items) {r : Request} {a : Answer} {client : CPGClient} {i : Int}
    {rest : ListUseabledConnection} (hi : at? s.m_vecConnPool i = some none)
    (hfiled : Filed Set.univ (s.install r a client i rest).1) :
    Out (s.install r a client i rest).1 (s.heap.next :: items) := by
  have hi0 := (at?_lt hi).1
  have hnew : s.heap.next ∉ items := fun hin => Nat.lt_irrefl _ (h.known _ hin)
  refine ⟨hfiled, h.nodup, ?_, List.nodup_cons.mpr ⟨hnew, h.once⟩, ?_⟩
  · intro k x hx p hp
    obtain ⟨q, -, hq, -⟩ := h.filed.idle k x hx
    have hxi : x ≠ i := by
      intro he
      subst he
      rw [hi] at hq
      cases hq
    rw [CPGConnectionPool.install, at?_set_ne hi0 hxi] at hp
    have hpn : p ≠ s.heap.next := Nat.ne_of_lt (h.filed.known x p hp)
    simp [hpn, h.idle k x hx p hp]
  · intro p hp
    have hnext : (s.install r a client i rest).1.heap.next = s.heap.next + 1 := rfl
    cases List.mem_cons.mp hp with
    | inl heq => omega
    | inr hp =>
      have := h.known p hp
      omega

theorem getConnection (h : Out s items) {r : Request} {a : Answer}
    {u : CPGConnectionPool × Connection} (hu : s.getConnection r a = some u) :
    Out u.1 (u.2.pConnItem.toList ++ items) := by
  have hfiled := (h.filed.getConnection trivial hu).1
  rcases getConnection_cases hu with ⟨he, hn⟩ | ⟨i, rest, hl, hu⟩ |
    ⟨i, rest, client, -, hi, -, rfl⟩
  · rw [he, hn]
    exact h
  · exact h.takeIdle hl hu hfiled
  · exact h.install hi hfiled

theorem returnConnection (h : Out s items) (hp : p ∈ items) {status : Bool} {now : UInt64}
    (ht : s.returnConnection (some p) status now = some t) : Out t (items.erase p) := by
  have hfiled := h.filed.returnConnection ht
  obtain ⟨item, hc, rfl⟩ := Option.map_eq_some_iff.mp ht
  have hat := h.filed.placed p item hc
  have herase : ∀ {q}, q ∉ items → q ∉ items.erase p :=
    fun hq hin => hq (List.mem_of_mem_erase hin)
  have hnew : ∀ k, item.nPoolIndex ∉ idleAt s.m_mapUseableConn k :=
    fun k hx => h.idle k _ hx p hat hp
  cases status with
  | false =>
    simp only [Bool.false_eq_true, if_false] at hfiled ⊢
    refine ⟨hfiled, fun k => (h.nodup k).sublist (removed_sublist k), ?_, h.once.erase p,
      fun q hq => h.known q (List.mem_of_mem_erase hq)⟩
    intro k x hx q hq
    exact herase (h.idle k x ((removed_sublist k).subset hx) q hq)
  | true =>
    simp only [if_true] at hfiled ⊢
    refine ⟨hfiled, nodup_idleAt_append hnew h.nodup, ?_, h.once.erase p,
      fun q hq => h.known q (List.mem_of_mem_erase hq)⟩
    intro k x hx q hq
    cases mem_idleAt_append hx with
    | inl hx => exact herase (h.idle k x hx q hq)
    | inr hcase =>
      obtain ⟨-, rfl⟩ := hcase
      rw [hat] at hq
      cases hq
      exact h.once.not_mem_erase

theorem checkConnection (h : Out s items) {answers : Nat → Check}
    (ht : s.checkConnection answers = some t) : Out t items := by
  refine foldlM_invariant (Out · items) ?_ ht h
  intro u n v hu hv
  rcases checkSlot_cases hv with rfl | ⟨p, item, hn, hc, -, rfl | rfl⟩
  · exact hu
  · exact hu.mono (hu.filed.drop hn hc) removed_sublist
      (fun _ _ _ _ hq => (of_at?_set hq (by simp)).2) (Nat.le_refl _)
  · exact hu.mono (hu.filed.touch fun d => ⟨rfl, rfl, target_ping _ _⟩)
      (fun _ => List.Sublist.refl _) (fun _ _ _ _ hq => hq) (Nat.le_refl _)

theorem setMaxConnectionCnt (h : Out s items) (nCount : UInt32) :
    Out (s.setMaxConnectionCnt nCount) items := by
  have hfiled := h.filed.setMaxConnectionCnt nCount
  have hmap : (s.setMaxConnectionCnt nCount).m_mapUseableConn = s.m_mapUseableConn ∧
      (s.setMaxConnectionCnt nCount).heap = s.heap := by
    rw [CPGConnectionPool.setMaxConnectionCnt]
    split <;> exact ⟨rfl, rfl⟩
  refine h.mono hfiled (fun k => by rw [hmap.1]) ?_ (Nat.le_of_eq (by rw [hmap.2]))
  intro k x hx p hp
  -- the slot of an idle index was there before, with the same item
  obtain ⟨q, -, hq, -⟩ := h.filed.idle k x hx
  have hkeep : at? (s.setMaxConnectionCnt nCount).m_vecConnPool x = some (some q) := by
    rw [CPGConnectionPool.setMaxConnectionCnt]
    split
    · exact at?_append _ hq
    · exact hq
  rw [hkeep] at hp
  rw [hq, Option.some.inj hp]

end Out

/-- The items that are held are out, each under a loan of its own that has not ended. -/
structure Held (pool : CPGConnectionPool) (held : List (Nat × Nat)) (returned : List Nat)
    (constructed : Nat) : Prop where
  out : Out pool (held.map Prod.fst)
  loans : (held.map Prod.snd ++ returned).Nodup
  made : ∀ l ∈ held.map Prod.snd ++ returned, l < constructed

namespace Held
variable {pool t : CPGConnectionPool} {held : List (Nat × Nat)} {returned : List Nat}
  {constructed p l : Nat}

theorem new (nUsed : UInt32) : Held (.new nUsed) [] [] 0 := ⟨.new nUsed, by simp, by simp⟩

theorem perm {held' : List (Nat × Nat)} (h : Held pool held returned constructed)
    (hp : held.Perm held') : Held pool held' returned constructed := by
  have hloans := (hp.map Prod.snd).append_right returned
  exact ⟨h.out.perm (hp.map _), hloans.nodup_iff.mp h.loans,
    fun l hl => h.made l (hloans.mem_iff.mpr hl)⟩

/-- An item nobody knows any more stays out for good. -/
theorem forget (h : Held pool ((p, l) :: held) returned constructed) :
    Held pool held returned constructed where
  out := ⟨h.out.filed, h.out.nodup,
    fun k x hx q hq hin => h.out.idle k x hx q hq (List.mem_cons_of_mem _ hin),
    (List.nodup_cons.mp h.out.once).2, fun q hq => h.out.known q (List.mem_cons_of_mem _ hq)⟩
  loans := (List.nodup_cons.mp h.loans).2
  made := fun m hm => h.made m (List.mem_cons_of_mem _ hm)

theorem lend (h : Held pool held returned constructed) (hout : Out t (p :: held.map Prod.fst)) :
    Held t ((p, constructed) :: held) returned (constructed + 1) where
  out := hout
  loans := List.nodup_cons.mpr ⟨fun hin => Nat.lt_irrefl _ (h.made _ hin), h.loans⟩
  made := by
    intro l hl
    cases List.mem_cons.mp hl with
    | inl heq => omega
    | inr hl => exact Nat.lt_succ_of_lt (h.made l hl)

theorem giveBack (h : Held pool ((p, l) :: held) returned constructed) {status : Bool}
    {now : UInt64} (ht : pool.returnConnection (some p) status now = some t) :
    Held t held (l :: returned) constructed := by
  have hout := h.out.returnConnection List.mem_cons_self ht
  rw [List.map_cons, List.erase_cons_head] at hout
  have hperm : (held.map Prod.snd ++ l :: returned).Perm (l :: (held.map Prod.snd ++ returned)) :=
    List.perm_middle
  exact ⟨hout, hperm.nodup_iff.mpr h.loans, fun m hm => h.made m (hperm.mem_iff.mp hm)⟩

/-- The pool changes behind the wrappers. -/
theorem behind (h : Held pool held returned constructed) (hout : Out t (held.map Prod.fst)) :
    Held t held returned constructed := ⟨hout, h.loans, h.made⟩

end Held

namespace Wrappers
variable {s t : Wrappers} {i : Nat} {v : Wrapper}

theorem live_get (h : s.live i = some v) : s.wraps[i]? = some (some v) := by
  simpa [live, Option.join_eq_some_iff] using h

/-- What is held when a wrapper gives its place to another one, or to none. -/
theorem held_set (h : s.live i = some v) (w : Option Wrapper) :
    ((s.wraps.set i w).flatMap (fun w => (w.bind Wrapper.holds).toList) ++ v.holds.toList).Perm
      (s.held ++ (w.bind Wrapper.holds).toList) :=
  flatMap_set_perm (fun w : Option Wrapper => (w.bind Wrapper.holds).toList) w (live_get h)

theorem held_append (s : Wrappers) (w : Wrapper) :
    (s.wraps ++ [some w]).flatMap (fun w => (w.bind Wrapper.holds).toList) =
      s.held ++ w.holds.toList := by
  simp [held]

def Sound (s : Wrappers) : Prop := Held s.pool s.held s.returned s.constructed

theorem Sound.construct (h : s.Sound) {r : Request} {a : Answer}
    (hs : s.step (.construct r a) = some t) : t.Sound := by
  obtain ⟨⟨pool, wrap⟩, hu, rfl⟩ := Option.map_eq_some_iff.mp hs
  obtain ⟨conn, hget, hitem, -⟩ := CPGClientWrap.construct_eq hu
  have hout := h.out.getConnection hget
  rw [Sound, held]
  rw [held_append, Wrapper.holds, hitem]
  cases hconn : conn.pConnItem with
  | none =>
    rw [hconn] at hout
    rw [Option.map_none, Option.toList_none, List.append_nil]
    exact ⟨hout, h.loans, fun l hl => Nat.lt_succ_of_lt (h.made l hl)⟩
  | some p =>
    rw [hconn] at hout
    exact (h.lend hout).perm (List.perm_append_singleton _ _).symm

theorem Sound.copy (h : s.Sound) {source : Nat} (hk : KeepsItem s (.copy source))
    (hs : s.step (.copy source) = some t) : t.Sound := by
  obtain ⟨w, hw, rfl⟩ := Option.map_eq_some_iff.mp hs
  have hnone : w.holds = none := by
    rw [Wrapper.holds, hk w hw]
    rfl
  rw [Sound, held]
  rw [held_append, hnone, Option.toList_none, List.append_nil]
  exact h

theorem Sound.assign (h : s.Sound) {target source : Nat} (hk : KeepsItem s (.assign target source))
    (hs : s.step (.assign target source) = some t) : t.Sound := by
  obtain ⟨v, hv, hs⟩ := Option.bind_eq_some_iff.mp hs
  obtain ⟨w, hw, hs⟩ := Option.bind_eq_some_iff.mp hs
  obtain rfl := Option.some.inj hs
  have hnone : w.holds = none := by
    rw [Wrapper.holds, hk w hw]
    rfl
  have hperm := held_set hv (some w)
  simp only [Option.bind_some, hnone, Option.toList_none, List.append_nil] at hperm
  cases hv : v.holds with
  | none =>
    rw [hv, Option.toList_none, List.append_nil] at hperm
    exact Held.perm h hperm.symm
  | some e =>
    rw [hv] at hperm
    exact (Held.perm h (hperm.symm.trans (List.perm_append_singleton _ _))).forget

theorem Sound.destruct (h : s.Sound) {i : Nat} {status : Bool} {now : UInt64}
    (hs : s.step (.destruct i status now) = some t) : t.Sound := by
  obtain ⟨v, hv, hs⟩ := Option.bind_eq_some_iff.mp hs
  obtain ⟨pool, hpool, hs⟩ := Option.bind_eq_some_iff.mp hs
  obtain rfl := Option.some.inj hs
  have hperm := held_set hv none
  simp only [Option.bind_none, Option.toList_none, List.append_nil] at hperm
  rw [CPGClientWrap.destruct] at hpool
  cases hitem : v.wrap.m_pConnItem with
  | none =>
    rw [hitem] at hpool
    obtain rfl := Option.some.inj hpool
    have hnone : v.holds = none := by rw [Wrapper.holds, hitem]; rfl
    rw [hnone, Option.toList_none, List.append_nil] at hperm
    rw [Sound]
    rw [hnone]
    exact Held.perm h hperm.symm
  | some p =>
    rw [hitem] at hpool
    have hsome : v.holds = some (p, v.loan) := by rw [Wrapper.holds, hitem]; rfl
    rw [hsome] at hperm
    rw [Sound]
    rw [hsome]
    exact (Held.perm h (hperm.symm.trans (List.perm_append_singleton _ _))).giveBack hpool

theorem Sound.step (h : s.Sound) {op : WrapOp} (hk : KeepsItem s op) (hs : s.step op = some t) :
    t.Sound := by
  cases op with
  | construct r a => exact h.construct hs
  | copy source => exact h.copy hk hs
  | assign target source => exact h.assign hk hs
  | destruct i status now => exact h.destruct hs
  | checkConnection answers =>
    obtain ⟨u, hu, rfl⟩ := Option.map_eq_some_iff.mp hs
    exact h.behind (h.out.checkConnection hu)
  | setMaxConnectionCnt nCount =>
    cases hs
    exact h.behind (h.out.setMaxConnectionCnt nCount)
  | setTimeout nTimeout =>
    cases hs
    exact h.behind (h.out.mono (h.out.filed.congr rfl rfl rfl) (fun _ => List.Sublist.refl _)
      (fun _ _ _ _ hq => hq) (Nat.le_refl _))

theorem mem_held {p : Nat} (h : s.live i = some v) (hp : v.wrap.m_pConnItem = some p) :
    (p, v.loan) ∈ s.held := by
  refine List.mem_flatMap.mpr ⟨some v, List.mem_of_getElem? (live_get h), ?_⟩
  simp [Wrapper.holds, hp]

theorem Sound.lentOnce (h : s.Sound) : LentOnce s where
  returnedOnce := (List.nodup_append.mp h.loans).2.1
  oneLoan := by
    intro i j v w p hv hw hvp hwp
    have heq := List.inj_on_of_nodup_map h.out.once (mem_held hv hvp) (mem_held hw hwp) rfl
    exact (Prod.mk.inj heq).2

end Wrappers

/-- As long as no wrapper is copied while it holds an item, each loan ends once at most and no
item is lent to two constructions at the same time. -/
theorem items_lent_once {nUsed : UInt32} {ops : List WrapOp} {t : Wrappers}
    (h : Runs Wrappers.step KeepsItem (.new nUsed) ops t) : LentOnce t :=
  have hnew : (Wrappers.new nUsed).Sound := Held.new nUsed
  (h.invariant Wrappers.Sound hnew fun _ _ _ hi hk hs => hi.step hk hs).lentOnce

def anyRequest : Request :=
  ⟨bytes "h", bytes "1", bytes "u", bytes "p", bytes "d", 10, PG_DISABLE_SSL⟩

/-- A wrapper without an item is copied, another one comes back broken, and the pool is swept. -/
theorem items_lent_once_broken : ∃ t, Runs Wrappers.step KeepsItem (.new 0)
    [.construct anyRequest ⟨false, [], 0, 0⟩, .copy 0, .construct anyRequest ⟨true, [], 0, 0⟩,
      .construct anyRequest ⟨true, [], 0, 0⟩, .assign 1 0, .destruct 2 true 5,
      .construct anyRequest ⟨true, [], 0, 0⟩, .destruct 3 false 6] t ∧ LentOnce t := by
  have h : (exec Wrappers.step KeepsItem (.new 0)
      [.construct anyRequest ⟨false, [], 0, 0⟩, .copy 0, .construct anyRequest ⟨true, [], 0, 0⟩,
        .construct anyRequest ⟨true, [], 0, 0⟩, .assign 1 0, .destruct 2 true 5,
        .construct anyRequest ⟨true, [], 0, 0⟩, .destruct 3 false 6]).isSome := by decide +kernel
  obtain ⟨t, ht⟩ := Option.isSome_iff_exists.mp h
  exact ⟨t, runs_of_exec ht, items_lent_once (runs_of_exec ht)⟩

/-- A copy outlives its original: the item goes to the next construction while the copy holds it,
and the copy gives it back for the second time. -/
theorem copied_wrapper_shares :
    (∃ t, Runs Wrappers.step (fun _ _ => True) (.new 0) [.construct anyRequest ⟨true, [], 0, 0⟩,
        .copy 0, .destruct 0 true 5, .construct anyRequest ⟨true, [], 0, 0⟩] t ∧
      (t.live 1).bind Wrapper.holds = some (0, 0) ∧ (t.live 2).bind Wrapper.holds = some (0, 1)) ∧
    ∃ t, Runs Wrappers.step (fun _ _ => True) (.new 0) [.construct anyRequest ⟨true, [], 0, 0⟩,
        .copy 0, .destruct 0 true 5, .construct anyRequest ⟨true, [], 0, 0⟩, .destruct 1 true 6] t ∧
      t.returned = [0, 0] ∧ ¬LentOnce t := by
  have hheld : ((exec Wrappers.step (fun _ _ => True) (.new 0)
      [.construct anyRequest ⟨true, [], 0, 0⟩, .copy 0, .destruct 0 true 5,
        .construct anyRequest ⟨true, [], 0, 0⟩]).any fun t =>
      decide ((t.live 1).bind Wrapper.holds = some (0, 0) ∧
        (t.live 2).bind Wrapper.holds = some (0, 1))) = true := by decide +kernel
  have hreturned : ((exec Wrappers.step (fun _ _ => True) (.new 0)
      [.construct anyRequest ⟨true, [], 0, 0⟩, .copy 0, .destruct 0 true 5,
        .construct anyRequest ⟨true, [], 0, 0⟩, .destruct 1 true 6]).any fun t =>
      decide (t.returned = [0, 0])) = true := by decide +kernel
  constructor
  · obtain ⟨t, ht, hp⟩ := exists_of_exec hheld
    exact ⟨t, ht, of_decide_eq_true hp⟩
  · obtain ⟨t, ht, hp⟩ := exists_of_exec hreturned
    have hlog : t.returned = [0, 0] := of_decide_eq_true hp
    refine ⟨t, ht, hlog, fun hlent => ?_⟩
    have hnodup := hlent.returnedOnce
    rw [hlog] at hnodup
    exact absurd hnodup (by decide)

end CppPrivate.Pg
