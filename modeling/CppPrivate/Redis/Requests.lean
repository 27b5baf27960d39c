import CppPrivate.Redis.Partition

/-! Which connection a request on the Redis pool is given. Idle clients are filed under one
string, in which the mode and the password do not show. -/
namespace CppPrivate.Redis
open Run CRedisClientPool

namespace CRedisClient
variable {a b : CRedisClient}

/-- The string the client of a connection is filed under. -/
def hostString (c : CRedisClient) : Bytes :=
  if c.bCluster then c.address else createHostString c.address c.port

/-- A cluster's address has no port of its own. -/
def Made (c : CRedisClient) : Prop := c.bCluster = true → c.port = 0

end CRedisClient

theorem createHostString_inj {ip ip' : Bytes} {port port' : Int}
    (h : createHostString ip port = createHostString ip' port') : ip = ip' ∧ port = port' := by
  have hcolon : ∀ n : Int, (58 : UInt8) ∉ (decimal n).reverse := by
    intro n hmem
    cases mem_decimal (List.mem_reverse.mp hmem) with
    | inl hd => exact absurd hd (by decide)
    | inr hd => exact absurd hd (by decide)
  have hrev := congrArg List.reverse h
  have hbytes : bytes ":" = [58] := rfl
  simp only [createHostString, hbytes, List.reverse_append, List.reverse_singleton,
    List.singleton_append] at hrev
  obtain ⟨hport, hip⟩ := cut_inj (hcolon port) (hcolon port') hrev
  exact ⟨List.reverse_injective hip, decimal_inj (List.reverse_injective hport)⟩

/-- Within one mode the string tells the addresses apart. -/
theorem CRedisClient.hostString_inj {a b : CRedisClient} (ha : a.Made) (hb : b.Made)
    (hmode : a.bCluster = b.bCluster) (h : a.hostString = b.hostString) :
    a.address = b.address ∧ a.port = b.port := by
  unfold hostString at h
  cases hc : b.bCluster with
  | true =>
    rw [hmode, hc] at h
    exact ⟨h, by rw [ha (hmode.trans hc), hb hc]⟩
  | false =>
    rw [hmode, hc] at h
    exact createHostString_inj h

/-- A request for a client, with what it is connected with. -/
inductive Request where
  | getClient (ip : Bytes) (port : Int) (passwd : Bytes)
  | getClusterClient (strHost passwd : Bytes)

namespace Request

def asked : Request → CRedisClient
  | .getClient ip port passwd => ⟨false, ip, port, passwd⟩
  | .getClusterClient strHost passwd => ⟨true, strHost, 0, passwd⟩

def op : Request → Op
  | .getClient ip port passwd => .getClient ip port passwd true 0
  | .getClusterClient strHost passwd => .getClusterClient strHost passwd true 0

theorem made (r : Request) : r.asked.Made := by
  cases r with
  | getClient => exact nofun
  | getClusterClient => exact fun _ => rfl

end Request

theorem CRedisClient.eq_of_hostString {a b : CRedisClient} (ha : a.Made) (hb : b.Made)
    (hmode : a.bCluster = b.bCluster) (hpasswd : a.passwd = b.passwd)
    (h : a.hostString = b.hostString) : a = b := by
  obtain ⟨haddr, hport⟩ := hostString_inj ha hb hmode h
  cases a
  cases b
  simp_all

def Op.asked : Op → Option CRedisClient
  | .getClient ip port passwd _ _ => some ⟨false, ip, port, passwd⟩
  | .getClusterClient strHost passwd _ _ => some ⟨true, strHost, 0, passwd⟩
  | _ => none

namespace CRedisClientPool

/-- A request for a client, with the pool and the client it leads to. -/
def take (s : CRedisClientPool) : Op → Option (CRedisClientPool × Option Nat)
  | .getClient ip port passwd connected now => s.getClient ip port passwd connected now
  | .getClusterClient strHost passwd connected now =>
    s.getClusterClient strHost passwd connected now
  | _ => none

/-- The two kinds of request differ in the connection they make. -/
theorem take_eq {op : Op} {asked : CRedisClient} (h : op.asked = some asked)
    (s : CRedisClientPool) : asked.Made ∧ ∃ connected now,
      s.take op = s.takeClient asked.hostString asked connected now := by
  cases op with
  | getClient ip port passwd connected now =>
    obtain rfl := Option.some.inj h
    exact ⟨fun hc => Bool.noConfusion hc, connected, now, rfl⟩
  | getClusterClient strHost passwd connected now =>
    obtain rfl := Option.some.inj h
    exact ⟨fun _ => rfl, connected, now, rfl⟩
  | returnClient | checkConnection | setClientCnt | setTimeout => cases h

/-- The pool after a call. A client may be returned by anyone and more than once. -/
def after (s : CRedisClientPool) : Op → Option CRedisClientPool
  | .returnClient pClient now => s.returnClient pClient now
  | .checkConnection now ping => s.checkConnection now ping
  | .setClientCnt nCnt => s.setClientCnt nCnt
  | .setTimeout nTimeout => some (s.setTimeout nTimeout)
  | op => (s.take op).map Prod.fst

/-- The connection a call asks for and that of the client it hands out, if it does. -/
def given (s : CRedisClientPool) (op : Op) : Option (CRedisClient × CRedisClient) := do
  let asked ← op.asked
  let (pool, p) ← s.take op
  let p ← p
  let c ← pool.heap.cell p
  some (asked, c.m_Client)

/-- The idle client a request would be given, with the string it is filed under. -/
def idleFor (s : CRedisClientPool) (host : Bytes) : Option (Bytes × CRedisClient) := do
  let (key, l) ← s.getUseableList host
  let i ← l.head?
  let slot ← at? s.m_VecClient i
  let p ← slot
  let c ← s.heap.cell p
  some (key, c.m_Client)

end CRedisClientPool

/-- The pool with the answers it has given. -/
structure Recorded where
  pool : CRedisClientPool
  answers : List (CRedisClient × CRedisClient)

namespace Recorded

def new : Recorded := ⟨.new, []⟩

def step (s : Recorded) (op : Op) : Option Recorded :=
  (s.pool.after op).map fun t => ⟨t, (s.pool.given op).toList ++ s.answers⟩

/-- Every client was handed out to a request for its connection: mode, address, port and
password. -/
def Matching (s : Recorded) : Prop := ∀ e ∈ s.answers, e.2 = e.1

end Recorded

/-- A call asks for nothing but what a request of `R` asks for. -/
def Op.From (R : Set Request) (op : Op) : Prop := ∀ asked ∈ op.asked, ∃ r ∈ R, r.asked = asked

/-- In every run of calls with requests of `R` the clients are connected as asked. -/
def MatchesRequests (R : Set Request) : Prop :=
  ∀ ops t, Runs Recorded.step (fun _ op => op.KeepsSize ∧ op.From R) .new ops t → t.Matching

/-- The host strings tell the requests apart: where two are equal the modes and the passwords are
as well, and the reserved one is nobody's or everybody's. -/
def TellsApart (R : Set Request) : Prop :=
  (∀ r ∈ R, ∀ r' ∈ R, r.asked.hostString = r'.asked.hostString →
    r.asked.bCluster = r'.asked.bCluster ∧ r.asked.passwd = r'.asked.passwd) ∧
  ((∃ r ∈ R, r.asked.hostString = nullHost) → ∀ r ∈ R, r.asked.hostString = nullHost)

/-- A client is filed under the string of its own connection only, and an empty slot in one list
at most, once. -/
structure Addressed (s : CRedisClientPool) : Prop where
  size : s.m_VecClient.length = s.m_nCurClientCnt.toNat
  slot : ∀ (n p : Nat), s.m_VecClient[n]? = some (some p) → ∃ c, s.heap.cell p = some c ∧
    c.m_Index = n ∧ c.m_Client.Made ∧ c.m_Client.hostString = c.m_Host
  live : ∀ p c, s.heap.cell p = some c → ∃ n : Nat, s.m_VecClient[n]? = some (some p)
  filed : ∀ k, ∀ x ∈ listAt s.m_MapUseable k, ∀ p, at? s.m_VecClient x = some (some p) →
    ∃ c, s.heap.cell p = some c ∧ c.m_Host = k
  apart : ∀ k k' x, at? s.m_VecClient x = some none → x ∈ listAt s.m_MapUseable k →
    x ∈ listAt s.m_MapUseable k' → k = k'
  once : ∀ k x, at? s.m_VecClient x = some none → (listAt s.m_MapUseable k).count x ≤ 1

namespace Addressed
variable {s : CRedisClientPool} {host key : Bytes} {i : Int} {rest : ListUseableIndex} {n p : Nat}
  {c : CRedisClientEx}

theorem slot_inj (h : Addressed s) {m n p : Nat} (hm : s.m_VecClient[m]? = some (some p))
    (hn : s.m_VecClient[n]? = some (some p)) : m = n := by
  refine s.heap.place_inj (·.m_Index) (fun n p hp => ?_) hm hn
  obtain ⟨c, hc, hi, -⟩ := h.slot n p hp
  exact ⟨c, hc, hi⟩

theorem index_eq (h : Addressed s) (hp : s.m_VecClient[n]? = some (some p))
    (hc : s.heap.cell p = some c) : c.m_Index = n := by
  obtain ⟨c', hc', hci, -⟩ := h.slot n p hp
  rw [hc] at hc'
  cases hc'
  exact hci

theorem at_index (h : Addressed s) (hp : s.m_VecClient[n]? = some (some p))
    (hc : s.heap.cell p = some c) : at? s.m_VecClient c.m_Index = some (some p) := by
  rw [h.index_eq hp hc, at?_natCast, hp]

theorem new : Addressed CRedisClientPool.new where
  size := by decide
  slot := by
    intro n p hp
    have := List.getElem?_eq_some_iff.mp hp
    simp [CRedisClientPool.new] at this
  live := by
    intro p c hc
    simp [CRedisClientPool.new] at hc
  filed := by
    intro k x _ p hp
    obtain ⟨-, hv⟩ := at?_eq_some.mp hp
    have := List.getElem?_eq_some_iff.mp hv
    simp [CRedisClientPool.new] at this
  apart := by
    have hkey : ∀ {k x}, x ∈ listAt CRedisClientPool.new.m_MapUseable k → k = nullHost := by
      intro k x hx
      by_contra hk
      simp [CRedisClientPool.new, listAt, hk] at hx
    exact fun k k' x _ hk hk' => (hkey hk).trans (hkey hk').symm
  once := fun k _ _ => List.nodup_iff_count_le_one.mp (Exclusive.new.nodup k) _

/-- What is left in the lists when the head of one is taken off. -/
theorem mem_popped (hl : s.getUseableList host = some (key, i :: rest)) {k : Bytes} {x : Int}
    (hx : x ∈ listAt (popFront s.m_MapUseable host key rest) k) : x ∈ listAt s.m_MapUseable k := by
  rw [listAt_popFront hl] at hx
  split at hx
  · rename_i hk
    rw [hk, listAt_useable hl]
    exact List.mem_cons_of_mem _ hx
  · exact hx

theorem count_popped (h : Addressed s) (hl : s.getUseableList host = some (key, i :: rest))
    {x : Int} (hx : at? s.m_VecClient x = some none) (k : Bytes) :
    (listAt (popFront s.m_MapUseable host key rest) k).count x ≤ 1 := by
  have hle := h.once k x hx
  rw [listAt_popFront hl]
  split
  · rename_i hk
    rw [hk, listAt_useable hl] at hle
    exact Nat.le_trans List.count_le_count_cons hle
  · exact hle

/-- The index of an empty slot is in no list once it is taken off its own. -/
theorem not_mem_popped (h : Addressed s) (hl : s.getUseableList host = some (key, i :: rest))
    (hi : at? s.m_VecClient i = some none) (k : Bytes) :
    i ∉ listAt (popFront s.m_MapUseable host key rest) k := by
  intro hx
  have hkey : i ∈ listAt s.m_MapUseable key := by simp [listAt_useable hl]
  have hk := h.apart k key i hi (mem_popped hl hx) hkey
  have hle := h.once key i hi
  rw [hk, listAt_popFront hl, if_pos rfl] at hx
  rw [listAt_useable hl, List.count_cons_self] at hle
  have := List.count_pos_iff.mpr hx
  omega

theorem handNew (h : Addressed s) (hl : s.getUseableList host = some (key, i :: rest))
    (hi : at? s.m_VecClient i = some none) {client : CRedisClient} (hmade : client.Made)
    (hhost : client.hostString = host) {now : UInt64} :
    Addressed (s.handNew host key rest i client now) := by
  obtain ⟨hi0, hilen⟩ := at?_lt hi
  have hself : (s.m_VecClient.set i.toNat (some s.heap.next))[i.toNat]? = some (some s.heap.next) :=
    List.getElem?_set_self (by omega)
  -- every other index finds in its slot what was there before
  have hother : ∀ {k x}, x ∈ listAt (popFront s.m_MapUseable host key rest) k →
      at? (s.handNew host key rest i client now).m_VecClient x = at? s.m_VecClient x := by
    intro k x hx
    refine at?_set_ne hi0 ?_
    intro heq
    subst heq
    exact h.not_mem_popped hl hi k hx
  refine ⟨?_, ?_, ?_, ?_, ?_, ?_⟩
  · simpa [CRedisClientPool.handNew] using h.size
  · intro n p hp
    by_cases hn : i.toNat = n
    · subst hn
      rw [CRedisClientPool.handNew, hself] at hp
      cases hp
      exact ⟨_, Heap.alloc_self _ _, by simp only; omega, hmade, hhost⟩
    · rw [CRedisClientPool.handNew, List.getElem?_set_ne hn] at hp
      obtain ⟨c, hc, hrest⟩ := h.slot n p hp
      exact ⟨c, Heap.alloc_of_live hc, hrest⟩
  · intro p c hc
    cases Heap.of_alloc hc with
    | inl hcase =>
      obtain ⟨rfl, -⟩ := hcase
      exact ⟨_, hself⟩
    | inr hc =>
      obtain ⟨n, hn⟩ := h.live p c hc
      exact ⟨n, getElem?_set_other (at?_eq_some.mp hi).2 hn (by simp)⟩
  · intro k x hx p hp
    rw [hother hx] at hp
    obtain ⟨c, hc, hck⟩ := h.filed k x (mem_popped hl hx) p hp
    exact ⟨c, Heap.alloc_of_live hc, hck⟩
  · intro k k' x hfree hk hk'
    rw [hother hk] at hfree
    exact h.apart k k' x hfree (mem_popped hl hk) (mem_popped hl hk')
  · intro k x hfree
    exact h.count_popped hl (of_at?_set hfree (by simp)).2 k

theorem handFound (h : Addressed s) (hl : s.getUseableList host = some (key, i :: rest))
    (hi : at? s.m_VecClient i = some (some p)) : Addressed (s.handFound host key rest i p) := by
  obtain ⟨hi0, hv⟩ := at?_eq_some.mp hi
  -- the client keeps all but its flag, and its index is rewritten with the value it has
  have hcell : ∀ {n q : Nat} {d}, s.m_VecClient[n]? = some (some q) → s.heap.cell q = some d →
      d.m_Index = n → ∃ d', (s.handFound host key rest i p).heap.cell q = some d' ∧
        d'.m_Index = n ∧ d'.m_Client = d.m_Client ∧ d'.m_Host = d.m_Host := by
    intro n q d hq hd hidx
    by_cases hqp : q = p
    · subst hqp
      have hn := h.slot_inj hq hv
      exact ⟨_, Heap.modify_self _ hd, by simp only; omega, rfl, rfl⟩
    · exact ⟨d, by rw [CRedisClientPool.handFound, Heap.modify_of_ne _ hqp, hd], hidx, rfl, rfl⟩
  refine ⟨h.size, ?_, ?_, ?_, ?_, fun k x hx => h.count_popped hl hx k⟩
  · intro n q hq
    obtain ⟨d, hd, hidx, hmade, hhost⟩ := h.slot n q hq
    obtain ⟨d', hd', h1, h2, h3⟩ := hcell hq hd hidx
    exact ⟨d', hd', h1, h2 ▸ hmade, by rw [h2, h3, hhost]⟩
  · intro q d hd
    obtain ⟨d', hd', -⟩ := Heap.of_modify hd
    exact h.live q d' hd'
  · intro k x hx q hq
    obtain ⟨d, hd, hk⟩ := h.filed k x (mem_popped hl hx) q hq
    obtain ⟨-, hqv⟩ := at?_eq_some.mp hq
    obtain ⟨e, he, hidx, -⟩ := h.slot _ q hqv
    obtain ⟨d', hd', -, -, h3⟩ := hcell hqv he hidx
    rw [hd] at he
    cases he
    exact ⟨d', hd', h3.trans hk⟩
  · exact fun k k' x hx hk hk' => h.apart k k' x hx (mem_popped hl hk) (mem_popped hl hk')

theorem takeClient (h : Addressed s) {client : CRedisClient} (hmade : client.Made)
    {connected : Bool} {now : UInt64} {r : CRedisClientPool × Option Nat}
    (hr : s.takeClient client.hostString client connected now = some r) : Addressed r.1 := by
  rcases takeClient_cases hr with rfl | ⟨key, i, rest, hl, ⟨hi, rfl⟩ | ⟨p, c, hi, -, rfl⟩⟩
  · exact h
  · exact h.handNew hl hi hmade rfl
  · exact h.handFound hl hi

theorem giveBack (h : Addressed s) (hc : s.heap.cell p = some c) {now : UInt64} :
    Addressed { s with
      heap := s.heap.modify p fun c => { c with m_Used := false, m_Timestamp := now }
      m_MapUseable := pushHost s.m_MapUseable c.m_Host c.m_Index } := by
  obtain ⟨n, hn⟩ := h.live p c hc
  have hat := h.at_index hn hc
  have hcell : ∀ {q d}, s.heap.cell q = some d → ∃ d',
      (s.heap.modify p fun c => { c with m_Used := false, m_Timestamp := now }).cell q = some d' ∧
        d'.m_Index = d.m_Index ∧ d'.m_Client = d.m_Client ∧ d'.m_Host = d.m_Host := by
    intro q d hd
    by_cases hqp : q = p
    · subst hqp
      exact ⟨_, Heap.modify_self _ hd, rfl, rfl, rfl⟩
    · exact ⟨d, by rw [Heap.modify_of_ne _ hqp, hd], rfl, rfl, rfl⟩
  have hmem : ∀ {k x}, x ∈ listAt (pushHost s.m_MapUseable c.m_Host c.m_Index) k →
      x ∈ listAt s.m_MapUseable k ∨ k = c.m_Host ∧ x = c.m_Index := by
    intro k x hx
    rw [listAt_pushHost] at hx
    split at hx
    · rename_i hk
      subst hk
      exact (List.mem_append.mp hx).imp id fun hx => ⟨rfl, List.mem_singleton.mp hx⟩
    · exact Or.inl hx
  have hfree : ∀ {x}, at? s.m_VecClient x = some none → x ≠ c.m_Index := by
    intro x hx heq
    subst heq
    rw [hat] at hx
    cases hx
  refine ⟨h.size, ?_, ?_, ?_, ?_, ?_⟩
  · intro m q hq
    obtain ⟨d, hd, hidx, hmade, hhost⟩ := h.slot m q hq
    obtain ⟨d', hd', h1, h2, h3⟩ := hcell hd
    exact ⟨d', hd', h1.trans hidx, h2 ▸ hmade, by rw [h2, h3, hhost]⟩
  · intro q d hd
    obtain ⟨d', hd', -⟩ := Heap.of_modify hd
    exact h.live q d' hd'
  · intro k x hx q hq
    have hold : ∃ d, s.heap.cell q = some d ∧ d.m_Host = k := by
      cases hmem hx with
      | inl hx => exact h.filed k x hx q hq
      | inr hcase =>
        obtain ⟨rfl, rfl⟩ := hcase
        rw [hat] at hq
        cases hq
        exact ⟨c, hc, rfl⟩
    obtain ⟨d, hd, hk⟩ := hold
    obtain ⟨d', hd', -, -, h3⟩ := hcell hd
    exact ⟨d', hd', h3.trans hk⟩
  · intro k k' x hx hk hk'
    have hne := hfree hx
    exact h.apart k k' x hx ((hmem hk).resolve_right fun hcase => hne hcase.2)
      ((hmem hk').resolve_right fun hcase => hne hcase.2)
  · intro k x hx
    have hle := h.once k x hx
    rw [listAt_pushHost]
    split
    · rename_i hk
      have hzero : [c.m_Index].count x = 0 :=
        List.count_eq_zero.mpr fun hin => hfree hx (List.mem_singleton.mp hin)
      rw [List.count_append, ← hk, hzero]
      exact hle
    · exact hle

/-- A client is filed off the only list its index is in. -/
theorem mem_removed (h : Addressed s) (hat : at? s.m_VecClient c.m_Index = some (some p))
    (hc : s.heap.cell p = some c) {k : Bytes} {x : Int}
    (hx : x ∈ listAt (removeFound s.m_MapUseable c.m_Host c.m_Index) k) :
    x ∈ listAt s.m_MapUseable k ∧ x ≠ c.m_Index := by
  refine ⟨Exclusive.mem_of_removeFound hx, ?_⟩
  intro heq
  subst heq
  obtain ⟨d, hd, hk⟩ := h.filed k _ (Exclusive.mem_of_removeFound hx) p hat
  rw [hc] at hd
  cases hd
  rw [listAt_removeFound, if_pos hk.symm] at hx
  exact (mem_removeIndex.mp hx).2 rfl

/-- The index of a client that is closed is in the free list, if it is in any. -/
theorem mem_reap (h : Addressed s) (hat : at? s.m_VecClient c.m_Index = some (some p))
    (hc : s.heap.cell p = some c) {k : Bytes} {x : Int}
    (hx : x ∈ listAt (s.reap n p c).m_MapUseable k) :
    x ∈ listAt s.m_MapUseable k ∧ x ≠ c.m_Index ∨ k = nullHost ∧ x = c.m_Index := by
  simp only [CRedisClientPool.reap, listAt_pushFound] at hx
  split at hx
  · rename_i hk
    cases List.mem_append.mp hx with
    | inl hx => exact Or.inl (hk.1 ▸ h.mem_removed hat hc hx)
    | inr hx => exact Or.inr ⟨hk.1, List.mem_singleton.mp hx⟩
  · exact Or.inl (h.mem_removed hat hc hx)

theorem count_reap (h : Addressed s) (hat : at? s.m_VecClient c.m_Index = some (some p))
    (hc : s.heap.cell p = some c) {k : Bytes} {x : Int}
    (hold : x ≠ c.m_Index → (listAt s.m_MapUseable k).count x ≤ 1) :
    (listAt (s.reap n p c).m_MapUseable k).count x ≤ 1 := by
  have hsub : (listAt (removeFound s.m_MapUseable c.m_Host c.m_Index) k).count x ≤
      (listAt s.m_MapUseable k).count x := by
    rw [listAt_removeFound]
    split
    · rename_i hk
      exact hk ▸ List.filter_sublist.count_le x
    · exact Nat.le_refl _
  simp only [CRedisClientPool.reap, listAt_pushFound]
  by_cases hxi : x = c.m_Index
  · subst hxi
    have hzero : ∀ k, (listAt (removeFound s.m_MapUseable c.m_Host c.m_Index) k).count
        c.m_Index = 0 := fun k => List.count_eq_zero.mpr fun hin => (h.mem_removed hat hc hin).2 rfl
    split
    · refine Nat.le_of_eq ?_
      rw [List.count_append, hzero, List.count_singleton_self]
    · rw [hzero]
      exact Nat.zero_le _
  · have hone : [c.m_Index].count x = 0 :=
      List.count_eq_zero.mpr fun hin => hxi (List.mem_singleton.mp hin)
    have hle := Nat.le_trans hsub (hold hxi)
    split
    · rename_i hk
      rw [List.count_append, ← hk.1, hone]
      exact hle
    · exact hle

theorem reap (h : Addressed s) (hp : s.m_VecClient[n]? = some (some p))
    (hc : s.heap.cell p = some c) : Addressed (s.reap n p c) := by
  have hat := h.at_index hp hc
  have hci := h.index_eq hp hc
  have hold : ∀ {x}, x ≠ c.m_Index → at? (s.reap n p c).m_VecClient x = at? s.m_VecClient x := by
    intro x hx
    have hn : x ≠ (n : Int) := fun he => hx (he.trans hci.symm)
    simpa [CRedisClientPool.reap] using at?_set_ne (Int.natCast_nonneg n) hn
  have hlen := (List.getElem?_eq_some_iff.mp hp).1
  have hgone : at? (s.reap n p c).m_VecClient c.m_Index = some none := by
    rw [hci, at?_natCast, CRedisClientPool.reap, List.getElem?_set_self hlen]
  refine ⟨?_, ?_, ?_, ?_, ?_, fun k x hx => h.count_reap hat hc fun hne => h.once k x (hold hne ▸ hx)⟩
  · simpa [CRedisClientPool.reap] using h.size
  · intro m q hq
    obtain ⟨hm, hv⟩ := of_getElem?_set hq (by simp)
    obtain ⟨d, hd, hrest⟩ := h.slot m q hv
    have hqp : q ≠ p := by
      intro heq
      subst heq
      exact hm (h.slot_inj hp hv)
    exact ⟨d, by rw [CRedisClientPool.reap, Heap.free_of_ne hqp, hd], hrest⟩
  · intro q d hd
    obtain ⟨hqp, hd⟩ := Heap.of_free hd
    obtain ⟨m, hm⟩ := h.live q d hd
    exact ⟨m, getElem?_set_other hp hm fun he => hqp (Option.some.inj he).symm⟩
  · intro k x hx q hq
    cases h.mem_reap hat hc hx with
    | inl hxk =>
      rw [hold hxk.2] at hq
      obtain ⟨d, hd, hk⟩ := h.filed k x hxk.1 q hq
      have hqp : q ≠ p := by
        intro heq
        subst heq
        obtain ⟨hx0, hxv⟩ := at?_eq_some.mp hq
        have := h.slot_inj hxv hp
        exact hxk.2 (by omega)
      exact ⟨d, by rw [CRedisClientPool.reap, Heap.free_of_ne hqp, hd], hk⟩
    | inr hcase =>
      rw [hcase.2, hgone] at hq
      cases hq
  · intro k k' x hx hk hk'
    rcases h.mem_reap hat hc hk with hk | ⟨rfl, rfl⟩ <;>
      rcases h.mem_reap hat hc hk' with hk' | ⟨rfl, he⟩
    · rw [hold hk.2] at hx
      exact h.apart k k' x hx hk.1 hk'.1
    · exact absurd he hk.2
    · exact absurd rfl hk'.2
    · rfl

theorem checkConnection (h : Addressed s) {now : Nat → UInt64} {ping : Nat → Bool}
    {t : CRedisClientPool} (ht : s.checkConnection now ping = some t) : Addressed t := by
  obtain ⟨u, hu, hr⟩ := Option.bind_eq_some_iff.mp ht
  have hsweep : Addressed u :=
    reapLoop_invariant Addressed (fun _ _ _ _ hv hp hc _ => hv.reap hp hc) hu h
  rw [shrink_of_le (Nat.le_of_eq hsweep.size)] at hr
  exact Option.some.inj hr ▸ hsweep

theorem lend {t : CRedisClientPool} {op : Op} {asked : CRedisClient} (h : Addressed s)
    (hasked : op.asked = some asked) (hs : (s.take op).map Prod.fst = some t) : Addressed t := by
  obtain ⟨hmade, connected, now, htake⟩ := s.take_eq hasked
  rw [htake] at hs
  obtain ⟨r, hr, rfl⟩ := Option.map_eq_some_iff.mp hs
  exact h.takeClient hmade hr

theorem after {t : CRedisClientPool} {op : Op} (h : Addressed s) (hsize : op.KeepsSize)
    (hs : s.after op = some t) : Addressed t := by
  cases op with
  | getClient ip port passwd connected now => exact h.lend rfl hs
  | getClusterClient strHost passwd connected now => exact h.lend rfl hs
  | returnClient pClient now =>
    cases pClient with
    | none =>
      cases hs
      exact h
    | some p =>
      obtain ⟨c, hc, rfl⟩ := Option.map_eq_some_iff.mp hs
      exact h.giveBack hc
  | checkConnection now ping => exact h.checkConnection hs
  | setClientCnt nCnt => cases hsize
  | setTimeout nTimeout =>
    cases hs
    simp only [CRedisClientPool.setTimeout]
    split
    · exact h
    · exact ⟨h.size, h.slot, h.live, h.filed, h.apart, h.once⟩

end Addressed

section
variable {s : CRedisClientPool} {op : Op} {asked : CRedisClient} (h : Addressed s)
  (hasked : op.asked = some asked)
include h hasked

/-- A client found is filed under the string of its connection, and it is the one given. -/
theorem given_of_idle {found : Bytes × CRedisClient}
    (hfound : s.idleFor asked.hostString = some found) :
    found.2.Made ∧ found.2.hostString = found.1 ∧ s.given op = some (asked, found.2) := by
  obtain ⟨-, connected, now, htake⟩ := s.take_eq hasked
  simp only [idleFor, Option.bind_eq_bind, Option.bind_eq_some_iff] at hfound
  obtain ⟨⟨key, l⟩, hl, i, hi, slot, hslot, p, rfl, c, hc, hr⟩ := hfound
  obtain rfl := Option.some.inj hr
  cases l with
  | nil => cases hi
  | cons x rest =>
    obtain rfl : x = i := Option.some.inj hi
    have hmem : x ∈ listAt s.m_MapUseable key := by simp [listAt_useable hl]
    obtain ⟨d, hd, hkey⟩ := h.filed key x hmem p hslot
    obtain ⟨-, hv⟩ := at?_eq_some.mp hslot
    obtain ⟨d', hd', -, hmade, hhost⟩ := h.slot _ p hv
    rw [hc] at hd hd'
    obtain rfl := Option.some.inj hd
    obtain rfl := Option.some.inj hd'
    refine ⟨hmade, hhost.trans hkey, ?_⟩
    rw [given, hasked, htake]
    simp only [takeClient, hl, hslot, hc, Option.map_some, Option.bind_eq_bind, Option.bind_some,
      handFound, Heap.modify_self _ hc]

omit h in
/-- Where no client is found, one is connected as asked, or none is given. -/
theorem given_of_new (hnone : s.idleFor asked.hostString = none) :
    ∀ e ∈ s.given op, e = (asked, asked) := by
  obtain ⟨-, connected, now, htake⟩ := s.take_eq hasked
  intro e he
  rw [given, hasked, htake] at he
  simp only [Option.bind_eq_bind, Option.bind_some, Option.mem_def, Option.bind_eq_some_iff] at he
  obtain ⟨⟨t, q⟩, hr, p, rfl, c, hc, hr'⟩ := he
  obtain rfl := Option.some.inj hr'
  rcases takeClient_cases hr with hr | ⟨key, i, rest, hl, ⟨hi, hr⟩ | ⟨p', d, hi, hd, hr⟩⟩
  · cases hr
  · cases hr
    rw [handNew, Heap.alloc_self] at hc
    obtain rfl := Option.some.inj hc
    rfl
  · simp [idleFor, hl, hi, hd] at hnone

end

def Asked (R : Set Request) (s : CRedisClientPool) : Prop :=
  ∀ p c, s.heap.cell p = some c → ∃ r ∈ R, r.asked = c.m_Client

namespace Asked
variable {R : Set Request} {s t : CRedisClientPool} {op : Op}

/-- No new client, and the old ones keep their connections. -/
theorem of_cells (h : Asked R s)
    (hcell : ∀ p c, t.heap.cell p = some c → ∃ q d, s.heap.cell q = some d ∧ d.m_Client = c.m_Client) :
    Asked R t := by
  intro p c hc
  obtain ⟨q, d, hd, hclient⟩ := hcell p c hc
  rw [← hclient]
  exact h q d hd

theorem modify (h : Asked R s) {p : Nat} {f : CRedisClientEx → CRedisClientEx}
    (ht : t.heap = s.heap.modify p f) (hf : ∀ c, (f c).m_Client = c.m_Client) : Asked R t := by
  refine h.of_cells fun q c hc => ?_
  rw [ht] at hc
  obtain ⟨d, hd, rfl | rfl⟩ := Heap.of_modify hc
  · exact ⟨q, d, hd, (hf d).symm⟩
  · exact ⟨q, c, hd, rfl⟩

theorem after (h : Asked R s) (ha : Addressed s) (hop : op.KeepsSize ∧ op.From R)
    (hs : s.after op = some t) : Asked R t := by
  obtain ⟨hsize, hfrom⟩ := hop
  have htake : ∀ asked ∈ op.asked, (s.take op).map Prod.fst = some t → Asked R t := by
    intro asked hasked hs
    obtain ⟨-, connected, now, htake⟩ := s.take_eq hasked
    rw [htake] at hs
    obtain ⟨r, hr, rfl⟩ := Option.map_eq_some_iff.mp hs
    rcases takeClient_cases hr with rfl | ⟨key, i, rest, -, ⟨-, rfl⟩ | ⟨p, c, -, -, rfl⟩⟩
    · exact h
    · intro p c hc
      cases Heap.of_alloc hc with
      | inl hnew =>
        obtain ⟨-, rfl⟩ := hnew
        exact hfrom asked hasked
      | inr hold => exact h p c hold
    · exact h.modify rfl fun _ => rfl
  cases op with
  | getClient ip port passwd connected now => exact htake _ rfl hs
  | getClusterClient strHost passwd connected now => exact htake _ rfl hs
  | returnClient pClient now =>
    cases pClient with
    | none =>
      cases hs
      exact h
    | some p =>
      obtain ⟨c, -, rfl⟩ := Option.map_eq_some_iff.mp hs
      exact h.modify rfl fun _ => rfl
  | checkConnection now ping =>
    obtain ⟨u, hu, hr⟩ := Option.bind_eq_some_iff.mp hs
    have hsweep : Addressed u ∧ Asked R u := by
      refine reapLoop_invariant (fun s => Addressed s ∧ Asked R s) ?_ hu ⟨ha, h⟩
      intro v n p c hv hp hc _
      refine ⟨hv.1.reap hp hc, hv.2.of_cells fun q d hd => ⟨q, d, (Heap.of_free hd).2, rfl⟩⟩
    rw [shrink_of_le (Nat.le_of_eq hsweep.1.size)] at hr
    exact Option.some.inj hr ▸ hsweep.2
  | setClientCnt nCnt => cases hsize
  | setTimeout nTimeout =>
    cases hs
    simp only [CRedisClientPool.setTimeout]
    split <;> exact h

end Asked

/-- A client that is found is filed under the host asked for, or under the reserved string. -/
theorem idleFor_cases {s : CRedisClientPool} {host : Bytes} {found : Bytes × CRedisClient}
    (h : s.idleFor host = some found) :
    (found.1 = host ∨ found.1 = nullHost) ∧ ∃ p c, s.heap.cell p = some c ∧ c.m_Client = found.2 := by
  simp only [idleFor, Option.bind_eq_bind, Option.bind_eq_some_iff] at h
  obtain ⟨⟨key, l⟩, hl, i, -, slot, -, p, -, c, hc, hr⟩ := h
  obtain rfl := Option.some.inj hr
  exact ⟨(getUseableList_cases hl).2.imp_right And.left, p, c, hc, rfl⟩

section
variable {R : Set Request} {s : CRedisClientPool} {op : Op}

theorem given_matches (htold : TellsApart R) (h : Addressed s) (ha : Asked R s)
    (hfrom : op.From R) : ∀ e ∈ s.given op, e.2 = e.1 := by
  intro e he
  cases hasked : op.asked with
  | none =>
    rw [given, hasked] at he
    cases he
  | some asked =>
    cases hidle : s.idleFor asked.hostString with
    | none => rw [given_of_new hasked hidle e he]
    | some found =>
      obtain ⟨r, hr, rfl⟩ := hfrom asked hasked
      obtain ⟨-, hhost, hgiven⟩ := given_of_idle h hasked hidle
      obtain ⟨hkey, p, c, hc, hclient⟩ := idleFor_cases hidle
      obtain ⟨r', hr', hsame⟩ := ha p c hc
      rw [hclient] at hsame
      rw [← hsame] at hhost hgiven
      have hstring : r'.asked.hostString = r.asked.hostString := by
        cases hkey with
        | inl hkey => exact hhost.trans hkey
        | inr hkey =>
          have hnull := hhost.trans hkey
          exact hnull.trans (htold.2 ⟨r', hr', hnull⟩ r hr).symm
      obtain ⟨hmode, hpasswd⟩ := htold.1 r' hr' r hr hstring
      rw [hgiven] at he
      obtain rfl := Option.some.inj he
      exact CRedisClient.eq_of_hostString r'.made r.made hmode hpasswd hstring

theorem matches_of_tellsApart (htold : TellsApart R) : MatchesRequests R := by
  intro ops t h
  have hinv : (Addressed t.pool ∧ Asked R t.pool) ∧ t.Matching := by
    refine h.invariant (fun s => (Addressed s.pool ∧ Asked R s.pool) ∧ s.Matching) ?_ ?_
    · exact ⟨⟨Addressed.new, fun p c hc => by cases hc⟩, fun e he => by cases he⟩
    · intro s op u hcase hop hstep
      obtain ⟨⟨haddr, hasked⟩, hmatch⟩ := hcase
      obtain ⟨v, hv, rfl⟩ := Option.map_eq_some_iff.mp hstep
      refine ⟨⟨haddr.after hop.1 hv, hasked.after haddr hop hv⟩, fun e he => ?_⟩
      cases List.mem_append.mp he with
      | inl he => exact given_matches htold haddr hasked hop.2 e (Option.mem_toList.mp he)
      | inr he => exact hmatch e he
  exact hinv.2

end

section Shared
variable {R : Set Request} {r r' : Request} {s : CRedisClientPool}
  {key host : Bytes} {i : Int} {p : Nat} {rest : ListUseableIndex} {c : CRedisClientEx}
  (answers : List (CRedisClient × CRedisClient))

theorem take_op : s.take r.op = s.takeClient r.asked.hostString r.asked true 0 := by
  cases r <;> rfl

theorem after_op : s.after r.op = (s.take r.op).map Prod.fst := by
  cases r <;> rfl

theorem asked_op : r.op.asked = some r.asked := by
  cases r <;> rfl

theorem fits_op (hr : r ∈ R) : r.op.KeepsSize ∧ r.op.From R := by
  refine ⟨by cases r <;> trivial, fun asked hasked => ⟨r, hr, ?_⟩⟩
  rw [asked_op] at hasked
  exact Option.some.inj hasked

theorem idleFor_eq (hl : s.getUseableList host = some (key, i :: rest))
    (hi : at? s.m_VecClient i = some (some p)) (hc : s.heap.cell p = some c) :
    s.idleFor host = some (key, c.m_Client) := by
  simp [idleFor, hl, hi, hc]

/-- A request for which an idle client is found is given it. -/
theorem answered (h : Addressed s) {found : Bytes × CRedisClient}
    (hfound : s.idleFor r.asked.hostString = some found) :
    ∃ t, Recorded.step ⟨s, answers⟩ r.op = some t ∧ (r.asked, found.2) ∈ t.answers := by
  obtain ⟨-, -, hgiven⟩ := given_of_idle h asked_op hfound
  have hsome : (s.take r.op).isSome := by
    rw [given, asked_op] at hgiven
    cases htake : s.take r.op with
    | none =>
      rw [htake] at hgiven
      cases hgiven
    | some _ => rfl
  obtain ⟨u, hu⟩ := Option.isSome_iff_exists.mp hsome
  refine ⟨⟨u.1, (s.given r.op).toList ++ answers⟩, ?_, ?_⟩
  · simp only [Recorded.step, after_op, hu]
    rfl
  · rw [hgiven]
    exact List.mem_append_left _ (List.mem_singleton_self _)

/-- A client is connected for the head of a list and returned: its index goes to the end of the list of
its own host. -/
theorem round (hr : r ∈ R) (hl : s.getUseableList r.asked.hostString = some (key, i :: rest))
    (hi : at? s.m_VecClient i = some none) : ∃ t : Recorded,
    Runs Recorded.step (fun _ op => op.KeepsSize ∧ op.From R) ⟨s, answers⟩
        [r.op, .returnClient (some s.heap.next) 0] t ∧
      t.pool.m_MapUseable = pushHost (popFront s.m_MapUseable r.asked.hostString key rest)
        r.asked.hostString i ∧
      t.pool.m_VecClient = s.m_VecClient.set i.toNat (some s.heap.next) ∧
      (∃ c, t.pool.heap.cell s.heap.next = some c ∧ c.m_Client = r.asked) ∧
      ∀ p c, s.heap.cell p = some c → t.pool.heap.cell p = some c := by
  let u := s.handNew r.asked.hostString key rest i r.asked 0
  have hnew : u.heap.cell s.heap.next = some ⟨true, 0, i, r.asked.hostString, r.asked⟩ :=
    Heap.alloc_self _ _
  have hone : Recorded.step ⟨s, answers⟩ r.op = some ⟨u, (s.given r.op).toList ++ answers⟩ := by
    simp only [Recorded.step, after_op, take_op, takeClient, hl, hi, if_true]
    rfl
  have htwo : Recorded.step ⟨u, (s.given r.op).toList ++ answers⟩
      (.returnClient (some s.heap.next) 0) = some ⟨{ u with
        heap := u.heap.modify s.heap.next fun c => { c with m_Used := false, m_Timestamp := 0 }
        m_MapUseable := pushHost u.m_MapUseable r.asked.hostString i },
          (s.given r.op).toList ++ answers⟩ := by
    simp only [Recorded.step, CRedisClientPool.after, returnClient, hnew, Option.map_some]
    rfl
  have hreturn : Op.From R (.returnClient (some s.heap.next) 0) := by
    intro asked hasked
    cases hasked
  refine ⟨_, Runs.cons (fits_op hr) hone (Runs.cons ⟨trivial, hreturn⟩ htwo .nil), rfl, rfl,
    ⟨_, Heap.modify_self _ hnew, rfl⟩, fun p c hc => ?_⟩
  have hlive : u.heap.cell p = some c := Heap.alloc_of_live hc
  exact (Heap.modify_of_ne _ (Heap.ne_next hc)).trans hlive

theorem addressed_of_runs {ops : List Op} {t : Recorded}
    (h : Runs Recorded.step (fun _ op => op.KeepsSize ∧ op.From R) .new ops t) :
    Addressed t.pool := by
  refine h.invariant (fun s => Addressed s.pool) Addressed.new fun s op u hs hop hstep => ?_
  obtain ⟨v, hv, rfl⟩ := Option.map_eq_some_iff.mp hstep
  exact hs.after hop.1 hv

/-- A run after which a request finds a client that was connected for another. -/
theorem eq_of_found (hmatch : MatchesRequests R) (hr' : r' ∈ R) {ops : List Op} {t : Recorded}
    (h : Runs Recorded.step (fun _ op => op.KeepsSize ∧ op.From R) .new ops t)
    (hfound : t.pool.idleFor r'.asked.hostString = some (key, r.asked)) : r'.asked = r.asked := by
  obtain ⟨u, hu, hin⟩ := answered t.answers (addressed_of_runs h) hfound
  exact (hmatch _ u (h.snoc (fits_op hr') hu) _ hin).symm

/-- After one client has been returned another request with its string finds it. -/
theorem shared_client (hr : r ∈ R) (hne : r.asked.hostString ≠ nullHost)
    (heq : r.asked.hostString = r'.asked.hostString) : ∃ ops t,
    Runs Recorded.step (fun _ op => op.KeepsSize ∧ op.From R) .new ops t ∧
      t.pool.idleFor r'.asked.hostString = some (r'.asked.hostString, r.asked) := by
  have hnone : CRedisClientPool.new.m_MapUseable r.asked.hostString = none := if_neg hne
  have hl : CRedisClientPool.new.getUseableList r.asked.hostString =
      some (nullHost, 0 :: [1, 2, 3, 4, 5, 6, 7, 8, 9]) := by
    simp only [getUseableList, hnone]
    rfl
  obtain ⟨t, hrun, hmap, hvec, ⟨c, hc, hclient⟩, -⟩ := round [] hr hl rfl
  refine ⟨_, t, hrun, ?_⟩
  have hlist : t.pool.getUseableList r'.asked.hostString = some (r'.asked.hostString, 0 :: []) := by
    have hempty : listAt (popFront CRedisClientPool.new.m_MapUseable r.asked.hostString nullHost
        [1, 2, 3, 4, 5, 6, 7, 8, 9]) r.asked.hostString = [] := by
      simp [listAt, popFront, hne, hnone]
    simp only [getUseableList, hmap, ← heq, pushHost, if_true, hempty]
    rfl
  have hslot : at? t.pool.m_VecClient 0 = some (some CRedisClientPool.new.heap.next) := by
    rw [hvec]
    rfl
  rw [idleFor_eq hlist hslot hc, hclient]

/-- The free list after the indices below `k` have been taken off its head and put to its end. -/
def turned (k : Nat) : ListUseableIndex :=
  (List.range' k (10 - k) ++ List.range k).map fun n : Nat => (n : Int)

theorem turned_next {k : Nat} (hk : k < 10) :
    ∃ rest, turned k = (k : Int) :: rest ∧ rest ++ [(k : Int)] = turned (k + 1) ∧ rest ≠ [] := by
  obtain ⟨n, hn⟩ : ∃ n, 10 - k = n + 1 := ⟨9 - k, by omega⟩
  have hnext : 10 - (k + 1) = n := by omega
  refine ⟨(List.range' (k + 1) n ++ List.range k).map fun n : Nat => (n : Int), ?_, ?_, ?_⟩
  · rw [turned, hn, List.range'_succ]
    rfl
  · rw [turned, hnext, List.range_succ]
    simp
  · intro hnil
    have hlen := congrArg List.length hnil
    simp only [List.length_map, List.length_append, List.length_range', List.length_range,
      List.length_nil] at hlen
    omega

/-- The free list is the only one and has come round to the index `k`; the slots before it have clients
of the connection in them. -/
structure Turned (client : CRedisClient) (k : Nat) (s : CRedisClientPool) : Prop where
  free : s.m_MapUseable nullHost = some (turned k)
  others : ∀ host ≠ nullHost, s.m_MapUseable host = none
  taken : ∀ j < k, ∃ p c, s.m_VecClient[j]? = some (some p) ∧ s.heap.cell p = some c ∧
    c.m_Client = client
  empty : ∀ j, k ≤ j → j < 10 → s.m_VecClient[j]? = some none

theorem turned_new : Turned r.asked 0 CRedisClientPool.new := by
  refine ⟨?_, fun host hne => if_neg hne, fun j hj => absurd hj (Nat.not_lt_zero j), ?_⟩
  · have hlist : turned 0 = (List.range m_nDefaultClientCnt.toNat).map fun i : Nat => cInt i := by decide
    rw [hlist]
    simp only [CRedisClientPool.new, if_true]
  · intro j _ hj
    have hlen : j < m_nDefaultClientCnt.toNat := hj
    rw [CRedisClientPool.new, List.getElem?_replicate, if_pos hlen]

theorem Turned.next {k : Nat} (h : Turned r.asked k s) (hr : r ∈ R)
    (hnull : r.asked.hostString = nullHost) (hk : k < 10) : ∃ t : Recorded,
    Runs Recorded.step (fun _ op => op.KeepsSize ∧ op.From R) ⟨s, answers⟩
        [r.op, .returnClient (some s.heap.next) 0] t ∧ Turned r.asked (k + 1) t.pool := by
  obtain ⟨rest, hhead, hlast, hrest⟩ := turned_next hk
  have hfree : s.m_MapUseable nullHost = some ((k : Int) :: rest) := by rw [h.free, hhead]
  have hl : s.getUseableList r.asked.hostString = some (nullHost, (k : Int) :: rest) := by
    simp only [getUseableList, hnull, hfree]
  have hslot : at? s.m_VecClient (k : Int) = some none := by
    rw [at?_natCast]
    exact h.empty k (Nat.le_refl k) hk
  obtain ⟨t, hrun, hmap, hvec, hnew, hold⟩ := round answers hr hl hslot
  rw [Int.toNat_natCast] at hvec
  refine ⟨t, hrun, ?_, ?_, ?_, ?_⟩
  · simp only [hmap, hnull, pushHost, popFront, listAt, if_true, hrest, and_false, if_false,
      Option.getD_some, hlast]
  · intro host hne
    simp only [hmap, hnull, pushHost, popFront, hne, false_and, if_false]
    exact h.others host hne
  · intro j hj
    by_cases hjk : j = k
    · subst hjk
      obtain ⟨c, hc, hclient⟩ := hnew
      obtain ⟨hlen, -⟩ := List.getElem?_eq_some_iff.mp (h.empty j (Nat.le_refl j) hk)
      exact ⟨_, c, by rw [hvec, List.getElem?_set_self hlen], hc, hclient⟩
    · obtain ⟨p, c, hp, hc, hclient⟩ := h.taken j (by omega)
      exact ⟨p, c, by rw [hvec, List.getElem?_set_ne (Ne.symm hjk)]; exact hp, hold p c hc, hclient⟩
  · intro j hkj hj
    rw [hvec, List.getElem?_set_ne (by omega)]
    exact h.empty j (by omega) hj

theorem turned_runs {k : Nat} (hr : r ∈ R) (hnull : r.asked.hostString = nullHost) (hk : k ≤ 10) :
    ∃ ops t, Runs Recorded.step (fun _ op => op.KeepsSize ∧ op.From R) .new ops t ∧
      Turned r.asked k t.pool := by
  induction k with
  | zero => exact ⟨[], .new, .nil, turned_new⟩
  | succ k ih =>
    obtain ⟨ops, t, hrun, hturned⟩ := ih (by omega)
    obtain ⟨u, hnext, hu⟩ := hturned.next t.answers hr hnull (by omega)
    exact ⟨_, u, hrun.append hnext, hu⟩

/-- When all clients have been returned to the free list any request finds one of them, if it has no
list of its own. -/
theorem reserved_client (r' : Request) (hr : r ∈ R) (hnull : r.asked.hostString = nullHost) :
    ∃ ops t,
    Runs Recorded.step (fun _ op => op.KeepsSize ∧ op.From R) .new ops t ∧
      t.pool.idleFor r'.asked.hostString = some (nullHost, r.asked) := by
  obtain ⟨ops, t, hrun, hturned⟩ := turned_runs hr hnull (Nat.le_refl 10)
  refine ⟨ops, t, hrun, ?_⟩
  obtain ⟨p, c, hp, hc, hclient⟩ := hturned.taken 0 (by decide)
  have hfree : t.pool.m_MapUseable nullHost = some (0 :: [1, 2, 3, 4, 5, 6, 7, 8, 9]) :=
    hturned.free
  have hl : t.pool.getUseableList r'.asked.hostString =
      some (nullHost, 0 :: [1, 2, 3, 4, 5, 6, 7, 8, 9]) := by
    by_cases hhost : r'.asked.hostString = nullHost
    · simp only [getUseableList, hhost, hfree]
    · simp only [getUseableList, hturned.others _ hhost, hfree, Option.map_some]
  rw [idleFor_eq hl ((at?_natCast _ 0).trans hp) hc, hclient]

theorem tellsApart_of_matches (h : MatchesRequests R) : TellsApart R := by
  have hnull : ∀ r ∈ R, r.asked.hostString = nullHost → ∀ r' ∈ R, r'.asked = r.asked := by
    intro r hr hnull r' hr'
    obtain ⟨ops, t, hrun, hfound⟩ := reserved_client r' hr hnull
    exact eq_of_found h hr' hrun hfound
  constructor
  · intro r hr r' hr' heq
    have hsame : r'.asked = r.asked := by
      by_cases hne : r.asked.hostString = nullHost
      · exact hnull r hr hne r' hr'
      · obtain ⟨ops, t, hrun, hfound⟩ := shared_client hr hne heq
        exact eq_of_found h hr' hrun hfound
    rw [hsame]
    exact ⟨rfl, rfl⟩
  · intro hsome r' hr'
    obtain ⟨r, hr, hreserved⟩ := hsome
    rw [hnull r hr hreserved r' hr']
    exact hreserved

end Shared

/-- Every client handed out is connected as asked exactly for the sets of requests that the host strings
tell apart. -/
theorem clients_connected_as_asked (R : Set Request) : MatchesRequests R ↔ TellsApart R :=
  ⟨tellsApart_of_matches, matches_of_tellsApart⟩

/-- A client connected with one password is given to a request with another one, and a cluster
request for the same text is given it as well. -/
theorem client_given_across_modes : ∃ t, Runs Recorded.step (fun _ op => op.KeepsSize) .new
    [.getClient (bytes "a") 1 (bytes "x") true 0, .returnClient (some 0) 5,
      .getClient (bytes "a") 1 (bytes "y") true 0, .returnClient (some 0) 5,
      .getClusterClient (bytes "a:1") (bytes "x") true 0] t ∧ ¬t.Matching := by
  have h : ((exec Recorded.step (fun _ op => op.KeepsSize) .new
      [.getClient (bytes "a") 1 (bytes "x") true 0, .returnClient (some 0) 5,
        .getClient (bytes "a") 1 (bytes "y") true 0, .returnClient (some 0) 5,
        .getClusterClient (bytes "a:1") (bytes "x") true 0]).any fun t =>
      t.answers.any fun e => decide (e.2.bCluster ≠ e.1.bCluster)) = true := by decide
  obtain ⟨t, ht, hmode⟩ := exists_of_exec h
  obtain ⟨e, he, hne⟩ := List.any_eq_true.mp hmode
  refine ⟨t, ht, fun hmatch => ?_⟩
  exact of_decide_eq_true hne (congrArg CRedisClient.bCluster (hmatch e he))

end CppPrivate.Redis
