import CppPrivate.Cluster.Servers

/-! The calls of a client: together they are what one server would do. -/
namespace CppPrivate.Cluster
open Hiredis Redis Shards

section Client
variable {σ : Type} (net : Net σ)

/-- What is done about the error and the tries when a call returns. -/
def returning (r : Executing σ × Returned) : Executing σ × Returned :=
  let cc := match r.2 with
    | .null (some e) => r.1.cc.setError e
    | _ => r.1.cc
  ({ r.1 with cc := { cc with retry_count := 0 } }, r.2)

/-- The command of `argc` words is formatted, and executed with an error from before cleared. -/
def redisClusterCommandArgv (num_str : Bytes) (argv : List Bytes) (st : Executing σ) :
    Option (Executing σ × Returned) :=
  (redisClusterFormattedCommand (executed net) num_str { st with cc := { st.cc with err := none } }
    (encode argv)).map returning

/-- One call after the other. `num_str` is the buffer as each finds it. -/
def calls : List (Bytes × List Bytes) → Executing σ → Option (Executing σ × List Returned)
  | [], st => some (st, [])
  | (num_str, argv) :: rest, st => do
    let (st, r) ← redisClusterCommandArgv net num_str argv st
    let (st, rs) ← calls rest st
    return (st, r :: rs)

end Client

/-- A command of the kinds that are split, and the buffer that is found by its call. -/
structure Request where
  type : cmd_type
  name : Bytes
  items : List Item
  num_str : Bytes

def Request.argv (q : Request) : List Bytes := q.name :: q.items.flatMap Item.args

/-- It can be split, and has keys of few slots. -/
structure Request.Proper (max_retry_count : Int) (q : Request) : Prop where
  verb : redis_parse_cmd_verb q.name = q.type
  multi : Multi q.type
  args : Arguments q.type q.items
  ne_nil : q.items ≠ []
  size : q.num_str.length = 12
  len : (encode q.argv).length < 2 ^ 31
  clean : q.items.length = 1 ∨
    CleanSlots q.type q.items (classes slotOfItem REDIS_CLUSTER_SLOTS q.items)
  slots : (classes slotOfItem REDIS_CLUSTER_SLOTS q.items).length < max_retry_count

/-- Without empty keys, and with fewer keys than tries. -/
theorem Request.Proper.of_keys {m : Int} {q : Request} (hverb : redis_parse_cmd_verb q.name = q.type)
    (hmulti : Multi q.type) (hargs : Arguments q.type q.items) (hne : q.items ≠ [])
    (hsize : q.num_str.length = 12) (hlen : (encode q.argv).length < 2 ^ 31)
    (hkeys : ∀ item ∈ q.items, item.key ≠ []) (hcount : q.items.length < m) : q.Proper m :=
  ⟨hverb, hmulti, hargs, hne, hsize, hlen, .inr (cleanSlots_of_keys hkeys _),
    Int.lt_of_le_of_lt (Int.ofNat_le.mpr length_classes_le) hcount⟩

def served : List Request → Keyspace → Keyspace × List redisReply
  | [], s => (s, [])
  | q :: rest, s =>
    let r := serve q.type s q.items
    let rs := served rest r.1
    (rs.1, r.2 :: rs.2)

/-- Between two calls: the tries are counted anew, and the route is the cluster's or an old one. -/
structure Between {σ : Type} (net : Net σ) (route : Route) (live : cluster_node → Prop)
    (max_retry_count : Int) (st : Executing σ) : Prop where
  max : st.cc.max_retry_count = max_retry_count
  tries : st.cc.retry_count = 0
  route : st.cc.route = route ∨ Known net live st.cc.route

section Calls
variable {σ : Type} {net : Net σ} {view : σ → Keyspace} {route : Route} {live : cluster_node → Prop}
  {m : Int} {st : Executing σ}

theorem Between.ready {n : Nat} (h : Between net route live m st) (hn : n < m) :
    Ready net route live m n st := by
  refine ⟨h.max, h.route.imp_right fun hknown => ⟨hknown, ?_⟩⟩
  rw [h.tries, zero_add]
  exact hn

/-- A call has the reply of one server. -/
theorem Stable.call (h : Stable net view route live) {q : Request} (hq : q.Proper m)
    (hst : Between net route live m st) :
    ∃ st', redisClusterCommandArgv net q.num_str q.argv st =
        some (st', .reply (serve q.type (view st.net) q.items).2) ∧
      Between net route live m st' ∧ view st'.net = (serve q.type (view st.net) q.items).1 := by
  let st₁ : Executing σ := { st with cc := { st.cc with err := none } }
  have hst₁ : Between net route live m st₁ := ⟨hst.max, hst.tries, hst.route⟩
  obtain ⟨st', hcall, hready, hview⟩ := formatted_clean (h.executed m) (hst₁.ready hq.slots) hq.verb
    hq.multi hq.args hq.ne_nil hq.size hq.len hq.clean
  refine ⟨{ st' with cc := { st'.cc with retry_count := 0 } }, ?_,
    ⟨hready.max, rfl, hready.route.imp_right And.left⟩, hview⟩
  rw [redisClusterCommandArgv, Request.argv, hcall]
  rfl

/-- Calls before others: each has the reply of one server, and the others go on behind them. -/
theorem Stable.calls_before (h : Stable net view route live) {requests : List Request}
    (hrequests : ∀ q ∈ requests, q.Proper m) (hst : Between net route live m st) :
    ∃ st', Between net route live m st' ∧ view st'.net = (served requests (view st.net)).1 ∧
      ∀ more, calls net (requests.map (fun q => (q.num_str, q.argv)) ++ more) st =
        (calls net more st').map fun r =>
          (r.1, (served requests (view st.net)).2.map .reply ++ r.2) := by
  induction requests generalizing st with
  | nil => exact ⟨st, hst, rfl, fun more => Option.map_id'.symm⟩
  | cons q requests ih =>
    obtain ⟨hq, hrest⟩ := List.forall_mem_cons.mp hrequests
    obtain ⟨st₁, hcall, hst₁, hview⟩ := h.call hq hst
    obtain ⟨st₂, hst₂, hview₂, hcalls⟩ := ih hrest hst₁
    rw [hview] at hcalls hview₂
    refine ⟨st₂, hst₂, hview₂, fun more => ?_⟩
    rw [List.map_cons, List.cons_append, Cluster.calls, hcall, Option.bind_eq_bind,
      Option.bind_some]
    dsimp only
    rw [hcalls more]
    cases calls net more st₂ with
    | none => rfl
    | some r => rfl

/-- The calls of a client do to the keys what one server would do, and have its replies, as long as the
cluster does not change, however old the client's route is. -/
theorem Stable.calls_served (h : Stable net view route live) {requests : List Request}
    (hrequests : ∀ q ∈ requests, q.Proper m) (hst : Between net route live m st) :
    ∃ st', calls net (requests.map fun q => (q.num_str, q.argv)) st =
        some (st', (served requests (view st.net)).2.map .reply) ∧
      Between net route live m st' ∧ view st'.net = (served requests (view st.net)).1 := by
  obtain ⟨st', hst', hview, hcalls⟩ := h.calls_before hrequests hst
  have hall := hcalls []
  rw [List.append_nil, Cluster.calls, Option.map_some, List.append_nil] at hall
  exact ⟨st', hall, hst', hview⟩

def onlyNode (node : cluster_node) : dict Bytes cluster_node :=
  (dictAdd dictSdsHash {} node.addr node).1

def nodeA : cluster_node := ⟨bytes "10.0.0.1:7000", some (bytes "10.0.0.1"), 7000⟩

def nodeB : cluster_node := ⟨bytes "10.0.0.2:7000", some (bytes "10.0.0.2"), 7000⟩

def halves (k : Nat) : cluster_node := if k < 8192 then nodeA else nodeB

def started : Executing (Keyspace × Bytes) :=
  ⟨{ route := ⟨onlyNode nodeA, fun _ => some nodeA⟩ }, (fun _ => none, []), []⟩

theorem calls_served_halves : ∃ st',
    calls (clusterNet halves (onlyNode nodeB))
      [(List.replicate 12 0, [bytes "mset", bytes "a", bytes "1", bytes "b", bytes "2"]),
        (List.replicate 12 0, [bytes "mget", bytes "b", bytes "c", bytes "a"])] started =
    some (st', [.reply (.status (bytes "OK")),
      .reply (.array [.string (bytes "2"), .nil, .string (bytes "1")])]) := by
  let mset : Request := ⟨.MSET, bytes "mset",
    [⟨bytes "a", [bytes "1"]⟩, ⟨bytes "b", [bytes "2"]⟩], List.replicate 12 0⟩
  let mget : Request := ⟨.MGET, bytes "mget",
    [⟨bytes "b", []⟩, ⟨bytes "c", []⟩, ⟨bytes "a", []⟩], List.replicate 12 0⟩
  have hmset : mset.Proper 5 := .of_keys (by decide) (.inr (.inr (.inr rfl)))
    (by decide) (by decide) (by decide) (by decide) (by decide) (by decide)
  have hmget : mget.Proper 5 := .of_keys (by decide) (.inl rfl)
    (by decide) (by decide) (by decide) (by decide) (by decide) (by decide)
  have hstable := clusterNet_stable halves (onlyNode nodeB) fun k => by
    rw [halves]
    split <;> decide
  have hstarted : Between (clusterNet halves (onlyNode nodeB))
      (clusterRoute halves (onlyNode nodeB)) (fun node => node.host ≠ none) 5 started :=
    ⟨rfl, rfl, .inr ⟨fun _ _ => ⟨nodeA, rfl, .inl (by decide)⟩, (nodeA.addr, nodeA), by decide, by decide⟩⟩
  obtain ⟨st', hcalls, -, -⟩ := hstable.calls_served
    (List.forall_mem_cons.mpr ⟨hmset, List.forall_mem_singleton.mpr hmget⟩) hstarted
  have hserved : (served [mset, mget] started.net.1).2 = [.status (bytes "OK"),
      .array [.string (bytes "2"), .nil, .string (bytes "1")]] := by
    rfl
  rw [hserved] at hcalls
  exact ⟨st', hcalls⟩

end Calls

end CppPrivate.Cluster
