import CppPrivate.Cluster.Fragment
import CppPrivate.Hiredis.Dict
import CppPrivate.Lib.Loop
import CppPrivate.Lib.Part

/-! How a command is executed: at the node of its slot, and elsewhere when a node says so. -/
namespace CppPrivate.Cluster
open Hiredis Redis Loop

def REDIS_ERR_CLUSTER_TOO_MANY_RETRIES : Int := 100

def dictSdsHash (key : Bytes) : Nat := dictGenHashFunction key

structure cluster_node where
  addr : Bytes
  host : Option Bytes
  port : Nat
deriving DecidableEq

/-- What an update of the route sets: the nodes by their addresses, and the node of each slot. -/
structure Route where
  nodes : dict Bytes cluster_node
  table : Nat → Option cluster_node

structure redisClusterContext where
  route : Route
  retry_count : Int := 0
  max_retry_count : Int := 5
  err : Option Error := none

/-- The connections to the nodes, and the nodes behind them. `ctx_get_by_node` may set an error, and
gives no context or one with the error that is in it; `append` is whether a command could be written to
the buffer, `block_for_reply` sends what is there and waits, and `update_route` asks a node for the
route. -/
structure Net (σ : Type) where
  ctx_get_by_node : cluster_node → σ → σ × Option Error × Option (Option Error)
  append : cluster_node → Bytes → σ → σ × Bool
  block_for_reply : cluster_node → σ → σ × Option redisReply
  error : cluster_node → σ → Error
  update_route : cluster_node → σ → σ × Except Error Route

inductive CLUSTER_ERR_TYPE where
  | NOT_ERR | MOVED | ASK | TRYAGAIN | CROSSSLOT | CLUSTERDOWN | SENTINEL
deriving DecidableEq

def cluster_reply_error_type : redisReply → CLUSTER_ERR_TYPE
  | .error str =>
    let is (name : String) : Bool := (bytes name).length < str.length && (bytes name).isPrefixOf str
    if is "MOVED" then .MOVED
    else if is "ASK" then .ASK
    else if is "TRYAGAIN" then .TRYAGAIN
    else if is "CROSSSLOT" then .CROSSSLOT
    else if is "CLUSTERDOWN" then .CLUSTERDOWN
    else .SENTINEL
  | _ => .NOT_ERR

/-- Larger than `CLUSTER_NOT_ERR` and smaller than the sentinel. -/
def Redirects (reply : redisReply) : Prop :=
  cluster_reply_error_type reply ≠ .NOT_ERR ∧ cluster_reply_error_type reply ≠ .SENTINEL

instance (reply : redisReply) : Decidable (Redirects reply) :=
  inferInstanceAs (Decidable (_ ∧ _))

namespace redisClusterContext

def setError (cc : redisClusterContext) (e : Error) : redisClusterContext :=
  { cc with err := some ⟨e.err, (C_STR e.errstr).take 127⟩ }

def node_get_by_table (cc : redisClusterContext) (slot_num : Int) : Option cluster_node :=
  if 0 ≤ slot_num ∧ slot_num < REDIS_CLUSTER_SLOTS then cc.route.table slot_num.toNat else none

end redisClusterContext

/-- `sdssplitlen` at one character. -/
def splitAtChar (c : UInt8) (s : Bytes) : List Bytes := if s = [] then [] else s.splitOn c

/-- `hi_atoi`, in an `int` that wraps around. -/
def hi_atoi (line : Bytes) : Int :=
  let value : Nat := readOn 0 line % 2 ^ 32
  if line = [] ∨ ¬ line.all isDigit ∨ 2 ^ 31 ≤ value then -1 else value

/-- A node that is not known comes into the dictionary under the second word of the reply. -/
def nodeByAsk (cc : redisClusterContext) (str : Bytes) :
    redisClusterContext × Option cluster_node :=
  match splitAtChar 32 str with
  | [_, slot, addr] =>
    match splitAtChar 58 addr with
    | [host, port] =>
      match dictFind dictSdsHash cc.route.nodes addr with
      | some (_, node) => (cc, some node)
      | none =>
        let node : cluster_node := ⟨slot, some host, (hi_atoi port % 2 ^ 16).toNat⟩
        match dictAdd dictSdsHash cc.route.nodes slot node with
        | (nodes, true) => ({ cc with route := { cc.route with nodes := nodes } }, some node)
        | (nodes, false) =>
          let cc := { cc with route := { cc.route with nodes := nodes } }
          (cc.setError ⟨REDIS_ERR_OOM, bytes "Out of memory"⟩, none)
    | _ => (cc.setError (other "ask error reply address part parse error!"), none)
  | _ => (cc.setError (other "ask error reply parse error!"), none)

structure Sent where
  node : cluster_node
  cmd : Bytes
  reply : Option redisReply

structure Executing (σ : Type) where
  cc : redisClusterContext
  net : σ
  sent : List Sent := []

/-- The client may be left with an error. -/
def failWith {σ α : Type} (e : Error) : Part (Executing σ) α :=
  fun st => ({ st with cc := st.cc.setError e }, none)

def retry {σ : Type} : Part (Executing σ) Unit := fun st =>
  let st := { st with cc := { st.cc with retry_count := st.cc.retry_count + 1 } }
  if st.cc.retry_count > st.cc.max_retry_count then
    failWith ⟨REDIS_ERR_CLUSTER_TOO_MANY_RETRIES, bytes "too many cluster retries"⟩ st
  else (st, some ())

def node_get_by_ask_error_reply {σ : Type} (str : Bytes) :
    Part (Executing σ) (Option cluster_node) := fun st =>
  match nodeByAsk st.cc str with
  | (cc, node) => ({ st with cc := cc }, some node)

section Functions
variable {σ : Type} (net : Net σ)

def ctx_get_by_node (node : cluster_node) : Part (Executing σ) (Option (Option Error)) := fun st =>
  match net.ctx_get_by_node node st.net with
  | (s, e, c) => ({ st with net := s, cc := e.elim st.cc st.cc.setError }, some c)

def redisCommand (node : cluster_node) (word : String) :
    Part (Executing σ) (Option redisReply) := fun st =>
  match net.append node (encode [bytes word]) st.net with
  | (s, false) => ({ st with net := s }, some none)
  | (s, true) =>
    match net.block_for_reply node s with
    | (s, reply) => ({ st with net := s }, some reply)

def isPong : Option redisReply → Bool
  | some (.status str) => C_STR str = bytes "PONG"
  | _ => false

def node_get_which_connected :
    List (Bytes × cluster_node) → Part (Executing σ) (Option cluster_node)
  | [] => return none
  | (_, node) :: nodes => do
    match ← ctx_get_by_node net node with
    | some none =>
      let reply ← redisCommand net node "PING"
      if isPong reply then return some node else node_get_which_connected nodes
    | _ => node_get_which_connected nodes

/-- The loop of `cluster_update_route`: the nodes are asked until one tells the route. -/
def askNodes : List (Bytes × cluster_node) → Part (Executing σ) Bool
  | [], st => (st, some false)
  | (_, node) :: nodes, st =>
    if node.host = none then askNodes nodes st
    else
      match net.update_route node st.net with
      | (s, .ok route) => ({ st with net := s, cc := { st.cc with route := route, err := none } }, some true)
      | (s, .error e) => askNodes nodes { st with net := s, cc := st.cc.setError e }

def cluster_update_route : Part (Executing σ) Bool := do
  let nodes ← Part.read fun st : Executing σ => st.cc.route.nodes.table.flatten
  if ← askNodes net nodes then return true
  if nodes.all fun n => n.2.host = none then
    Part.change fun st => { st with cc := st.cc.setError (other "no valid server address") }
  return false

def connect (node : cluster_node) : Part (Executing σ) Unit := do
  match ← ctx_get_by_node net node with
  | none => Part.leave
  | some none => return ()
  | some (some e) => failWith e

/-- From `retry:` on: the node of the slot, or one that can be reached. -/
def chooseNode (slot_num : Int) : Part (Executing σ) cluster_node := do
  match ← Part.read fun st : Executing σ => st.cc.node_get_by_table slot_num with
  | none => failWith (other "node get by table error")
  | some node =>
    match ← ctx_get_by_node net node with
    | none => Part.leave
    | some none => return node
    | some (some _) =>
      let nodes ← Part.read fun st : Executing σ => st.cc.route.nodes.table.flatten
      match ← node_get_which_connected net nodes with
      | none => failWith (other "no reachable node in cluster")
      | some node =>
        retry
        connect net node
        return node

/-- From `ask_retry:` on: the command is sent and its reply read. -/
def send (node : cluster_node) (cmd : Bytes) : Part (Executing σ) redisReply := fun st =>
  match net.append node cmd st.net with
  | (s, false) => failWith (net.error node s) { st with net := s }
  | (s, true) =>
    match net.block_for_reply node s with
    | (s, none) =>
      failWith (net.error node s) { st with net := s, sent := st.sent ++ [⟨node, cmd, none⟩] }
    | (s, some reply) =>
      ({ st with net := s, sent := st.sent ++ [⟨node, cmd, some reply⟩] }, some reply)

/-- What a reply that redirects leads to: the node to ask, if there is one. -/
def redirect (reply : redisReply) : Part (Executing σ) (Option cluster_node) := do
  retry
  match cluster_reply_error_type reply with
  | .MOVED =>
    if ← cluster_update_route net then return none
    else failWith (other "route update error, please recreate redisClusterContext!")
  | .ASK =>
    match ← node_get_by_ask_error_reply (reply.str.getD []) with
    | none => Part.leave
    | some node =>
      connect net node
      match ← redisCommand net node "ASKING" with
      | none =>
        let e ← Part.read fun st : Executing σ => net.error node st.net
        failWith e
      | some _ => return some node
  | _ => return none

/-- A try: at the node that is to be asked, or from `retry:` on. -/
def attempt (slot_num : Int) (cmd : Bytes) : Option cluster_node → Part (Executing σ) redisReply
  | some node => send net node cmd
  | none => do
    let node ← chooseNode net slot_num
    send net node cmd

/-- A turn of the jumps: a try, and what its reply leads to. -/
def executeRound (slot_num : Int) (cmd : Bytes) (at_ : Executing σ × Option cluster_node) :
    Round (Executing σ × Option cluster_node) (Executing σ × Option redisReply) :=
  match attempt net slot_num cmd at_.2 at_.1 with
  | (st, none) => .done (st, none)
  | (st, some reply) =>
    if Redirects reply then
      match redirect net reply st with
      | (st, none) => .done (st, none)
      | (st, some node) => .next (st, node)
    else .done (st, some reply)

def redis_cluster_command_execute (slot_num : Int) (cmd : Bytes) (st : Executing σ) :
    Option (Executing σ × Option redisReply) :=
  iterate (executeRound net slot_num cmd)
    ((st.cc.max_retry_count - st.cc.retry_count).toNat + 1) (st, none)

end Functions

/-- What has been sent, and the tries. -/
structure Same {σ : Type} (st st' : Executing σ) : Prop where
  sent : st'.sent = st.sent
  max : st'.cc.max_retry_count = st.cc.max_retry_count
  tries : st'.cc.retry_count = st.cc.retry_count

structure Later {σ : Type} (st st' : Executing σ) : Prop where
  sent : st'.sent = st.sent
  max : st'.cc.max_retry_count = st.cc.max_retry_count
  tries : st.cc.retry_count ≤ st'.cc.retry_count

section Sends
variable {σ : Type} (net : Net σ) {cmd : Bytes} {st st' : Executing σ}

instance : Std.Refl (Same (σ := σ)) := ⟨fun _ => ⟨rfl, rfl, rfl⟩⟩

instance : IsTrans (Executing σ) Same :=
  ⟨fun _ _ _ h h' => ⟨h'.sent.trans h.sent, h'.max.trans h.max, h'.tries.trans h.tries⟩⟩

instance : Std.Refl (Later (σ := σ)) := ⟨fun _ => ⟨rfl, rfl, le_rfl⟩⟩

instance : IsTrans (Executing σ) Later :=
  ⟨fun _ _ _ h h' => ⟨h'.sent.trans h.sent, h'.max.trans h.max, h.tries.trans h'.tries⟩⟩

theorem Same.later (h : Same st st') : Later st st' := ⟨h.sent, h.max, h.tries.ge⟩

theorem later {α : Type} {x : Part (Executing σ) α} (h : Part.Keeps Same x) : Part.Keeps Later x :=
  h.mono fun _ _ => Same.later

theorem failWith_same {α : Type} (e : Error) : Part.Keeps Same (failWith (σ := σ) (α := α) e) :=
  fun _ => ⟨rfl, rfl, rfl⟩

theorem retry_later : Part.Keeps Later (retry (σ := σ)) := by
  intro st
  unfold retry
  dsimp only
  split
  · exact ⟨rfl, rfl, by simp [failWith, redisClusterContext.setError]⟩
  · exact ⟨rfl, rfl, by simp⟩

/-- A try that is left is counted. -/
theorem retry_next (h : retry st = (st', some ())) :
    st'.cc.retry_count = st.cc.retry_count + 1 ∧
      st.cc.retry_count + 1 ≤ st.cc.max_retry_count ∧ st'.sent = st.sent ∧
      st'.cc.max_retry_count = st.cc.max_retry_count := by
  unfold retry at h
  dsimp only at h
  split at h
  · cases h
  · next hle =>
    cases h
    exact ⟨rfl, not_lt.mp hle, rfl, rfl⟩

theorem ctx_get_by_node_same (node : cluster_node) : Part.Keeps Same (ctx_get_by_node net node) := by
  intro st
  unfold ctx_get_by_node
  rcases net.ctx_get_by_node node st.net with ⟨s, e, c⟩
  cases e with
  | none => exact ⟨rfl, rfl, rfl⟩
  | some e => exact ⟨rfl, rfl, rfl⟩

theorem redisCommand_same (node : cluster_node) (word : String) :
    Part.Keeps Same (redisCommand net node word) := by
  intro st
  unfold redisCommand
  split
  · exact ⟨rfl, rfl, rfl⟩
  · exact ⟨rfl, rfl, rfl⟩

theorem node_get_which_connected_same (nodes : List (Bytes × cluster_node)) :
    Part.Keeps Same (node_get_which_connected net nodes) := by
  induction nodes with
  | nil => exact Part.Keeps.pure none
  | cons n nodes ih =>
    refine (ctx_get_by_node_same net n.2).bind fun c => ?_
    split
    · refine (redisCommand_same net n.2 "PING").bind fun reply => ?_
      split
      · exact Part.Keeps.pure _
      · exact ih
    · exact ih

theorem askNodes_same (nodes : List (Bytes × cluster_node)) :
    Part.Keeps Same (askNodes net nodes) := by
  intro st
  induction nodes generalizing st with
  | nil => exact ⟨rfl, rfl, rfl⟩
  | cons n nodes ih =>
    rw [askNodes]
    split
    · exact ih st
    · cases net.update_route n.2 st.net with
      | mk s route =>
        cases route with
        | ok route => exact ⟨rfl, rfl, rfl⟩
        | error e =>
          have h := ih { st with net := s, cc := st.cc.setError e }
          exact ⟨h.sent, h.max, h.tries⟩

theorem cluster_update_route_same : Part.Keeps Same (cluster_update_route net) := by
  refine (Part.Keeps.read _).bind fun nodes => ?_
  refine (askNodes_same net nodes).bind fun found => ?_
  split
  · exact Part.Keeps.pure true
  · split
    · refine Part.Keeps.bind (fun _ => ⟨rfl, rfl, rfl⟩) fun _ => Part.Keeps.pure false
    · exact Part.Keeps.pure false

theorem connect_same (node : cluster_node) : Part.Keeps Same (connect net node) := by
  refine (ctx_get_by_node_same net node).bind fun c => ?_
  split
  · exact Part.Keeps.leave
  · exact Part.Keeps.pure ()
  · exact failWith_same _

theorem chooseNode_later (slot_num : Int) : Part.Keeps Later (chooseNode net slot_num) := by
  refine (Part.Keeps.read _).bind fun n => ?_
  split
  · exact later (failWith_same _)
  · refine (later (ctx_get_by_node_same net _)).bind fun c => ?_
    split
    · exact Part.Keeps.leave
    · exact Part.Keeps.pure _
    · refine (Part.Keeps.read _).bind fun nodes => ?_
      refine (later (node_get_which_connected_same net nodes)).bind fun n => ?_
      split
      · exact later (failWith_same _)
      · refine retry_later.bind fun _ => ?_
        exact (later (connect_same net _)).bind fun _ => Part.Keeps.pure _

theorem nodeByAsk_same (cc : redisClusterContext) (str : Bytes) :
    (nodeByAsk cc str).1.max_retry_count = cc.max_retry_count ∧
      (nodeByAsk cc str).1.retry_count = cc.retry_count := by
  unfold nodeByAsk
  split
  · split
    · split
      · exact ⟨rfl, rfl⟩
      · dsimp only
        split
        · exact ⟨rfl, rfl⟩
        · exact ⟨rfl, rfl⟩
    · exact ⟨rfl, rfl⟩
  · exact ⟨rfl, rfl⟩

/-- What a redirection does after its try has been counted. -/
theorem redirect_eq (reply : redisReply) : ∃ x : Part (Executing σ) (Option cluster_node),
    redirect net reply = (retry >>= fun _ => x) ∧ Part.Keeps Same x := by
  refine ⟨_, rfl, ?_⟩
  split
  · refine (cluster_update_route_same net).bind fun found => ?_
    split
    · exact Part.Keeps.pure none
    · exact failWith_same _
  · have hfind : Part.Keeps (σ := Executing σ) Same
        (node_get_by_ask_error_reply (reply.str.getD [])) :=
      fun st => ⟨rfl, (nodeByAsk_same st.cc _).1, (nodeByAsk_same st.cc _).2⟩
    refine hfind.bind fun found => ?_
    split
    · exact Part.Keeps.leave
    · refine (connect_same net _).bind fun _ => ?_
      refine (redisCommand_same net _ "ASKING").bind fun answered => ?_
      split
      · exact (Part.Keeps.read _).bind fun e => failWith_same e
      · exact Part.Keeps.pure _
  · exact Part.Keeps.pure none

variable {net}

theorem redirect_next {reply : redisReply} {n : Option cluster_node}
    (h : redirect net reply st = (st', some n)) :
    st'.sent = st.sent ∧ st'.cc.max_retry_count = st.cc.max_retry_count ∧
      st'.cc.retry_count = st.cc.retry_count + 1 ∧
      st.cc.retry_count + 1 ≤ st.cc.max_retry_count := by
  obtain ⟨x, hx, hsame⟩ := redirect_eq net reply
  rw [hx] at h
  cases hr : retry st with
  | mk st₁ left =>
    cases left with
    | none =>
      rw [Part.bind_leave hr] at h
      cases h
    | some left =>
      obtain ⟨htries, hle, hsent, hmax⟩ := retry_next hr
      rw [Part.bind_next hr] at h
      have hlast := hsame st₁
      rw [h] at hlast
      exact ⟨hlast.sent.trans hsent, hlast.max.trans hmax, hlast.tries.trans htries, hle⟩

theorem redirect_later (net : Net σ) (reply : redisReply) : Part.Keeps Later (redirect net reply) := by
  obtain ⟨x, hx, hsame⟩ := redirect_eq net reply
  rw [hx]
  exact retry_later.bind fun _ => later hsame

/-- What a try has sent for the command: nothing, or it once. -/
inductive Tried (cmd : Bytes) (st : Executing σ) : Executing σ × Option redisReply → Prop
  | nothing {st' : Executing σ} : Later st st' → Tried cmd st (st', none)
  | once {st' : Executing σ} {node : cluster_node} {reply : Option redisReply} :
    st'.sent = st.sent ++ [⟨node, cmd, reply⟩] →
    st'.cc.max_retry_count = st.cc.max_retry_count → st.cc.retry_count ≤ st'.cc.retry_count →
    Tried cmd st (st', reply)

theorem send_tried (net : Net σ) (node : cluster_node) (cmd : Bytes) (st : Executing σ) :
    Tried cmd st (send net node cmd st) := by
  unfold send
  split
  · exact .nothing ⟨rfl, rfl, le_rfl⟩
  · split
    · exact .once rfl rfl le_rfl
    · exact .once rfl rfl le_rfl

theorem attempt_tried (net : Net σ) (slot_num : Int) (cmd : Bytes) (n : Option cluster_node) (st : Executing σ) :
    Tried cmd st (attempt net slot_num cmd n st) := by
  cases n with
  | some node => exact send_tried net node cmd st
  | none =>
    have hchoose := chooseNode_later net slot_num st
    rw [attempt]
    cases hr : chooseNode net slot_num st with
    | mk st₁ node =>
      rw [hr] at hchoose
      cases node with
      | none =>
        rw [Part.bind_leave hr]
        exact .nothing hchoose
      | some node =>
        rw [Part.bind_next hr]
        have hsend := send_tried net node cmd st₁
        generalize send net node cmd st₁ = r at hsend ⊢
        cases hsend with
        | nothing h => exact .nothing (IsTrans.trans _ _ _ hchoose h)
        | once hsent hmax htries =>
          exact .once (hchoose.sent ▸ hsent) (hmax.trans hchoose.max) (hchoose.tries.trans htries)

/-- A round that goes on has sent the command once, and was told to go elsewhere. -/
theorem executeRound_next {slot_num : Int} {n n' : Option cluster_node}
    (h : executeRound net slot_num cmd (st, n) = .next (st', n')) :
    ∃ node reply, Redirects reply ∧ st'.sent = st.sent ++ [⟨node, cmd, some reply⟩] ∧
      st'.cc.max_retry_count = st.cc.max_retry_count ∧
      st.cc.retry_count + 1 ≤ st'.cc.retry_count ∧ st'.cc.retry_count ≤ st.cc.max_retry_count := by
  have htried := attempt_tried net slot_num cmd n st
  rw [executeRound] at h
  generalize attempt net slot_num cmd n st = r at h htried
  cases htried with
  | nothing _ => cases h
  | @once st₁ node reply hsent hmax htries =>
    cases reply with
    | none => cases h
    | some reply =>
      dsimp only at h
      split at h
      · next hredirects =>
        split at h
        · cases h
        · next hr =>
          cases h
          obtain ⟨hsent', hmax', htries', hle⟩ := redirect_next hr
          refine ⟨node, reply, hredirects, hsent'.trans hsent, hmax'.trans hmax, ?_, ?_⟩ <;> omega
      · cases h

/-- A round that ends the call has sent it at most once, and has no redirection for a reply. -/
theorem executeRound_done {slot_num : Int} {n : Option cluster_node} {r : Option redisReply}
    (h : executeRound net slot_num cmd (st, n) = .done (st', r)) :
    st'.cc.max_retry_count = st.cc.max_retry_count ∧
      (st'.sent = st.sent ∧ r = none ∨
        ∃ node reply, st'.sent = st.sent ++ [⟨node, cmd, reply⟩] ∧
          ∀ last, r = some last → ¬ Redirects last ∧ reply = some last) := by
  have htried := attempt_tried net slot_num cmd n st
  rw [executeRound] at h
  generalize attempt net slot_num cmd n st = r' at h htried
  cases htried with
  | nothing hlater =>
    cases h
    exact ⟨hlater.max, .inl ⟨hlater.sent, rfl⟩⟩
  | @once st₁ node reply hsent hmax _ =>
    cases reply with
    | none =>
      cases h
      exact ⟨hmax, .inr ⟨node, none, hsent, nofun⟩⟩
    | some reply =>
      dsimp only at h
      split at h
      · have hlater := redirect_later net reply st₁
        split at h
        · next hr =>
          cases h
          rw [hr] at hlater
          exact ⟨hlater.max.trans hmax, .inr ⟨node, some reply, hlater.sent.trans hsent, nofun⟩⟩
        · cases h
      · next hends =>
        cases h
        refine ⟨hmax, .inr ⟨node, some reply, hsent, fun last hlast => ?_⟩⟩
        cases hlast
        exact ⟨hends, rfl⟩

/-- What a call has sent, and what it returns of it. -/
structure Sends (cmd : Bytes) (tries : Int) (sends : List Sent) (r : Option redisReply) : Prop where
  bound : sends.length ≤ tries.toNat + 1
  same : ∀ x ∈ sends, x.cmd = cmd
  redirects : ∀ x ∈ sends.dropLast, ∃ reply, x.reply = some reply ∧ Redirects reply
  last : ∀ reply, r = some reply →
    ¬ Redirects reply ∧ ∃ x, sends.getLast? = some x ∧ x.reply = some reply

theorem executing_sends {slot_num : Int} {n : Option cluster_node} {r : Option redisReply}
    (h : Ends (executeRound net slot_num cmd) (st, n) (st', r)) :
    st'.cc.max_retry_count = st.cc.max_retry_count ∧ ∃ sends, st'.sent = st.sent ++ sends ∧
      Sends cmd (st.cc.max_retry_count - st.cc.retry_count) sends r := by
  generalize hs : (st, n) = s at h
  generalize ht : (st', r) = t at h
  induction h generalizing st n with
  | done hstep =>
    subst hs ht
    obtain ⟨hmax, ⟨hsent, rfl⟩ | ⟨node, reply, hsent, hlast⟩⟩ := executeRound_done hstep
    · exact ⟨hmax, [], by simp [hsent], by simp, by simp, by simp, nofun⟩
    · refine ⟨hmax, _, hsent, by simp, by simp, by simp, fun reply hreply => ?_⟩
      obtain ⟨hends, rfl⟩ := hlast reply hreply
      exact ⟨hends, _, rfl, rfl⟩
  | @next s s₁ t hstep hrest ih =>
    subst hs
    rcases s₁ with ⟨st₁, n₁⟩
    obtain ⟨node, reply, hredirects, hsent, hmax, hmore, hle⟩ := executeRound_next hstep
    obtain ⟨hmax', sends, hsends, hbound, hsame, hredir, hlast⟩ := ih rfl ht
    have hwhole : st'.sent = st.sent ++ ⟨node, cmd, some reply⟩ :: sends := by
      rw [hsends, hsent, List.append_assoc]
      rfl
    refine ⟨hmax'.trans hmax, _, hwhole, ?_, ?_, ?_, fun last hr => ?_⟩
    · rw [List.length_cons]
      omega
    · exact List.forall_mem_cons.mpr ⟨rfl, hsame⟩
    · cases sends with
      | nil => simp
      | cons x sends =>
        rw [List.dropLast_cons_cons]
        exact List.forall_mem_cons.mpr ⟨⟨reply, rfl, hredirects⟩, hredir⟩
    · obtain ⟨hends, x, hx, hxr⟩ := hlast last hr
      refine ⟨hends, x, ?_, hxr⟩
      cases sends with
      | nil => cases hx
      | cons y sends => rw [List.getLast?_cons_cons, hx]

theorem executeRound_measure (net : Net σ) (slot_num : Int) (cmd : Bytes) (s t : Executing σ × Option cluster_node)
    (h : executeRound net slot_num cmd s = .next t) :
    (t.1.cc.max_retry_count - t.1.cc.retry_count).toNat <
      (s.1.cc.max_retry_count - s.1.cc.retry_count).toNat := by
  obtain ⟨_, _, _, _, hmax, hmore, hle⟩ := executeRound_next h
  omega

theorem execute_max {slot_num : Int} {r : Option redisReply}
    (h : redis_cluster_command_execute net slot_num cmd st = some (st', r)) :
    st'.cc.max_retry_count = st.cc.max_retry_count :=
  (executing_sends (ends_of_iterate h)).1

theorem execute_of_ends {slot_num : Int} {r : Executing σ × Option redisReply}
    (h : Ends (executeRound net slot_num cmd) (st, none) r) :
    redis_cluster_command_execute net slot_num cmd st = some r :=
  iterate_of_ends _ (executeRound_measure net slot_num cmd) (Nat.lt_succ_self _) h

/-- A call ends. It sends the command as often as there are tries left, and once more, at the most; only
where a node has told it to go elsewhere does it send the command again, and what it returns is the reply
to the last time. -/
theorem redis_cluster_command_execute_sends (net : Net σ) (slot_num : Int) (cmd : Bytes)
    (st : Executing σ) :
    ∃ st' r sends, redis_cluster_command_execute net slot_num cmd st = some (st', r) ∧
      st'.sent = st.sent ++ sends ∧
      Sends cmd (st.cc.max_retry_count - st.cc.retry_count) sends r := by
  obtain ⟨⟨st', r⟩, hr⟩ := iterate_of_measure (s := (st, none)) _
    (executeRound_measure net slot_num cmd) (Nat.lt_succ_self _)
  obtain ⟨-, sends, hsends⟩ := executing_sends (ends_of_iterate hr)
  exact ⟨st', r, sends, hr, hsends⟩

end Sends

end CppPrivate.Cluster
