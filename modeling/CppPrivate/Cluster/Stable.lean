import CppPrivate.Cluster.Execute
import CppPrivate.Cluster.Whole

/-! A client of a cluster that does not change gets its replies, however old its route is. -/
namespace CppPrivate.Cluster
open Hiredis Redis Loop Shards

section Net
variable {σ : Type} (net : Net σ) (view : σ → Keyspace) (route : Route) (live : cluster_node → Prop)

def Exchanges (node : cluster_node) (cmd : Bytes) (s s' : σ) (reply : redisReply) : Prop :=
  ∃ s₁, net.append node cmd s = (s₁, true) ∧ net.block_for_reply node s₁ = (s', some reply)

/-- There is a context of the node, with an error that stays. -/
def Broken (node : cluster_node) : Prop := ∀ s, ∃ e, (net.ctx_get_by_node node s).2.2 = some (some e)

/-- A cluster that does not change. The nodes that are live can be reached; each tells the route, and
answers a command for keys of a slot if the slot is its own, else with where it has moved. -/
structure Stable : Prop where
  owner : ∀ k < REDIS_CLUSTER_SLOTS, ∃ node, route.table k = some node ∧ live node
  host : ∀ node, live node → node.host ≠ none
  context : ∀ node s, ∃ s' e c, net.ctx_get_by_node node s = (s', e, c) ∧ view s' = view s ∧
    (live node ↔ c = some none)
  ping : ∀ node s, live node → ∃ s',
    Exchanges net node (encode [bytes "PING"]) s s' (.status (bytes "PONG")) ∧ view s' = view s
  tells : ∀ node s, ∃ s' r, net.update_route node s = (s', r) ∧ view s' = view s ∧
    (live node → r = .ok route) ∧ (¬ live node → ∃ e, r = .error e)
  serves : ∀ node s type name items k, live node → redis_parse_cmd_verb name = type →
    Multi type → Arguments type items → items ≠ [] → (∀ item ∈ items, slotOfItem item = k) →
      ∃ s' reply, Exchanges net node (encode (name :: items.flatMap Item.args)) s s' reply ∧
        if route.table k = some node then
          reply = (serve type (view s) items).2 ∧ view s' = (serve type (view s) items).1
        else cluster_reply_error_type reply = .MOVED ∧ view s' = view s

/-- A route that is not the cluster's: every slot has a node that is live or was connected to once, and
some node that is known is live. -/
structure Known (route : Route) : Prop where
  table : ∀ k < REDIS_CLUSTER_SLOTS, ∃ node, route.table k = some node ∧ (live node ∨ Broken net node)
  node : ∃ n ∈ route.nodes.table.flatten, live n.2

/-- The client can send `n` commands more before it counts its tries anew. -/
structure Ready (max_retry_count : Int) (n : Nat) (st : Executing σ) : Prop where
  max : st.cc.max_retry_count = max_retry_count
  route : st.cc.route = route ∨ Known net live st.cc.route ∧ st.cc.retry_count + n < max_retry_count

end Net

/-- Nothing is done to the keys, the route or the tries. -/
structure Idle {σ : Type} (view : σ → Keyspace) (st st' : Executing σ) : Prop where
  view : view st'.net = view st.net
  route : st'.cc.route = st.cc.route
  max : st'.cc.max_retry_count = st.cc.max_retry_count
  tries : st'.cc.retry_count = st.cc.retry_count

section Stable
variable {σ : Type} {net : Net σ} {view : σ → Keyspace} {route : Route} {live : cluster_node → Prop}
  {node : cluster_node} {st : Executing σ}

theorem Idle.trans {st₁ st₂ : Executing σ} (h : Idle view st st₁) (h' : Idle view st₁ st₂) :
    Idle view st st₂ :=
  ⟨h'.view.trans h.view, h'.route.trans h.route, h'.max.trans h.max, h'.tries.trans h.tries⟩

theorem setErrors (cc : redisClusterContext) (e : Option Error) :
    (e.elim cc cc.setError).route = cc.route ∧
      (e.elim cc cc.setError).max_retry_count = cc.max_retry_count ∧
      (e.elim cc cc.setError).retry_count = cc.retry_count := by
  cases e with
  | none => exact ⟨rfl, rfl, rfl⟩
  | some e => exact ⟨rfl, rfl, rfl⟩

theorem Stable.context_idle (h : Stable net view route live) (node : cluster_node)
    (st : Executing σ) :
    ∃ st' c, ctx_get_by_node net node st = (st', some c) ∧ Idle view st st' ∧
      (live node ↔ c = some none) ∧ (Broken net node → ∃ e, c = some (some e)) := by
  obtain ⟨s', e, c, hctx, hview, hlive⟩ := h.context node st.net
  obtain ⟨hroute, hmax, htries⟩ := setErrors st.cc e
  refine ⟨{ st with net := s', cc := e.elim st.cc st.cc.setError }, c, ?_,
    ⟨hview, hroute, hmax, htries⟩, hlive, fun hbroken => ?_⟩
  · rw [ctx_get_by_node, hctx]
  · obtain ⟨e', he'⟩ := hbroken st.net
    rw [hctx] at he'
    exact ⟨e', he'⟩

theorem Stable.ping_idle (h : Stable net view route live) (hlive : live node) (st : Executing σ) :
    ∃ st', redisCommand net node "PING" st = (st', some (some (.status (bytes "PONG")))) ∧
      Idle view st st' := by
  obtain ⟨s', ⟨s₁, happend, hreply⟩, hview⟩ := h.ping node st.net hlive
  refine ⟨{ st with net := s' }, ?_, ⟨hview, rfl, rfl, rfl⟩⟩
  rw [redisCommand, happend]
  simp only [hreply]

/-- Of the nodes that are known the first live one is found. -/
theorem Stable.which_connected (h : Stable net view route live)
    {nodes : List (Bytes × cluster_node)} (hnode : ∃ n ∈ nodes, live n.2) (st : Executing σ) :
    ∃ st' node, node_get_which_connected net nodes st = (st', some (some node)) ∧ live node ∧
      Idle view st st' := by
  induction nodes generalizing st with
  | nil =>
    obtain ⟨n, hn, -⟩ := hnode
    cases hn
  | cons n nodes ih =>
    obtain ⟨st₁, c, hctx, hidle, hlive, -⟩ := h.context_idle n.2 st
    rw [node_get_which_connected, Part.bind_next hctx]
    by_cases hn : live n.2
    · rw [hlive.mp hn]
      obtain ⟨st₂, hping, hidle₂⟩ := h.ping_idle hn st₁
      refine ⟨st₂, n.2, ?_, hn, hidle.trans hidle₂⟩
      dsimp only
      rw [Part.bind_next hping, if_pos (by decide)]
      rfl
    · obtain ⟨m, hm, hmlive⟩ := hnode
      have htail : m ∈ nodes := (List.mem_cons.mp hm).resolve_left fun hmn => hn (hmn ▸ hmlive)
      obtain ⟨st₂, node, hfound, hnode, hidle₂⟩ := ih ⟨m, htail, hmlive⟩ st₁
      refine ⟨st₂, node, ?_, hnode, hidle.trans hidle₂⟩
      have hc : c ≠ some none := fun hc => hn (hlive.mpr hc)
      split
      · exact absurd rfl hc
      · exact hfound

/-- The first live node tells the route. -/
theorem Stable.askNodes (h : Stable net view route live) {nodes : List (Bytes × cluster_node)}
    (hnode : ∃ n ∈ nodes, live n.2) (st : Executing σ) :
    ∃ st', askNodes net nodes st = (st', some true) ∧ view st'.net = view st.net ∧
      st'.cc.route = route := by
  induction nodes generalizing st with
  | nil =>
    obtain ⟨n, hn, -⟩ := hnode
    cases hn
  | cons n nodes ih =>
    obtain ⟨s', r, htells, hview, hlive, hdead⟩ := h.tells n.2 st.net
    rw [Cluster.askNodes]
    by_cases hn : live n.2
    · rw [if_neg (h.host n.2 hn), htells, hlive hn]
      exact ⟨_, rfl, hview, rfl⟩
    · obtain ⟨m, hm, hmlive⟩ := hnode
      have htail : m ∈ nodes := (List.mem_cons.mp hm).resolve_left fun hmn => hn (hmn ▸ hmlive)
      split
      · exact ih ⟨m, htail, hmlive⟩ st
      · obtain ⟨e, he⟩ := hdead hn
        rw [htells, he]
        obtain ⟨st', hasked, hview', hroute⟩ := ih ⟨m, htail, hmlive⟩
          { st with net := s', cc := st.cc.setError e }
        exact ⟨st', hasked, hview'.trans hview, hroute⟩

theorem Stable.update_route (h : Stable net view route live)
    (hnode : ∃ n ∈ st.cc.route.nodes.table.flatten, live n.2) :
    ∃ st', cluster_update_route net st = (st', some true) ∧ view st'.net = view st.net ∧
      st'.cc.route = route := by
  obtain ⟨st', hasked, hview, hroute⟩ := h.askNodes hnode st
  refine ⟨st', ?_, hview, hroute⟩
  rw [cluster_update_route, Part.bind_next (Part.read_apply _ st), Part.bind_next hasked]
  rfl

theorem node_get_by_table_eq {k : Nat} (hk : k < REDIS_CLUSTER_SLOTS) (cc : redisClusterContext) :
    cc.node_get_by_table k = cc.route.table k := by
  rw [redisClusterContext.node_get_by_table, if_pos ⟨Int.natCast_nonneg k, Int.ofNat_lt.mpr hk⟩,
    Int.toNat_natCast]

/-- The node of a slot is live: it is chosen. -/
theorem Stable.choose_live (h : Stable net view route live) {k : Nat} (hk : k < REDIS_CLUSTER_SLOTS)
    (hnode : st.cc.route.table k = some node) (hlive : live node) :
    ∃ st', chooseNode net k st = (st', some node) ∧ Idle view st st' := by
  obtain ⟨st', c, hctx, hidle, hc, -⟩ := h.context_idle node st
  rw [hc.mp hlive] at hctx
  refine ⟨st', ?_, hidle⟩
  rw [chooseNode, Part.bind_next (Part.read_apply _ st), node_get_by_table_eq hk, hnode]
  dsimp only
  rw [Part.bind_next hctx]
  rfl

/-- The context of the node of a slot is broken: it costs a try, and a live one is chosen. -/
theorem Stable.choose_broken (h : Stable net view route live) {k : Nat}
    (hk : k < REDIS_CLUSTER_SLOTS) (hnode : st.cc.route.table k = some node)
    (hbroken : Broken net node) (hknown : ∃ n ∈ st.cc.route.nodes.table.flatten, live n.2)
    (htry : st.cc.retry_count < st.cc.max_retry_count) :
    ∃ st' other, chooseNode net k st = (st', some other) ∧ live other ∧
      view st'.net = view st.net ∧ st'.cc.route = st.cc.route ∧
      st'.cc.max_retry_count = st.cc.max_retry_count ∧
      st'.cc.retry_count = st.cc.retry_count + 1 := by
  obtain ⟨st₁, c, hctx, hidle, -, hc⟩ := h.context_idle node st
  obtain ⟨e, rfl⟩ := hc hbroken
  rw [← hidle.route] at hknown
  obtain ⟨st₂, other, hfound, hlive, hidle₂⟩ := h.which_connected hknown st₁
  obtain ⟨hview, hroute, hmax, htries⟩ := hidle.trans hidle₂
  let st₃ := { st₂ with cc := { st₂.cc with retry_count := st₂.cc.retry_count + 1 } }
  have hretry : retry st₂ = (st₃, some ()) := by
    rw [retry]
    exact if_neg (by dsimp only; omega)
  obtain ⟨st₄, c, hctx₄, hidle₄, hc₄, -⟩ := h.context_idle other st₃
  rw [hc₄.mp hlive] at hctx₄
  have hconnect : connect net other st₃ = (st₄, some ()) := by
    rw [connect, Part.bind_next hctx₄]
    rfl
  refine ⟨st₄, other, ?_, hlive, hidle₄.view.trans hview, hidle₄.route.trans hroute,
    hidle₄.max.trans hmax, ?_⟩
  · rw [chooseNode, Part.bind_next (Part.read_apply _ st), node_get_by_table_eq hk, hnode]
    dsimp only
    rw [Part.bind_next hctx]
    dsimp only
    rw [Part.bind_next (Part.read_apply _ st₁), Part.bind_next hfound]
    dsimp only
    rw [Part.bind_next hretry, Part.bind_next hconnect]
    rfl
  · rw [hidle₄.tries, ← htries]

end Stable

/-- A command of the kinds that are split, for keys of one slot. -/
structure Single (type : cmd_type) (name : Bytes) (items : List Item) (k : Nat) : Prop where
  verb : redis_parse_cmd_verb name = type
  multi : Multi type
  args : Arguments type items
  ne_nil : items ≠ []
  slot : ∀ item ∈ items, slotOfItem item = k

section Single
variable {σ : Type} {net : Net σ} {view : σ → Keyspace} {route : Route} {live : cluster_node → Prop}
  {type : cmd_type} {name : Bytes} {items : List Item} {k : Nat} {st st' : Executing σ}
  {node : cluster_node}

theorem Single.lt (hsingle : Single type name items k) : k < REDIS_CLUSTER_SLOTS := by
  obtain ⟨item, hitem⟩ := List.exists_mem_of_ne_nil items hsingle.ne_nil
  rw [← hsingle.slot item hitem]
  exact slotOfItem_lt item

theorem serve_not_redirects (type : cmd_type) (s : Keyspace) (items : List Item) :
    ¬ Redirects (serve type s items).2 := by
  intro h
  refine h.1 ?_
  cases type <;> rfl

/-- The command at its own node ends the call with its reply, at another one it is redirected. -/
theorem Stable.send (h : Stable net view route live) (hsingle : Single type name items k)
    (hlive : live node) (st : Executing σ) :
    ∃ st' reply, send net node (encode (name :: items.flatMap Item.args)) st = (st', some reply) ∧
      st'.cc = st.cc ∧
      if route.table k = some node then
        reply = (serve type (view st.net) items).2 ∧ view st'.net = (serve type (view st.net) items).1
      else cluster_reply_error_type reply = .MOVED ∧ view st'.net = view st.net := by
  obtain ⟨s', reply, ⟨s₁, happend, hreply⟩, hserves⟩ := h.serves node st.net type name items k hlive
    hsingle.verb hsingle.multi hsingle.args hsingle.ne_nil hsingle.slot
  refine ⟨{ st with
    net := s', sent := st.sent ++ [⟨node, encode (name :: items.flatMap Item.args), some reply⟩] },
    reply, ?_, rfl, hserves⟩
  rw [Cluster.send, happend]
  simp only [hreply]

theorem attempt_chosen {slot_num : Int} {cmd : Bytes} {st₁ : Executing σ} {reply : redisReply}
    (hchoose : chooseNode net slot_num st = (st', some node))
    (hsend : send net node cmd st' = (st₁, some reply)) :
    attempt net slot_num cmd none st = (st₁, some reply) := by
  rw [attempt, Part.bind_next hchoose, hsend]

theorem executeRound_answered {slot_num : Int} {cmd : Bytes} {n : Option cluster_node}
    {reply : redisReply} (h : attempt net slot_num cmd n st = (st', some reply))
    (hends : ¬ Redirects reply) :
    executeRound net slot_num cmd (st, n) = .done (st', some reply) := by
  simp only [executeRound, h, if_neg hends]

theorem executeRound_redirected {slot_num : Int} {cmd : Bytes} {n n' : Option cluster_node}
    {st₁ : Executing σ} {reply : redisReply}
    (h : attempt net slot_num cmd n st = (st', some reply)) (hmoved : Redirects reply)
    (hredirect : redirect net reply st' = (st₁, some n')) :
    executeRound net slot_num cmd (st, n) = .next (st₁, n') := by
  simp only [executeRound, h, if_pos hmoved, hredirect]

/-- The node of the slot has been chosen: the command is answered. -/
theorem Stable.round_own (h : Stable net view route live) (hsingle : Single type name items k)
    (hchoose : chooseNode net k st = (st', some node)) (hlive : live node)
    (hview : view st'.net = view st.net) (hown : route.table k = some node) :
    ∃ st₁, executeRound net k (encode (name :: items.flatMap Item.args)) (st, none) =
        .done (st₁, some (serve type (view st.net) items).2) ∧
      view st₁.net = (serve type (view st.net) items).1 ∧ st₁.cc = st'.cc := by
  obtain ⟨st₁, reply, hsend, hcc, hserves⟩ := h.send hsingle hlive st'
  rw [if_pos hown, hview] at hserves
  obtain ⟨rfl, hstore⟩ := hserves
  exact ⟨st₁, executeRound_answered (attempt_chosen hchoose hsend) (serve_not_redirects type _ items),
    hstore, hcc⟩

/-- Another live node has been chosen: the cluster's route is asked for. -/
theorem Stable.round_moved (h : Stable net view route live) (hsingle : Single type name items k)
    (hchoose : chooseNode net k st = (st', some node)) (hlive : live node)
    (hview : view st'.net = view st.net) (hother : route.table k ≠ some node)
    (hknown : ∃ n ∈ st'.cc.route.nodes.table.flatten, live n.2)
    (htry : st'.cc.retry_count < st'.cc.max_retry_count) :
    ∃ st₁, executeRound net k (encode (name :: items.flatMap Item.args)) (st, none) =
        .next (st₁, none) ∧ view st₁.net = view st.net ∧ st₁.cc.route = route := by
  obtain ⟨st₁, reply, hsend, hcc, hserves⟩ := h.send hsingle hlive st'
  rw [if_neg hother, hview] at hserves
  obtain ⟨htype, hstore⟩ := hserves
  let st₂ := { st₁ with cc := { st₁.cc with retry_count := st₁.cc.retry_count + 1 } }
  have hretry : retry st₁ = (st₂, some ()) := by
    rw [retry]
    exact if_neg (by rw [hcc]; dsimp only; omega)
  have hknown₂ : ∃ n ∈ st₂.cc.route.nodes.table.flatten, live n.2 := by
    change ∃ n ∈ st₁.cc.route.nodes.table.flatten, live n.2
    rwa [hcc]
  obtain ⟨st₃, hupdate, hview₃, hroute⟩ := h.update_route hknown₂
  have hredirect : redirect net reply st₁ = (st₃, some none) := by
    rw [redirect, Part.bind_next hretry]
    simp only [htype]
    rw [Part.bind_next hupdate]
    rfl
  have hredirects : Redirects reply := by
    rw [Redirects, htype]
    decide
  exact ⟨st₃, executeRound_redirected (attempt_chosen hchoose hsend) hredirects hredirect,
    hview₃.trans hstore, hroute⟩

/-- With the cluster's route the command is answered at once. -/
theorem Stable.ends_route (h : Stable net view route live) (hsingle : Single type name items k)
    (hroute : st.cc.route = route) :
    ∃ st', Ends (executeRound net k (encode (name :: items.flatMap Item.args))) (st, none)
        (st', some (serve type (view st.net) items).2) ∧
      view st'.net = (serve type (view st.net) items).1 ∧ st'.cc.route = route := by
  obtain ⟨node, hnode, hlive⟩ := h.owner k hsingle.lt
  obtain ⟨st₁, hchoose, hidle⟩ := h.choose_live hsingle.lt (hroute ▸ hnode) hlive
  obtain ⟨st₂, hdone, hstore, hcc⟩ := h.round_own hsingle hchoose hlive hidle.view hnode
  exact ⟨st₂, .done hdone, hstore, by rw [hcc, hidle.route, hroute]⟩

/-- A live node that has been chosen answers the command, or the cluster's route is known after it. -/
theorem Stable.ends_chosen (h : Stable net view route live) (hsingle : Single type name items k)
    (hchoose : chooseNode net k st = (st', some node)) (hlive : live node)
    (hview : view st'.net = view st.net) (hknown : ∃ n ∈ st'.cc.route.nodes.table.flatten, live n.2)
    (htry : st'.cc.retry_count < st'.cc.max_retry_count) :
    ∃ st₁, Ends (executeRound net k (encode (name :: items.flatMap Item.args))) (st, none)
        (st₁, some (serve type (view st.net) items).2) ∧
      view st₁.net = (serve type (view st.net) items).1 ∧
      (st₁.cc = st'.cc ∨ st₁.cc.route = route) := by
  by_cases hown : route.table k = some node
  · obtain ⟨st₁, hdone, hstore, hcc⟩ := h.round_own hsingle hchoose hlive hview hown
    exact ⟨st₁, .done hdone, hstore, .inl hcc⟩
  · obtain ⟨st₁, hnext, hview₁, hroute⟩ :=
      h.round_moved hsingle hchoose hlive hview hown hknown htry
    obtain ⟨st₂, hends, hstore, hroute₂⟩ := h.ends_route hsingle hroute
    rw [hview₁] at hends hstore
    exact ⟨st₂, .next hnext hends, hstore, .inr hroute₂⟩

/-- A client that can send a command gets its reply. -/
theorem Stable.ends (h : Stable net view route live) (hsingle : Single type name items k) {m : Int}
    {n : Nat} (hready : Ready net route live m (n + 1) st) :
    ∃ st', Ends (executeRound net k (encode (name :: items.flatMap Item.args))) (st, none)
        (st', some (serve type (view st.net) items).2) ∧
      view st'.net = (serve type (view st.net) items).1 ∧
      (st'.cc.route = route ∨ Known net live st'.cc.route ∧ st'.cc.retry_count + n < m) := by
  obtain ⟨hm, hroute | ⟨hknown, htry⟩⟩ := hready
  · obtain ⟨st', hends, hstore, hroute'⟩ := h.ends_route hsingle hroute
    exact ⟨st', hends, hstore, .inl hroute'⟩
  have hkeep : ∀ st₁ st' : Executing σ, st₁.cc.route = st.cc.route →
      st₁.cc.retry_count ≤ st.cc.retry_count + 1 → st'.cc = st₁.cc ∨ st'.cc.route = route →
        st'.cc.route = route ∨ Known net live st'.cc.route ∧ st'.cc.retry_count + n < m := by
    rintro st₁ st' hroute htries (hcc | hroute')
    · rw [hcc, hroute]
      exact .inr ⟨hknown, by omega⟩
    · exact .inl hroute'
  obtain ⟨node, hnode, hlive | hbroken⟩ := hknown.table k hsingle.lt
  · obtain ⟨st₁, hchoose, hview, hroute, hmax, htries⟩ := h.choose_live hsingle.lt hnode hlive
    obtain ⟨st₂, hends, hstore, hcc⟩ :=
      h.ends_chosen hsingle hchoose hlive hview (hroute ▸ hknown.node) (by omega)
    exact ⟨st₂, hends, hstore, hkeep st₁ st₂ hroute (by omega) hcc⟩
  · obtain ⟨st₁, other, hchoose, hlive, hview, hroute, hmax, htries⟩ :=
      h.choose_broken hsingle.lt hnode hbroken hknown.node (by omega)
    obtain ⟨st₂, hends, hstore, hcc⟩ :=
      h.ends_chosen hsingle hchoose hlive hview (hroute ▸ hknown.node) (by omega)
    exact ⟨st₂, hends, hstore, hkeep st₁ st₂ hroute (by omega) hcc⟩

def executed (net : Net σ) (st : Executing σ) (slot_num : Int) (cmd : Bytes) :
    Executing σ × Option redisReply :=
  (redis_cluster_command_execute net slot_num cmd st).getD (st, none)

theorem Stable.executed (h : Stable net view route live) (m : Int) :
    Serves (executed net) (Ready net route live m) fun st => view st.net := by
  intro st n type name items k hready hverb hmulti hargs hne hslot
  obtain ⟨st', hends, hstore, hroute⟩ := h.ends ⟨hverb, hmulti, hargs, hne, hslot⟩ hready
  have hexecute := execute_of_ends hends
  refine ⟨st', ?_, ⟨(execute_max hexecute).trans hready.max, hroute⟩, hstore⟩
  rw [Cluster.executed, hexecute]
  rfl

end Single

end CppPrivate.Cluster
