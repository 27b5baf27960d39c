import CppPrivate.Cluster.Stable

/-! Nodes that have the keys of their slots make a cluster that does not change. -/
namespace CppPrivate.Cluster
open Hiredis Redis

/-- What a node does: a command for a slot that is not its own has moved. -/
noncomputable def nodeReply (owner : Nat → cluster_node) (node : cluster_node) (s : Keyspace)
    (cmd : Bytes) : Keyspace × redisReply :=
  match wordsOf cmd with
  | [] => (s, .error (bytes "ERR"))
  | name :: args =>
    if name = bytes "PING" then (s, .status (bytes "PONG"))
    else
      match itemsOf (redis_parse_cmd_verb name) args with
      | [] => (s, .error (bytes "ERR"))
      | item :: items =>
        let k := slotOfItem item
        if owner k = node then serve (redis_parse_cmd_verb name) s (item :: items)
        else (s, .error (bytes "MOVED " ++ decimal k ++ bytes " " ++ (owner k).addr))

def clusterRoute (owner : Nat → cluster_node) (nodes : dict Bytes cluster_node) : Route :=
  ⟨nodes, fun k => some (owner k)⟩

/-- The keys and the command that is under way. Every node with a host can be reached. -/
noncomputable def clusterNet (owner : Nat → cluster_node) (nodes : dict Bytes cluster_node) :
    Net (Keyspace × Bytes) where
  ctx_get_by_node node s := (s, none, if node.host.isSome then some none else none)
  append _ cmd s := ((s.1, cmd), true)
  block_for_reply node s :=
    let r := nodeReply owner node s.1 s.2
    ((r.1, []), some r.2)
  error _ _ := other ""
  update_route node s :=
    (s, if node.host.isSome then .ok (clusterRoute owner nodes) else .error (other "Ip or port error!"))

section Nodes
variable {type : cmd_type} {items : List Item}

theorem name_ne_ping {name : Bytes} (hverb : redis_parse_cmd_verb name = type) (hm : Multi type) :
    name ≠ bytes "PING" := by
  rintro rfl
  rw [← hverb] at hm
  revert hm
  rw [Multi]
  decide

/-- What a node does with a command of the kinds that are split. -/
theorem nodeReply_command (owner : Nat → cluster_node) {name : Bytes} {k : Nat}
    (node : cluster_node) (s : Keyspace) (hverb : redis_parse_cmd_verb name = type) (hm : Multi type) (hargs : Arguments type items)
    (hne : items ≠ []) (hslot : ∀ item ∈ items, slotOfItem item = k) :
    nodeReply owner node s (encode (name :: items.flatMap Item.args)) =
      if owner k = node then serve type s items
      else (s, .error (bytes "MOVED " ++ decimal k ++ bytes " " ++ (owner k).addr)) := by
  rw [nodeReply, wordsOf_encode]
  simp only [if_neg (name_ne_ping hverb hm), hverb, itemsOf_args hargs]
  cases items with
  | nil => exact absurd rfl hne
  | cons item items => simp only [hslot item List.mem_cons_self]

theorem moved_type (text : Bytes) :
    cluster_reply_error_type (.error (bytes "MOVED " ++ text)) = .MOVED := by
  have hlen : (bytes "MOVED").length < (bytes "MOVED " ++ text).length := by
    rw [List.length_append]
    exact Nat.lt_of_lt_of_le (by decide) (Nat.le_add_right _ _)
  have hprefix : (bytes "MOVED").isPrefixOf (bytes "MOVED " ++ text) = true := by
    rw [List.isPrefixOf_iff_prefix]
    exact ⟨bytes " " ++ text, rfl⟩
  rw [cluster_reply_error_type]
  simp only [hlen, hprefix, decide_true, Bool.and_self, if_true]

/-- However the slots are given to the nodes. -/
theorem clusterNet_stable (owner : Nat → cluster_node) (nodes : dict Bytes cluster_node)
    (howner : ∀ k, (owner k).host ≠ none) :
    Stable (clusterNet owner nodes) Prod.fst (clusterRoute owner nodes) fun node => node.host ≠ none where
  owner k _ := ⟨owner k, rfl, howner k⟩
  host _ h := h
  context node s := by
    refine ⟨s, none, _, rfl, rfl, ?_⟩
    cases node.host with
    | none => simp
    | some host => simp
  ping node s _ := by
    refine ⟨(s.1, []), ⟨(s.1, encode [bytes "PING"]), rfl, ?_⟩, rfl⟩
    simp only [clusterNet, nodeReply, wordsOf_encode, if_true]
  tells node s := by
    refine ⟨s, _, rfl, rfl, fun h => ?_, fun h => ⟨other "Ip or port error!", ?_⟩⟩
    · rw [if_pos (Option.isSome_iff_ne_none.mpr h)]
    · rw [if_neg fun hsome => h (Option.isSome_iff_ne_none.mp hsome)]
  serves node s type name items k _ hverb hm hargs hne hslot := by
    have hreply := nodeReply_command owner node s.1 hverb hm hargs hne hslot
    refine ⟨_, _, ⟨(s.1, encode (name :: items.flatMap Item.args)), rfl, rfl⟩, ?_⟩
    simp only [hreply, clusterRoute, Option.some.injEq]
    split
    · exact ⟨rfl, rfl⟩
    · refine ⟨?_, rfl⟩
      rw [List.append_assoc, List.append_assoc]
      exact moved_type _

end Nodes

end CppPrivate.Cluster
