import CppPrivate.Cluster.FragmentTexts
import CppPrivate.Lib.KeyStore

/-! A command that is split does to the keys what the command is for, and has its reply. -/
namespace CppPrivate.Cluster
open Redis Shards KeyStore

abbrev Keyspace := Store Bytes Bytes

def element : Option Bytes → redisReply
  | some value => .string value
  | none => .nil

def Item.pair (item : Item) : Bytes × Bytes := (item.key, item.vals.headD [])

def serve (type : cmd_type) (s : Keyspace) (items : List Item) : Keyspace × redisReply :=
  match type with
  | .MGET => (s, .array (items.map fun item => element (s item.key)))
  | .EXISTS => (s, .integer (items.countP fun item => (s item.key).isSome))
  | .DEL =>
    let r := (items.map Item.key).foldl remove (s, 0)
    (r.1, .integer r.2)
  | _ => ((items.map Item.pair).foldl put s, .status (bytes "OK"))

section Run
variable {σ : Type} (execute : σ → Int → Bytes → σ × Option redisReply)

/-- The loop over the fragments, up to one without a reply or with an error. -/
def runFragments : σ → List command → σ × Except (Option redisReply) (List command)
  | s, [] => (s, .ok [])
  | s, sub_command :: commands =>
    match execute s sub_command.slot_num sub_command.cmd with
    | (s, none) => (s, .error none)
    | (s, some (.error str)) => (s, .error (some (.error str)))
    | (s, some reply) =>
      match runFragments s commands with
      | (s, .ok commands) => (s, .ok ({ sub_command with reply := some reply } :: commands))
      | (s, .error r) => (s, .error r)

/-- What a call returns after a command has been executed. -/
def returned (r : σ × Option redisReply) : σ × Returned :=
  match r with
  | (s, some reply) => (s, .reply reply)
  | (s, none) => (s, .null none)

def answer (type : cmd_type) (frag_seq : List Nat) :
    σ × Except (Option redisReply) (List command) → σ × Returned
  | (s, .ok commands) => (s, command_post_fragment type frag_seq commands)
  | (s, .error reply) => returned (s, reply)

/-- `redisClusterFormattedCommand`, with the function that executes a command for a slot. The buffer
that numbers are printed into is as it is found. Nothing where the behaviour is undefined. -/
def redisClusterFormattedCommand (num_str : Bytes) (s : σ) (cmd : Bytes) : Option (σ × Returned) :=
  if cmd = [] then some (s, .null none)
  else
    match redis_parse_cmd cmd with
    | none => none
    | some (.error r) => some (s, .null (some ⟨REDIS_ERR_PROTOCOL, errstr cmd r⟩))
    | some (.ok r) =>
      match r.keys with
      | [] =>
        some (s, .null (some (other "No keys in command(must have keys for redis cluster mode)")))
      | [kp] => some (returned (execute s (keyHashSlot kp.key) cmd))
      | keys => do
        let f ← command_pre_fragment num_str r.type keys
        if f.commands = [] then return returned (execute s f.slot_num cmd)
        else return answer r.type f.frag_seq (runFragments execute s f.commands)

end Run

def serveAll (type : cmd_type) : Keyspace → List (List Item) → Keyspace × List redisReply
  | s, [] => (s, [])
  | s, items :: groups =>
    let r := serve type s items
    let rest := serveAll type r.1 groups
    (rest.1, r.2 :: rest.2)

/-- In a state that is ready for one command more, a command of the kinds that are split, for keys of
one slot, is done to the keys as it should. -/
def Serves {σ : Type} (execute : σ → Int → Bytes → σ × Option redisReply) (Ready : Nat → σ → Prop)
    (view : σ → Keyspace) : Prop :=
  ∀ s n type name items k, Ready (n + 1) s → redis_parse_cmd_verb name = type → Multi type →
    Arguments type items → items ≠ [] → (∀ item ∈ items, slotOfItem item = k) →
      ∃ s', execute s k (encode (name :: items.flatMap Item.args)) =
        (s', some (serve type (view s) items).2) ∧ Ready n s' ∧
          view s' = (serve type (view s) items).1

open Classical in
noncomputable def wordsOf (cmd : Bytes) : List Bytes :=
  if h : ∃ argv, encode argv = cmd then h.choose else []

def itemsOf (type : cmd_type) : List Bytes → List Item
  | [] => []
  | key :: args =>
    ⟨key, args.take (valsOf type)⟩ :: itemsOf type (args.drop (valsOf type))
termination_by args => args.length
decreasing_by simp

noncomputable def server (s : Keyspace) (_ : Int) (cmd : Bytes) : Keyspace × Option redisReply :=
  match wordsOf cmd with
  | [] => (s, none)
  | name :: args =>
    let type := redis_parse_cmd_verb name
    let r := serve type s (itemsOf type args)
    (r.1, some r.2)

def Answered (sub_command : command) (kr : Nat × redisReply) : Prop :=
  sub_command.slot_num = kr.1 ∧ sub_command.reply = some kr.2

section Server
variable {type : cmd_type} {items : List Item}

theorem wordsOf_encode (argv : List Bytes) : wordsOf (encode argv) = argv := by
  have h : ∃ other, encode other = encode argv := ⟨argv, rfl⟩
  rw [wordsOf, dif_pos h]
  exact encode_injective h.choose_spec

theorem itemsOf_args (h : Arguments type items) : itemsOf type (items.flatMap Item.args) = items := by
  induction items with
  | nil => simp [itemsOf]
  | cons item items ih =>
    obtain ⟨⟨hcount, -⟩, hitems⟩ := List.forall_mem_cons.mp h
    rw [List.flatMap_cons, Item.args, List.cons_append, itemsOf, ← hcount, List.take_left,
      List.drop_left, ih hitems]

def Always (_ : Nat) (_ : Keyspace) : Prop := True

theorem always (n : Nat) (s : Keyspace) : Always n s := True.intro

theorem server_serves : Serves server Always id := by
  intro s n type name items k _ hverb _ hargs _ _
  refine ⟨_, ?_, True.intro, rfl⟩
  rw [server, wordsOf_encode]
  simp only [hverb, itemsOf_args hargs]
  rfl

end Server

section Merge
variable {type : cmd_type} {s : Keyspace} {items : List Item} {commands : List command}

theorem verb_nameOf (hm : Multi type) : redis_parse_cmd_verb (nameOf type) = type := by
  rcases hm with rfl | rfl | rfl | rfl <;> decide

theorem serve_ne_error (type : cmd_type) (s : Keyspace) (items : List Item) (str : Bytes) :
    (serve type s items).2 ≠ .error str := by
  cases type <;> simp [serve]

theorem runFragments_eq {σ : Type} {execute : σ → Int → Bytes → σ × Option redisReply}
    {Ready : Nat → σ → Prop} {view : σ → Keyspace} (hserves : Serves execute Ready view)
    (hm : Multi type) (hargs : Arguments type items) (kps : List keypos) {s : σ} {slots : List Nat}
    (hs : Ready slots.length s) (hslots : ∀ k ∈ slots, shard slotOfItem items k ≠ []) :
    ∃ s' commands, runFragments execute s (fragments type kps items slots) = (s', .ok commands) ∧
      Ready 0 s' ∧ view s' = (serveAll type (view s) (slots.map (shard slotOfItem items))).1 ∧
      List.Forall₂ Answered commands
        (slots.zip (serveAll type (view s) (slots.map (shard slotOfItem items))).2) := by
  induction slots generalizing s with
  | nil => exact ⟨s, [], rfl, hs, rfl, .nil⟩
  | cons k slots ih =>
    have hshard : Arguments type (shard slotOfItem items k) :=
      fun item hitem => hargs item (mem_shard.mp hitem).1
    obtain ⟨s₁, hexec, hready, hview⟩ := hserves s slots.length type (nameOf type)
      (shard slotOfItem items k) k hs (verb_nameOf hm) hm hshard (hslots k List.mem_cons_self)
      fun item hitem => (mem_shard.mp hitem).2
    obtain ⟨s₂, commands, hrun, hready₂, hview₂, hanswered⟩ :=
      ih hready fun j hj => hslots j (List.mem_cons_of_mem k hj)
    have hnoerror := serve_ne_error type (view s) (shard slotOfItem items k)
    let r := (serve type (view s) (shard slotOfItem items k)).2
    let c := fragment type (shard slotOf kps k) (shard slotOfItem items k) k
    refine ⟨s₂, { c with reply := some r } :: commands, ?_, hready₂, ?_, ?_⟩
    · change runFragments execute s (c :: fragments type kps items slots) = _
      have hc : execute s c.slot_num c.cmd = (s₁, some r) := hexec
      rw [runFragments, hc]
      cases hr : r with
      | error str => exact absurd hr (hnoerror str)
      | _ => simp only [hrun]
    · rw [hview₂, hview]
      rfl
    · rw [hview] at hanswered
      exact .cons ⟨rfl, rfl⟩ hanswered

theorem serveAll_mget (s : Keyspace) (groups : List (List Item)) : serveAll .MGET s groups =
    (s, groups.map fun items => .array (items.map fun item => element (s item.key))) := by
  induction groups with
  | nil => rfl
  | cons items groups ih =>
    rw [serveAll]
    simp only [serve, ih]
    rfl

theorem serveAll_exists (s : Keyspace) (groups : List (List Item)) : serveAll .EXISTS s groups =
    (s, groups.map fun items => .integer (items.countP fun item => (s item.key).isSome)) := by
  induction groups with
  | nil => rfl
  | cons items groups ih =>
    rw [serveAll]
    simp only [serve, ih]
    rfl

theorem serveAll_mset (s : Keyspace) (groups : List (List Item)) : serveAll .MSET s groups =
    (groups.foldl (fun s items => (items.map Item.pair).foldl put s) s,
      groups.map fun _ => .status (bytes "OK")) := by
  induction groups generalizing s with
  | nil => rfl
  | cons items groups ih =>
    rw [serveAll]
    simp only [serve, ih]
    rfl

/-- The keys that the fragments remove add up. -/
theorem serveAll_del (s : Keyspace) (groups : List (List Item)) (c : Nat) :
    ∃ ns : List Nat, (serveAll .DEL s groups).2 = ns.map (fun n : Nat => .integer n) ∧
      groups.foldl (fun r items => (items.map Item.key).foldl remove r) (s, c) =
        ((serveAll .DEL s groups).1, c + ns.sum) := by
  induction groups generalizing s c with
  | nil => exact ⟨[], rfl, rfl⟩
  | cons items groups ih =>
    let r := (items.map Item.key).foldl remove (s, 0)
    obtain ⟨ns, hreplies, hfold⟩ := ih r.1 (c + r.2)
    refine ⟨r.2 :: ns, ?_, ?_⟩
    · rw [serveAll]
      simp only [serve, List.map_cons]
      rw [← hreplies]
    · rw [List.foldl_cons, foldl_remove_count, hfold, List.sum_cons, Nat.add_assoc]
      rfl

theorem replyOf_eq {g : Nat → redisReply} {slots : List Nat} {k : Nat}
    (h : List.Forall₂ Answered commands (slots.map fun k => (k, g k))) (hk : k ∈ slots) :
    replyOf commands k = some (g k) := by
  induction slots generalizing commands with
  | nil => cases hk
  | cons j slots ih =>
    cases h with
    | @cons c _ commands _ hc hrest =>
      by_cases hj : j = k
      · subst hj
        rw [replyOf, List.find?_cons_of_pos (by simp [hc.1])]
        exact hc.2
      · have hmem : k ∈ slots := (List.mem_cons.mp hk).resolve_left (Ne.symm hj)
        have hfind := ih hrest hmem
        rw [replyOf] at hfind ⊢
        rw [List.find?_cons_of_neg (by simp [hc.1, hj])]
        exact hfind

/-- From the last key to the first one, each takes what its fragment has left. -/
theorem takeElements_eq (v : Item → redisReply) {reply : Nat → Option redisReply}
    (h : ∀ item ∈ items, reply (slotOfItem item) =
      some (.array ((shard slotOfItem items (slotOfItem item)).map v))) (acc : List redisReply) :
    takeElements (items.map slotOfItem).reverse reply acc = .reply (.array (items.map v ++ acc)) := by
  induction items using List.reverseRecOn generalizing reply acc with
  | nil => rfl
  | append_singleton items item ih =>
    have hlast := h item (by simp)
    rw [shard_append, shard_singleton, if_pos rfl, List.map_append, List.map_singleton] at hlast
    rw [List.map_append, List.map_singleton, List.reverse_append, List.reverse_singleton,
      List.singleton_append, takeElements, hlast]
    simp only [List.getLast?_append, List.getLast?_singleton, Option.some_or, List.dropLast_concat]
    rw [ih]
    · simp
    · intro other hother
      by_cases hsame : slotOfItem other = slotOfItem item
      · rw [if_pos hsame, hsame]
      · have hrest := h other (List.mem_append_left _ hother)
        rw [shard_append, shard_singleton, if_neg (Ne.symm hsame), List.append_nil] at hrest
        rw [if_neg hsame, hrest]

theorem checkReplies_arrays (h : ∀ c ∈ commands, ∃ l, c.reply = some (.array l)) (n : Int) :
    checkReplies .MGET commands n = .ok n := by
  induction commands with
  | nil => rfl
  | cons c commands ih =>
    obtain ⟨l, hl⟩ := h c List.mem_cons_self
    rw [checkReplies, hl]
    exact ih fun d hd => h d (List.mem_cons_of_mem c hd)

theorem checkReplies_integers (ht : type = .DEL ∨ type = .EXISTS) {ns : List Int}
    (h : List.Forall₂ (fun c n => c.reply = some (.integer n)) commands ns) (n : Int) :
    checkReplies type commands n = .ok (n + ns.sum) := by
  induction h generalizing n with
  | nil => simp [checkReplies]
  | @cons c m commands ns hc _ ih =>
    rw [checkReplies, hc, List.sum_cons, ← Int.add_assoc, ← ih (n + m)]
    rcases ht with rfl | rfl <;> rfl

theorem checkReplies_status (h : ∀ c ∈ commands, c.reply = some (.status (bytes "OK"))) (n : Int) :
    checkReplies .MSET commands n = .ok n := by
  induction commands with
  | nil => rfl
  | cons c commands ih =>
    have hok : (bytes "OK").length = 2 ∧ C_STR (bytes "OK") = bytes "OK" := by decide
    rw [checkReplies, h c List.mem_cons_self]
    simp only [hok, and_self, ite_true]
    exact ih fun d hd => h d (List.mem_cons_of_mem c hd)

theorem length_serveAll (type : cmd_type) (s : Keyspace) (groups : List (List Item)) :
    (serveAll type s groups).2.length = groups.length := by
  induction groups generalizing s with
  | nil => rfl
  | cons items groups ih =>
    rw [serveAll, List.length_cons, List.length_cons, ih]

theorem answered_replies {slots : List Nat} {replies : List redisReply}
    (hlen : slots.length = replies.length) (h : List.Forall₂ Answered commands (slots.zip replies)) :
    List.Forall₂ (fun c r => c.reply = some r) commands replies := by
  induction slots generalizing commands replies with
  | nil =>
    obtain rfl := List.eq_nil_of_length_eq_zero hlen.symm
    cases h
    exact .nil
  | cons k slots ih =>
    cases replies with
    | nil => cases hlen
    | cons r replies =>
      cases h with
      | cons hc hrest => exact .cons hc.2 (ih (Nat.succ.inj hlen) hrest)

theorem forall₂_mem {α β : Type} {R : α → β → Prop} {as : List α} {bs : List β}
    (h : List.Forall₂ R as bs) : ∀ a ∈ as, ∃ b ∈ bs, R a b := by
  induction h with
  | nil => nofun
  | @cons a b as bs hab _ ih =>
    intro x hx
    rcases List.mem_cons.mp hx with rfl | hx
    · exact ⟨b, List.mem_cons_self, hab⟩
    · obtain ⟨y, hy, hxy⟩ := ih x hx
      exact ⟨y, List.mem_cons_of_mem b hy, hxy⟩

theorem merge_mget {slots : List Nat}
    (hslots : ∀ item ∈ items, slotOfItem item ∈ slots)
    (h : List.Forall₂ Answered commands (slots.map fun k => (k,
      .array ((shard slotOfItem items k).map fun item => element (s item.key))))) :
    command_post_fragment .MGET (items.map slotOfItem) commands = .reply (serve .MGET s items).2 := by
  have harrays : ∀ c ∈ commands, ∃ l, c.reply = some (.array l) := by
    intro c hc
    obtain ⟨kr, hkr, hanswered⟩ := forall₂_mem h c hc
    obtain ⟨k, -, rfl⟩ := List.mem_map.mp hkr
    exact ⟨_, hanswered.2⟩
  rw [command_post_fragment, checkReplies_arrays harrays]
  simp only
  rw [takeElements_eq (fun item => element (s item.key))
    (fun item hitem => replyOf_eq h (hslots item hitem)), List.append_nil]
  rfl

theorem merge_integers (ht : type = .DEL ∨ type = .EXISTS) {ns : List Nat}
    (h : List.Forall₂ (fun c r => c.reply = some r) commands (ns.map fun n : Nat => .integer n))
    (frag_seq : List Nat) :
    command_post_fragment type frag_seq commands = .reply (.integer ns.sum) := by
  have hns : List.Forall₂ (fun c (n : Int) => c.reply = some (.integer n)) commands
      (ns.map Nat.cast) := by
    rw [List.forall₂_map_right_iff] at h ⊢
    exact h
  have hsum : ((ns.map Nat.cast).sum : Int) = ns.sum := by
    simp [Nat.cast_list_sum]
  rw [command_post_fragment, checkReplies_integers ht hns, Int.zero_add, hsum]
  rcases ht with rfl | rfl <;> rfl

theorem merge_status (h : ∀ c ∈ commands, c.reply = some (.status (bytes "OK")))
    (frag_seq : List Nat) :
    command_post_fragment .MSET frag_seq commands = .reply (.status (bytes "OK")) := by
  rw [command_post_fragment, checkReplies_status h]

/-- The replies of the fragments together are the reply to the whole command, and what they have done
is what it does. -/
theorem merge_eq (hm : Multi type) (n : Nat) (hslots : ∀ item ∈ items, slotOfItem item < n)
    (h : List.Forall₂ Answered commands
      ((classes slotOfItem n items).zip (serveAll type s (shards slotOfItem n items)).2)) :
    command_post_fragment type (items.map slotOfItem) commands = .reply (serve type s items).2 ∧
      (serveAll type s (shards slotOfItem n items)).1 = (serve type s items).1 := by
  have hreplies := answered_replies (by rw [length_serveAll, shards, List.length_map]) h
  rcases hm with rfl | rfl | rfl | rfl
  · rw [serveAll_mget] at h ⊢
    rw [shards, List.map_map, ← List.map_prod_left_eq_zip] at h
    refine ⟨merge_mget (fun item hitem => ?_) h, rfl⟩
    exact mem_classes.mpr ⟨hslots item hitem, item, hitem, rfl⟩
  · obtain ⟨ns, hns, hfold⟩ := serveAll_del s (shards slotOfItem n items) 0
    have hkeys : ∀ k ∈ items.map Item.key, keyHashSlot k < n := by
      intro k hk
      obtain ⟨item, hitem, rfl⟩ := List.mem_map.mp hk
      exact hslots item hitem
    have hall := foldl_remove_shards (s := s) (c := 0) hkeys
    rw [shards_map, List.foldl_map] at hall
    have hwhole : (items.map Item.key).foldl remove (s, 0) =
        ((serveAll .DEL s (shards slotOfItem n items)).1, ns.sum) := by
      rw [← hall, ← Nat.zero_add ns.sum]
      exact hfold
    rw [hns] at hreplies
    refine ⟨?_, ?_⟩
    · rw [merge_integers (.inl rfl) hreplies, serve]
      simp only [hwhole]
    · rw [serve]
      simp only [hwhole]
  · rw [serveAll_exists] at hreplies ⊢
    refine ⟨?_, rfl⟩
    have hns : ((shards slotOfItem n items).map fun items => redisReply.integer
        (items.countP fun item => (s item.key).isSome)) =
          ((shards slotOfItem n items).map
            (List.countP fun item => (s item.key).isSome)).map fun n : Nat => .integer n := by
      rw [List.map_map]
      rfl
    rw [hns] at hreplies
    rw [merge_integers (.inr rfl) hreplies, countP_shards hslots]
    rfl
  · rw [serveAll_mset] at hreplies ⊢
    have hpairs : ∀ p ∈ items.map Item.pair, keyHashSlot p.1 < n := by
      intro p hp
      obtain ⟨item, hitem, rfl⟩ := List.mem_map.mp hp
      exact hslots item hitem
    have hall := foldl_put_shards (s := s) hpairs
    rw [shards_map, List.foldl_map] at hall
    refine ⟨merge_status (fun c hc => ?_) _, hall⟩
    obtain ⟨r, hr, hreply⟩ := forall₂_mem hreplies c hc
    obtain ⟨g, -, rfl⟩ := List.mem_map.mp hr
    exact hreply

end Merge

section Client
variable {σ : Type} {execute : σ → Int → Bytes → σ × Option redisReply} {Ready : Nat → σ → Prop}
  {view : σ → Keyspace} {type : cmd_type} {items : List Item} {name num_str : Bytes} {s : σ}

theorem slotOfItem_lt (item : Item) : slotOfItem item < REDIS_CLUSTER_SLOTS := keyHashSlot_lt _

/-- The keys all have the slot of the last one. -/
theorem one_class {n : Nat} (hslots : ∀ item ∈ items, slotOfItem item < n)
    (hone : (classes slotOfItem n items).length = 1) {last : Item} (hlast : items.getLast? = some last) :
    ∀ item ∈ items, slotOfItem item = slotOfItem last := by
  obtain ⟨k, hk⟩ := List.length_eq_one_iff.mp hone
  have hmem : ∀ item ∈ items, slotOfItem item = k := by
    intro item hitem
    have hclass : slotOfItem item ∈ classes slotOfItem n items :=
      mem_classes.mpr ⟨hslots item hitem, item, hitem, rfl⟩
    rw [hk] at hclass
    exact List.mem_singleton.mp hclass
  intro item hitem
  rw [hmem item hitem, hmem last (List.mem_of_getLast? hlast)]

theorem encode_ne_nil {argv : List Bytes} : encode argv ≠ [] := by
  simp [encode, show bytes "*" = [42] by rfl]

/-- A command with one key goes as it is. -/
theorem formatted_one {r : Parse} {kp : keypos} {cmd : Bytes} (hcmd : cmd ≠ [])
    (hparse : redis_parse_cmd cmd = some (.ok r)) (hkeys : r.keys = [kp]) {s' : σ} {reply : redisReply}
    (hexec : execute s (keyHashSlot kp.key) cmd = (s', some reply)) :
    redisClusterFormattedCommand execute num_str s cmd = some (s', .reply reply) := by
  unfold redisClusterFormattedCommand
  simp only [if_neg hcmd, hparse, hkeys, hexec, returned]

/-- A command with more keys is split. -/
theorem formatted_more {r : Parse} {cmd : Bytes} (hcmd : cmd ≠ [])
    (hparse : redis_parse_cmd cmd = some (.ok r)) (hkeys : 2 ≤ r.keys.length) :
    redisClusterFormattedCommand execute num_str s cmd =
      (command_pre_fragment num_str r.type r.keys).map fun f =>
        if f.commands = [] then returned (execute s f.slot_num cmd)
        else answer r.type f.frag_seq (runFragments execute s f.commands) := by
  unfold redisClusterFormattedCommand
  simp only [if_neg hcmd, hparse]
  split
  case h_1 h => simp [h] at hkeys
  case h_2 h => simp [h] at hkeys
  case h_3 =>
    cases command_pre_fragment num_str r.type r.keys with
    | none => rfl
    | some f =>
      simp only [Option.bind_eq_bind, Option.bind_some, Option.map_some]
      split <;> rfl

/-- The turns of the fragments, and what they come to together. -/
theorem answer_eq (hserves : Serves execute Ready view) (hm : Multi type)
    (hargs : Arguments type items) (kps : List keypos) (n : Nat)
    (hs : Ready (classes slotOfItem n items).length s)
    (hslots : ∀ item ∈ items, slotOfItem item < n) :
    ∃ s', answer type (items.map slotOfItem)
        (runFragments execute s (fragments type kps items (classes slotOfItem n items))) =
          (s', .reply (serve type (view s) items).2) ∧
      Ready 0 s' ∧ view s' = (serve type (view s) items).1 := by
  have hpresent : ∀ k ∈ classes slotOfItem n items, shard slotOfItem items k ≠ [] := by
    intro k hk
    obtain ⟨-, item, hitem, hslot⟩ := mem_classes.mp hk
    exact List.ne_nil_of_mem (mem_shard.mpr ⟨hitem, hslot⟩)
  obtain ⟨s', commands, hrun, hready, hview, hanswered⟩ :=
    runFragments_eq hserves hm hargs kps hs hpresent
  obtain ⟨hmerge, hstore⟩ := merge_eq (s := view s) hm n hslots hanswered
  refine ⟨s', ?_, hready, hview.trans hstore⟩
  rw [hrun, answer, hmerge]

/-- A command that has been split is executed at once or by its fragments. -/
theorem split_eq (hserves : Serves execute Ready view) (htype : redis_parse_cmd_verb name = type)
    (hm : Multi type) (hargs : Arguments type items) (hne : items ≠ []) (kps : List keypos) (n : Nat)
    (hs : Ready (classes slotOfItem n items).length s) (hslots : ∀ item ∈ items, slotOfItem item < n) :
    ∃ s', (if (splitOf n type kps items).commands = [] then
        returned (execute s (splitOf n type kps items).slot_num
          (encode (name :: items.flatMap Item.args)))
      else answer type (splitOf n type kps items).frag_seq
        (runFragments execute s (splitOf n type kps items).commands)) =
          (s', .reply (serve type (view s) items).2) ∧
      Ready 0 s' ∧ view s' = (serve type (view s) items).1 := by
  by_cases hsingle : (classes slotOfItem n items).length = 1
  · rw [splitOf, if_pos hsingle, if_pos rfl]
    cases hlast : items.getLast? with
    | none => exact absurd (List.getLast?_eq_none_iff.mp hlast) hne
    | some last =>
      obtain ⟨s', hexec, hready, hview⟩ := hserves s 0 type name items (slotOfItem last)
        (by rwa [hsingle] at hs) htype hm hargs hne (one_class hslots hsingle hlast)
      refine ⟨s', ?_, hready, hview⟩
      simp only [Option.map_some, Option.getD_some, hexec, returned]
  · rw [splitOf, if_neg hsingle, if_neg]
    · exact answer_eq hserves hm hargs kps n hs hslots
    · obtain ⟨item, hitem⟩ := List.exists_mem_of_ne_nil items hne
      have hclass : slotOfItem item ∈ classes slotOfItem n items :=
        mem_classes.mpr ⟨hslots item hitem, item, hitem, rfl⟩
      intro hnil
      rw [fragments, List.map_eq_nil_iff] at hnil
      rw [hnil] at hclass
      cases hclass

/-- More than one key: the command is split. -/
theorem formatted_split (htype : redis_parse_cmd_verb name = type) (hm : Multi type)
    (hargs : Arguments type items) (hne : items ≠ []) (hmany : items.length ≠ 1)
    (hsize : num_str.length = 12)
    (hlen : (encode (name :: items.flatMap Item.args)).length < 2 ^ 31) :
    ∃ kps, redisClusterFormattedCommand execute num_str s (encode (name :: items.flatMap Item.args)) =
      if CleanSlots type items (classes slotOfItem REDIS_CLUSTER_SLOTS items) then
        let f := splitOf REDIS_CLUSTER_SLOTS type kps items
        some (if f.commands = [] then
          returned (execute s f.slot_num (encode (name :: items.flatMap Item.args)))
          else answer type f.frag_seq (runFragments execute s f.commands))
      else none := by
  obtain ⟨r, hparse, rfl, hreads, hsplit⟩ := split_of_command htype hm hargs hsize hlen
  have hmore : 2 ≤ r.keys.length := by
    have hpos := List.length_pos_of_ne_nil hne
    have hlen := hreads.length_eq
    omega
  refine ⟨r.keys, ?_⟩
  rw [formatted_more encode_ne_nil hparse hmore, hsplit]
  split <;> rfl

/-- Where the texts of the fragments fit, a command is done to the keys as if one server had them all, and
has the reply of that server. -/
theorem formatted_clean (hserves : Serves execute Ready view)
    (hs : Ready (classes slotOfItem REDIS_CLUSTER_SLOTS items).length s)
    (htype : redis_parse_cmd_verb name = type) (hm : Multi type) (hargs : Arguments type items)
    (hne : items ≠ []) (hsize : num_str.length = 12)
    (hlen : (encode (name :: items.flatMap Item.args)).length < 2 ^ 31)
    (hclean : items.length = 1 ∨ CleanSlots type items (classes slotOfItem REDIS_CLUSTER_SLOTS items)) :
    ∃ s', redisClusterFormattedCommand execute num_str s (encode (name :: items.flatMap Item.args)) =
        some (s', .reply (serve type (view s) items).2) ∧
      Ready 0 s' ∧ view s' = (serve type (view s) items).1 := by
  by_cases hone : items.length = 1
  · obtain ⟨r, hparse, rfl, hreads, -⟩ := split_of_command htype hm hargs hsize hlen
    obtain ⟨item, rfl⟩ := List.length_eq_one_iff.mp hone
    obtain ⟨kp, kps, hkp, hnil, hkeys⟩ := List.forall₂_cons_right_iff.mp hreads
    rw [List.forall₂_nil_right_iff.mp hnil] at hkeys
    have hslot : keyHashSlot kp.key = slotOfItem item := by rw [hkp.key, slotOfItem]
    rw [classes_singleton (slotOfItem_lt item)] at hs
    obtain ⟨s', hexec, hready, hview⟩ := hserves s 0 r.type name [item] (slotOfItem item) hs htype hm
      hargs hne (by simp)
    exact ⟨s', formatted_one encode_ne_nil hparse hkeys (hslot ▸ hexec), hready, hview⟩
  · obtain ⟨kps, hsplit⟩ := formatted_split htype hm hargs hne hone hsize hlen
    obtain ⟨s', hanswer, hready, hview⟩ := split_eq hserves htype hm hargs hne kps
      REDIS_CLUSTER_SLOTS hs fun item _ => slotOfItem_lt item
    rw [if_pos (hclean.resolve_left hone)] at hsplit
    exact ⟨s', hsplit.trans (congrArg some hanswer), hready, hview⟩

/-- Where the texts of the fragments fit, a command is done to the keys as if one server had them all, and
has the reply of that server; elsewhere the behaviour is undefined. -/
theorem redisClusterFormattedCommand_whole (hserves : Serves execute Ready view)
    (hs : Ready (classes slotOfItem REDIS_CLUSTER_SLOTS items).length s)
    (htype : redis_parse_cmd_verb name = type) (hm : Multi type) (hargs : Arguments type items)
    (hne : items ≠ []) (hsize : num_str.length = 12)
    (hlen : (encode (name :: items.flatMap Item.args)).length < 2 ^ 31) :
    if items.length = 1 ∨ CleanSlots type items (classes slotOfItem REDIS_CLUSTER_SLOTS items) then
      ∃ s', redisClusterFormattedCommand execute num_str s (encode (name :: items.flatMap Item.args)) =
          some (s', .reply (serve type (view s) items).2) ∧
        Ready 0 s' ∧ view s' = (serve type (view s) items).1
    else redisClusterFormattedCommand execute num_str s
      (encode (name :: items.flatMap Item.args)) = none := by
  by_cases hclean : items.length = 1 ∨
      CleanSlots type items (classes slotOfItem REDIS_CLUSTER_SLOTS items)
  · rw [if_pos hclean]
    exact formatted_clean hserves hs htype hm hargs hne hsize hlen hclean
  · rw [if_neg hclean]
    obtain ⟨hmany, hunclean⟩ := not_or.mp hclean
    obtain ⟨kps, hsplit⟩ := formatted_split htype hm hargs hne hmany hsize hlen
    rw [hsplit, if_neg hunclean]

theorem redisClusterFormattedCommand_whole_two : ∃ s',
    redisClusterFormattedCommand server (List.replicate 12 0) (fun _ => some (bytes "1"))
        (encode [bytes "DEL", bytes "a", bytes "b", bytes "a"]) =
      some (s', .reply (.integer 2)) := by
  let items : List Item := [⟨bytes "a", []⟩, ⟨bytes "b", []⟩, ⟨bytes "a", []⟩]
  let s : Keyspace := fun _ => some (bytes "1")
  have hname : redis_parse_cmd_verb (bytes "DEL") = .DEL := by decide
  have hargs : Arguments .DEL items := by decide
  have hkeys : ∀ item ∈ items, item.key ≠ [] := by decide
  have hsize : (List.replicate 12 (0 : UInt8)).length = 12 := rfl
  have hlen : (encode (bytes "DEL" :: items.flatMap Item.args)).length < 2 ^ 31 := by decide
  have hne : items ≠ [] := List.cons_ne_nil _ _
  have hserve : (serve .DEL s items).2 = .integer 2 := rfl
  have hargv : bytes "DEL" :: items.flatMap Item.args =
      [bytes "DEL", bytes "a", bytes "b", bytes "a"] := rfl
  clear_value items
  have hwhole := redisClusterFormattedCommand_whole server_serves (always _ s) hname
    (.inr (.inl rfl)) hargs hne hsize hlen
  rw [if_pos (.inr (cleanSlots_of_keys hkeys _))] at hwhole
  obtain ⟨s', hreply, -, -⟩ := hwhole
  rw [hargv, id, hserve] at hreply
  exact ⟨s', hreply⟩

end Client

end CppPrivate.Cluster
