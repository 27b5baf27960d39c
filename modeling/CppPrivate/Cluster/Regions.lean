import CppPrivate.Cluster.Nodes

/-! The other way in which a node tells the route: its reply to `cluster slots`, region by region.
The regions of a master need not stand together. -/
namespace CppPrivate.Cluster
open Hiredis Redis Ranges Shards

def slotsError (what : String) : Error := other ("Command(cluster slots) reply error: " ++ what)

def hi_valid_port (n : Int) : Bool := !(n < 1 || 65535 < n)

/-- Its tests of the types are ones that the caller has made. -/
def node_get_with_slots (host : Bytes) (port : Int) : Except Error cluster_node :=
  if host = [] then .error (slotsError "node ip is not string.")
  else if port ≤ 0 then .error (slotsError "node port is not integer.")
  else if hi_valid_port (cInt port) then
    .ok ⟨host ++ 58 :: decimal (cInt port), some host, (cInt port % 2 ^ 16).toNat⟩
  else .error (slotsError "node port is not valid.")

/-- A number of a region, which is kept without a sign. -/
def slotNumber (which : String) : redisReply → Except Error Nat
  | .integer n => .ok (n % 2 ^ 32).toNat
  | _ => .error (slotsError ("slot " ++ which ++ " is not an integer."))

def nodeElem : redisReply → Except Error (Bytes × Int)
  | .array [.string ip, .integer port, _] => .ok (ip, port)
  | .array [_, _, _] => .error (slotsError "master ip or port is not correct.")
  | _ => .error (slotsError "nodes sub_reply is not an correct array.")

def regionBounds : redisReply → Except Error (Nat × Nat × redisReply × List redisReply)
  | .array (elem_slots_begin :: elem_slots_end :: elem_nodes :: elems) => do
    let start ← slotNumber "begin" elem_slots_begin
    let last ← slotNumber "end" elem_slots_end
    if last < start then throw (slotsError "slot begin is bigger than slot end.")
    return (start, last, elem_nodes, elems)
  | _ => throw (slotsError "first sub_reply is not an array.")

/-- Where the master is known the elements behind it are not looked at. -/
def addRegion (nodes : Listed) (start last : Nat) (ip : Bytes) (port : Int)
    (elems : List redisReply) : Except Error Listed :=
  let address := ip ++ 58 :: decimal (cInt port)
  match dictFind dictSdsHash nodes address with
  | some (_, master, slots) =>
    .ok (dictReplace dictSdsHash nodes address (master, slots ++ [⟨start, last, master⟩])).1
  | none => do
    let master ← node_get_with_slots ip port
    let nodes := (dictAdd dictSdsHash nodes master.addr (master, [⟨start, last, master⟩])).1
    elems.forM fun elem => (nodeElem elem).map fun _ => ()
    return nodes

def slotsRegion (nodes : Listed) (elem_slots : redisReply) : Except Error Listed := do
  let (start, last, elem_nodes, elems) ← regionBounds elem_slots
  let (ip, port) ← nodeElem elem_nodes
  addRegion nodes start last ip port elems

def parse_cluster_slots : redisReply → Except Error Listed
  | .array (elem :: elems) => (elem :: elems).foldlM slotsRegion {}
  | _ => .error (slotsError "reply is not an array.")

def routeOfSlots : redisReply → Except Error Route
  | .array elems => (parse_cluster_slots (.array elems)).bind routeOf
  | .error str => .error ⟨REDIS_ERR_OTHER, str⟩
  | _ => .error (slotsError "type is not array.")

structure Region where
  first : Nat
  last : Nat
  host : Bytes
  port : Nat
  name : redisReply
  replicas : List (Bytes × Int × redisReply)

namespace Region
variable (e : Region)

def addr : Bytes := e.host ++ 58 :: decimal e.port

def node : cluster_node := ⟨e.addr, some e.host, e.port⟩

def range : cluster_slot := ⟨e.first, e.last, e.node⟩

def nodeReply (node : Bytes × Int × redisReply) : redisReply :=
  .array [.string node.1, .integer node.2.1, node.2.2]

def reply : redisReply :=
  .array (.integer e.first :: .integer e.last :: nodeReply (e.host, e.port, e.name) ::
    e.replicas.map nodeReply)

/-- What the nodes of a cluster say of a region. -/
structure Proper : Prop where
  host : e.host ≠ []
  positive : 0 < e.port
  port : e.port < 2 ^ 16
  order : e.first ≤ e.last
  last : e.last < REDIS_CLUSTER_SLOTS

end Region

def grouped (regions : List Region) (addr : Bytes) : Option (cluster_node × List cluster_slot) :=
  (regions.find? fun e => e.addr = addr).map fun e =>
    (e.node, (regions.filter fun e => e.addr = addr).map Region.range)

section Region
variable {e d : Region} {done regions : List Region} {nodes : Listed} {addr : Bytes}

/-- An address has its host and its port in it. -/
theorem Region.node_eq (h : e.addr = d.addr) : e.node = d.node := by
  obtain ⟨htake, hdrop⟩ := rsplit (notMem_decimal (c := 58) (by decide) e.port) e.host
  obtain ⟨htake', hdrop'⟩ := rsplit (notMem_decimal (c := 58) (by decide) d.port) d.host
  rw [← Region.addr] at htake hdrop htake' hdrop'
  have hport : e.port = d.port := by
    rw [← readOn_decimal e.port, ← readOn_decimal d.port, ← htake, ← htake', h]
  have hhost : e.host = d.host := by
    rw [h, hdrop'] at hdrop
    exact (List.append_cancel_right hdrop).symm
  rw [Region.node, Region.node, h, hhost, hport]

theorem grouped_isNone : (grouped regions addr).isNone ↔ ∀ e ∈ regions, e.addr ≠ addr := by
  rw [grouped, Option.isNone_map, Option.isNone_iff_eq_none, List.find?_eq_none]
  simp

theorem grouped_some {v : cluster_node × List cluster_slot} : grouped regions addr = some v ↔
    ∃ e ∈ regions, e.addr = addr ∧
      (e.node, (regions.filter fun e => e.addr = addr).map Region.range) = v := by
  refine find_map_some fun e _ e' _ haddr => ?_
  rw [Region.node_eq haddr]

theorem grouped_concat : grouped (done ++ [e]) =
    Function.update (grouped done) e.addr
      (some (e.node, (done.filter fun d => d.addr = e.addr).map Region.range ++ [e.range])) := by
  funext addr
  by_cases haddr : addr = e.addr
  · rw [haddr, Function.update_self]
    refine grouped_some.mpr ⟨e, by simp, rfl, ?_⟩
    simp
  · have hnot : ¬ e.addr = addr := fun h => haddr h.symm
    rw [Function.update_of_ne haddr, grouped, List.find?_append, List.filter_append]
    simp [hnot, grouped]

theorem regionBounds_reply (h : e.Proper) : regionBounds e.reply =
    .ok (e.first, e.last, Region.nodeReply (e.host, e.port, e.name),
      e.replicas.map Region.nodeReply) := by
  have hslots : REDIS_CLUSTER_SLOTS = 16384 := rfl
  have horder := h.order
  have hlast := h.last
  have hfirst' : ((e.first : Int) % 2 ^ 32).toNat = e.first := by omega
  have hlast' : ((e.last : Int) % 2 ^ 32).toNat = e.last := by omega
  rw [Region.reply, regionBounds, slotNumber, slotNumber, hfirst', hlast']
  simp only [bind, Except.bind, if_neg (Nat.not_lt.mpr horder)]
  rfl

theorem replicas_pass (replicas : List (Bytes × Int × redisReply)) :
    (replicas.map Region.nodeReply).forM (fun elem => (nodeElem elem).map fun _ => ()) =
      .ok () := by
  induction replicas with
  | nil => rfl
  | cons r replicas ih => exact ih

/-- A region comes to those of its master. -/
theorem slotsRegion_reply (h : Mapped dictSdsHash nodes (grouped done)) (he : e.Proper) :
    ∃ nodes', slotsRegion nodes e.reply = .ok nodes' ∧
      Mapped dictSdsHash nodes' (grouped (done ++ [e])) := by
  have hport : cInt e.port = e.port := cInt_of_lt (by have := he.port; omega)
  have hstep : slotsRegion nodes e.reply =
      addRegion nodes e.first e.last e.host e.port (e.replicas.map Region.nodeReply) := by
    rw [slotsRegion, regionBounds_reply he]
    rfl
  rw [hstep, addRegion, hport, ← Region.addr, dictFind_eq h, grouped_concat]
  cases hfound : grouped done e.addr with
  | some v =>
    obtain ⟨d, hd, haddr, rfl⟩ := grouped_some.mp hfound
    have hnode : d.node = e.node := Region.node_eq haddr
    obtain ⟨nodes', hreplace, h'⟩ := dictReplace_spec h e.addr
      (e.node, (done.filter fun d => d.addr = e.addr).map Region.range ++ [e.range])
    refine ⟨nodes', ?_, h'⟩
    rw [Region.range] at hreplace
    simp only [Option.map_some, hnode, hreplace]
  | none =>
    have hnot : ∀ d ∈ done, d.addr ≠ e.addr := grouped_isNone.mp (by rw [hfound]; rfl)
    have hfilter : (done.filter fun d => d.addr = e.addr) = [] :=
      List.filter_eq_nil_iff.mpr fun d hd => by simpa using hnot d hd
    obtain ⟨nodes', hadd, h'⟩ := dictAdd_spec h e.addr (e.node, [e.range])
    rw [hfound, if_pos (by rfl)] at h'
    rw [hfilter]
    refine ⟨nodes', ?_, h'⟩
    have hget : node_get_with_slots e.host e.port = .ok e.node := by
      have hlt := he.port
      have hpos := he.positive
      have hvalid : hi_valid_port e.port = true := by simp [hi_valid_port]; omega
      have hnat : ((e.port : Int) % 2 ^ 16).toNat = e.port := by omega
      rw [node_get_with_slots, if_neg he.host, if_neg (by omega), hport, if_pos hvalid, hnat]
      rfl
    have haddr : e.node.addr = e.addr := rfl
    simp only [Option.map_none, hget, bind, Except.bind, haddr, replicas_pass]
    rw [← Region.range, hadd]
    rfl

theorem foldlM_regions (h : Mapped dictSdsHash nodes (grouped done))
    (hregions : ∀ e ∈ regions, e.Proper) :
    ∃ nodes', (regions.map Region.reply).foldlM slotsRegion nodes = .ok nodes' ∧
      Mapped dictSdsHash nodes' (grouped (done ++ regions)) := by
  induction regions generalizing done nodes with
  | nil =>
    rw [List.append_nil]
    exact ⟨nodes, rfl, h⟩
  | cons e regions ih =>
    obtain ⟨he, hrest⟩ := List.forall_mem_cons.mp hregions
    obtain ⟨nodes₁, hstep, h₁⟩ := slotsRegion_reply h he
    rw [List.map_cons, List.foldlM_cons, hstep, List.append_cons]
    exact ih h₁ hrest

/-- Master by master the regions are all there. -/
theorem regions_perm (h : Mapped dictSdsHash nodes (grouped regions)) :
    (nodes.table.flatten.flatMap fun den => den.2.2).Perm (regions.map Region.range) := by
  have hslots : (nodes.table.flatten.flatMap fun den => den.2.2) =
      (nodes.table.flatten.map Prod.fst).flatMap fun addr =>
        (regions.filter fun e => e.addr = addr).map Region.range := by
    rw [List.flatMap_map]
    refine List.flatMap_congr fun den hden => ?_
    obtain ⟨e, -, -, hv⟩ := grouped_some.mp ((h.entries den).mp hden)
    rw [← hv]
  have hkeys : ∀ e ∈ regions, e.addr ∈ nodes.table.flatten.map Prod.fst := by
    intro e he
    rw [h.mem_keys, Option.isSome_iff_exists]
    exact ⟨_, grouped_some.mpr ⟨e, he, rfl, rfl⟩⟩
  rw [hslots, ← List.map_flatMap]
  exact (perm_flatMap_filter Region.addr h.nodup hkeys).map Region.range

theorem mem_regions {k : Nat} {node : cluster_node} :
    (∃ slot ∈ regions.map Region.range, Has slot k ∧ slot.what = node) ↔
      ∃ e ∈ regions, e.node = node ∧ e.first ≤ k ∧ k ≤ e.last := by
  constructor
  · rintro ⟨slot, hslot, hk, rfl⟩
    obtain ⟨e, he, rfl⟩ := List.mem_map.mp hslot
    exact ⟨e, he, rfl, hk⟩
  · rintro ⟨e, he, rfl, hk⟩
    exact ⟨_, List.mem_map_of_mem he, hk, rfl⟩

/-- What the client makes of the reply to `cluster slots`, for all that the nodes can say. -/
theorem routeOfSlots_regions (hne : regions ≠ []) (h : ∀ e ∈ regions, e.Proper) :
    if (regions.map Region.range).Pairwise Apart then
      ∃ route, routeOfSlots (.array (regions.map Region.reply)) = .ok route ∧
        (∀ addr node, dictFind dictSdsHash route.nodes addr = some (addr, node) ↔
          ∃ e ∈ regions, e.addr = addr ∧ e.node = node) ∧
        ∀ k node, route.table k = some node ↔
          ∃ e ∈ regions, e.node = node ∧ e.first ≤ k ∧ k ≤ e.last
    else routeOfSlots (.array (regions.map Region.reply)) =
      .error (other "Different node holds same slot") := by
  have hempty : Mapped dictSdsHash {} (grouped []) := .empty
  obtain ⟨nodes, hnodes, hgrouped⟩ := foldlM_regions hempty h
  rw [List.nil_append] at hgrouped
  have hread : routeOfSlots (.array (regions.map Region.reply)) = routeOf nodes := by
    cases regions with
    | nil => exact absurd rfl hne
    | cons e regions =>
      rw [List.map_cons] at hnodes ⊢
      rw [routeOfSlots, parse_cluster_slots, hnodes, Except.bind]
  have hroute := routeOf_slots (regions_perm hgrouped) fun slot hslot => by
    obtain ⟨e, he, rfl⟩ := List.mem_map.mp hslot
    exact ⟨(h e he).order, (h e he).last⟩
  rw [hread, hroute]
  by_cases hpair : (regions.map Region.range).Pairwise Apart
  · rw [if_pos hpair, if_pos hpair]
    refine ⟨_, rfl, fun addr node => ?_, fun k node => ?_⟩
    · rw [dictFind_withValues hgrouped]
      constructor
      · rintro ⟨v, hv, rfl⟩
        obtain ⟨e, he, haddr, rfl⟩ := grouped_some.mp hv
        exact ⟨e, he, haddr, rfl⟩
      · rintro ⟨e, he, haddr, rfl⟩
        exact ⟨_, grouped_some.mpr ⟨e, he, haddr, rfl⟩, rfl⟩
    · rw [← mem_regions]
      exact owner_some hpair
  · rw [if_neg hpair, if_neg hpair]

end Region

def told : List Region :=
  [⟨0, 99, bytes "10.0.0.1", 7000, .string (bytes "07c3"), []⟩,
    ⟨200, 16383, bytes "10.0.0.2", 7000, .string (bytes "67ed"),
      [(bytes "10.0.0.3", 7000, .string (bytes "e7d1"))]⟩,
    ⟨100, 199, bytes "10.0.0.1", 7000, .string (bytes "07c3"), []⟩]

theorem routeOfSlots_told : ∃ route,
    routeOfSlots (.array
      [.array [.integer 0, .integer 99,
          .array [.string (bytes "10.0.0.1"), .integer 7000, .string (bytes "07c3")]],
        .array [.integer 200, .integer 16383,
          .array [.string (bytes "10.0.0.2"), .integer 7000, .string (bytes "67ed")],
          .array [.string (bytes "10.0.0.3"), .integer 7000, .string (bytes "e7d1")]],
        .array [.integer 100, .integer 199,
          .array [.string (bytes "10.0.0.1"), .integer 7000, .string (bytes "07c3")]]]) =
        .ok route ∧
      route.table 150 = some ⟨bytes "10.0.0.1:7000", some (bytes "10.0.0.1"), 7000⟩ := by
  have hproper : ∀ e ∈ told, e.Proper := by
    refine List.forall_mem_cons.mpr ⟨⟨by decide, by decide, by decide, by decide, by decide⟩, ?_⟩
    refine List.forall_mem_cons.mpr ⟨⟨by decide, by decide, by decide, by decide, by decide⟩, ?_⟩
    exact List.forall_mem_singleton.mpr ⟨by decide, by decide, by decide, by decide, by decide⟩
  have hread := routeOfSlots_regions (List.cons_ne_nil _ _) hproper
  rw [if_pos (by decide +kernel)] at hread
  obtain ⟨route, hroute, -, htable⟩ := hread
  exact ⟨route, hroute, (htable _ _).mpr ⟨_, List.mem_cons_of_mem _ (List.mem_cons_of_mem _
    List.mem_cons_self), by decide +kernel, by decide, by decide⟩⟩

end CppPrivate.Cluster
