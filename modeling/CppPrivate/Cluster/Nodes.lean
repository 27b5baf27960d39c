import CppPrivate.Cluster.Calls
import CppPrivate.Lib.Ranges

/-! How a node tells the route: what is read of its reply to `cluster nodes`, and the table that is
made of it. -/
namespace CppPrivate.Cluster
open Hiredis Redis Ranges

abbrev cluster_slot := Range cluster_node

abbrev Listed := dict Bytes (cluster_node × List cluster_slot)

/-- The lines, from `line_start` on. The first character behind the end of a line is passed over. -/
def nodeLines (line : Bytes) (passed : Bool) : Bytes → List Bytes
  | [] => []
  | c :: s =>
    if passed = false ∧ c = 10 then line :: nodeLines [] true s else nodeLines (line ++ [c]) false s

/-- Its test of `info_count` is one that the caller has made. -/
def node_get_with_nodes (node_infos : List Bytes) : Except Error cluster_node :=
  let addr := node_infos.getD 1 []
  let text := C_STR addr
  if 58 ∈ text then
    let port := (text.rtakeWhile (· ≠ 58)).takeWhile (· ≠ 64)
    .ok ⟨addr, some (text.rdropWhile (· ≠ 58)).dropLast, (hi_atoi port % 2 ^ 16).toNat⟩
  else .error (other "server address is incorrect, port separator missing.")

def roleOf (flags : Bytes) : Bytes :=
  if (bytes "myself,").isPrefixOf flags then flags.drop 7 else flags

def slotEnds (part : Bytes) : Int × Int :=
  match splitAtChar 45 part with
  | [slot] => (hi_atoi slot, hi_atoi slot)
  | [slot_start, slot_end] => (hi_atoi slot_start, hi_atoi slot_end)
  | _ => (-1, -1)

def slotPart (master : cluster_node) (part : Bytes) : Option cluster_slot :=
  let ends := slotEnds part
  if ends.1 < 0 ∨ ends.2 < 0 ∨ ends.2 < ends.1 ∨ REDIS_CLUSTER_SLOTS ≤ ends.2 then none
  else some ⟨ends.1.toNat, ends.2.toNat, master⟩

/-- A line of the reply, where neither replicas nor open slots are asked for. -/
def nodeLine (nodes : Listed) (line : Bytes) : Except Error Listed :=
  let part := splitAtChar 32 line
  if part.length < 8 then .error (other "split cluster nodes error")
  else if part.getD 1 [] = bytes ":0" then .ok nodes
  else if (bytes "master").isPrefixOf (roleOf (part.getD 2 [])) then
    match node_get_with_nodes part with
    | .error e => .error e
    | .ok master =>
      match dictAdd dictSdsHash nodes master.addr
        (master, (part.drop 8).filterMap (slotPart master)) with
      | (nodes, true) => .ok nodes
      | (_, false) => .error (other "The address already exists in the nodes")
  else .ok nodes

def parse_cluster_nodes (str : Bytes) : Except Error Listed :=
  (nodeLines [] false str).foldlM nodeLine {}

/-- The same chains with other values. -/
def withValues {κ α β : Type} (f : α → β) (ht : dict κ α) : dict κ β :=
  ⟨ht.table.map (List.map (Prod.map id f)), ht.used⟩

def routeOf (nodes : Listed) : Except Error Route :=
  let slots := nodes.table.flatten.flatMap fun den => den.2.2
  if slots.any fun slot => slot.last < slot.first ∨ REDIS_CLUSTER_SLOTS ≤ slot.last then
    .error (other "Slot region for node is error")
  else
    match fill (slots.mergeSort fun s1 s2 => s1.first ≤ s2.first) fun _ => none with
    | none => .error (other "Different node holds same slot")
    | some table => .ok ⟨withValues Prod.fst nodes, table⟩

def routeOfReply (str : Bytes) : Except Error Route := (parse_cluster_nodes str).bind routeOf

structure NodeLine where
  name : Bytes
  host : Bytes
  port : Nat
  cport : Bytes
  flags : Bytes
  infos : List Bytes
  slots : List (Nat × Nat)
deriving DecidableEq

def slotText (ends : Nat × Nat) : Bytes :=
  if ends.1 = ends.2 then decimal ends.1 else decimal ends.1 ++ 45 :: decimal ends.2

namespace NodeLine
variable (e : NodeLine)

def addr : Bytes := e.host ++ 58 :: (decimal e.port ++ e.cport)

def node : cluster_node := ⟨e.addr, some e.host, e.port⟩

def ranges : List cluster_slot := e.slots.map fun ends => ⟨ends.1, ends.2, e.node⟩

def words : List Bytes := e.name :: e.addr :: e.flags :: (e.infos ++ e.slots.map slotText)

def line : Bytes := [32].intercalate e.words

/-- A master whose address is known. -/
def IsMaster : Prop := e.addr ≠ bytes ":0" ∧ (bytes "master").isPrefixOf (roleOf e.flags)

instance : Decidable e.IsMaster := inferInstanceAs (Decidable (_ ∧ _))

/-- What the nodes of a cluster print of each other. -/
structure Proper : Prop where
  count : e.infos.length = 5
  clean : ∀ w ∈ e.name :: e.host :: e.cport :: e.flags :: e.infos, 32 ∉ w ∧ 10 ∉ w
  host : 0 ∉ e.host
  port : e.port < 2 ^ 16
  cport : e.cport = [] ∨ ∃ digits, e.cport = 64 :: digits ∧ 58 ∉ digits ∧ 0 ∉ digits
  slots : ∀ ends ∈ e.slots, ends.1 ≤ ends.2 ∧ ends.2 < REDIS_CLUSTER_SLOTS

end NodeLine

def replyText (lines : List NodeLine) : Bytes := lines.flatMap fun e => e.line ++ [10]

section Lines

theorem nodeLines_line {l : Bytes} (h : 10 ∉ l) (line s : Bytes) :
    nodeLines line false (l ++ 10 :: s) = (line ++ l) :: nodeLines [] true s := by
  induction l generalizing line with
  | nil => rw [List.nil_append, nodeLines, if_pos ⟨rfl, rfl⟩, List.append_nil]
  | cons c l ih =>
    obtain ⟨hc, hl⟩ := not_or.mp (mt List.mem_cons.mpr h)
    rw [List.cons_append, nodeLines, if_neg fun hend => hc hend.2.symm, ih hl, List.append_assoc,
      List.singleton_append]

theorem nodeLines_start {l : Bytes} (hne : l ≠ []) (h : 10 ∉ l) (passed : Bool) (s : Bytes) :
    nodeLines [] passed (l ++ 10 :: s) = l :: nodeLines [] true s := by
  cases l with
  | nil => exact absurd rfl hne
  | cons c l =>
    obtain ⟨hc, hl⟩ := not_or.mp (mt List.mem_cons.mpr h)
    rw [List.cons_append, nodeLines, if_neg fun hend => hc hend.2.symm, nodeLines_line hl]
    rfl

theorem nodeLines_lines {lines : List Bytes} (h : ∀ l ∈ lines, l ≠ [] ∧ 10 ∉ l) (passed : Bool) :
    nodeLines [] passed (lines.flatMap (· ++ [10])) = lines := by
  induction lines generalizing passed with
  | nil => rfl
  | cons l lines ih =>
    obtain ⟨⟨hne, hl⟩, hrest⟩ := List.forall_mem_cons.mp h
    rw [List.flatMap_cons, List.append_assoc, List.singleton_append, nodeLines_start hne hl,
      ih hrest]

theorem notMem_intercalate {c sep : UInt8} (hsep : c ≠ sep) {ws : List Bytes}
    (h : ∀ w ∈ ws, c ∉ w) :     c ∉ [sep].intercalate ws := by
  induction ws with
  | nil => exact List.not_mem_nil
  | cons w ws ih =>
    obtain ⟨hw, hws⟩ := List.forall_mem_cons.mp h
    cases ws with
    | nil => rwa [List.intercalate_singleton]
    | cons w' ws =>
      rw [List.intercalate_cons_cons, List.mem_append, List.mem_append, List.mem_singleton]
      exact not_or.mpr ⟨not_or.mpr ⟨hw, hsep⟩, ih hws⟩

theorem notMem_decimal {c : UInt8} (hc : isDigit c = false) (n : Nat) : c ∉ decimal (n : Int) := by
  intro hmem
  rw [isDigit_decimal n c hmem] at hc
  cases hc

theorem hi_atoi_decimal {n : Nat} (h : n < 2 ^ 31) : hi_atoi (decimal (n : Int)) = n := by
  have hdigits : (decimal (n : Int)).all isDigit := List.all_eq_true.mpr (isDigit_decimal n)
  have hmod : n % 2 ^ 32 = n := Nat.mod_eq_of_lt (by omega)
  rw [hi_atoi, readOn_decimal, hmod, if_neg]
  rintro (hnil | hall | hbig)
  · exact decimal_ne_nil n hnil
  · exact hall hdigits
  · omega

theorem splitAtChar_intercalate {c : UInt8} {l : List Bytes} (hne : [c].intercalate l ≠ [])
    (h : ∀ w ∈ l, c ∉ w) : splitAtChar c ([c].intercalate l) = l := by
  rw [splitAtChar, if_neg hne]
  refine List.splitOn_intercalate c h ?_
  rintro rfl
  exact hne List.intercalate_nil

theorem splitAtChar_one {c : UInt8} (hc : isDigit c = false) (n : Nat) :
    splitAtChar c (decimal (n : Int)) = [decimal (n : Int)] := by
  have hsplit := splitAtChar_intercalate (c := c) (l := [decimal (n : Int)])
  rw [List.intercalate_singleton, List.forall_mem_singleton] at hsplit
  exact hsplit (decimal_ne_nil n) (notMem_decimal hc n)

theorem splitAtChar_two {c : UInt8} (hc : isDigit c = false) (n k : Nat) :
    splitAtChar c (decimal (n : Int) ++ c :: decimal (k : Int)) =
      [decimal (n : Int), decimal (k : Int)] := by
  have hsplit := splitAtChar_intercalate (c := c) (l := [decimal (n : Int), decimal (k : Int)])
  rw [List.intercalate_cons_cons, List.intercalate_singleton, List.append_assoc,
    List.singleton_append, List.forall_mem_cons, List.forall_mem_singleton] at hsplit
  exact hsplit (List.append_ne_nil_of_left_ne_nil (decimal_ne_nil n) _)
    ⟨notMem_decimal hc n, notMem_decimal hc k⟩

theorem slotEnds_slotText {ends : Nat × Nat} (hfirst : ends.1 < 2 ^ 31) (hlast : ends.2 < 2 ^ 31) :
    slotEnds (slotText ends) = ((ends.1 : Int), (ends.2 : Int)) := by
  rw [slotText]
  split
  · next heq =>
    rw [slotEnds, splitAtChar_one (by decide)]
    dsimp only
    rw [hi_atoi_decimal hfirst, ← heq]
  · rw [slotEnds, splitAtChar_two (by decide)]
    dsimp only
    rw [hi_atoi_decimal hfirst, hi_atoi_decimal hlast]

/-- A range of slots is read back from its text. -/
theorem slotPart_slotText {ends : Nat × Nat} (hle : ends.1 ≤ ends.2)
    (hlt : ends.2 < REDIS_CLUSTER_SLOTS) (master : cluster_node) :
    slotPart master (slotText ends) = some ⟨ends.1, ends.2, master⟩ := by
  have hslots : REDIS_CLUSTER_SLOTS = 16384 := rfl
  rw [slotPart, slotEnds_slotText (by omega) (by omega)]
  dsimp only
  rw [if_neg (by omega), Int.toNat_natCast, Int.toNat_natCast]

theorem rsplit {c : UInt8} {b : Bytes} (h : c ∉ b) (a : Bytes) :
    (a ++ c :: b).rtakeWhile (· ≠ c) = b ∧ (a ++ c :: b).rdropWhile (· ≠ c) = a ++ [c] := by
  have hb : ∀ x ∈ b.reverse, decide (x ≠ c) = true := fun x hx =>
    decide_eq_true fun heq => h (heq ▸ List.mem_reverse.mp hx)
  have hrev : (a ++ c :: b).reverse = b.reverse ++ c :: a.reverse := by simp
  rw [List.rtakeWhile, List.rdropWhile, hrev, List.takeWhile_append_of_pos hb,
    List.dropWhile_append_of_pos hb, List.takeWhile_cons_of_neg (by simp),
    List.dropWhile_cons_of_neg (by simp)]
  simp

end Lines

namespace NodeLine
variable {e : NodeLine}

theorem Proper.host_clean (h : e.Proper) : 32 ∉ e.host ∧ 10 ∉ e.host := h.clean _ (by simp)

theorem notMem_behind {c : UInt8} (hc : isDigit c = false) (hport : c ∉ e.cport) :
    c ∉ decimal (e.port : Int) ++ e.cport := by
  rw [List.mem_append]
  exact not_or.mpr ⟨notMem_decimal hc _, hport⟩

theorem Proper.cport_clean (h : e.Proper) : 58 ∉ e.cport ∧ 0 ∉ e.cport := by
  rcases h.cport with hnil | ⟨digits, hcport, h58, h0⟩
  · rw [hnil]
    exact ⟨List.not_mem_nil, List.not_mem_nil⟩
  · rw [hcport]
    exact ⟨fun hmem => (List.mem_cons.mp hmem).elim (by decide) h58,
      fun hmem => (List.mem_cons.mp hmem).elim (by decide) h0⟩

theorem notMem_addr {c : UInt8} (hc : isDigit c = false) (hcolon : c ≠ 58) (hhost : c ∉ e.host)
    (hcport : c ∉ e.cport) : c ∉ e.addr := by
  rw [addr, List.mem_append, List.mem_cons, List.mem_append]
  exact not_or.mpr ⟨hhost, not_or.mpr ⟨hcolon, not_or.mpr ⟨notMem_decimal hc _, hcport⟩⟩⟩

theorem notMem_slotText {c : UInt8} (hc : isDigit c = false) (hdash : c ≠ 45) (ends : Nat × Nat) :
    c ∉ slotText ends := by
  rw [slotText]
  split
  · exact notMem_decimal hc _
  · rw [List.mem_append, List.mem_cons]
    exact not_or.mpr ⟨notMem_decimal hc _, not_or.mpr ⟨hdash, notMem_decimal hc _⟩⟩

theorem Proper.words_clean (h : e.Proper) : ∀ w ∈ e.words, 32 ∉ w ∧ 10 ∉ w := by
  have hcport : 32 ∉ e.cport ∧ 10 ∉ e.cport := h.clean _ (by simp)
  intro w hw
  rw [words] at hw
  simp only [List.mem_cons, List.mem_append, List.mem_map] at hw
  rcases hw with rfl | rfl | rfl | hinfo | ⟨ends, -, rfl⟩
  · exact h.clean _ (by simp)
  · exact ⟨notMem_addr (by decide) (by decide) h.host_clean.1 hcport.1,
      notMem_addr (by decide) (by decide) h.host_clean.2 hcport.2⟩
  · exact h.clean _ (by simp)
  · exact h.clean _ (by simp [hinfo])
  · exact ⟨notMem_slotText (by decide) (by decide) ends,
      notMem_slotText (by decide) (by decide) ends⟩

theorem line_ne_nil (e : NodeLine) : e.line ≠ [] := by
  rw [line, words, List.intercalate_cons_cons]
  simp

theorem Proper.line_clean (h : e.Proper) : 10 ∉ e.line :=
  notMem_intercalate (by decide) fun w hw => (h.words_clean w hw).2

theorem Proper.split (h : e.Proper) : splitAtChar 32 e.line = e.words :=
  splitAtChar_intercalate e.line_ne_nil fun w hw => (h.words_clean w hw).1

theorem Proper.node_get (h : e.Proper) : node_get_with_nodes e.words = .ok e.node := by
  obtain ⟨h58, h0⟩ := h.cport_clean
  have htext : C_STR e.addr = e.addr :=
    C_STR_eq_self.mpr (notMem_addr (by decide) (by decide) h.host h0)
  obtain ⟨htake, hdrop⟩ := rsplit (notMem_behind (by decide) h58) e.host
  have hport : (decimal (e.port : Int) ++ e.cport).takeWhile (· ≠ 64) = decimal (e.port : Int) := by
    have hdigits : ∀ c ∈ decimal (e.port : Int), decide (c ≠ 64) = true := fun c hc =>
      decide_eq_true fun heq => notMem_decimal (by decide) _ (heq ▸ hc)
    rw [List.takeWhile_append_of_pos hdigits]
    rcases h.cport with hnil | ⟨digits, hcport, -⟩
    · rw [hnil, List.takeWhile_nil, List.append_nil]
    · rw [hcport, List.takeWhile_cons_of_neg (by simp), List.append_nil]
  have hlt := h.port
  have hmem : 58 ∈ e.addr := by simp [addr]
  have haddr : e.words.getD 1 [] = e.addr := rfl
  rw [node_get_with_nodes, haddr, htext]
  dsimp only
  rw [if_pos hmem]
  rw [← addr] at htake hdrop
  rw [htake, hdrop, hport, List.dropLast_concat, hi_atoi_decimal (by omega)]
  have hnat : ((e.port : Int) % 2 ^ 16).toNat = e.port := by omega
  rw [hnat, node]

theorem Proper.slotParts (h : e.Proper) :
    (e.words.drop 8).filterMap (slotPart e.node) = e.ranges := by
  have hdrop : e.words.drop 8 = e.slots.map slotText := by
    change (e.infos ++ e.slots.map slotText).drop 5 = _
    rw [← h.count, List.drop_left]
  rw [hdrop, List.filterMap_map, ranges, ← List.filterMap_eq_map]
  refine List.filterMap_congr fun ends hends => ?_
  obtain ⟨hle, hlt⟩ := h.slots ends hends
  exact slotPart_slotText hle hlt e.node

/-- What a line adds to the nodes. -/
theorem Proper.nodeLine (h : e.Proper) (nodes : Listed) : nodeLine nodes e.line =
    if e.IsMaster then
      if (dictAdd dictSdsHash nodes e.addr (e.node, e.ranges)).2 then
        .ok (dictAdd dictSdsHash nodes e.addr (e.node, e.ranges)).1
      else .error (other "The address already exists in the nodes")
    else .ok nodes := by
  have hlen : ¬ e.words.length < 8 := by
    have hcount := h.count
    simp [words]
    omega
  have haddr : e.words.getD 1 [] = e.addr := rfl
  have hflags : e.words.getD 2 [] = e.flags := rfl
  have hnode : e.node.addr = e.addr := rfl
  rw [Cluster.nodeLine, h.split, if_neg hlen, haddr, hflags, h.node_get]
  dsimp only
  rw [h.slotParts, hnode]
  by_cases hknown : e.addr = bytes ":0"
  · rw [if_pos hknown, if_neg fun hmaster => hmaster.1 hknown]
  · rw [if_neg hknown]
    by_cases hrole : (bytes "master").isPrefixOf (roleOf e.flags)
    · rw [if_pos hrole, if_pos ⟨hknown, hrole⟩]
      cases hadd : dictAdd dictSdsHash nodes e.addr (e.node, e.ranges) with
      | mk nodes' added => cases added <;> rfl
    · rw [if_neg hrole, if_neg fun hmaster => hrole hmaster.2]

end NodeLine

/-- The slots of all nodes are filled into a table, in the order of their starts. -/
theorem routeOf_slots {nodes : Listed} {slots : List cluster_slot}
    (hperm : (nodes.table.flatten.flatMap fun den => den.2.2).Perm slots)
    (hslots : ∀ slot ∈ slots, slot.first ≤ slot.last ∧ slot.last < REDIS_CLUSTER_SLOTS) :
    routeOf nodes = if slots.Pairwise Apart then .ok ⟨withValues Prod.fst nodes, owner slots⟩
      else .error (other "Different node holds same slot") := by
  have hregion : ¬ ((nodes.table.flatten.flatMap fun den => den.2.2).any fun slot =>
      slot.last < slot.first ∨ REDIS_CLUSTER_SLOTS ≤ slot.last) = true := by
    rw [List.any_eq_true]
    rintro ⟨slot, hslot, hbad⟩
    obtain ⟨hle, hlt⟩ := hslots slot (hperm.mem_iff.mp hslot)
    have hbad' := of_decide_eq_true hbad
    omega
  rw [routeOf, if_neg hregion, fill_perm ((List.mergeSort_perm _ _).trans hperm)]
  by_cases hpair : slots.Pairwise Apart
  · rw [if_pos hpair, fill_some.mpr ⟨⟨hpair, fun _ _ _ _ => rfl⟩, rfl⟩]
    simp only [Option.or_none]
  · have hnone : fill slots (fun _ => none) = none :=
      Option.eq_none_iff_forall_ne_some.mpr fun table hfill => hpair (fill_some.mp hfill).1.1
    rw [if_neg hpair, hnone]

/-- What is found under a key, where entries with the same key have the same value. -/
theorem find_map_some {α κ β : Type*} [DecidableEq κ] {l : List α} {g : α → κ} {f : α → β} {key : κ}
    {v : β} (h : ∀ e ∈ l, ∀ e' ∈ l, g e = g e' → f e = f e') :
    (l.find? fun e => g e = key).map f = some v ↔ ∃ e ∈ l, g e = key ∧ f e = v := by
  rw [Option.map_eq_some_iff]
  constructor
  · rintro ⟨e, hfind, hv⟩
    exact ⟨e, List.mem_of_find?_eq_some hfind, by simpa using List.find?_some hfind, hv⟩
  · rintro ⟨e, he, hkey, hv⟩
    obtain ⟨e', hfind⟩ := Option.isSome_iff_exists.mp
      (List.find?_isSome.mpr ⟨e, he, decide_eq_true hkey⟩ : (l.find? fun e => g e = key).isSome)
    have hkey' : g e' = key := by simpa using List.find?_some hfind
    have hsame := h e' (List.mem_of_find?_eq_some hfind) e he (hkey'.trans hkey.symm)
    exact ⟨e', hfind, hsame.trans hv⟩

def listing (masters : List NodeLine) (addr : Bytes) : Option (cluster_node × List cluster_slot) :=
  (masters.find? fun e => e.addr = addr).map fun e => (e.node, e.ranges)

def mastersOf (lines : List NodeLine) : List NodeLine := lines.filter fun e => e.IsMaster

section Listing
variable {masters : List NodeLine} {addr : Bytes} {e : NodeLine}

theorem listing_isNone : (listing masters addr).isNone ↔ addr ∉ masters.map NodeLine.addr := by
  rw [listing, Option.isNone_map, Option.isNone_iff_eq_none, List.find?_eq_none, List.mem_map]
  simp

theorem listing_some (hnodup : (masters.map NodeLine.addr).Nodup)
    {v : cluster_node × List cluster_slot} :
    listing masters addr = some v ↔ ∃ e ∈ masters, e.addr = addr ∧ (e.node, e.ranges) = v := by
  refine find_map_some fun e he e' he' haddr => ?_
  rw [List.inj_on_of_nodup_map hnodup he he' haddr]

theorem listing_concat (hnew : e.addr ∉ masters.map NodeLine.addr) :
    Function.update (listing masters) e.addr (some (e.node, e.ranges)) =
      listing (masters ++ [e]) := by
  funext addr
  rw [listing, List.find?_append, List.find?_singleton]
  by_cases haddr : addr = e.addr
  · have hnone := listing_isNone.mpr hnew
    rw [listing, Option.isNone_map, Option.isNone_iff_eq_none] at hnone
    rw [haddr, Function.update_self, hnone]
    simp
  · rw [Function.update_of_ne haddr, if_neg (by simpa using fun h => haddr h.symm), Option.or_none]
    rfl

/-- The lines are read one after the other; `done` are the masters that have been read. -/
theorem foldlM_lines {done lines : List NodeLine} {nodes : Listed}
    (h : Mapped dictSdsHash nodes (listing done)) (hlines : ∀ e ∈ lines, e.Proper) :
    (((done ++ mastersOf lines).map NodeLine.addr).Nodup →
      ∃ nodes', (lines.map NodeLine.line).foldlM nodeLine nodes = .ok nodes' ∧
        Mapped dictSdsHash nodes' (listing (done ++ mastersOf lines))) ∧
    ((done.map NodeLine.addr).Nodup → ¬ ((done ++ mastersOf lines).map NodeLine.addr).Nodup →
      (lines.map NodeLine.line).foldlM nodeLine nodes =
        .error (other "The address already exists in the nodes")) := by
  induction lines generalizing done nodes with
  | nil =>
    rw [mastersOf, List.filter_nil, List.append_nil]
    exact ⟨fun _ => ⟨nodes, rfl, h⟩, fun hnodup hdup => absurd hnodup hdup⟩
  | cons e lines ih =>
    obtain ⟨he, hrest⟩ := List.forall_mem_cons.mp hlines
    have hline := he.nodeLine nodes
    rw [List.map_cons, List.foldlM_cons]
    by_cases hmaster : e.IsMaster
    · have hmasters : mastersOf (e :: lines) = e :: mastersOf lines :=
        List.filter_cons_of_pos (decide_eq_true hmaster)
      obtain ⟨nodes₁, hadd, h₁⟩ := dictAdd_spec h e.addr (e.node, e.ranges)
      rw [if_pos hmaster, hadd] at hline
      rw [hmasters, List.append_cons]
      by_cases hnew : e.addr ∉ done.map NodeLine.addr
      · rw [if_pos (listing_isNone.mpr hnew)] at hline
        rw [if_pos (listing_isNone.mpr hnew), listing_concat hnew] at h₁
        rw [hline]
        refine ⟨(ih h₁ hrest).1, fun hnodup => (ih h₁ hrest).2 ?_⟩
        rw [List.map_append, List.map_singleton]
        exact List.nodup_append.mpr ⟨hnodup, List.nodup_singleton _, by
          rintro a ha b hb rfl
          exact hnew (List.mem_singleton.mp hb ▸ ha)⟩
      · rw [if_neg fun hnone => hnew (listing_isNone.mp hnone)] at hline
        rw [hline]
        refine ⟨fun hnodup => absurd ?_ hnew, fun _ _ => rfl⟩
        rw [List.map_append, List.map_append] at hnodup
        have hdone := (List.nodup_append.mp (List.nodup_append.mp hnodup).1).2.2
        exact fun hmem => hdone _ hmem _ (List.mem_singleton_self _) rfl
    · have hmasters : mastersOf (e :: lines) = mastersOf lines :=
        List.filter_cons_of_neg (by simpa using hmaster)
      rw [if_neg hmaster] at hline
      rw [hline, hmasters]
      exact ih h hrest

theorem parse_lines {lines : List NodeLine} (h : ∀ e ∈ lines, e.Proper) :
    parse_cluster_nodes (replyText lines) = (lines.map NodeLine.line).foldlM nodeLine {} := by
  have hclean : ∀ l ∈ lines.map NodeLine.line, l ≠ [] ∧ 10 ∉ l := by
    rw [List.forall_mem_map]
    exact fun e he => ⟨e.line_ne_nil, (h e he).line_clean⟩
  have htext : replyText lines = (lines.map NodeLine.line).flatMap (· ++ [10]) := by
    rw [List.flatMap_map, replyText]
  rw [parse_cluster_nodes, htext, nodeLines_lines hclean]

variable {nodes : Listed} (h : Mapped dictSdsHash nodes (listing masters))
  (hnodup : (masters.map NodeLine.addr).Nodup)
include h hnodup

theorem flatten_perm :
    nodes.table.flatten.Perm (masters.map fun e => (e.addr, e.node, e.ranges)) := by
  have hentries : ((masters.map fun e => (e.addr, e.node, e.ranges)).map Prod.fst).Nodup := by
    rwa [List.map_map]
  refine (List.perm_ext_iff_of_nodup (h.nodup.of_map _) (hentries.of_map _)).mpr fun den => ?_
  rw [h.entries, listing_some hnodup, List.mem_map]
  exact exists_congr fun e => and_congr_right fun _ =>
    (Prod.ext_iff (x := (e.addr, e.node, e.ranges)) (y := den)).symm

theorem slots_perm : (nodes.table.flatten.flatMap fun den => den.2.2).Perm
    (masters.flatMap NodeLine.ranges) := by
  have hperm := (flatten_perm h hnodup).flatMap_right fun den => den.2.2
  rwa [List.flatMap_map] at hperm

theorem routeOf_listed (hproper : ∀ e ∈ masters, e.Proper) : routeOf nodes =
    if (masters.flatMap NodeLine.ranges).Pairwise Apart then
      .ok ⟨withValues Prod.fst nodes, owner (masters.flatMap NodeLine.ranges)⟩
    else .error (other "Different node holds same slot") := by
  refine routeOf_slots (slots_perm h hnodup) fun slot hslot => ?_
  obtain ⟨e, he, hrange⟩ := List.mem_flatMap.mp hslot
  obtain ⟨ends, hends, rfl⟩ := List.mem_map.mp hrange
  exact (hproper e he).slots ends hends

end Listing

section Values
variable {κ α β : Type} {hash : κ → Nat} {ht : dict κ α} {m : κ → Option α}

theorem flatten_withValues (f : α → β) (ht : dict κ α) :
    (withValues f ht).table.flatten = ht.table.flatten.map (Prod.map id f) := by
  rw [withValues, List.map_flatten]

theorem mapped_withValues (h : Mapped hash ht m) (f : α → β) :
    Mapped hash (withValues f ht) fun key => (m key).map f := by
  have hsize : (withValues f ht).size = ht.size := List.length_map _
  have hchain : ∀ i, (withValues f ht).table.getD i [] =
      (ht.table.getD i []).map (Prod.map id f) := by
    intro i
    rw [withValues, List.getD_eq_getElem?_getD, List.getD_eq_getElem?_getD, List.getElem?_map]
    cases ht.table[i]? <;> rfl
  refine ⟨⟨?_, ?_, ?_⟩, fun e => ?_⟩
  · rw [hsize]
    intro i e he
    rw [hchain] at he
    obtain ⟨e', he', rfl⟩ := List.mem_map.mp he
    exact h.placed i e' he'
  · rw [flatten_withValues, List.map_map]
    exact h.nodup
  · rw [flatten_withValues, List.length_map]
    exact h.used
  · rw [flatten_withValues, List.mem_map, Option.map_eq_some_iff]
    constructor
    · rintro ⟨e', he', rfl⟩
      exact ⟨e'.2, (h.entries e').mp he', rfl⟩
    · rintro ⟨val, hval, hf⟩
      exact ⟨(e.1, val), (h.entries _).mpr hval, Prod.ext rfl hf⟩

theorem dictFind_withValues [DecidableEq κ] (h : Mapped hash ht m) (f : α → β) {key : κ} {v : β} :
    dictFind hash (withValues f ht) key = some (key, v) ↔ ∃ a, m key = some a ∧ f a = v := by
  rw [dictFind_eq (mapped_withValues h f), Option.map_map, Option.map_eq_some_iff]
  exact exists_congr fun a => and_congr_right fun _ => by simp

end Values

theorem mem_ranges {masters : List NodeLine} {k : Nat} {node : cluster_node} :
    (∃ slot ∈ masters.flatMap NodeLine.ranges, Has slot k ∧ slot.what = node) ↔
      ∃ e ∈ masters, e.node = node ∧ ∃ ends ∈ e.slots, ends.1 ≤ k ∧ k ≤ ends.2 := by
  constructor
  · rintro ⟨slot, hslot, hk, rfl⟩
    obtain ⟨e, he, hrange⟩ := List.mem_flatMap.mp hslot
    obtain ⟨ends, hends, rfl⟩ := List.mem_map.mp hrange
    exact ⟨e, he, rfl, ends, hends, hk⟩
  · rintro ⟨e, he, rfl, ends, hends, hk⟩
    exact ⟨_, List.mem_flatMap.mpr ⟨e, he, List.mem_map_of_mem hends⟩, hk, rfl⟩

/-- No address and no slot is there twice. -/
def Consistent (lines : List NodeLine) : Prop :=
  ((mastersOf lines).map NodeLine.addr).Nodup ∧
    ((mastersOf lines).flatMap NodeLine.ranges).Pairwise Apart

instance (lines : List NodeLine) : Decidable (Consistent lines) :=
  inferInstanceAs (Decidable (_ ∧ _))

/-- The client knows each master by its address, and asks it for its own slots. -/
structure Tells (lines : List NodeLine) (route : Route) : Prop where
  nodes : ∀ addr node, dictFind dictSdsHash route.nodes addr = some (addr, node) ↔
    ∃ e ∈ mastersOf lines, e.addr = addr ∧ e.node = node
  table : ∀ k node, route.table k = some node ↔
    ∃ e ∈ mastersOf lines, e.node = node ∧ ∃ ends ∈ e.slots, ends.1 ≤ k ∧ k ≤ ends.2

section Reply
variable {lines : List NodeLine} (h : ∀ e ∈ lines, e.Proper)
include h

theorem parse_consistent (hnodup : ((mastersOf lines).map NodeLine.addr).Nodup) :
    ∃ nodes, parse_cluster_nodes (replyText lines) = .ok nodes ∧
      Mapped dictSdsHash nodes (listing (mastersOf lines)) ∧ routeOf nodes =
        if ((mastersOf lines).flatMap NodeLine.ranges).Pairwise Apart then
          .ok ⟨withValues Prod.fst nodes, owner ((mastersOf lines).flatMap NodeLine.ranges)⟩
        else .error (other "Different node holds same slot") := by
  have hempty : Mapped dictSdsHash {} (listing []) := .empty
  obtain ⟨nodes, hnodes, hlisted⟩ := (foldlM_lines hempty h).1 hnodup
  rw [← parse_lines h] at hnodes
  exact ⟨nodes, hnodes, hlisted,
    routeOf_listed hlisted hnodup fun e he => h e (List.mem_of_mem_filter he)⟩

theorem routeOfReply_consistent (hlines : Consistent lines) :
    ∃ route, routeOfReply (replyText lines) = .ok route ∧ Tells lines route := by
  obtain ⟨hnodup, hpair⟩ := hlines
  obtain ⟨nodes, hnodes, hlisted, hroute⟩ := parse_consistent h hnodup
  rw [if_pos hpair] at hroute
  refine ⟨_, by rw [routeOfReply, hnodes, Except.bind, hroute], fun addr node => ?_,
    fun k node => ?_⟩
  · rw [dictFind_withValues hlisted]
    constructor
    · rintro ⟨v, hv, rfl⟩
      obtain ⟨e, he, haddr, rfl⟩ := (listing_some hnodup).mp hv
      exact ⟨e, he, haddr, rfl⟩
    · rintro ⟨e, he, haddr, rfl⟩
      exact ⟨_, (listing_some hnodup).mpr ⟨e, he, haddr, rfl⟩, rfl⟩
  · rw [← mem_ranges]
    exact owner_some hpair

/-- What the client makes of the reply to `cluster nodes`, for all that the nodes can print. -/
theorem routeOfReply_lines :
    if Consistent lines then ∃ route, routeOfReply (replyText lines) = .ok route ∧ Tells lines route
    else routeOfReply (replyText lines) = .error (other
      (if ((mastersOf lines).map NodeLine.addr).Nodup then "Different node holds same slot"
      else "The address already exists in the nodes")) := by
  by_cases hlines : Consistent lines
  · rw [if_pos hlines]
    exact routeOfReply_consistent h hlines
  · rw [if_neg hlines]
    by_cases hnodup : ((mastersOf lines).map NodeLine.addr).Nodup
    · obtain ⟨nodes, hnodes, -, hroute⟩ := parse_consistent h hnodup
      rw [if_neg fun hpair => hlines ⟨hnodup, hpair⟩] at hroute
      rw [if_pos hnodup, routeOfReply, hnodes, Except.bind, hroute]
    · have hempty : Mapped dictSdsHash {} (listing []) := .empty
      have htwice := (foldlM_lines hempty h).2 List.nodup_nil hnodup
      rw [if_neg hnodup, routeOfReply, parse_lines h, htwice]
      rfl

end Reply

section Printed

def printedNode (name host flags replicated : String) (slots : List (Nat × Nat)) : NodeLine :=
  ⟨bytes name, bytes host, 7000, bytes "@17000", bytes flags,
    [bytes replicated, bytes "0", bytes "0", bytes "1", bytes "connected"], slots⟩

def firstMaster : NodeLine := printedNode "07c3" "10.0.0.1" "myself,master" "-" [(0, 8191)]

def secondMaster : NodeLine :=
  printedNode "67ed" "10.0.0.2" "master" "-" [(8192, 16382), (16383, 16383)]

def printed : List NodeLine :=
  [firstMaster, secondMaster, printedNode "e7d1" "10.0.0.3" "slave" "67ed" []]

theorem printed_masters : mastersOf printed = [firstMaster, secondMaster] := by decide +kernel

theorem printed_proper : ∀ e ∈ printed, e.Proper := by
  have hcport : bytes "@17000" = [] ∨
      ∃ digits, bytes "@17000" = 64 :: digits ∧ 58 ∉ digits ∧ 0 ∉ digits :=
    .inr ⟨bytes "17000", rfl, by decide, by decide⟩
  refine List.forall_mem_cons.mpr ⟨⟨rfl, by decide, by decide, by decide, hcport, by decide⟩, ?_⟩
  refine List.forall_mem_cons.mpr ⟨⟨rfl, by decide, by decide, by decide, hcport, by decide⟩, ?_⟩
  exact List.forall_mem_singleton.mpr ⟨rfl, by decide, by decide, by decide, hcport, by decide⟩

theorem printed_consistent : Consistent printed := by decide +kernel

theorem routeOfReply_printed : ∃ route, routeOfReply
      (bytes ("07c3 10.0.0.1:7000@17000 myself,master - 0 0 1 connected 0-8191\n" ++
        "67ed 10.0.0.2:7000@17000 master - 0 0 1 connected 8192-16382 16383\n" ++
        "e7d1 10.0.0.3:7000@17000 slave 67ed 0 0 1 connected\n")) = .ok route ∧
    route.table 16383 = some ⟨bytes "10.0.0.2:7000@17000", some (bytes "10.0.0.2"), 7000⟩ := by
  have htext : bytes ("07c3 10.0.0.1:7000@17000 myself,master - 0 0 1 connected 0-8191\n" ++
      "67ed 10.0.0.2:7000@17000 master - 0 0 1 connected 8192-16382 16383\n" ++
      "e7d1 10.0.0.3:7000@17000 slave 67ed 0 0 1 connected\n") = replyText printed := by
    decide +kernel
  have hread := routeOfReply_lines printed_proper
  rw [if_pos printed_consistent] at hread
  obtain ⟨route, hroute, htells⟩ := hread
  rw [htext]
  refine ⟨route, hroute, (htells.table _ _).mpr ⟨secondMaster, ?_, by decide +kernel,
    (16383, 16383), by decide, by decide, by decide⟩⟩
  rw [printed_masters]
  exact List.mem_cons_of_mem _ List.mem_cons_self

end Printed

/-- Some line gives the slot to the node. -/
def Gives (lines : List NodeLine) (k : Nat) (node : cluster_node) : Prop :=
  ∃ e ∈ mastersOf lines, e.node = node ∧ ∃ ends ∈ e.slots, ends.1 ≤ k ∧ k ≤ ends.2

section Printing
variable {σ : Type} (net : Net σ) (view : σ → Keyspace) (lines : List NodeLine)
  (live : cluster_node → Prop)

/-- Nodes that keep to the lines they print. The masters of all slots are among the nodes that are live;
each live node can be reached, prints the lines when it is asked for them, and answers a command for
keys of a slot if a line gives it the slot, else with where it has moved. -/
structure Printing : Prop where
  proper : ∀ e ∈ lines, e.Proper
  consistent : Consistent lines
  owner : ∀ k < REDIS_CLUSTER_SLOTS, ∃ node, Gives lines k node ∧ live node
  host : ∀ node, live node → node.host ≠ none
  context : ∀ node s, ∃ s' e c, net.ctx_get_by_node node s = (s', e, c) ∧ view s' = view s ∧
    (live node ↔ c = some none)
  ping : ∀ node s, live node → ∃ s',
    Exchanges net node (encode [bytes "PING"]) s s' (.status (bytes "PONG")) ∧ view s' = view s
  prints : ∀ node s, ∃ s' r, net.update_route node s = (s', r) ∧ view s' = view s ∧
    (live node → r = routeOfReply (replyText lines)) ∧ (¬ live node → ∃ e, r = .error e)
  serves : ∀ node s type name items k, live node → redis_parse_cmd_verb name = type →
    Multi type → Arguments type items → items ≠ [] → (∀ item ∈ items, slotOfItem item = k) →
      ∃ s' reply, Exchanges net node (encode (name :: items.flatMap Item.args)) s s' reply ∧
        (Gives lines k node →
          reply = (serve type (view s) items).2 ∧ view s' = (serve type (view s) items).1) ∧
        (¬ Gives lines k node → cluster_reply_error_type reply = .MOVED ∧ view s' = view s)

variable {net view lines live}

/-- The route that is read from the lines is that of a cluster that does not change. -/
theorem Printing.stable (h : Printing net view lines live) :
    ∃ route, Tells lines route ∧ Stable net view route live := by
  obtain ⟨route, hread, htells⟩ := routeOfReply_consistent h.proper h.consistent
  refine ⟨route, htells, fun k hk => ?_, h.host, h.context, h.ping, fun node s => ?_,
    fun node s type name items k hlive hverb hm hargs hne hslot => ?_⟩
  · obtain ⟨node, hgives, hlive⟩ := h.owner k hk
    exact ⟨node, (htells.table k node).mpr hgives, hlive⟩
  · obtain ⟨s', r, hupdate, hview, hlive, hdead⟩ := h.prints node s
    exact ⟨s', r, hupdate, hview, fun hnode => (hlive hnode).trans hread, hdead⟩
  · obtain ⟨s', reply, hreply, hown, hmoved⟩ :=
      h.serves node s type name items k hlive hverb hm hargs hne hslot
    refine ⟨s', reply, hreply, ?_⟩
    split
    · rename_i htable
      exact hown ((htells.table k node).mp htable)
    · rename_i htable
      exact hmoved fun hgives => htable ((htells.table k node).mpr hgives)

end Printing

section Told
variable (lines : List NodeLine)

/-- The master of a slot; which node stands for a slot without one makes no difference. -/
def ownerOf (k : Nat) : cluster_node :=
  (owner ((mastersOf lines).flatMap NodeLine.ranges) k).getD ⟨[], some [], 1⟩

def Reachable (node : cluster_node) : Prop := node.host ≠ none ∧ 0 < node.port

instance (node : cluster_node) : Decidable (Reachable node) := inferInstanceAs (Decidable (_ ∧ _))

/-- Nodes that have the keys of their slots, and print these lines when they are asked for them. -/
noncomputable def toldNet : Net (Keyspace × Bytes) :=
  { clusterNet (ownerOf lines) {} with
    ctx_get_by_node := fun node s => (s, none, if Reachable node then some none else none)
    update_route := fun node s =>
      (s, if Reachable node then routeOfReply (replyText lines)
        else .error (other "Ip or port error!")) }

variable {lines}

theorem ownerOf_iff (hlines : Consistent lines) {k : Nat} (hk : ∃ node, Gives lines k node)
    (node : cluster_node) : ownerOf lines k = node ↔ Gives lines k node := by
  obtain ⟨master, hmaster⟩ := hk
  have howner := (owner_some hlines.2).mpr (mem_ranges.mpr hmaster)
  rw [ownerOf, howner, Option.getD_some]
  constructor
  · rintro rfl
    exact hmaster
  · intro hnode
    have hother := (owner_some hlines.2).mpr (mem_ranges.mpr hnode)
    exact Option.some.inj (howner.symm.trans hother)

/-- Nodes that print a line for every slot. -/
theorem toldNet_printing (h : ∀ e ∈ lines, e.Proper) (hlines : Consistent lines)
    (hports : ∀ e ∈ mastersOf lines, 0 < e.port)
    (hall : ∀ k < REDIS_CLUSTER_SLOTS, ∃ node, Gives lines k node) :
    Printing (toldNet lines) Prod.fst lines Reachable := by
  refine ⟨h, hlines, fun k hk => ?_, fun node hlive => hlive.1,
    fun node s => ⟨s, none, _, rfl, rfl, ?_⟩, fun node s _ => ?_, fun node s => ?_,
    fun node s type name items k _ hverb hm hargs hne hslot => ?_⟩
  · obtain ⟨node, e, he, rfl, hends⟩ := hall k hk
    exact ⟨e.node, ⟨e, he, rfl, hends⟩, Option.some_ne_none _, hports e he⟩
  · by_cases hlive : Reachable node
    · simp [hlive]
    · simp [hlive]
  · refine ⟨(s.1, []), ⟨(s.1, encode [bytes "PING"]), rfl, ?_⟩, rfl⟩
    simp only [toldNet, clusterNet, nodeReply, wordsOf_encode, if_true]
  · refine ⟨s, _, rfl, rfl, fun hlive => if_pos hlive, fun hdead => ⟨_, if_neg hdead⟩⟩
  · have hreply := nodeReply_command (ownerOf lines) node s.1 hverb hm hargs hne hslot
    obtain ⟨item, hitem⟩ := List.exists_mem_of_ne_nil items hne
    have hk : k < REDIS_CLUSTER_SLOTS := hslot item hitem ▸ slotOfItem_lt item
    have howner := ownerOf_iff hlines (hall k hk) node
    refine ⟨_, _, ⟨(s.1, encode (name :: items.flatMap Item.args)), rfl, rfl⟩, fun hgives => ?_,
      fun hother => ?_⟩
    · simp only [hreply, if_pos (howner.mpr hgives), and_self]
    · simp only [hreply, if_neg fun heq => hother (howner.mp heq), and_true]
      rw [List.append_assoc, List.append_assoc]
      exact moved_type _

theorem printed_given (k : Nat) (hk : k < REDIS_CLUSTER_SLOTS) : ∃ node, Gives printed k node := by
  have hslots : REDIS_CLUSTER_SLOTS = 16384 := rfl
  rcases Nat.lt_or_ge k 8192 with hfirst | hsecond
  · refine ⟨_, firstMaster, ?_, rfl, (0, 8191), by decide, by omega, by omega⟩
    rw [printed_masters]
    exact List.mem_cons_self
  · refine ⟨_, secondMaster, ?_, rfl, ?_⟩
    · rw [printed_masters]
      exact List.mem_cons_of_mem _ List.mem_cons_self
    · rcases Nat.lt_or_ge k 16383 with hmost | hlast
      · exact ⟨(8192, 16382), by decide, by omega, by omega⟩
      · exact ⟨(16383, 16383), by decide, by omega, by omega⟩

/-- A client that takes the first master for that of all slots. -/
def startedFirst : Executing (Keyspace × Bytes) :=
  ⟨{ route := ⟨onlyNode firstMaster.node, fun _ => some firstMaster.node⟩ },
    (fun _ => none, []), []⟩

end Told

end CppPrivate.Cluster
