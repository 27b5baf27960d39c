import CppPrivate.Cluster.CommandKeys
import CppPrivate.Cluster.Numbers
import CppPrivate.Lib.Shards

/-! The fragments of a command are the commands with its name and the keys of one slot, as long as no
empty key is printed behind a number of more than one digit. -/
namespace CppPrivate.Cluster
open Redis Shards
open Hiredis (CRLF)

/-- A key and the arguments that go with it: with `MSET` its value. -/
structure Item where
  key : Bytes
  vals : List Bytes
deriving DecidableEq

def Item.args (item : Item) : List Bytes := item.key :: item.vals

def valsOf (type : cmd_type) : Nat := if type = .MSET then 1 else 0

structure Reads (type : cmd_type) (kp : keypos) (item : Item) : Prop where
  start : kp.start = item.key ++ kp.end_
  end_ : ∃ rest, kp.end_ = CRLF ++ (item.vals.flatMap bulk ++ rest)
  count : item.vals.length = valsOf type
  short : ∀ arg ∈ item.args, arg.length < 2 ^ 31

/-- No empty key comes behind a number of two digits or more; `last` is the number printed before. -/
def Clean : Nat → List Item → Prop
  | _, [] => True
  | last, item :: items =>
    if item.key = [] then last < 10 ∧ Clean last items else Clean item.key.length items

instance decidableClean : (last : Nat) → (items : List Item) → Decidable (Clean last items)
  | _, [] => .isTrue trivial
  | last, item :: items =>
    have := decidableClean last items
    have := decidableClean item.key.length items
    inferInstanceAs (Decidable (if item.key = [] then _ else _))

def nameOf : cmd_type → Bytes
  | .MGET => bytes "mget"
  | .DEL => bytes "del"
  | .EXISTS => bytes "exists"
  | .MSET => bytes "mset"
  | _ => []

section Keys
variable {type : cmd_type} {kp : keypos} {item : Item}

theorem Reads.key_len (h : Reads type kp item) :
    kp.start.length - kp.end_.length = item.key.length := by
  rw [h.start, List.length_append, Nat.add_sub_cancel]

theorem Reads.key (h : Reads type kp item) : kp.key = item.key := by
  rw [keypos.key, h.key_len, h.start, List.take_left]

theorem valueLen_eq {end_ p : Bytes} {c : UInt8}
    (h : (end_.tail.dropWhile fun c => ¬ isDigit c) = c :: p) :
    valueLen end_ = some (((((c :: p).takeWhile isDigit).foldl digitU32 0) + 2 * 2 +
      (end_.length - ((c :: p).dropWhile isDigit).length)) % 2 ^ 32) := by
  rw [valueLen, h]

theorem valueLen_append {value : Bytes} (h : value.length < 2 ^ 31) (rest : Bytes) :
    valueLen (CRLF ++ (bulk value ++ rest)) = some (CRLF ++ bulk value).length := by
  let tail : Bytes := 13 :: 10 :: (value ++ 13 :: 10 :: rest)
  have htext : CRLF ++ (bulk value ++ rest) = 13 :: 10 :: 36 :: (decimal value.length ++ tail) := by
    simp [CRLF, bulk, tail, show bytes "$" = [36] by rfl, show bytes "\r\n" = [13, 10] by rfl]
  obtain ⟨d, ds, hdec, hds, hval⟩ := read_decimal value.length
  have hd : isDigit d = true := hds d (by simp)
  have hskip : ((CRLF ++ (bulk value ++ rest)).tail.dropWhile fun c => ¬ isDigit c) =
      d :: (ds ++ tail) := by
    rw [htext, hdec, List.tail_cons, List.cons_append, List.dropWhile_cons_of_pos (by decide),
      List.dropWhile_cons_of_pos (by decide), List.dropWhile_cons_of_neg (by simp [hd])]
  have hcr : isDigit 13 = false := by decide
  have htake : (d :: (ds ++ tail)).takeWhile isDigit = d :: ds := by
    rw [← List.cons_append, List.takeWhile_append_of_pos hds]
    simp [tail, hcr]
  have hdrop : (d :: (ds ++ tail)).dropWhile isDigit = tail := by
    rw [← List.cons_append, List.dropWhile_append_of_pos hds]
    simp [tail, hcr]
  have hdigits := length_decimal_le (n := value.length) (k := 10) (by decide) (by omega)
  have hend : (CRLF ++ (bulk value ++ rest)).length - tail.length =
      3 + (decimal value.length).length := by
    rw [htext]
    simp only [List.length_cons, List.length_append]
    omega
  have hbulk : (CRLF ++ bulk value).length = value.length + 7 + (decimal value.length).length := by
    simp [CRLF, bulk, show bytes "$" = [36] by rfl, show bytes "\r\n" = [13, 10] by rfl]
    omega
  rw [valueLen_eq hskip, htake, hdrop, foldl_digitU32 (by omega), hval, hend, hbulk,
    Nat.mod_eq_of_lt (by omega)]
  congr 1
  omega

def behindKey (type : cmd_type) (kp : keypos) : Nat :=
  if type = .MSET then (valueLen kp.end_).getD 0 else 0

def taken (type : cmd_type) (kp : keypos) : keypos :=
  if type = .MSET then { kp with remain_len := behindKey type kp } else kp

def cost (type : cmd_type) (kp : keypos) : Nat :=
  kp.start.length - kp.end_.length + uint_len (kp.start.length - kp.end_.length) +
    behindKey type kp

theorem Reads.valueLen_eq (h : Reads type kp item) (hm : type = .MSET) :
    valueLen kp.end_ = some (CRLF ++ item.vals.flatMap bulk).length := by
  obtain ⟨rest, hend⟩ := h.end_
  have hcount := h.count
  rw [valsOf, if_pos hm] at hcount
  obtain ⟨value, hvals⟩ := List.length_eq_one_iff.mp hcount
  have hshort := h.short value (by simp [Item.args, hvals])
  rw [hend, hvals, List.flatMap_singleton]
  exact valueLen_append hshort rest

theorem Reads.behind (h : Reads type kp item) :
    behindKey type kp = if type = .MSET then (CRLF ++ item.vals.flatMap bulk).length else 0 := by
  unfold behindKey
  split
  case isTrue hm => rw [h.valueLen_eq hm, Option.getD_some]
  case isFalse => rfl

theorem pushFragment_eq (h : Reads type kp item) (slot_num : Nat) (sub_command : command) :
    pushFragment type kp slot_num sub_command = some { sub_command with
      narg := sub_command.narg + 1
      clen := sub_command.clen + cost type kp
      keys := sub_command.keys ++ [taken type kp]
      slot_num := slot_num } := by
  by_cases hm : type = .MSET
  · have hlen := h.valueLen_eq hm
    simp [pushFragment, taken, cost, behindKey, hm, hlen, Nat.add_assoc]
  · simp [pushFragment, taken, cost, behindKey, hm]

/-- The text that a key brings: itself and what goes with it. -/
theorem Reads.text (h : Reads type kp item) :
    (if type = .MSET then kp.start.take (item.key.length + behindKey type kp)
      else kp.start.take item.key.length ++ bytes "\r\n") =
      item.key ++ (CRLF ++ item.vals.flatMap bulk) := by
  obtain ⟨rest, hend⟩ := h.end_
  by_cases hm : type = .MSET
  · rw [if_pos hm, h.behind, if_pos hm, h.start, hend, ← List.append_assoc CRLF, ← List.append_assoc,
      ← List.length_append, List.take_left]
  · have hnone : item.vals = [] := by
      have hcount := h.count
      rw [valsOf, if_neg hm] at hcount
      exact List.eq_nil_of_length_eq_zero hcount
    rw [if_neg hm, h.start, List.take_left, hnone]
    rfl

end Keys

/-- What stands in the buffer for the fragments, when the positions have been gone through. -/
def gather (type : cmd_type) (kps : List keypos) (k : Nat) : command :=
  { narg := kps.length
    clen := (kps.map (cost type)).sum
    keys := kps.map (taken type)
    slot_num := k }

def slotOf (kp : keypos) : Nat := keyHashSlot kp.key

def gathered (type : cmd_type) (kps : List keypos) (k : Nat) : Option command :=
  if shard slotOf kps k = [] then none else some (gather type (shard slotOf kps k) k)

section Fill
variable {type : cmd_type} {kps : List keypos} {items : List Item}

theorem gathered_append (kps : List keypos) {kp : keypos} {item : Item} (h : Reads type kp item) :
    pushFragment type kp (slotOf kp) ((gathered type kps (slotOf kp)).getD {}) =
      some (gather type (shard slotOf kps (slotOf kp) ++ [kp]) (slotOf kp)) := by
  rw [pushFragment_eq h]
  unfold gathered
  split
  case isTrue hnil => simp [hnil, gather]
  case isFalse hne => simp [gather, Nat.add_comm]

/-- Each key comes to the fragment of its slot. -/
theorem fillFragments_eq (h : List.Forall₂ (Reads type) kps items) (before : List keypos)
    (frag_seq : List Nat) : fillFragments type kps (gathered type before) frag_seq =
      some (gathered type (before ++ kps), frag_seq ++ kps.map slotOf) := by
  induction h generalizing before frag_seq with
  | nil => simp [fillFragments]
  | @cons kp item kps items hkp _ ih =>
    have hpush := gathered_append before hkp
    have hnext : (fun k => if k = slotOf kp then
        some (gather type (shard slotOf before (slotOf kp) ++ [kp]) (slotOf kp))
          else gathered type before k) = gathered type (before ++ [kp]) := by
      funext k
      by_cases hk : k = slotOf kp
      · subst hk
        simp [gathered, shard_append, shard_singleton]
      · simp [gathered, shard_append, shard_singleton, hk, Ne.symm hk]
    change (do
      let sub_command ← pushFragment type kp (slotOf kp) ((gathered type before (slotOf kp)).getD {})
      fillFragments type kps (fun k => if k = slotOf kp then some sub_command else
        gathered type before k) (frag_seq ++ [slotOf kp])) = _
    rw [hpush, Option.bind_eq_bind, Option.bind_some, hnext, ih]
    simp

end Fill

/-- The text for the keys, where the buffer has shown another before. -/
def keyTexts : Bytes → List Item → Bytes
  | _, [] => []
  | shown, item :: items =>
    36 :: shownAfter shown item.key.length ++
      (CRLF ++ (item.key ++ (CRLF ++ item.vals.flatMap bulk))) ++
      keyTexts (shownAfter shown item.key.length) items

def itemTexts (items : List Item) : Bytes := items.flatMap fun item => item.args.flatMap bulk

section Texts
variable {type : cmd_type} {kps : List keypos} {items : List Item} {num_str shown : Bytes}
  {last : Nat}

@[simp] theorem taken_start (kp : keypos) : (taken type kp).start = kp.start := by
  unfold taken
  split <;> rfl

@[simp] theorem taken_end (kp : keypos) : (taken type kp).end_ = kp.end_ := by
  unfold taken
  split <;> rfl

theorem taken_remain_len (kp : keypos) (hm : type = .MSET) :
    (taken type kp).remain_len = behindKey type kp := by
  rw [taken, if_pos hm]

theorem writeKeys_eq (h : List.Forall₂ (Reads type) kps items) (hs : Holds num_str shown)
    (hne : shown ≠ []) : (writeKeys type num_str (kps.map (taken type))).2 = keyTexts shown items ∧
      (writeKeys type num_str (kps.map (taken type))).1.length = 12 := by
  induction h generalizing num_str shown with
  | nil => exact ⟨rfl, hs.size⟩
  | @cons kp item kps items hkp _ ih =>
    have hitoa := hs.itoa (n := item.key.length) hne (hkp.short _ (by simp [Item.args]))
    obtain ⟨htext, hsize⟩ := ih hitoa (shownAfter_ne_nil _ _)
    have hkey := hkp.text
    rw [List.map_cons, writeKeys]
    simp only [taken_start, taken_end, hkp.key_len, htext, hitoa.text]
    refine ⟨?_, hsize⟩
    rw [keyTexts, ← hkey]
    by_cases hm : type = .MSET
    · simp only [if_pos hm, taken_remain_len kp hm]
      simp [CRLF]
    · simp [hm, CRLF]

theorem itemTexts_cons (item : Item) (items : List Item) : itemTexts (item :: items) =
    36 :: decimal item.key.length ++ (CRLF ++ (item.key ++ (CRLF ++ item.vals.flatMap bulk))) ++
      itemTexts items := by
  simp [itemTexts, Item.args, bulk, CRLF, show bytes "$" = [36] by rfl]

/-- What the buffer shows tells whether the last number was one of a single digit. -/
def Shows (shown : Bytes) (last : Nat) : Prop := shown ≠ [] ∧ (shown.length = 1 ↔ last < 10)

theorem shows_decimal (n : Nat) : Shows (decimal n) n := ⟨decimal_ne_nil n, length_decimal_eq_one⟩

theorem Shows.after_zero (h : Shows shown last) : Shows (shownAfter shown 0) last := by
  obtain ⟨hne, hone⟩ := h
  refine ⟨shownAfter_ne_nil _ _, ?_⟩
  rw [← hone, shownAfter, if_pos rfl]
  cases shown with
  | nil => exact absurd rfl hne
  | cons c shown => simp

theorem Shows.zero_eq (h : Shows shown last) (hlast : last < 10) :
    shownAfter shown 0 = decimal (0 : Nat) := by
  obtain ⟨c, rfl⟩ := List.length_eq_one_iff.mp (h.2.mpr hlast)
  rfl

theorem keyTexts_of_clean (h : Shows shown last) (hclean : Clean last items) :
    keyTexts shown items = itemTexts items := by
  induction items generalizing shown last with
  | nil => rfl
  | cons item items ih =>
    rw [Clean] at hclean
    rw [keyTexts, itemTexts_cons]
    by_cases hempty : item.key = []
    · rw [if_pos hempty] at hclean
      rw [hempty, List.length_nil, h.zero_eq hclean.1, ih (h.zero_eq hclean.1 ▸ h.after_zero) hclean.2]
    · rw [if_neg hempty] at hclean
      have hpos : item.key.length ≠ 0 := fun h0 => hempty (List.eq_nil_of_length_eq_zero h0)
      rw [shownAfter, if_neg hpos, ih (shows_decimal _) hclean]

theorem itemTexts_le (items : List Item) (hne : shown ≠ []) :
    (itemTexts items).length ≤ (keyTexts shown items).length := by
  induction items generalizing shown with
  | nil => exact Nat.le_refl 0
  | cons item items ih =>
    have hle := (length_shownAfter (n := item.key.length) hne).1
    have hrest := ih (shownAfter_ne_nil shown item.key.length)
    rw [keyTexts, itemTexts_cons]
    simp only [List.length_append, List.length_cons]
    omega

/-- Elsewhere more is written than there is room for. -/
theorem itemTexts_lt (h : Shows shown last) (hclean : ¬ Clean last items) :
    (itemTexts items).length < (keyTexts shown items).length := by
  induction items generalizing shown last with
  | nil => exact absurd trivial hclean
  | cons item items ih =>
    have hle := (length_shownAfter (n := item.key.length) h.1).1
    have hrest := itemTexts_le items (shownAfter_ne_nil shown item.key.length)
    rw [Clean] at hclean
    rw [keyTexts, itemTexts_cons]
    simp only [List.length_append, List.length_cons]
    by_cases hempty : item.key = []
    · rw [if_pos hempty] at hclean
      rw [hempty, List.length_nil] at hle hrest ⊢
      by_cases hlast : last < 10
      · have hlt := ih h.after_zero fun hc => hclean ⟨hlast, hc⟩
        omega
      · have hlong : (decimal ((0 : Nat) : Int)).length < (shownAfter shown 0).length := by
          have hone : (shownAfter shown 0).length ≠ 1 := fun h1 => hlast (h.after_zero.2.mp h1)
          have hzero : (decimal ((0 : Nat) : Int)).length = 1 := by decide
          have hpos := List.length_pos_of_ne_nil (shownAfter_ne_nil shown 0)
          omega
        omega
    · rw [if_neg hempty] at hclean
      have hpos : item.key.length ≠ 0 := fun h0 => hempty (List.eq_nil_of_length_eq_zero h0)
      have hshows : Shows (shownAfter shown item.key.length) item.key.length := by
        rw [shownAfter, if_neg hpos]
        exact shows_decimal _
      have hlt := ih hshows hclean
      omega

end Texts

def Multi (type : cmd_type) : Prop := type = .MGET ∨ type = .DEL ∨ type = .EXISTS ∨ type = .MSET

instance (type : cmd_type) : Decidable (Multi type) := inferInstanceAs (Decidable (_ ∨ _))

def slotOfItem (item : Item) : Nat := keyHashSlot item.key

def argvOf (type : cmd_type) (items : List Item) : List Bytes :=
  nameOf type :: items.flatMap Item.args

def fragment (type : cmd_type) (kps : List keypos) (items : List Item) (k : Nat) : command :=
  { type := type
    cmd := encode (argvOf type items)
    clen := (encode (argvOf type items)).length
    keys := kps.map (taken type)
    narg := (argvOf type items).length
    slot_num := k }

section Write
variable {type : cmd_type} {kps : List keypos} {items : List Item} {num_str : Bytes} {k : Nat}

theorem headOf_eq (hm : Multi type) : headOf type = some
    ⟨CRLF ++ bulk (nameOf type), 1 + (CRLF ++ bulk (nameOf type)).length,
      if type = .MSET then 3 else 5⟩ := by
  rcases hm with rfl | rfl | rfl | rfl <;> decide

theorem encode_argvOf (type : cmd_type) (items : List Item) : encode (argvOf type items) =
    42 :: decimal (argvOf type items).length ++ (CRLF ++ bulk (nameOf type)) ++ itemTexts items := by
  have hflat : (items.flatMap Item.args).flatMap bulk = itemTexts items := by
    rw [itemTexts, List.flatMap_assoc]
  rw [← hflat]
  simp [encode, argvOf, CRLF, show bytes "*" = [42] by rfl]

theorem Reads.cost_eq {kp : keypos} {item : Item} (h : Reads type kp item) :
    cost type kp + (if type = .MSET then 3 else 5) = (item.args.flatMap bulk).length := by
  have hcount := h.count
  rw [cost, h.behind, h.key_len, uint_len_eq, Item.args, List.flatMap_cons]
  simp only [List.length_append, length_bulk, bulklen, countDigits_eq]
  have hcrlf : CRLF.length = 2 := by decide
  by_cases hm : type = .MSET
  · simp only [if_pos hm, hcrlf]
    omega
  · rw [valsOf, if_neg hm] at hcount
    rw [List.eq_nil_of_length_eq_zero hcount]
    simp only [if_neg hm, List.flatMap_nil, List.length_nil]
    omega

theorem costs_eq (h : List.Forall₂ (Reads type) kps items) : (kps.map (cost type)).sum +
    (if type = .MSET then 3 else 5) * kps.length = (itemTexts items).length := by
  induction h with
  | nil => simp [itemTexts]
  | @cons kp item kps items hkp _ ih =>
    have hcost := hkp.cost_eq
    rw [List.map_cons, List.sum_cons, List.length_cons, Nat.mul_succ, itemTexts,
      List.flatMap_cons, List.length_append, ← itemTexts, ← hcost, ← ih]
    omega

theorem narg_eq (h : List.Forall₂ (Reads type) kps items) :
    (if type = .MSET then kps.length * 2 else kps.length) + 1 = (argvOf type items).length := by
  rw [argvOf, List.length_cons]
  congr 1
  induction h with
  | nil => simp
  | @cons kp item kps items hkp _ ih =>
    have hcount := hkp.count
    rw [List.flatMap_cons, List.length_append, ← ih, Item.args]
    simp only [List.length_cons, hcount, valsOf]
    split <;> omega

/-- A fragment is written as it should be, or too much is written. -/
theorem writeFragment_eq (hm : Multi type) (h : List.Forall₂ (Reads type) kps items)
    (hsize : num_str.length = 12) (hcount : (argvOf type items).length < 2 ^ 31) :
    if Clean (argvOf type items).length items then
      ∃ num_str', num_str'.length = 12 ∧
        writeFragment type num_str (gather type kps k) = some (num_str', fragment type kps items k)
    else writeFragment type num_str (gather type kps k) = none := by
  have hnarg := narg_eq h
  have hitoa := itoa_pos hsize (n := (argvOf type items).length) (by simp [argvOf]) hcount
  obtain ⟨hkeys, hlast⟩ := writeKeys_eq h hitoa (decimal_ne_nil _)
  have hcosts := costs_eq h
  have hshows := shows_decimal (argvOf type items).length
  have htext := encode_argvOf type items
  have hwhole := congrArg List.length htext
  simp only [List.length_append, List.length_cons] at hwhole
  rw [writeFragment, headOf_eq hm]
  simp only [gather, hnarg, hitoa.text, hkeys, Option.bind_eq_bind, Option.bind_some,
    List.length_append, List.length_cons]
  split
  case isTrue hclean =>
    rw [keyTexts_of_clean hshows hclean]
    refine ⟨_, hlast, ?_⟩
    have hclen : (itemTexts items).length + (1 + (CRLF.length + (bulk (nameOf type)).length) +
        (decimal ((argvOf type items).length : Nat)).length) =
          (encode (argvOf type items)).length := by omega
    rw [if_pos (by omega)]
    simp only [hcosts, hclen, ← htext, ← hwhole, Nat.sub_self, List.replicate_zero,
      List.append_nil]
    rfl
  case isFalse hclean =>
    have hlong := itemTexts_lt hshows hclean
    rw [if_neg (by omega)]

theorem shards_forall₂ (h : List.Forall₂ (Reads type) kps items) (k : Nat) :
    List.Forall₂ (Reads type) (shard slotOf kps k) (shard slotOfItem items k) := by
  induction h with
  | nil => exact .nil
  | @cons kp item kps items hkp _ ih =>
    have hslot : slotOf kp = slotOfItem item := by rw [slotOf, slotOfItem, hkp.key]
    simp only [shard, List.filter_cons, hslot] at ih ⊢
    split
    · exact .cons hkp ih
    · exact ih

theorem shard_eq_nil (h : List.Forall₂ (Reads type) kps items) (k : Nat) :
    shard slotOf kps k = [] ↔ shard slotOfItem items k = [] := by
  have hlen := (shards_forall₂ h k).length_eq
  rw [← List.length_eq_zero_iff, ← List.length_eq_zero_iff, hlen]

def fragments (type : cmd_type) (kps : List keypos) (items : List Item) (slots : List Nat) :
    List command :=
  slots.map fun k => fragment type (shard slotOf kps k) (shard slotOfItem items k) k

/-- Every fragment's numbers are printed as they are. -/
def CleanSlots (type : cmd_type) (items : List Item) (slots : List Nat) : Prop :=
  ∀ k ∈ slots, Clean (argvOf type (shard slotOfItem items k)).length (shard slotOfItem items k)

instance (type : cmd_type) (items : List Item) (slots : List Nat) :
    Decidable (CleanSlots type items slots) := inferInstanceAs (Decidable (∀ k ∈ slots, _))

theorem clean_of_keys (h : ∀ item ∈ items, item.key ≠ []) (last : Nat) : Clean last items := by
  induction items generalizing last with
  | nil => trivial
  | cons item items ih =>
    obtain ⟨hkey, hkeys⟩ := List.forall_mem_cons.mp h
    rw [Clean, if_neg hkey]
    exact ih hkeys item.key.length

/-- Without empty keys all is well. -/
theorem cleanSlots_of_keys (h : ∀ item ∈ items, item.key ≠ []) (slots : List Nat) :
    CleanSlots type items slots := fun _ _ =>
  clean_of_keys (fun item hitem => h item (mem_shard.mp hitem).1) _

theorem length_argvOf_shard (hcount : (argvOf type items).length < 2 ^ 31) (k : Nat) :
    (argvOf type (shard slotOfItem items k)).length < 2 ^ 31 := by
  have hle : ((shard slotOfItem items k).flatMap Item.args).length ≤
      (items.flatMap Item.args).length :=
    List.Sublist.length_le (List.filter_sublist.flatMap Item.args)
  rw [argvOf, List.length_cons] at hcount ⊢
  omega

def present (items : List Item) (slots : List Nat) : List Nat :=
  slots.filter fun k => !(shard slotOfItem items k).isEmpty

theorem cleanSlots_cons {slots : List Nat} : CleanSlots type items (k :: slots) ↔
    Clean (argvOf type (shard slotOfItem items k)).length (shard slotOfItem items k) ∧
      CleanSlots type items slots := List.forall_mem_cons

theorem writeFragments_eq (hm : Multi type) (h : List.Forall₂ (Reads type) kps items)
    (hsize : num_str.length = 12) (hcount : (argvOf type items).length < 2 ^ 31) (slots : List Nat) :
    writeFragments type (gathered type kps) num_str slots =
      if CleanSlots type items (present items slots)
      then some (fragments type kps items (present items slots)) else none := by
  induction slots generalizing num_str with
  | nil => simp [writeFragments, CleanSlots, fragments, present]
  | cons k slots ih =>
    rw [writeFragments]
    by_cases hnil : shard slotOfItem items k = []
    · have hgathered : gathered type kps k = none := if_pos ((shard_eq_nil h k).mpr hnil)
      have hpresent : present items (k :: slots) = present items slots := by simp [present, hnil]
      rw [hgathered, hpresent]
      exact ih hsize
    · have hgathered : gathered type kps k = some (gather type (shard slotOf kps k) k) :=
        if_neg fun h0 => hnil ((shard_eq_nil h k).mp h0)
      have hpresent : present items (k :: slots) = k :: present items slots := by
        simp [present, hnil]
      have hwrite := writeFragment_eq hm (shards_forall₂ h k) hsize (k := k)
        (length_argvOf_shard hcount k)
      simp only [hgathered, hpresent, cleanSlots_cons]
      split at hwrite
      case isTrue hclean =>
        obtain ⟨num_str', hsize', hwrite⟩ := hwrite
        rw [hwrite, Option.bind_eq_bind, Option.bind_some, ih hsize']
        by_cases hall : CleanSlots type items (present items slots)
        · rw [if_pos hall, if_pos ⟨hclean, hall⟩]
          rfl
        · rw [if_neg hall, if_neg fun h => hall h.2]
          rfl
      case isFalse hdirty =>
        rw [hwrite, if_neg fun hall => hdirty hall.1]
        rfl

/-- What the split into `n` slots leaves, where it comes to an end. -/
def splitOf (n : Nat) (type : cmd_type) (kps : List keypos) (items : List Item) : Fragments :=
  let slots := classes slotOfItem n items
  let slot_num := ((items.getLast?.map slotOfItem).map Nat.cast).getD (-1)
  if slots.length = 1 then ⟨[], [], slot_num⟩
  else ⟨fragments type kps items slots, items.map slotOfItem, slot_num⟩

/-- The fragments are the commands with the keys of one slot each, and otherwise more is written than
there is room for. -/
theorem command_pre_fragment_eq (hm : Multi type) (h : List.Forall₂ (Reads type) kps items)
    (hsize : num_str.length = 12) (hcount : (argvOf type items).length < 2 ^ 31) :
    command_pre_fragment num_str type kps =
      if CleanSlots type items (classes slotOfItem REDIS_CLUSTER_SLOTS items)
      then some (splitOf REDIS_CLUSTER_SLOTS type kps items) else none := by
  have hfill := fillFragments_eq h [] []
  have hnone : gathered type ([] : List keypos) = fun _ => none := rfl
  have hslots : kps.map slotOf = items.map slotOfItem := by
    clear hfill hcount
    induction h with
    | nil => rfl
    | @cons kp item kps items hkp _ ih => simp [slotOf, slotOfItem, hkp.key, ih]
  rw [hnone, List.nil_append, List.nil_append, hslots] at hfill
  rw [command_pre_fragment, hfill, Option.bind_eq_bind, Option.bind_some]
  simp only [writeFragments_eq hm h hsize hcount]
  have hclasses : present items (List.range REDIS_CLUSTER_SLOTS) =
      classes slotOfItem REDIS_CLUSTER_SLOTS items := rfl
  rw [hclasses]
  split
  case isFalse => rfl
  case isTrue hclean =>
    simp only [Option.bind_eq_bind, Option.bind_some, splitOf, fragments, List.length_map, List.getLast?_map]
    split <;> rfl

end Write

def Arguments (type : cmd_type) (items : List Item) : Prop :=
  ∀ item ∈ items, item.vals.length = valsOf type ∧ ∀ arg ∈ item.args, arg.length < 2 ^ 31

instance (type : cmd_type) (items : List Item) : Decidable (Arguments type items) :=
  inferInstanceAs (Decidable (∀ item ∈ items, _))

section Split
variable {type : cmd_type} {items : List Item} {name num_str : Bytes}

theorem reads_keys (hm : type ≠ .MSET) (h : Arguments type items) :
    List.Forall₂ (Reads type) (spans (items.flatMap Item.args)) items := by
  induction items with
  | nil => exact .nil
  | cons item items ih =>
    obtain ⟨hcount, hshort⟩ := h item List.mem_cons_self
    rw [valsOf, if_neg hm] at hcount
    have hvals := List.eq_nil_of_length_eq_zero hcount
    have hargs : item.args = [item.key] := by rw [Item.args, hvals]
    rw [List.flatMap_cons, hargs, List.singleton_append, spans]
    refine .cons ⟨?_, ⟨(items.flatMap Item.args).flatMap bulk, ?_⟩, ?_, hshort⟩
      (ih fun i hi => h i (List.mem_cons_of_mem item hi))
    · exact List.append_assoc ..
    · rw [hvals]
      rfl
    · rw [hvals, valsOf, if_neg hm]
      rfl

theorem reads_pairs (hm : type = .MSET) (h : Arguments type items) :
    List.Forall₂ (Reads type) (alternate (spans (items.flatMap Item.args))) items ∧
      (items.flatMap Item.args).length % 2 = 0 := by
  induction items with
  | nil => exact ⟨.nil, rfl⟩
  | cons item items ih =>
    obtain ⟨hcount, hshort⟩ := h item List.mem_cons_self
    rw [valsOf, if_pos hm] at hcount
    obtain ⟨value, hvals⟩ := List.length_eq_one_iff.mp hcount
    obtain ⟨hreads, heven⟩ := ih fun i hi => h i (List.mem_cons_of_mem item hi)
    have hargs : item.args = [item.key, value] := by rw [Item.args, hvals]
    rw [List.flatMap_cons, hargs, List.cons_append, List.singleton_append, spans, spans, alternate]
    refine ⟨.cons ⟨?_, ⟨(items.flatMap Item.args).flatMap bulk, ?_⟩, ?_, hshort⟩ hreads, ?_⟩
    · exact List.append_assoc ..
    · rw [hvals, List.flatMap_singleton, List.flatMap_cons]
    · rw [hvals, valsOf, if_pos hm]
      rfl
    · rw [List.length_cons, List.length_cons]
      omega

/-- The parser finds the keys of such a command. -/
theorem keysFound_items (hm : Multi type) (h : Arguments type items) :
    ∃ kps, keysFound (layout type) (items.flatMap Item.args) = some kps ∧
      List.Forall₂ (Reads type) kps items := by
  by_cases hset : type = .MSET
  · obtain ⟨hreads, heven⟩ := reads_pairs hset h
    refine ⟨_, ?_, hreads⟩
    subst hset
    have hlayout : layout .MSET = .argkvx := by decide
    rw [hlayout]
    cases hargs : items.flatMap Item.args with
    | nil => rfl
    | cons arg args =>
      rw [hargs] at heven
      rw [keysFound, if_pos (.inr heven)]
      simp
  · refine ⟨_, ?_, reads_keys hset h⟩
    have hlayout : layout type = .argx := by
      rcases hm with rfl | rfl | rfl | rfl <;> first | decide | exact absurd rfl hset
    rw [hlayout]
    cases items.flatMap Item.args <;> rfl

/-- A command with keys of several slots is split into commands of its name for one slot each, with
the keys of that slot in their order. Where an empty key comes behind a number of more than one digit
a fragment is longer than the room for it. -/
theorem split_of_command (htype : redis_parse_cmd_verb name = type) (hm : Multi type)
    (h : Arguments type items) (hsize : num_str.length = 12)
    (hlen : (encode (name :: items.flatMap Item.args)).length < 2 ^ 31) :
    ∃ r, redis_parse_cmd (encode (name :: items.flatMap Item.args)) = some (.ok r) ∧
      r.type = type ∧ List.Forall₂ (Reads type) r.keys items ∧
      command_pre_fragment num_str r.type r.keys =
        if CleanSlots type items (classes slotOfItem REDIS_CLUSTER_SLOTS items)
        then some (splitOf REDIS_CLUSTER_SLOTS type r.keys items) else none := by
  obtain ⟨kps, hkps, hreads⟩ := keysFound_items hm h
  have hparse := redis_parse_cmd_encode hlen
  rw [htype, hkps, Option.map_some] at hparse
  obtain ⟨out, hout, hfound⟩ := Option.map_eq_some_iff.mp hparse
  cases out with
  | error r => cases hfound
  | ok r =>
    cases hfound
    have hcount : (argvOf r.type items).length < 2 ^ 31 := by
      have hle := length_le_encode (name :: items.flatMap Item.args)
      rw [List.length_cons] at hle
      rw [argvOf, List.length_cons]
      omega
    exact ⟨r, hout, rfl, hreads, command_pre_fragment_eq hm hreads hsize hcount⟩

end Split

end CppPrivate.Cluster
