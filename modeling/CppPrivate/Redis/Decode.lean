import Mathlib.Data.List.Induction
import CppPrivate.Http.UrlParser
import CppPrivate.Lib.LastWins
import CppPrivate.Redis.Reply

/-! What the commands with an array for a reply make of it. A text is read from an element without a
look at its type. -/
namespace CppPrivate.Redis

/-- `atoll`, which gives the nearest `int64_t`. -/
def atoll (s : Bytes) : Int := max (-(2 ^ 63)) (min (Http.atoi s) (2 ^ 63 - 1))

abbrev redis_map_int_str_t := Std.ExtTreeMap Int Bytes compare

/-- `std::map<int64_t, string_t, std::greater<int64_t> >`. -/
abbrev redis_desc_map_int_str_t := Std.ExtTreeMap Int Bytes fun a b => compare b a

abbrev redis_set_t := Std.ExtTreeSet Bytes compare

/-- `m_reply->element` after `query(REDIS_REPLY_ARRAY, fmt, ...)`, and nothing if the result is
`false`. -/
def arrayElements (reply : Option redisReply) : List redisReply :=
  match reply.filter (accepted .ARRAY) with
  | some reply => reply.element
  | none => []

def strings (reply : Option redisReply) : Except CommandError (List Bytes) :=
  (arrayElements reply).mapM redisReply.text

section Arrays
variable (reply : Option redisReply)

def keys : Except CommandError (List Bytes) := strings reply

def smembers : Except CommandError (List Bytes) := strings reply

/-- `smembers(key, redis_array_t &)`. -/
def smembersArray : Except CommandError (Bool × List Bytes) := do
  return (true, ← strings reply)

/-- `smembers(key, redis_set_t &)`. -/
def smembersSet : Except CommandError (Bool × redis_set_t) := do
  return (true, (← strings reply).foldl (fun set s => set.insert s) ∅)

def lrange : Except CommandError (List Bytes) := strings reply

def zrange : Except CommandError (List Bytes) := strings reply

def hkeys : Except CommandError (List Bytes) := strings reply

/-- `hkeys(key, redis_set_t &)`, which does not clear the set. -/
def hkeysSet (redis_set : redis_set_t) : Except CommandError redis_set_t := do
  return (← strings reply).foldl (fun set s => set.insert s) redis_set

def hvals : Except CommandError (List Bytes) := strings reply

/-- `hvals(key, redis_array_t &)`. -/
def hvalsArray : Except CommandError (List Bytes) := strings reply

def hgetall : Except CommandError (List Bytes) := strings reply

/-- The query with a list of arguments; an element without a text gives an empty one. -/
def hmget : Except CommandError (List Bytes) :=
  match reply.filter fun reply => decide (reply.type = .ARRAY) with
  | some reply => reply.element.mapM fun e => if e.str = none then .ok [] else e.text
  | none => .ok []

end Arrays

section Maps
variable {κ : Type} {cmp : κ → κ → Ordering} [Std.TransCmp cmp]

/-- The loop that puts `element[i + 1]->str` under the key made of `element[i]->str`. -/
def insertPairs (toKey : Bytes → κ) : List redisReply → Std.ExtTreeMap κ Bytes cmp →
    Except CommandError (Std.ExtTreeMap κ Bytes cmp)
  | [], mapOut => .ok mapOut
  | [_], _ => .error .undefined  -- there is no `element[i + 1]`
  | a :: b :: rest, mapOut => do
    let key ← a.text
    let value ← b.text
    insertPairs toKey rest (mapOut.insert (toKey key) value)

/-- `hgetall` with a map, in the keys of which its three forms differ. -/
def hgetallInto (cmp : κ → κ → Ordering) [Std.TransCmp cmp] (toKey : Bytes → κ)
    (reply : Option redisReply) : Except CommandError (Bool × Std.ExtTreeMap κ Bytes cmp) :=
  if (arrayElements reply).length % 2 ≠ 0 then .ok (false, ∅)
  else do return (true, ← insertPairs toKey (arrayElements reply) ∅)

end Maps

section HashMaps
variable (reply : Option redisReply)

/-- `hgetall(key, redis_map_t &)`. -/
def hgetallMap : Except CommandError (Bool × StdMap Bytes) := hgetallInto compare id reply

/-- `hgetall(key, redis_map_int_str_t &)`. -/
def hgetallIntMap : Except CommandError (Bool × redis_map_int_str_t) :=
  hgetallInto compare atoll reply

/-- `hgetall(key, redis_desc_map_int_str_t &)`. -/
def hgetallDescMap : Except CommandError (Bool × redis_desc_map_int_str_t) :=
  hgetallInto (fun a b => compare b a) atoll reply

def hscan : Except CommandError (Int × StdMap Bytes) :=
  match arrayElements reply with
  | [cursor, items] => do
    let replyCursor ← cursor.text
    let mapOut ← insertPairs id items.element ∅
    return (atoll replyCursor, mapOut)
  | _ => .ok (0, ∅)

end HashMaps

inductive Conversion where
  | keys | smembers | smembersArray | smembersSet | lrange | zrange | hkeys | hkeysSet | hvals
  | hvalsArray | hgetall | hgetallMap | hgetallIntMap | hgetallDescMap | hmget | hscan
deriving DecidableEq

/-- The elements `2 * i` and `2 * i + 1`, with all their bytes. -/
def pairs : List redisReply → List (Bytes × Bytes)
  | a :: b :: rest => (a.str.getD [], b.str.getD []) :: pairs rest
  | _ => []

def hscanItems (reply : Option redisReply) : List redisReply :=
  match arrayElements reply with
  | [_, items] => items.element
  | _ => []

def Converts {α : Type} (x : Except CommandError α) : Prop := ∃ a, x = .ok a

/-- The call reads only elements that are there and only texts that are not null, and a map it fills
has the pairs of the reply. -/
def Sound (reply : Option redisReply) : Conversion → Prop
  | .keys => Converts (keys reply)
  | .smembers => Converts (smembers reply)
  | .smembersArray => Converts (smembersArray reply)
  | .smembersSet => Converts (smembersSet reply)
  | .lrange => Converts (lrange reply)
  | .zrange => Converts (zrange reply)
  | .hkeys => Converts (hkeys reply)
  | .hkeysSet => ∀ redis_set, Converts (hkeysSet reply redis_set)
  | .hvals => Converts (hvals reply)
  | .hvalsArray => Converts (hvalsArray reply)
  | .hgetall => Converts (hgetall reply)
  | .hgetallMap => ∃ ok mapOut, hgetallMap reply = .ok (ok, mapOut) ∧
    (ok = true → ∀ key : Bytes, mapOut[key]? = lastValue (pairs (arrayElements reply)) key)
  | .hgetallIntMap => ∃ ok mapOut, hgetallIntMap reply = .ok (ok, mapOut) ∧
    (ok = true → ∀ nKey : Int, mapOut[nKey]? =
      lastValue ((pairs (arrayElements reply)).map fun p => (atoll p.1, p.2)) nKey)
  | .hgetallDescMap => ∃ ok mapOut, hgetallDescMap reply = .ok (ok, mapOut) ∧
    (ok = true → ∀ nKey : Int, mapOut[nKey]? =
      lastValue ((pairs (arrayElements reply)).map fun p => (atoll p.1, p.2)) nKey)
  | .hmget => Converts (hmget reply)
  | .hscan => ∃ replyCursor mapOut, hscan reply = .ok (replyCursor, mapOut) ∧
    ∀ key : Bytes, mapOut[key]? = lastValue (pairs (hscanItems reply)) key

def Texts (element : List redisReply) : Prop := ∀ e ∈ element, e.str ≠ none

/-- No zero byte is in a value that a map filled with the pairs keeps. -/
def CleanValues {κ : Type} [DecidableEq κ] (l : List (κ × Bytes)) : Prop :=
  ∀ p ∈ l, lastValue l p.1 = some p.2 → 0 ∉ p.2

/-- Nor is one in a key. -/
def Clean (l : List (Bytes × Bytes)) : Prop := (∀ p ∈ l, 0 ∉ p.1) ∧ CleanValues l

def Fit (reply : Option redisReply) : Conversion → Prop
  | .hgetallMap => (arrayElements reply).length % 2 = 0 →
    Texts (arrayElements reply) ∧ Clean (pairs (arrayElements reply))
  | .hgetallIntMap | .hgetallDescMap => (arrayElements reply).length % 2 = 0 →
    Texts (arrayElements reply) ∧
      CleanValues ((pairs (arrayElements reply)).map fun p => (atoll p.1, p.2))
  | .hmget => True
  | .hscan => ∀ cursor items, arrayElements reply = [cursor, items] → cursor.str ≠ none ∧
    items.element.length % 2 = 0 ∧ Texts items.element ∧ Clean (pairs items.element)
  | _ => Texts (arrayElements reply)

theorem text_eq_ok {e : redisReply} {t : Bytes} :
    e.text = .ok t ↔ ∃ s, e.str = some s ∧ C_STR s = t := by
  rw [redisReply.text]
  cases e.str with
  | some s => simp
  | none => simp

theorem converts_text {e : redisReply} : Converts e.text ↔ e.str ≠ none := by
  rw [Converts, redisReply.text]
  cases e.str with
  | some s => simp
  | none => simp

theorem converts_bind {α β : Type} {x : Except CommandError α} {f : α → Except CommandError β}
    (hf : ∀ a, Converts (f a)) : Converts (x >>= f) ↔ Converts x := by
  cases x with
  | error e => exact ⟨nofun, nofun⟩
  | ok a => exact ⟨fun _ => ⟨a, rfl⟩, fun _ => hf a⟩

theorem converts_mapM {f : redisReply → Except CommandError Bytes} {l : List redisReply} :
    Converts (l.mapM f) ↔ ∀ e ∈ l, Converts (f e) := by
  induction l with
  | nil => exact ⟨fun _ => by simp, fun _ => ⟨[], rfl⟩⟩
  | cons e l ih =>
    rw [List.mapM_cons, List.forall_mem_cons, ← ih]
    cases hf : f e with
    | error err => exact ⟨nofun, fun h => absurd h.1 nofun⟩
    | ok t =>
      refine ⟨fun h => ⟨⟨t, rfl⟩, ?_⟩, fun h => ?_⟩
      · exact (converts_bind fun _ => ⟨_, rfl⟩).mp h
      · exact (converts_bind fun _ => ⟨_, rfl⟩).mpr h.2

theorem converts_strings {reply : Option redisReply} :
    Converts (strings reply) ↔ Texts (arrayElements reply) := by
  rw [strings, Texts]
  simp only [converts_mapM, converts_text]

section Pairs
variable {κ : Type} {cmp : κ → κ → Ordering} [Std.TransCmp cmp] {toKey : Bytes → κ}
  {l : List redisReply} {m m' : Std.ExtTreeMap κ Bytes cmp}

/-- The loop over the pairs ends with the last values of what it has read. -/
theorem insertPairs_of_texts (heven : l.length % 2 = 0) (htexts : Texts l)
    (m : Std.ExtTreeMap κ Bytes cmp) : insertPairs toKey l m = .ok
      (((pairs l).map fun p => (toKey (C_STR p.1), C_STR p.2)).foldl
        (fun m p => m.insert p.1 p.2) m) := by
  induction l using List.twoStepInduction generalizing m with
  | nil => rfl
  | singleton e => cases heven
  | cons_cons a b rest ih _ =>
    obtain ⟨s, hs⟩ := Option.ne_none_iff_exists'.mp (htexts a (by simp))
    obtain ⟨t, ht⟩ := Option.ne_none_iff_exists'.mp (htexts b (by simp))
    have ha : a.text = .ok (C_STR s) := text_eq_ok.mpr ⟨s, hs, rfl⟩
    have hb : b.text = .ok (C_STR t) := text_eq_ok.mpr ⟨t, ht, rfl⟩
    rw [List.length_cons, List.length_cons] at heven
    have hrest := ih (by omega) (fun e he => htexts e (by simp [he]))
      (m.insert (toKey (C_STR s)) (C_STR t))
    simp only [insertPairs, ha, hb, pairs, hs, ht, Option.getD_some, List.map_cons,
      List.foldl_cons, bind, Except.bind, hrest]

/-- It comes to an end only over pairs of texts. -/
theorem texts_of_insertPairs (h : insertPairs toKey l m = .ok m') :
    l.length % 2 = 0 ∧ Texts l := by
  induction l using List.twoStepInduction generalizing m with
  | nil => exact ⟨rfl, by simp [Texts]⟩
  | singleton e => cases h
  | cons_cons a b rest ih _ =>
    simp only [insertPairs, bind_eq_ok] at h
    obtain ⟨s, ha, t, hb, hrest⟩ := h
    obtain ⟨heven, htexts⟩ := ih hrest
    refine ⟨by simp only [List.length_cons]; omega, ?_⟩
    intro e he
    obtain rfl | rfl | he := by simpa using he
    · exact converts_text.mp ⟨s, ha⟩
    · exact converts_text.mp ⟨t, hb⟩
    · exact htexts e he

end Pairs

/-- A map has the values themselves when no zero byte is in one that it keeps. -/
theorem lastValue_C_STR {κ : Type} [DecidableEq κ] {l : List (κ × Bytes)} :
    (∀ k, lastValue (l.map fun p => (p.1, C_STR p.2)) k = lastValue l k) ↔ CleanValues l := by
  simp only [lastValue_map]
  constructor
  · intro h p hp hlast
    have hk := h p.1
    rw [hlast] at hk
    exact C_STR_eq_self.mp (Option.some.inj hk)
  · intro h k
    cases hv : lastValue l k with
    | none => rfl
    | some v => exact congrArg some (C_STR_eq_self.mpr (h (k, v) (mem_of_lastValue hv) hv))

theorem zero_notMem_C_STR (s : Bytes) : 0 ∉ C_STR s := by
  intro h
  exact absurd (List.mem_takeWhile_imp h) (by decide)

/-- With text keys it needs the keys without zero bytes as well. -/
theorem lastValue_C_STR_keys {l : List (Bytes × Bytes)} :
    (∀ k, lastValue (l.map fun p => (C_STR p.1, C_STR p.2)) k = lastValue l k) ↔ Clean l := by
  have hclean : (∀ p ∈ l, 0 ∉ p.1) →
      (l.map fun p => (C_STR p.1, C_STR p.2)) = l.map fun p => (p.1, C_STR p.2) := fun h =>
    List.map_congr_left fun p hp => by rw [C_STR_eq_self.mpr (h p hp)]
  constructor
  · intro h
    have hkeys : ∀ p ∈ l, 0 ∉ p.1 := by
      intro p hp
      obtain ⟨v, hv⟩ := exists_lastValue (List.mem_map_of_mem hp : p.1 ∈ l.map Prod.fst)
      obtain ⟨q, -, hq⟩ := List.mem_map.mp (mem_of_lastValue ((h p.1).trans hv))
      rw [← (Prod.mk.inj hq).1]
      exact zero_notMem_C_STR q.1
    rw [hclean hkeys] at h
    exact ⟨hkeys, lastValue_C_STR.mp h⟩
  · intro hcase
    obtain ⟨hkeys, hvalues⟩ := hcase
    rw [hclean hkeys]
    exact lastValue_C_STR.mpr hvalues

theorem C_STR_cons {c : UInt8} (hc : c ≠ 0) (s : Bytes) : C_STR (c :: s) = c :: C_STR s :=
  List.takeWhile_cons_of_pos (decide_eq_true hc)

theorem dropWhile_C_STR (s : Bytes) :
    (C_STR s).dropWhile Http.isspace = C_STR (s.dropWhile Http.isspace) := by
  induction s with
  | nil => rfl
  | cons c s ih =>
    by_cases hc : c = 0
    · subst hc
      rfl
    · rw [C_STR_cons hc, List.dropWhile_cons, List.dropWhile_cons]
      split
      · exact ih
      · rw [C_STR_cons hc]

theorem digits_C_STR (s : Bytes) : Http.digits (C_STR s) = Http.digits s := by
  have hdigit : ∀ c : UInt8,
      decide (isDigit c = true ∧ decide (c ≠ 0) = true) = isDigit c := by
    intro c
    by_cases hc : c = 0
    · subst hc
      rfl
    · simp [hc]
  simp only [Http.digits, C_STR, List.takeWhile_takeWhile, hdigit]

theorem atoi_of_unsigned {c : UInt8} {s t : Bytes} (hs : s.dropWhile Http.isspace = c :: t)
    (hminus : c ≠ 45) (hplus : c ≠ 43) : Http.atoi s = Http.digits (c :: t) := by
  rw [Http.atoi]
  rw [hs]
  split
  · rename_i hu
    exact absurd (List.cons.inj hu).1 hminus
  · rename_i hu
    exact absurd (List.cons.inj hu).1 hplus
  · rfl

/-- A number ends at a zero byte anyway. -/
theorem atoll_C_STR (s : Bytes) : atoll (C_STR s) = atoll s := by
  have hatoi : Http.atoi (C_STR s) = Http.atoi s := by
    have hdrop := dropWhile_C_STR s
    cases hs : s.dropWhile Http.isspace with
    | nil =>
      rw [hs] at hdrop
      simp only [Http.atoi, hdrop, hs]
      rfl
    | cons c t =>
      rw [hs] at hdrop
      by_cases hc : c = 0
      · subst hc
        rw [atoi_of_unsigned hs (by decide) (by decide), Http.atoi, hdrop]
        rfl
      · rw [C_STR_cons hc] at hdrop
        by_cases hminus : c = 45
        · subst hminus
          simp only [Http.atoi, hdrop, hs, digits_C_STR]
        · by_cases hplus : c = 43
          · subst hplus
            simp only [Http.atoi, hdrop, hs, digits_C_STR]
          · rw [atoi_of_unsigned hs hminus hplus, atoi_of_unsigned hdrop hminus hplus,
              ← C_STR_cons hc, digits_C_STR]
  rw [atoll, atoll, hatoi]

section Filled
variable {κ : Type} [DecidableEq κ] (cmp : κ → κ → Ordering) [Std.TransCmp cmp]
  [Std.LawfulEqCmp cmp] {toKey : Bytes → κ} (expected : List (κ × Bytes))

/-- The loop fills a map with the expected pairs exactly when it reads texts in pairs and the pairs
it has read have the same last values. -/
theorem insertPairs_sound {l : List redisReply} :
    (∃ mapOut : Std.ExtTreeMap κ Bytes cmp, insertPairs toKey l ∅ = .ok mapOut ∧
      ∀ k, mapOut[k]? = lastValue expected k) ↔
    l.length % 2 = 0 ∧ Texts l ∧ ∀ k,
      lastValue ((pairs l).map fun p => (toKey (C_STR p.1), C_STR p.2)) k =
        lastValue expected k := by
  have hfill : ∀ k, (((pairs l).map fun p => (toKey (C_STR p.1), C_STR p.2)).foldl
      (fun m p => m.insert p.1 p.2) (∅ : Std.ExtTreeMap κ Bytes cmp))[k]? =
      lastValue ((pairs l).map fun p => (toKey (C_STR p.1), C_STR p.2)) k := by
    intro k
    rw [getElem?_foldl_insert, Std.ExtTreeMap.getElem?_empty, Option.or_none]
  constructor
  · intro hcase
    obtain ⟨mapOut, hmap, hlast⟩ := hcase
    obtain ⟨heven, htexts⟩ := texts_of_insertPairs hmap
    rw [insertPairs_of_texts heven htexts] at hmap
    obtain rfl := Except.ok.inj hmap
    exact ⟨heven, htexts, fun k => (hfill k).symm.trans (hlast k)⟩
  · intro hcase
    obtain ⟨heven, htexts, hlast⟩ := hcase
    exact ⟨_, insertPairs_of_texts heven htexts ∅, fun k => (hfill k).trans (hlast k)⟩

theorem hgetallInto_sound {reply : Option redisReply} :
    (∃ ok mapOut, hgetallInto cmp toKey reply = .ok (ok, mapOut) ∧
      (ok = true → ∀ k, mapOut[k]? = lastValue expected k)) ↔
    ((arrayElements reply).length % 2 = 0 → Texts (arrayElements reply) ∧ ∀ k,
      lastValue ((pairs (arrayElements reply)).map fun p => (toKey (C_STR p.1), C_STR p.2)) k =
        lastValue expected k) := by
  rw [hgetallInto]
  by_cases heven : (arrayElements reply).length % 2 = 0
  · rw [if_neg (not_not.mpr heven)]
    constructor
    · intro hcase _
      obtain ⟨ok, mapOut, hmap, hlast⟩ := hcase
      cases hins : insertPairs toKey (arrayElements reply) (∅ : Std.ExtTreeMap κ Bytes cmp) with
      | error e => rw [hins] at hmap; cases hmap
      | ok m =>
        rw [hins] at hmap
        cases hmap
        exact ((insertPairs_sound cmp expected).mp ⟨_, hins, hlast rfl⟩).2
    · intro h
      obtain ⟨m, hins, hlast⟩ := (insertPairs_sound cmp expected).mpr ⟨heven, h heven⟩
      exact ⟨true, m, by rw [hins]; rfl, fun _ => hlast⟩
  · rw [if_pos heven]
    exact ⟨fun _ he => absurd he heven, fun _ => ⟨false, ∅, rfl, nofun⟩⟩

end Filled

/-- The integer keys are the same for both orders of the map. -/
theorem integer_keys {l : List redisReply} :
    (∀ k, lastValue ((pairs l).map fun p => (atoll (C_STR p.1), C_STR p.2)) k =
      lastValue ((pairs l).map fun p => (atoll p.1, p.2)) k) ↔
    CleanValues ((pairs l).map fun p => (atoll p.1, p.2)) := by
  rw [← lastValue_C_STR, List.map_map]
  simp only [atoll_C_STR, Function.comp_def]

theorem hscan_sound {reply : Option redisReply} :
    (∃ replyCursor mapOut, hscan reply = .ok (replyCursor, mapOut) ∧
      ∀ key : Bytes, mapOut[key]? = lastValue (pairs (hscanItems reply)) key) ↔
    ∀ cursor items, arrayElements reply = [cursor, items] → cursor.str ≠ none ∧
      items.element.length % 2 = 0 ∧ Texts items.element ∧ Clean (pairs items.element) := by
  rw [hscan, hscanItems]
  split
  · rename_i cursor items hl
    have hpairs : (∃ mapOut : StdMap Bytes, insertPairs id items.element ∅ = .ok mapOut ∧
          ∀ key : Bytes, mapOut[key]? = lastValue (pairs items.element) key) ↔
        items.element.length % 2 = 0 ∧ Texts items.element ∧ Clean (pairs items.element) := by
      rw [insertPairs_sound]
      simp only [id_eq, lastValue_C_STR_keys]
    constructor
    · intro hcase cursor' items' hl'
      obtain ⟨replyCursor, mapOut, hscan, hlast⟩ := hcase
      obtain ⟨rfl, rfl⟩ : cursor = cursor' ∧ items = items' := by simpa using hl.symm.trans hl'
      cases hcursor : cursor.text with
      | error e => rw [hcursor] at hscan; cases hscan
      | ok t =>
        cases hins : insertPairs id items.element (∅ : StdMap Bytes) with
        | error e => rw [hcursor, hins] at hscan; cases hscan
        | ok m =>
          rw [hcursor, hins] at hscan
          cases hscan
          exact ⟨converts_text.mp ⟨t, hcursor⟩, hpairs.mp ⟨_, hins, hlast⟩⟩
    · intro h
      obtain ⟨hcursor, hfit⟩ := h cursor items hl
      obtain ⟨t, ht⟩ := converts_text.mpr hcursor
      obtain ⟨mapOut, hins, hlast⟩ := hpairs.mpr hfit
      exact ⟨atoll t, mapOut, by rw [ht, hins]; rfl, hlast⟩
  · rename_i hne
    exact ⟨fun _ cursor items hl => absurd hl (hne cursor items),
      fun _ => ⟨0, ∅, rfl, fun _ => rfl⟩⟩

theorem hmget_converts (reply : Option redisReply) : Converts (hmget reply) := by
  rw [hmget]
  split
  · rw [converts_mapM]
    intro e _
    split
    · exact ⟨[], rfl⟩
    · rename_i hstr
      exact converts_text.mpr hstr
  · exact ⟨[], rfl⟩

/-- A call is sound on exactly the replies that fit it. -/
theorem conversions_sound (reply : Option redisReply) (call : Conversion) :
    Sound reply call ↔ Fit reply call := by
  cases call with
  | hgetallMap =>
    rw [Sound, Fit, hgetallMap]
    rw [hgetallInto_sound]
    simp only [id_eq, lastValue_C_STR_keys]
  | hgetallIntMap =>
    rw [Sound, Fit, hgetallIntMap]
    rw [hgetallInto_sound]
    simp only [integer_keys]
  | hgetallDescMap =>
    rw [Sound, Fit, hgetallDescMap]
    rw [hgetallInto_sound]
    simp only [integer_keys]
  | hscan => exact hscan_sound
  | hmget => exact ⟨fun _ => trivial, fun _ => hmget_converts reply⟩
  | smembersArray => exact (converts_bind fun _ => ⟨_, rfl⟩).trans converts_strings
  | smembersSet => exact (converts_bind fun _ => ⟨_, rfl⟩).trans converts_strings
  | hkeysSet =>
    have hset : ∀ redis_set, Converts (hkeysSet reply redis_set) ↔ Texts (arrayElements reply) :=
      fun _ => (converts_bind fun _ => ⟨_, rfl⟩).trans converts_strings
    exact ⟨fun h => (hset ∅).mp (h ∅), fun h set => (hset set).mpr h⟩
  | keys | smembers | lrange | zrange | hkeys | hvals | hvalsArray | hgetall =>
    exact converts_strings

/-- A null text in an array, and an odd array in the reply to a scan. -/
theorem nil_and_odd_unsound :
    ¬Sound (some (.array [.string (bytes "a"), .nil])) .smembers ∧
    ¬Sound (some (.array [.string (bytes "0"), .array [.string (bytes "field")]])) .hscan := by
  have hnil : smembers (some (.array [.string (bytes "a"), .nil])) = .error .undefined := rfl
  have hodd : hscan (some (.array [.string (bytes "0"), .array [.string (bytes "field")]])) =
      .error .undefined := rfl
  constructor
  · intro hcase
    obtain ⟨l, hl⟩ := hcase
    exact absurd (hnil.symm.trans hl) nofun
  · intro hcase
    obtain ⟨replyCursor, mapOut, hmap, -⟩ := hcase
    exact absurd (hodd.symm.trans hmap) nofun

end CppPrivate.Redis
