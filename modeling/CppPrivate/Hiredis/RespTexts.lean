import CppPrivate.Hiredis.Resp

/-! The texts of replies, and that each is read back from its text. -/
namespace CppPrivate.Hiredis
open Redis
open Incremental

/-- A value of the protocol. The elements of a map are its keys and values in turn. -/
inductive Wire where
  | status (s : Bytes)
  | error (s : Bytes)
  | integer (n : Int)
  | double (s : Bytes)
  | null
  | bool (b : Bool)
  | bulk (s : Bytes)
  | nullBulk
  | verb (format s : Bytes)
  | many (type : REDIS_REPLY) (l : List Wire)
  | nullMany (type : REDIS_REPLY)

/-- The byte before the number of the elements. -/
def mark (type : REDIS_REPLY) : UInt8 :=
  match type with
  | .MAP => 37
  | .SET => 126
  | .PUSH => 62
  | _ => 42

namespace Wire

def line (mark : UInt8) (s : Bytes) : Bytes := mark :: s ++ CRLF

def counted (mark : UInt8) (s : Bytes) : Bytes := line mark (decimal s.length) ++ s ++ CRLF

mutual

def render : Wire → Bytes
  | .status s => line 43 s
  | .error s => line 45 s
  | .integer n => line 58 (decimal n)
  | .double s => line 44 s
  | .null => line 95 []
  | .bool b => line 35 [if b then 116 else 102]
  | .bulk s => counted 36 s
  | .nullBulk => line 36 (decimal (-1))
  | .verb format s => counted 61 (format ++ 58 :: s)
  | .many type l =>
    line (mark type) (decimal (if type = .MAP then l.length / 2 else l.length : Nat)) ++ renders l
  | .nullMany type => line (mark type) (decimal (-1))

def renders : List Wire → Bytes
  | [] => []
  | w :: l => render w ++ renders l

end

mutual

def reply : Wire → redisReply
  | .status s => .status s
  | .error s => .error s
  | .integer n => .integer n
  | .double s => .double s
  | .null | .nullBulk | .nullMany _ => .nil
  | .bool b => .bool b
  | .bulk s => .string s
  | .verb _ s => .verb s
  | .many type l => aggregate type (replies l)

def replies : List Wire → List redisReply
  | [] => []
  | w :: l => reply w :: replies l

end

mutual

/-- How many aggregates of the value are inside each other. -/
def nesting : Wire → Nat
  | .many _ l => nestings l + 1
  | .nullMany _ => 1
  | _ => 0

def nestings : List Wire → Nat
  | [] => 0
  | w :: l => max (nesting w) (nestings l)

end

mutual

/-- Lines have no end of a line in them, numbers, lengths and the depth are in the range of their
types, and in a push message stands nothing that the assertions refuse. -/
def Proper : Wire → Prop
  | .status s | .error s => ¬ CRLF <:+: s ∧ s.length + 2 < 2 ^ 31
  | .integer n => -(2 ^ 63) ≤ n ∧ n < 2 ^ 63
  | .double s => ¬ CRLF <:+: s ∧ s.length < 326 ∧ isDouble s = true
  | .null | .nullBulk | .bool _ => True
  | .bulk s => s.length + 2 < 2 ^ 63
  | .verb format s => format.length = 3 ∧ s.length + 6 < 2 ^ 63
  | .many type l => IsAggregate type ∧ l.length ≤ 2 ^ 31 ∧ (type = .MAP → 2 ∣ l.length) ∧
      nestings l + 1 < 2 ^ 31 - 2 ∧ Propers type l
  | .nullMany type => IsAggregate type

def Propers (type : REDIS_REPLY) : List Wire → Prop
  | [] => True
  | w :: l => Proper w ∧ Admits type (reply w) ∧ Propers type l

end

theorem renders_eq (l : List Wire) : renders l = l.flatMap render := by
  induction l with
  | nil => rfl
  | cons w l ih => rw [renders, ih, List.flatMap_cons]

theorem replies_eq (l : List Wire) : replies l = l.map reply := by
  induction l with
  | nil => rfl
  | cons w l ih => rw [replies, ih, List.map_cons]

end Wire

section Lines
variable {s rest : Bytes} {type : REDIS_REPLY}

theorem cutLine_crlf (h : ¬ CRLF <:+: s) (rest : Bytes) :
    cutLine (s ++ CRLF ++ rest) = some (s, rest) := by
  have hfind : Pattern.find CRLF (s ++ (CRLF ++ rest)) = some s.length := by
    induction s with
    | nil =>
      rw [List.nil_append, CRLF]
      rfl
    | cons c s ih =>
      have hs : ¬ CRLF <:+: s := fun hin => h (hin.trans (List.suffix_cons c s).isInfix)
      have hpre : CRLF.isPrefixOf (c :: (s ++ (CRLF ++ rest))) = false := by
        rw [Bool.eq_false_iff, ne_eq, List.isPrefixOf_iff_prefix]
        intro hp
        cases s with
        | nil =>
          obtain ⟨t, ht⟩ := hp
          simp [CRLF, bytes] at ht
        | cons d s =>
          have hp' : CRLF <+: c :: d :: s := by
            refine List.prefix_of_prefix_length_le hp ?_ (Nat.le_add_left 2 _)
            exact ⟨CRLF ++ rest, rfl⟩
          exact h hp'.isInfix
      rw [List.cons_append, Pattern.find, hpre, if_neg (by decide), ih hs]
      rfl
  rw [List.append_assoc, cutLine, hfind, Option.map_some, List.take_left]
  have hdrop : (s ++ (CRLF ++ rest)).drop (s.length + 2) = rest := by
    rw [← List.drop_drop, List.drop_left]
    rfl
  rw [hdrop]

theorem decimal_no_crlf (n : Int) : ¬ CRLF <:+: decimal n := by
  intro h
  have hmem : (13 : UInt8) ∈ decimal n := h.subset (by decide)
  cases mem_decimal hmem with
  | inl hd => exact absurd hd (by decide)
  | inr hd => exact absurd hd (by decide)

theorem cutLine_decimal (n : Int) (rest : Bytes) :
    cutLine (decimal n ++ CRLF ++ rest) = some (decimal n, rest) :=
  cutLine_crlf (decimal_no_crlf n) rest

/-- A text behind its length, and the end of the line behind it. -/
theorem bulkItem_counted (hlen : s.length + 2 < 2 ^ 63)
    (hverb : type = .VERB → 4 ≤ s.length ∧ s[3]? = some 58) (rest : Bytes) :
    bulkItem type (decimal s.length ++ CRLF ++ (s ++ CRLF ++ rest)) = some (.ok
      (.value (if type = .VERB then .verb (s.drop 4) else .string s), rest)) := by
  have hcrlf : CRLF.length = 2 := rfl
  have htake : (s ++ CRLF ++ rest).take s.length = s := by
    rw [List.append_assoc, List.take_left]
  have hdrop : (s ++ CRLF ++ rest).drop (s.length + 2) = rest := by
    rw [← hcrlf, ← List.length_append, List.drop_left]
  have hlong : ¬ (s ++ CRLF ++ rest).length < ((s.length : Nat) : Int).toNat + 2 := by
    rw [List.length_append, List.length_append, hcrlf, Int.toNat_natCast]
    omega
  have hmark : ¬ (type = .VERB ∧
      (((s.length : Nat) : Int) < 4 ∨ (s ++ CRLF ++ rest)[3]? ≠ some 58)) := by
    intro h
    obtain ⟨h4, hchar⟩ := hverb h.1
    rw [List.append_assoc, List.getElem?_append_left (by omega), hchar] at h
    obtain ⟨-, hlt | hne⟩ := h
    · omega
    · exact hne rfl
  rw [bulkItem, cutLine_decimal, Option.bind_some]
  dsimp only
  rw [string2ll_decimal (by omega) (by omega)]
  dsimp only
  rw [if_neg (by omega), if_neg (by omega), if_neg (by omega), if_neg hlong, if_neg hmark, Int.toNat_natCast, htake,
    hdrop]

theorem took_value {fs fs' : List Unfinished} {c : UInt8} {l : Bytes} {out : List redisReply}
    {r : redisReply} (hc : typeOf c = some type) (hdeep : ¬ TooDeep fs type)
    (hitem : item type l = some (.ok (.value r, rest)))
    (h : place fs r = .ok (fs', out)) : Took Resp.step ⟨fs, none⟩ (c :: l) out ⟨fs', none⟩ rest := by
  have hbyte : Resp.step ⟨fs, none⟩ (c :: l) = .took ⟨fs, some type⟩ [] l := by
    rw [Resp.step_none, hc]
    exact if_neg hdeep
  have hvalue : Resp.step ⟨fs, some type⟩ l = .took ⟨fs', none⟩ out rest := by
    rw [Resp.step_some, hitem]
    dsimp only
    rw [enter, h]
    rfl
  exact (Took.single hbyte).trans (Took.single hvalue)

theorem item_line {r : redisReply} (h : ¬ CRLF <:+: s) (hlen : s.length + 2 < 2 ^ 31)
    (hitem : ∀ l, item type l = lineItem (fun line => (lineValue type line).map .value) l)
    (hline : lineValue type s = .ok r) (rest : Bytes) :
    item type (s ++ CRLF ++ rest) = some (.ok (.value r, rest)) := by
  rw [hitem, lineItem, cutLine_crlf h, Option.map_some]
  dsimp only
  rw [if_neg (Nat.not_le.mpr hlen), hline]
  rfl

/-- A number of 64 bits has twenty letters at most. -/
theorem length_decimal_long {n : Int} (hlow : -(2 ^ 63) ≤ n) (hhigh : n < 2 ^ 63) :
    (decimal n).length + 2 < 2 ^ 31 := by
  cases n with
  | ofNat m =>
    change (m : Int) < 2 ^ 63 at hhigh
    have hle : (decimal (m : Int)).length ≤ 20 := length_decimal_le (by decide) (by omega)
    exact Nat.lt_of_le_of_lt (Nat.add_le_add_right hle 2) (by decide)
  | negSucc m =>
    have hle : (decimal ((m + 1 : Nat) : Int)).length ≤ 20 :=
      length_decimal_le (by decide) (by omega)
    have hcons : decimal (Int.negSucc m) = 45 :: decimal ((m + 1 : Nat) : Int) := decimal_negSucc m
    rw [hcons, List.length_cons]
    exact Nat.lt_of_le_of_lt (Nat.add_le_add_right (Nat.succ_le_succ hle) 2) (by decide)

/-- The line that begins an aggregate. -/
theorem item_count (htype : IsAggregate type) {n : Int} (hlow : -(2 ^ 63) ≤ n) (hhigh : n < 2 ^ 63)
    {i : Item} (hcount : countItem type (decimal n) = .ok i) (rest : Bytes) :
    item type (decimal n ++ CRLF ++ rest) = some (.ok (i, rest)) := by
  have hitem : item type (decimal n ++ CRLF ++ rest) =
      lineItem (countItem type) (decimal n ++ CRLF ++ rest) := by
    obtain rfl | rfl | rfl | rfl := htype <;> rfl
  rw [hitem, lineItem, cutLine_decimal, Option.map_some]
  dsimp only
  rw [if_neg (Nat.not_le.mpr (length_decimal_long hlow hhigh)), hcount]

theorem typeOf_mark (htype : IsAggregate type) : typeOf (mark type) = some type := by
  obtain rfl | rfl | rfl | rfl := htype <;> rfl

theorem countItem_decimal {n : Nat} (h : n < 2 ^ 32) : countItem type (decimal n) =
    .ok (.many type (if type = .MAP then 2 * n else n)) := by
  rw [countItem, string2ll_decimal (by omega) (by omega)]
  dsimp only
  rw [if_neg, if_neg (by omega), Int.toNat_natCast]
  rw [REDIS_READER_MAX_ARRAY_ELEMENTS]
  omega

theorem countItem_none : countItem type (decimal (-1)) = .ok (.value .nil) := by
  rw [countItem, string2ll_decimal (by decide) (by decide)]
  rfl

/-- An aggregate may stand in every other. -/
theorem place_aggregate (htype : IsAggregate type) (fs : List Unfinished) (l : List redisReply) :
    place fs (aggregate type l) = finish fs (aggregate type l) := by
  rw [place, if_pos]
  intro f _ _
  obtain rfl | rfl | rfl | rfl := htype <;> exact ⟨nofun, nofun, nofun⟩

/-- The next element of an aggregate, but for the last. -/
theorem place_element {fs : List Unfinished} {total : Nat} {done : List redisReply} {r : redisReply}
    (h : Admits type r) (hmore : done.length + 1 < total) (htotal : total ≤ 2 ^ 31) :
    place (⟨type, total, done⟩ :: fs) r = .ok (⟨type, total, done ++ [r]⟩ :: fs, []) := by
  have hadmit : ∀ f ∈ (⟨type, total, done⟩ :: fs : List Unfinished).head?, Admits f.type r := by
    intro f hf
    cases hf
    exact h
  rw [place, if_pos hadmit, finish]
  dsimp only
  rw [if_neg (by omega), if_neg (by omega)]

theorem place_last {fs : List Unfinished} {total : Nat} {done : List redisReply} {r : redisReply}
    (h : Admits type r) (hlast : done.length + 1 = total) :
    place (⟨type, total, done⟩ :: fs) r = finish fs (aggregate type (done ++ [r])) := by
  rw [place, if_pos, finish, if_pos hlast]
  intro f hf
  cases hf
  exact h

/-- A text behind its length is read as it is, and that of a verbatim string without its first
four bytes. -/
theorem bulkItem_verb {format : Bytes} (hformat : format.length = 3) (hlen : s.length + 6 < 2 ^ 63)
    (rest : Bytes) : bulkItem .VERB (decimal (format ++ 58 :: s).length ++ CRLF ++
      (format ++ 58 :: s ++ CRLF ++ rest)) = some (.ok (.value (.verb s), rest)) := by
  have hbody : (format ++ 58 :: s).length = s.length + 4 := by
    rw [List.length_append, List.length_cons, hformat]
    omega
  have hdrop : (format ++ 58 :: s).drop 4 = s := by
    rw [List.drop_append, List.drop_of_length_le (by omega), hformat]
    rfl
  have hmark : (format ++ 58 :: s)[3]? = some 58 := by
    rw [List.getElem?_append_right (Nat.le_of_eq hformat), hformat]
    rfl
  rw [bulkItem_counted (by omega) (fun _ => ⟨by omega, hmark⟩), if_pos rfl, hdrop]

theorem took_counted {fs fs' : List Unfinished} {c : UInt8} {out : List redisReply} {r : redisReply}
    (htype : type = .STRING ∨ type = .VERB) (hc : typeOf c = some type)
    (hitem : bulkItem type (decimal s.length ++ CRLF ++ (s ++ CRLF ++ rest)) =
      some (.ok (.value r, rest))) (h : place fs r = .ok (fs', out)) :
    Took Resp.step ⟨fs, none⟩ (Wire.counted c s ++ rest) out ⟨fs', none⟩ rest := by
  have htext : Wire.counted c s ++ rest = c :: (decimal s.length ++ CRLF ++ (s ++ CRLF ++ rest)) := by
    simp [Wire.counted, Wire.line]
  have hleaf : ¬ IsAggregate type := by
    obtain rfl | rfl := htype <;> decide
  rw [htext]
  refine took_value hc (fun hdeep => hleaf hdeep.1) ?_ h
  obtain rfl | rfl := htype
  · exact hitem
  · exact hitem

/-- An aggregate is complete at once or entered. -/
theorem took_many {fs fs' : List Unfinished} {n : Nat} {out : List redisReply} (htype : IsAggregate type)
    (hdeep : fs.length + 1 < 2 ^ 31 - 2) (hn : n < 2 ^ 32) (heven : type = .MAP → 2 ∣ n) {l : Bytes}
    (h : n = 0 ∧ l = rest ∧ finish fs (aggregate type []) = .ok (fs', out) ∨
      n ≠ 0 ∧ Took Resp.step ⟨⟨type, n, []⟩ :: fs, none⟩ l out ⟨fs', none⟩ rest) :
    Took Resp.step ⟨fs, none⟩
      (Wire.line (mark type) (decimal (if type = .MAP then n / 2 else n : Nat)) ++ l) out
      ⟨fs', none⟩ rest := by
  have hcount : countItem type (decimal (if type = .MAP then n / 2 else n : Nat)) =
      .ok (.many type n) := by
    rw [countItem_decimal (by split <;> omega)]
    by_cases hmap : type = .MAP
    · rw [if_pos hmap, if_pos hmap, Nat.mul_div_cancel' (heven hmap)]
    · rw [if_neg hmap, if_neg hmap]
  have hsmall : (if type = .MAP then n / 2 else n : Nat) < 2 ^ 63 := by split <;> omega
  generalize hline : (if type = .MAP then n / 2 else n : Nat) = m at hcount hsmall
  have hbyte : Resp.step ⟨fs, none⟩ (Wire.line (mark type) (decimal m) ++ l) =
      .took ⟨fs, some type⟩ [] (decimal m ++ CRLF ++ l) := by
    rw [Wire.line, List.append_assoc, List.cons_append, Resp.step_none, typeOf_mark htype,
      List.append_assoc]
    exact if_neg fun h => absurd h.2 (Nat.not_le.mpr hdeep)
  have hitem : Resp.step ⟨fs, some type⟩ (decimal m ++ CRLF ++ l) =
      Resp.next (enter fs (.many type n)) l := by
    rw [Resp.step_some, item_count htype (by omega) (by omega) hcount]
  rw [enter] at hitem
  refine (Took.single hbyte).trans ?_
  obtain ⟨rfl, rfl, hfinish⟩ | ⟨hne, htook⟩ := h
  · rw [if_pos rfl, hfinish] at hitem
    exact Took.single hitem
  · rw [if_neg hne] at hitem
    exact (Took.single hitem).trans htook

end Lines

namespace Wire

mutual

/-- A value is read from its text, whatever follows. -/
theorem took_wire (w : Wire) (hw : w.Proper) {fs fs' : List Unfinished} {out : List redisReply}
    (hdeep : fs.length + w.nesting < 2 ^ 31 - 2) (h : place fs w.reply = .ok (fs', out))
    (rest : Bytes) : Took Resp.step ⟨fs, none⟩ (w.render ++ rest) out ⟨fs', none⟩ rest := by
  have hleaf : ∀ {type : REDIS_REPLY}, ¬ IsAggregate type → ¬ TooDeep fs type :=
    fun htype hdeep => htype hdeep.1
  cases w with
  | status s =>
    exact took_value rfl (hleaf (by decide)) (item_line hw.1 hw.2 (fun _ => rfl) rfl rest) h
  | error s =>
    exact took_value rfl (hleaf (by decide)) (item_line hw.1 hw.2 (fun _ => rfl) rfl rest) h
  | integer n =>
    have hline : lineValue .INTEGER (decimal n) = .ok (.integer n) := by
      rw [lineValue, string2ll_decimal hw.1 hw.2]
    have hlen := length_decimal_long hw.1 hw.2
    exact took_value rfl (hleaf (by decide))
      (item_line (decimal_no_crlf n) hlen (fun _ => rfl) hline rest) h
  | double s =>
    obtain ⟨hcrlf, hlen, hdouble⟩ := hw
    have hline : lineValue .DOUBLE s = .ok (.double s) := by
      rw [lineValue, if_neg (by omega), if_pos hdouble]
    exact took_value rfl (hleaf (by decide)) (item_line hcrlf (by omega) (fun _ => rfl) hline rest) h
  | null =>
    exact took_value rfl (hleaf (by decide))
      (item_line (by decide) (by decide) (fun _ => rfl) rfl rest) h
  | bool b =>
    cases b with
    | false =>
      exact took_value rfl (hleaf (by decide))
        (item_line (by decide) (by decide) (fun _ => rfl) rfl rest) h
    | true =>
      exact took_value rfl (hleaf (by decide))
        (item_line (by decide) (by decide) (fun _ => rfl) rfl rest) h
  | bulk s =>
    have hverb : REDIS_REPLY.STRING = .VERB → 4 ≤ s.length ∧ s[3]? = some 58 := nofun
    have hitem := bulkItem_counted hw hverb rest
    exact took_counted (Or.inl rfl) rfl hitem h
  | nullBulk =>
    have hitem : item .STRING (decimal (-1) ++ CRLF ++ rest) = some (.ok (.value .nil, rest)) := by
      rw [item, bulkItem, cutLine_decimal, Option.bind_some]
      dsimp only
      rw [string2ll_decimal (by decide) (by decide)]
      rfl
    exact took_value rfl (hleaf (by decide)) hitem h
  | verb format s =>
    obtain ⟨hformat, hlen⟩ := hw
    have hitem := bulkItem_verb hformat hlen rest
    exact took_counted (Or.inr rfl) rfl hitem h
  | nullMany type =>
    have hitem : item type (decimal (-1) ++ CRLF ++ rest) = some (.ok (.value .nil, rest)) :=
      item_count hw (by decide) (by decide) countItem_none rest
    rw [nesting] at hdeep
    exact took_value (typeOf_mark hw) (fun h => absurd h.2 (Nat.not_le.mpr hdeep)) hitem h
  | many type l =>
    obtain ⟨htype, hlen, heven, -, hl⟩ := hw
    rw [nesting] at hdeep
    rw [reply, place_aggregate htype] at h
    rw [render, List.append_assoc]
    refine took_many htype (by omega) (by omega) heven ?_
    cases l with
    | nil => exact .inl ⟨rfl, rfl, h⟩
    | cons w l =>
      exact .inr ⟨Nat.succ_ne_zero _, took_wires (w :: l) hl (List.cons_ne_nil w l)
        (Nat.zero_add _) hlen (by omega) h rest⟩

theorem took_wires (l : List Wire) {type : REDIS_REPLY} (hl : Propers type l) (hne : l ≠ [])
    {fs fs' : List Unfinished} {done out : List redisReply} {total : Nat}
    (htotal : done.length + l.length = total) (hmax : total ≤ 2 ^ 31)
    (hdeep : fs.length + 1 + nestings l < 2 ^ 31 - 2)
    (h : finish fs (aggregate type (done ++ replies l)) = .ok (fs', out)) (rest : Bytes) :
    Took Resp.step ⟨⟨type, total, done⟩ :: fs, none⟩ (renders l ++ rest) out ⟨fs', none⟩ rest := by
  cases l with
  | nil => exact absurd rfl hne
  | cons w l =>
    obtain ⟨hw, hadmit, hl⟩ := hl
    rw [List.length_cons] at htotal
    rw [nestings] at hdeep
    rw [renders, List.append_assoc]
    have hfirst : (⟨type, total, done⟩ :: fs : List Unfinished).length + w.nesting < 2 ^ 31 - 2 := by
      rw [List.length_cons]
      omega
    cases l with
    | nil =>
      exact took_wire w hw hfirst ((place_last hadmit htotal).trans h) rest
    | cons v l =>
      rw [List.length_cons] at htotal
      have hplace : place (⟨type, total, done⟩ :: fs) w.reply =
          .ok (⟨type, total, done ++ [w.reply]⟩ :: fs, []) :=
        place_element hadmit (by omega) hmax
      refine (took_wire w hw hfirst hplace (renders (v :: l) ++ rest)).trans
        (took_wires (v :: l) hl (List.cons_ne_nil v l) ?_ hmax (by omega) ?_ rest)
      · rw [List.length_append, List.length_singleton, List.length_cons]
        omega
      · rw [List.append_assoc]
        exact h

end

theorem nesting_lt {w : Wire} (hw : w.Proper) : w.nesting < 2 ^ 31 - 2 := by
  cases w with
  | many type l => exact hw.2.2.2.1
  | _ => simp [nesting]

/-- A value is a reply of its own. -/
theorem took_reply {w : Wire} (hw : w.Proper) (rest : Bytes) :
    Took Resp.step .start (w.render ++ rest) [w.reply] .start rest := by
  have hplace : place [] w.reply = .ok ([], [w.reply]) := by
    rw [place, if_pos nofun]
    rfl
  have hdeep : ([] : List Unfinished).length + w.nesting < 2 ^ 31 - 2 := by
    rw [List.length_nil, Nat.zero_add]
    exact nesting_lt hw
  exact took_wire w hw hdeep hplace rest

/-- A server's texts are read back one after the other. -/
theorem took_texts {ws : List Wire} (h : ∀ w ∈ ws, w.Proper) (rest : Bytes) :
    Took Resp.step .start (ws.flatMap render ++ rest) (ws.map reply) .start rest := by
  induction ws with
  | nil => exact .nil _ _
  | cons w ws ih =>
    rw [List.forall_mem_cons] at h
    rw [List.flatMap_cons, List.append_assoc]
    exact (took_reply h.1 _).trans (ih h.2)

end Wire

theorem finish_start {fs : List Unfinished} {v : redisReply} {out : List redisReply}
    (h : finish fs v = .ok ([], out)) : out ≠ [] := by
  induction fs generalizing v with
  | nil =>
    cases h
    exact List.cons_ne_nil _ _
  | cons f fs ih =>
    rw [finish] at h
    split at h
    · exact ih h
    · split at h <;> cases h

namespace Resp
variable {s t : Resp} {l r rest : Bytes} {out : List redisReply}

/-- The reader comes to its beginning only with a reply. -/
theorem step_start (h : s.step l = .took .start out r) : out ≠ [] := by
  obtain ⟨_, _, -, -, -, -, ht, -⟩ | ⟨type, i, -, -, henter, -⟩ := step_took h
  · cases congrArg Resp.type ht
  · cases i with
    | value v =>
      rw [enter, place] at henter
      split at henter
      · exact finish_start henter
      · cases henter
    | many type n =>
      rw [enter] at henter
      split at henter
      · exact finish_start henter
      · cases henter

theorem took_start (h : Took step s l out t r) (ht : t = .start) (hout : out = []) :
    s = .start ∧ l = r := by
  induction h with
  | nil => exact ⟨ht, rfl⟩
  | cons hstep _ ih =>
    obtain ⟨rfl, rfl⟩ := List.append_eq_nil_iff.mp hout
    obtain ⟨rfl, -⟩ := ih ht rfl
    exact absurd rfl (step_start hstep)

end Resp

namespace Wire
variable {ws : List Wire} {t : Resp} {m rest : Bytes} {out : List redisReply}

/-- What has been read of a value and of what follows: nothing that counts, or the value first. -/
theorem took_value_first {w : Wire} (hw : w.Proper)
    (h : Took Resp.step .start (w.render ++ rest) out t m) (hout : out ≠ []) :
    ∃ more, out = w.reply :: more ∧ Took Resp.step .start rest more t m := by
  have hw := took_reply hw rest
  obtain ⟨more, rfl, hmore⟩ | ⟨more, hout', hmore⟩ := hw.comparable h
  · exact ⟨more, rfl, hmore⟩
  · cases out with
    | nil => exact absurd rfl hout
    | cons v out =>
      obtain ⟨rfl, hnil⟩ := List.cons.inj hout'
      obtain ⟨rfl, rfl⟩ := List.append_eq_nil_iff.mp hnil.symm
      obtain ⟨rfl, rfl⟩ := Resp.took_start hmore rfl rfl
      exact ⟨[], rfl, .nil _ _⟩

/-- What has been read of the texts of values: some of them wholly, and part of what follows. -/
theorem took_of_texts (hws : ∀ w ∈ ws, w.Proper)
    (h : Took Resp.step .start (ws.flatMap render) out t m) :
    ∃ done todo, ws = done ++ todo ∧ out = done.map reply ∧
      Took Resp.step .start (todo.flatMap render) [] t m := by
  induction ws generalizing out with
  | nil =>
    have hout : out = [] := by
      cases h with
      | nil => rfl
      | cons hstep _ => cases hstep
    subst hout
    exact ⟨[], [], rfl, rfl, h⟩
  | cons w ws ih =>
    rw [List.forall_mem_cons] at hws
    by_cases hout : out = []
    · subst hout
      exact ⟨[], w :: ws, rfl, rfl, h⟩
    · rw [List.flatMap_cons] at h
      obtain ⟨more, rfl, hmore⟩ := took_value_first hws.1 h hout
      obtain ⟨done, todo, rfl, rfl, htodo⟩ := ih hws.2 hmore
      exact ⟨w :: done, todo, rfl, rfl, htodo⟩

/-- What has come of the texts of values: some of them wholly, and a part of the next. -/
theorem prefix_of_texts {l : Bytes} (h : l <+: ws.flatMap render) :
    ∃ done todo part, ws = done ++ todo ∧ l = done.flatMap render ++ part ∧
      (part = [] ∨ ∃ w ∈ todo.head?, part <+: w.render) := by
  induction ws generalizing l with
  | nil => exact ⟨[], [], [], rfl, List.prefix_nil.mp h, .inl rfl⟩
  | cons w ws ih =>
    rw [List.flatMap_cons] at h
    obtain hpre | ⟨l', rfl⟩ := List.prefix_or_prefix_of_prefix h (List.prefix_append _ _)
    · exact ⟨[], w :: ws, l, rfl, rfl, .inr ⟨w, rfl, hpre⟩⟩
    · rw [List.prefix_append_right_inj] at h
      obtain ⟨done, todo, part, rfl, rfl, hpart⟩ := ih h
      exact ⟨w :: done, todo, part, rfl, by rw [List.flatMap_cons, List.append_assoc], hpart⟩

end Wire
end CppPrivate.Hiredis
