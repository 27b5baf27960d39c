import Mathlib.Algebra.Order.BigOperators.Group.List
import Mathlib.Algebra.Order.Group.Nat
import Mathlib.Data.Fin.VecNotation
import Mathlib.Data.Fintype.Basic
import Mathlib.Data.List.FinRange
import CppPrivate.Lib.Bytes

/-! Texts of internet addresses: dotted numbers, and groups of hexadecimal digits of which one
run of zero groups is left out. -/
namespace CppPrivate.Inet

inductive Addr where
  | in4 (a b c d : UInt8)
  | in6 (w : Fin 8 → UInt16)

def Addr.isIn4 : Addr → Bool
  | .in4 .. => true
  | .in6 _ => false

def dotted (a b c d : Nat) : Bytes :=
  decimal a ++ [46] ++ decimal b ++ [46] ++ decimal c ++ [46] ++ decimal d

def lowHex (n : Nat) : UInt8 := (bytes "0123456789abcdef").getD n 0

/-- `%x`. -/
def hexGroup (w : UInt16) : Bytes :=
  (([w.toNat / 4096, w.toNat / 256 % 16, w.toNat / 16 % 16].dropWhile (· = 0)) ++
    [w.toNat % 16]).map lowHex

def zeroRun (w : Fin 8 → UInt16) (i : Fin 8) : Nat :=
  (((List.finRange 8).drop i).takeWhile (w · = 0)).length

/-- Start and length of the first longest run of zero groups, of length zero if no two zero
groups follow each other. -/
def bestRun (w : Fin 8 → UInt16) : Nat × Nat :=
  let best := (List.finRange 8).foldl
    (fun best i => if best.2 < zeroRun w i then (i.val, zeroRun w i) else best) (0, 0)
  if best.2 < 2 then (0, 0) else best

/-- What group `i` adds to the text. The last two groups are written as dotted numbers if
`mixed` is set. -/
def group (w : Fin 8 → UInt16) (base len : Nat) (mixed : Bool) (i : Fin 8) : Bytes :=
  if base ≤ i ∧ i < base + len then (if i = base then [58] else [])
  else if mixed ∧ i = 7 then []
  else (if i = 0 then [] else [58]) ++
    if mixed ∧ i = 6 then
      dotted ((w 6).toNat / 256) ((w 6).toNat % 256) ((w 7).toNat / 256) ((w 7).toNat % 256)
    else hexGroup (w i)

def in6Text (w : Fin 8 → UInt16) (base len : Nat) (mixed : Bool) : Bytes :=
  (List.finRange 8).flatMap (group w base len mixed) ++ if len ≠ 0 ∧ base + len = 8 then [58] else []

/-- An address with a leading run of zeros carries an IPv4 address in its last two groups. -/
def carriesIn4 (w : Fin 8 → UInt16) : Bool :=
  let (base, len) := bestRun w
  base = 0 && (len = 6 || (len = 5 && w 5 = 0xffff))

def inet_ntop : Addr → Bytes
  | .in4 a b c d => dotted a.toNat b.toNat c.toNat d.toNat
  | .in6 w => in6Text w (bestRun w).1 (bestRun w).2 (carriesIn4 w)

example : inet_ntop (.in6 ![0x2001, 0xdb8, 0, 0, 1, 0, 0, 1]) = bytes "2001:db8::1:0:0:1" := by
  decide +kernel

example : inet_ntop (.in6 ![0, 0, 0, 0, 0, 0xffff, 0x0102, 0x0304]) = bytes "::ffff:1.2.3.4" := by
  decide +kernel

theorem mem_dotted {a b c d : Nat} {x : UInt8} (h : x ∈ dotted a b c d) :
    isDigit x = true ∨ x = 45 ∨ x = 46 := by
  simp only [dotted, List.mem_append, List.mem_singleton] at h
  have hdec : ∀ {n : Nat}, x ∈ decimal n → isDigit x = true ∨ x = 45 ∨ x = 46 := fun hm =>
    (mem_decimal hm).imp id Or.inl
  rcases h with (((((h | h) | h) | h) | h) | h) | h
  · exact hdec h
  · exact Or.inr (Or.inr h)
  · exact hdec h
  · exact Or.inr (Or.inr h)
  · exact hdec h
  · exact Or.inr (Or.inr h)
  · exact hdec h

theorem mem_hexGroup {w : UInt16} {x : UInt8} (h : x ∈ hexGroup w) : ∃ n < 16, x = lowHex n := by
  obtain ⟨n, hn, rfl⟩ := List.mem_map.mp h
  have hw := w.toNat_lt
  refine ⟨n, ?_, rfl⟩
  cases List.mem_append.mp hn with
  | inl hn =>
    have hn := (List.dropWhile_sublist _).subset hn
    simp only [List.mem_cons, List.not_mem_nil, or_false] at hn
    omega
  | inr hn =>
    simp only [List.mem_singleton] at hn
    omega

/-- The text of an address has none of the bytes that end the authority of a URL. -/
def Plain (s : Bytes) : Prop := 47 ∉ s ∧ 63 ∉ s ∧ 35 ∉ s

theorem plain_of_mem {s : Bytes}
    (h : ∀ x ∈ s, (isDigit x = true ∨ x = 45 ∨ x = 46) ∨ (∃ n < 16, x = lowHex n) ∨ x = 58) :
    Plain s := by
  have hhex : ∀ n < 16, lowHex n ≠ 47 ∧ lowHex n ≠ 63 ∧ lowHex n ≠ 35 := by decide
  refine ⟨?_, ?_, ?_⟩
  · intro hm
    rcases h _ hm with hd | ⟨n, hn, he⟩ | he
    · revert hd; decide
    · exact (hhex n hn).1 he.symm
    · revert he; decide
  · intro hm
    rcases h _ hm with hd | ⟨n, hn, he⟩ | he
    · revert hd; decide
    · exact (hhex n hn).2.1 he.symm
    · revert he; decide
  · intro hm
    rcases h _ hm with hd | ⟨n, hn, he⟩ | he
    · revert hd; decide
    · exact (hhex n hn).2.2 he.symm
    · revert he; decide

theorem plain_dotted (a b c d : Nat) : Plain (dotted a b c d) :=
  plain_of_mem fun _ hx => Or.inl (mem_dotted hx)

theorem plain_in6Text (w : Fin 8 → UInt16) (base len : Nat) (mixed : Bool) :
    Plain (in6Text w base len mixed) := by
  refine plain_of_mem fun x hx => ?_
  cases List.mem_append.mp hx with
  | inl hx =>
    obtain ⟨i, -, hx⟩ := List.mem_flatMap.mp hx
    rw [group] at hx
    split at hx
    · split at hx
      · exact Or.inr (Or.inr (List.mem_singleton.mp hx))
      · cases hx
    · split at hx
      · cases hx
      · cases List.mem_append.mp hx with
        | inl hx =>
          split at hx
          · cases hx
          · exact Or.inr (Or.inr (List.mem_singleton.mp hx))
        | inr hx =>
          split at hx
          · exact Or.inl (mem_dotted hx)
          · exact Or.inr (Or.inl (mem_hexGroup hx))
  | inr hx =>
    split at hx
    · exact Or.inr (Or.inr (List.mem_singleton.mp hx))
    · cases hx

theorem plain_inet_ntop (a : Addr) : Plain (inet_ntop a) := by
  cases a with
  | in4 a b c d => exact plain_dotted _ _ _ _
  | in6 w => exact plain_in6Text w _ _ _

theorem colon_not_mem_dotted (a b c d : Nat) : 58 ∉ dotted a b c d := by
  intro h
  have := mem_dotted h
  revert this
  decide

def colons (base len : Nat) (mixed : Bool) (i : Fin 8) : Nat :=
  if base ≤ i ∧ i < base + len then (if i = base then 1 else 0)
  else if mixed ∧ i = 7 then 0 else if i = 0 then 0 else 1

theorem colons_le (w : Fin 8 → UInt16) (base len : Nat) (mixed : Bool) (i : Fin 8) :
    colons base len mixed i ≤ (group w base len mixed i).count 58 := by
  rw [colons, group]
  split
  · split
    · exact Nat.le_refl 1
    · exact Nat.zero_le _
  · split
    · exact Nat.zero_le _
    · rw [List.count_append]
      split
      · exact Nat.zero_le _
      · exact Nat.le_add_right 1 _

/-- However the zeros are cut, two colons remain. -/
theorem two_le_colons : ∀ base < 9, ∀ len < 9, ∀ mixed : Bool, base + len ≤ 8 ∧
    (mixed = false ∨ base = 0 ∧ (len = 5 ∨ len = 6)) →
    2 ≤ ((List.finRange 8).map (colons base len mixed)).sum +
      if len ≠ 0 ∧ base + len = 8 then 1 else 0 := by
  decide +kernel

theorem two_le_count {w : Fin 8 → UInt16} {base len : Nat} {mixed : Bool} (hle : base + len ≤ 8)
    (hm : mixed = false ∨ base = 0 ∧ (len = 5 ∨ len = 6)) :
    2 ≤ (in6Text w base len mixed).count 58 := by
  have h := two_le_colons base (by omega) len (by omega) mixed ⟨hle, hm⟩
  rw [in6Text, List.count_append, List.count_flatMap]
  have hsum : ((List.finRange 8).map (colons base len mixed)).sum ≤
      ((List.finRange 8).map (List.count 58 ∘ group w base len mixed)).sum :=
    List.sum_le_sum fun i _ => colons_le w base len mixed i
  split at h
  · rename_i hlen
    rw [if_pos hlen]
    have : ([58] : Bytes).count 58 = 1 := rfl
    omega
  · omega

theorem zeroRun_le (w : Fin 8 → UInt16) (i : Fin 8) : i + zeroRun w i ≤ 8 := by
  have h : zeroRun w i ≤ ((List.finRange 8).drop i).length :=
    (List.takeWhile_sublist _).length_le
  rw [List.length_drop, List.length_finRange] at h
  omega

theorem bestRun_le (w : Fin 8 → UInt16) : (bestRun w).1 + (bestRun w).2 ≤ 8 := by
  have hfold : ∀ (l : List (Fin 8)) (best : Nat × Nat), best.1 + best.2 ≤ 8 →
      (l.foldl (fun best i => if best.2 < zeroRun w i then (i.val, zeroRun w i) else best) best).1 +
      (l.foldl (fun best i => if best.2 < zeroRun w i then (i.val, zeroRun w i) else best) best).2 ≤
        8 := by
    intro l
    induction l with
    | nil => exact fun _ h => h
    | cons i l ih =>
      intro best h
      refine ih _ ?_
      simp only
      split
      · exact zeroRun_le w i
      · exact h
  unfold bestRun
  simp only
  split
  · exact Nat.zero_le 8
  · exact hfold _ (0, 0) (Nat.zero_le 8)

/-- An IPv6 address is written with two colons at least. -/
theorem colons_inet_ntop (w : Fin 8 → UInt16) : 2 ≤ (inet_ntop (.in6 w)).count 58 := by
  refine two_le_count (bestRun_le w) ?_
  cases hm : carriesIn4 w with
  | false => exact Or.inl rfl
  | true =>
    simp only [carriesIn4, Bool.and_eq_true, Bool.or_eq_true, decide_eq_true_eq] at hm
    exact Or.inr ⟨hm.1, hm.2.elim Or.inr fun h => Or.inl h.1⟩

end CppPrivate.Inet
