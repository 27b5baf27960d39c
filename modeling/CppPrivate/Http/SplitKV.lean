import CppPrivate.Http.StringUtils
import CppPrivate.Lib.Cut
import CppPrivate.Lib.Query
import Mathlib.Data.List.DropRight

/-! `StringUtils::splitKV`: a key and a value are a place and a length that is counted on its own.
-/
namespace CppPrivate.Http.SplitKV
open Url (cStr)

inductive State
  | s_key | s_value
  deriving DecidableEq

/-- An assignment to the map: the places and lengths that it was read from, the place `p` where the
piece ends, and what was read. -/
structure Assignment where
  key : Nat
  key_len : Nat
  value : Nat
  value_len : Nat
  p : Nat
  pair : Bytes × Bytes

structure KV where
  state : State
  p : Nat
  key : Nat
  value : Option Nat
  key_len : Nat
  value_len : Nat
  kvs : List Assignment

/-- `++` of an `int`, which must not overflow. -/
def inc (n : Nat) : Option Nat := if n + 1 < 2 ^ 31 then some (n + 1) else none

/-- `std::string(key, len)`; behind the string there is its terminator and nothing else. -/
def chars (s : Bytes) (key len : Nat) : Option Bytes :=
  if key + len ≤ s.length + 1 then some (((s ++ [0]).drop key).take len) else none

variable (s : Bytes) (kv_kv k_v : UInt8)

/-- `kvs[std::string(key, key_len)] = std::string(value, value_len)`; without a `value` there is
no result. -/
def put (t : KV) : Option KV := do
  let value ← t.value
  let k ← chars s t.key t.key_len
  let v ← chars s value t.value_len
  some { t with kvs := t.kvs ++ [⟨t.key, t.key_len, value, t.value_len, t.p, (k, v)⟩] }

def Full (t : KV) : Prop := t.key_len ≠ 0 ∧ t.value_len ≠ 0

instance (t : KV) : Decidable (Full t) := inferInstanceAs (Decidable (_ ∧ _))

/-- The lengths are set to zero only behind an assignment. -/
def separator (t : KV) : Option KV := do
  let u ← if Full t then (put s t).map fun u => { u with key_len := 0, value_len := 0 } else some t
  some { u with state := .s_key, key := t.p + 1, p := t.p + 1 }

def finish (t : KV) : Option KV :=
  if Full t then put s t else some t

def step (t : KV) (c : UInt8) : Option KV :=
  if c = kv_kv then separator s t
  else if c = k_v then some { t with state := .s_value, value := some (t.p + 1), p := t.p + 1 }
  else
    match t.state with
    | .s_key => (inc t.key_len).map fun n => { t with key_len := n, p := t.p + 1 }
    | .s_value => (inc t.value_len).map fun n => { t with value_len := n, p := t.p + 1 }

def start : KV := ⟨.s_key, 0, 0, none, 0, 0, []⟩

def splitKV (str : Bytes) (kv_kv k_v : UInt8) : Option (List Assignment) :=
  (((cStr str).foldlM (step (cStr str) kv_kv k_v) start).bind (finish (cStr str))).map KV.kvs

/-- Both were read from the piece that begins at `key` and ends at `p`. -/
def Assignment.Inside (e : Assignment) : Prop :=
  e.key + e.key_len ≤ e.p ∧ e.key ≤ e.value ∧ e.value + e.value_len ≤ e.p

/-- What is counted as the key of a piece. -/
def keyPart (k_v : UInt8) (q : Bytes) : Bytes := (cut k_v q).1

/-- What stands behind the first `k_v`. -/
def valuePart (k_v : UInt8) (q : Bytes) : Bytes := (cut k_v q).2.getD []

/-- How many characters are counted as the value. -/
def counted (k_v : UInt8) (q : Bytes) : Nat := (valuePart k_v q).countP (· ≠ k_v)

variable {s kv_kv k_v} {q a b rest : Bytes} {t u : KV} {c : UInt8} {n k v : Nat}

theorem parts_none (h : k_v ∉ q) : keyPart k_v q = q ∧ valuePart k_v q = [] := by
  rw [keyPart, valuePart]
  rw [cut_of_not_mem h]
  exact ⟨rfl, rfl⟩

theorem parts_some (h : k_v ∉ a) :
    keyPart k_v (a ++ k_v :: b) = a ∧ valuePart k_v (a ++ k_v :: b) = b := by
  rw [keyPart, valuePart]
  rw [cut_append h]
  exact ⟨rfl, rfl⟩

theorem counted_none (h : k_v ∉ q) : counted k_v q = 0 := by
  rw [counted, (parts_none h).2]
  rfl

theorem counted_some (h : k_v ∉ a) :
    counted k_v (a ++ k_v :: b) = b.countP (· ≠ k_v) := by
  rw [counted, (parts_some h).2]

/-- One more character is counted for the key, for the value or not at all. -/
theorem counts_concat (k_v : UInt8) (q : Bytes) (c : UInt8) :
    (keyPart k_v (q ++ [c])).length =
        (keyPart k_v q).length + (if c ≠ k_v ∧ k_v ∉ q then 1 else 0) ∧
      counted k_v (q ++ [c]) = counted k_v q + (if c ≠ k_v ∧ k_v ∈ q then 1 else 0) := by
  obtain ⟨h, -⟩ | ⟨a, b, rfl, ha, -⟩ := cut_cases k_v q
  · rw [(parts_none h).1, counted_none h]
    by_cases hc : c = k_v
    · subst hc
      rw [(parts_some h).1, counted_some h]
      simp
    · have hnot : k_v ∉ q ++ [c] := by
        simp only [List.mem_append, List.mem_singleton, not_or]
        exact ⟨h, Ne.symm hc⟩
      rw [(parts_none hnot).1, counted_none hnot]
      simp [h, hc]
  · rw [List.append_assoc, List.cons_append, (parts_some ha).1, (parts_some ha).1, counted_some ha,
      counted_some ha, List.countP_append, List.countP_singleton]
    simp

def scanned (k_v : UInt8) (t : KV) (q : Bytes) : KV where
  state := if k_v ∈ q then .s_value else .s_key
  p := t.p + q.length
  key := t.key
  value := if k_v ∈ q then some (t.p + (q.rdropWhile (· ≠ k_v)).length) else t.value
  key_len := t.key_len + (keyPart k_v q).length
  value_len := t.value_len + counted k_v q
  kvs := t.kvs

theorem value_scanned (h : k_v ∈ q) :
    (scanned k_v t q).value = some (t.p + (q.rdropWhile (· ≠ k_v)).length) := if_pos h

theorem value_scanned_none (h : k_v ∉ q) : (scanned k_v t q).value = t.value := if_neg h

/-- The counts of the piece do not overflow. -/
def Fits (k_v : UInt8) (k v : Nat) (q : Bytes) : Prop :=
  k + (keyPart k_v q).length < 2 ^ 31 ∧ v + counted k_v q < 2 ^ 31

instance : Decidable (Fits k_v k v q) := inferInstanceAs (Decidable (_ ∧ _))

theorem Fits.of_concat (h : Fits k_v k v (q ++ [c])) : Fits k_v k v q := by
  obtain ⟨hkey, hvalue⟩ := counts_concat k_v q c
  unfold Fits at h ⊢
  rw [hkey, hvalue] at h
  omega

structure AtStart (t : KV) (n : Nat) : Prop where
  state : t.state = .s_key
  p : t.p = n
  key : t.key = n
  value : ∀ x ∈ t.value, x < n
  fits : t.key_len < 2 ^ 31 ∧ t.value_len < 2 ^ 31

theorem scanned_mark (k_v : UInt8) (t : KV) (q : Bytes) :
    scanned k_v t (q ++ [k_v]) =
      { scanned k_v t q with
        state := .s_value
        value := some ((scanned k_v t q).p + 1)
        p := (scanned k_v t q).p + 1 } := by
  obtain ⟨hkey, hvalue⟩ := counts_concat k_v q k_v
  simp [scanned, hkey, hvalue, Nat.add_assoc]

theorem scanned_key (t : KV) (hc : c ≠ k_v) (h : k_v ∉ q) :
    scanned k_v t (q ++ [c]) =
      { scanned k_v t q with
        key_len := (scanned k_v t q).key_len + 1, p := (scanned k_v t q).p + 1 } := by
  obtain ⟨hkey, hvalue⟩ := counts_concat k_v q c
  simp [scanned, hkey, hvalue, h, hc, Ne.symm hc, Nat.add_assoc]

theorem scanned_value (t : KV) (hc : c ≠ k_v) (h : k_v ∈ q) :
    scanned k_v t (q ++ [c]) =
      { scanned k_v t q with
        value_len := (scanned k_v t q).value_len + 1, p := (scanned k_v t q).p + 1 } := by
  obtain ⟨hkey, hvalue⟩ := counts_concat k_v q c
  simp [scanned, hkey, hvalue, h, hc, Nat.add_assoc]

theorem step_scanned (hc : c ≠ kv_kv) (hfits : Fits k_v t.key_len t.value_len q) :
    step s kv_kv k_v (scanned k_v t q) c =
      if Fits k_v t.key_len t.value_len (q ++ [c]) then some (scanned k_v t (q ++ [c]))
      else none := by
  obtain ⟨hkey, hvalue⟩ := counts_concat k_v q c
  rw [step, if_neg hc]
  by_cases heq : c = k_v
  · subst heq
    have hnext : Fits c t.key_len t.value_len (q ++ [c]) := by
      unfold Fits at hfits ⊢
      rw [hkey, hvalue]
      simpa using hfits
    rw [if_pos rfl, if_pos hnext, scanned_mark]
  · rw [if_neg heq]
    by_cases hmem : k_v ∈ q
    · have hnext : Fits k_v t.key_len t.value_len (q ++ [c]) ↔
          (scanned k_v t q).value_len + 1 < 2 ^ 31 := by
        unfold Fits at hfits ⊢
        rw [hkey, hvalue, if_neg fun h => h.2 hmem, if_pos ⟨heq, hmem⟩]
        simp only [scanned]
        omega
      have hstate : (scanned k_v t q).state = .s_value := if_pos hmem
      simp only [hstate, inc, hnext, scanned_value t heq hmem]
      split <;> rfl
    · have hnext : Fits k_v t.key_len t.value_len (q ++ [c]) ↔
          (scanned k_v t q).key_len + 1 < 2 ^ 31 := by
        unfold Fits at hfits ⊢
        rw [hkey, hvalue, if_pos ⟨heq, hmem⟩, if_neg fun h => hmem h.2]
        simp only [scanned]
        omega
      have hstate : (scanned k_v t q).state = .s_key := if_neg hmem
      simp only [hstate, inc, hnext, scanned_key t heq hmem]
      split <;> rfl

theorem scan (hq : kv_kv ∉ q) (ht : AtStart t n) :
    q.foldlM (step s kv_kv k_v) t =
      if Fits k_v t.key_len t.value_len q then some (scanned k_v t q) else none := by
  induction q using List.reverseRecOn with
  | nil =>
    have hover : scanned k_v t [] = t := by
      simp [scanned, ← ht.state, keyPart, counted, valuePart, cut]
    rw [hover, if_pos]
    · rfl
    · exact ht.fits
  | append_singleton q c ih =>
    simp only [List.mem_append, List.mem_singleton, not_or] at hq
    rw [List.foldlM_append, ih hq.1]
    split
    · rename_i hfits
      rw [Option.bind_eq_bind, Option.bind_some, List.foldlM_cons,
        step_scanned (Ne.symm hq.2) hfits]
      split <;> rfl
    · rename_i hfits
      rw [if_neg fun h => hfits h.of_concat]
      rfl

structure Assigned (s : Bytes) (t : KV) (e : Assignment) : Prop where
  key : e.key = t.key ∧ e.key_len = t.key_len
  value : t.value = some e.value ∧ e.value_len = t.value_len
  p : e.p = t.p
  pair : chars s t.key t.key_len = some e.pair.1 ∧ chars s e.value t.value_len = some e.pair.2

theorem put_eq_some_iff :
    put s t = some u ↔ ∃ e, Assigned s t e ∧ u = { t with kvs := t.kvs ++ [e] } := by
  simp only [put, Option.bind_eq_bind, Option.bind_eq_some_iff, Option.some.injEq]
  constructor
  · intro h
    obtain ⟨value, hvalue, k, hk, v, hv, rfl⟩ := h
    exact ⟨_, ⟨⟨rfl, rfl⟩, ⟨hvalue, rfl⟩, rfl, hk, hv⟩, rfl⟩
  · intro h
    obtain ⟨e, ⟨⟨hkey, hlen⟩, ⟨hvalue, hlen'⟩, hp, hk, hv⟩, rfl⟩ := h
    refine ⟨e.value, hvalue, _, hk, _, hv, ?_⟩
    rw [← hkey, ← hlen, ← hlen', ← hp]

def next (t : KV) : KV := { t with state := .s_key, key := t.p + 1, p := t.p + 1 }

def behind (t : KV) (e : Assignment) : KV :=
  { t with kvs := t.kvs ++ [e], key_len := 0, value_len := 0 }

theorem separator_full (h : Full t) :
    separator s t = some u ↔ ∃ e, Assigned s t e ∧ u = next (behind t e) := by
  rw [separator, if_pos h, Option.bind_eq_bind]
  simp only [Option.bind_eq_some_iff, Option.map_eq_some_iff, put_eq_some_iff, Option.some.injEq]
  constructor
  · intro h
    obtain ⟨w, ⟨x, ⟨e, he, rfl⟩, rfl⟩, rfl⟩ := h
    exact ⟨e, he, rfl⟩
  · intro h
    obtain ⟨e, he, rfl⟩ := h
    exact ⟨_, ⟨_, ⟨e, he, rfl⟩, rfl⟩, rfl⟩

theorem separator_not_full (h : ¬ Full t) : separator s t = some (next t) := by
  rw [separator, if_neg h]
  rfl

def loop (s : Bytes) (kv_kv k_v : UInt8) (rest : Bytes) (t : KV) : Option KV :=
  (rest.foldlM (step s kv_kv k_v) t).bind (finish s)

theorem loop_last (hq : kv_kv ∉ q) (ht : AtStart t n) :
    loop s kv_kv k_v q t =
      if Fits k_v t.key_len t.value_len q then finish s (scanned k_v t q) else none := by
  rw [loop, scan hq ht]
  split <;> rfl

theorem loop_cons (hq : kv_kv ∉ q) (ht : AtStart t n) :
    loop s kv_kv k_v (q ++ kv_kv :: rest) t =
      if Fits k_v t.key_len t.value_len q then
        (separator s (scanned k_v t q)).bind (loop s kv_kv k_v rest)
      else none := by
  rw [loop, List.foldlM_append, scan hq ht]
  split
  · rw [Option.bind_eq_bind, Option.bind_some, List.foldlM_cons, step, if_pos rfl,
      Option.bind_eq_bind, Option.bind_assoc]
    rfl
  · rfl

theorem atStart_next (ht : AtStart t n) (hp : u.p = (scanned k_v t q).p)
    (hvalue : u.value = (scanned k_v t q).value)
    (hfits : u.key_len < 2 ^ 31 ∧ u.value_len < 2 ^ 31) :
    AtStart (next u) (n + q.length + 1) := by
  have hplace : (next u).p = n + q.length + 1 := by
    rw [next, hp, scanned, ht.p]
  refine ⟨rfl, hplace, hplace, ?_, hfits⟩
  intro x hx
  have hx : (scanned k_v t q).value = some x := hvalue.symm.trans hx
  have hle := (List.rdropWhile_prefix (· ≠ k_v) q).length_le
  by_cases hmem : k_v ∈ q
  · rw [value_scanned hmem, Option.some.injEq, ht.p] at hx
    omega
  · rw [value_scanned_none hmem] at hx
    have hlt := ht.value x hx
    omega

theorem separator_kvs (h : separator s t = some u) : t.kvs ⊆ u.kvs := by
  by_cases hfull : Full t
  · obtain ⟨e, -, rfl⟩ := (separator_full hfull).mp h
    exact List.subset_append_left _ _
  · rw [separator_not_full hfull] at h
    cases h
    exact List.Subset.refl _

theorem finish_kvs (h : finish s t = some u) : t.kvs ⊆ u.kvs := by
  rw [finish] at h
  split at h
  · obtain ⟨e, -, rfl⟩ := put_eq_some_iff.mp h
    exact List.subset_append_left _ _
  · cases h
    exact List.Subset.refl _

theorem step_kvs (h : step s kv_kv k_v t c = some u) : t.kvs ⊆ u.kvs := by
  rw [step] at h
  split at h
  · exact separator_kvs h
  · split at h
    · cases h
      exact List.Subset.refl _
    · cases hstate : t.state with
      | s_key =>
        simp only [hstate, Option.map_eq_some_iff] at h
        obtain ⟨m, -, rfl⟩ := h
        exact List.Subset.refl _
      | s_value =>
        simp only [hstate, Option.map_eq_some_iff] at h
        obtain ⟨m, -, rfl⟩ := h
        exact List.Subset.refl _

/-- No assignment is taken back. -/
theorem loop_kvs (h : loop s kv_kv k_v rest t = some u) : t.kvs ⊆ u.kvs := by
  induction rest generalizing t with
  | nil => exact finish_kvs h
  | cons c rest ih =>
    rw [loop, List.foldlM_cons, Option.bind_eq_bind, Option.bind_assoc] at h
    obtain ⟨w, hw, h⟩ := Option.bind_eq_some_iff.mp h
    exact List.Subset.trans (step_kvs hw) (ih h)

/-- Behind the first `k_v`, no other character stands before a `k_v`. -/
def Clean (k_v : UInt8) (q : Bytes) : Prop := k_v ∉ (valuePart k_v q).dropWhile (· = k_v)

instance (k_v : UInt8) (q : Bytes) : Decidable (Clean k_v q) := inferInstanceAs (Decidable (¬ _))

theorem rtakeWhile_eq (h : k_v ∈ q) :
    q.rtakeWhile (· ≠ k_v) = (valuePart k_v q).rtakeWhile (· ≠ k_v) := by
  obtain ⟨hnot, -⟩ | ⟨a, b, rfl, ha, -⟩ := cut_cases k_v q
  · exact absurd h hnot
  · rw [(parts_some ha).2, rtakeWhile_append_cons]

theorem length_split (q : Bytes) (k_v : UInt8) :
    (q.rdropWhile (· ≠ k_v)).length + (q.rtakeWhile (· ≠ k_v)).length = q.length := by
  rw [← List.length_append, List.rdropWhile_append_rtakeWhile]

/-- What is written in the text can be read from it. -/
theorem chars_eq {pre x : Bytes} (post : Bytes) (hs : s = pre ++ (x ++ post)) :
    chars s pre.length x.length = some x := by
  have hle : pre.length + x.length ≤ s.length + 1 := by
    rw [hs, List.length_append, List.length_append]
    omega
  rw [chars, if_pos hle, hs, List.append_assoc, List.drop_left, List.append_assoc, List.take_left]

variable {pre post : Bytes} {e : Assignment}

/-- A key that is longer than the key of the piece has a `k_v` in it. -/
theorem key_mem (hs : s = pre ++ (q ++ post)) (hq : k_v ∈ q) {x : Bytes}
    (h : chars s pre.length (n + (keyPart k_v q).length) = some x) (hn : n ≠ 0) : k_v ∈ x := by
  obtain ⟨hnot, -⟩ | ⟨a, b, rfl, ha, -⟩ := cut_cases k_v q
  · exact absurd hq hnot
  · obtain ⟨m, rfl⟩ := Nat.exists_eq_succ_of_ne_zero hn
    rw [chars, Option.ite_none_right_eq_some, (parts_some ha).1, hs, List.append_assoc pre,
      List.drop_left, Option.some.injEq] at h
    have hx : x = a ++ k_v :: (b ++ post ++ [0]).take m := by
      rw [← h.2, Nat.add_comm, List.append_assoc, List.append_assoc, List.take_length_add_append]
      simp
    rw [hx]
    exact List.mem_append_right _ List.mem_cons_self

/-- A key without `k_v` and a value inside of the piece leave nothing from the pieces before. -/
theorem clean_of_inside (hs : s = pre ++ (q ++ post)) (ht : AtStart t pre.length)
    (he : Assigned s (scanned k_v t q) e) (hin : e.Inside) (hkey : k_v ∉ e.pair.1) :
    t.key_len = 0 ∧ t.value_len = 0 ∧ Clean k_v q := by
  have hlen := length_split q k_v
  have hp : e.p = pre.length + q.length := by rw [he.p, ← ht.p]; rfl
  have hplace : (scanned k_v t q).key = pre.length := ht.key
  have hcount : e.value_len = t.value_len + counted k_v q := he.value.2
  obtain ⟨-, hbegin, hend⟩ := hin
  have hmem : k_v ∈ q := by
    by_contra hnot
    have hvalue := (value_scanned_none hnot).symm.trans he.value.1
    have hlt := ht.value e.value hvalue
    rw [he.key.1, hplace] at hbegin
    omega
  have hvalue := (value_scanned hmem).symm.trans he.value.1
  rw [Option.some.injEq, ht.p] at hvalue
  have hle : t.value_len + counted k_v q ≤ (q.rtakeWhile (· ≠ k_v)).length := by omega
  rw [rtakeWhile_eq hmem] at hle
  have hge := length_rtakeWhile_le k_v (valuePart k_v q)
  have hzero : t.value_len = 0 := by
    rw [counted] at hle
    omega
  refine ⟨?_, hzero, (countP_le_iff k_v _).mp (by unfold counted at hle; omega)⟩
  by_contra hne
  have hread := he.pair.1
  rw [hplace, show (scanned k_v t q).key_len = t.key_len + (keyPart k_v q).length from rfl] at hread
  exact hkey (key_mem hs hmem hread hne)

/-- What is put into the map for a piece that is read by itself. -/
def recorded (k_v : UInt8) (q : Bytes) : Option (Bytes × Bytes) :=
  if keyPart k_v q ≠ [] ∧ counted k_v q ≠ 0 then
    some (keyPart k_v q, (valuePart k_v q).dropWhile (· = k_v))
  else none

theorem assigned_of_clean (hs : s = pre ++ (q ++ post)) (ht : AtStart t pre.length)
    (hlen : t.key_len = 0 ∧ t.value_len = 0) (hclean : Clean k_v q) (hmem : k_v ∈ q) :
    ∃ e, Assigned s (scanned k_v t q) e ∧ e.Inside ∧
      e.pair = (keyPart k_v q, (valuePart k_v q).dropWhile (· = k_v)) := by
  have hlength := length_split q k_v
  have htail := (rtakeWhile_eq hmem).trans (rtakeWhile_eq_dropWhile hclean)
  have hcount : counted k_v q = (q.rtakeWhile (· ≠ k_v)).length := by
    rw [rtakeWhile_eq hmem]
    exact Nat.le_antisymm ((countP_le_iff k_v _).mpr hclean) (length_rtakeWhile_le k_v _)
  have hkeylen : (scanned k_v t q).key_len = (keyPart k_v q).length := by
    rw [scanned, hlen.1, Nat.zero_add]
  have hvaluelen : (scanned k_v t q).value_len = (q.rtakeWhile (· ≠ k_v)).length := by
    rw [scanned, hlen.2, Nat.zero_add, hcount]
  have hplace : (scanned k_v t q).key = pre.length := ht.key
  have hend : (scanned k_v t q).p = pre.length + q.length := by rw [scanned, ht.p]
  have hpre : (keyPart k_v q).length ≤ q.length := (cut_begins k_v q).length_le
  have hkey : chars s pre.length (keyPart k_v q).length = some (keyPart k_v q) := by
    obtain ⟨r, hr⟩ : keyPart k_v q <+: q := cut_begins k_v q
    refine chars_eq (r ++ post) ?_
    rw [← List.append_assoc (keyPart k_v q), hr, hs]
  have hvalue : chars s (pre.length + (q.rdropWhile (· ≠ k_v)).length)
      (q.rtakeWhile (· ≠ k_v)).length = some (q.rtakeWhile (· ≠ k_v)) := by
    rw [← List.length_append]
    refine chars_eq post ?_
    rw [List.append_assoc, ← List.append_assoc (q.rdropWhile _),
      List.rdropWhile_append_rtakeWhile, hs]
  refine ⟨⟨pre.length, (keyPart k_v q).length, pre.length + (q.rdropWhile (· ≠ k_v)).length,
    (q.rtakeWhile (· ≠ k_v)).length, pre.length + q.length,
    (keyPart k_v q, q.rtakeWhile (· ≠ k_v))⟩, ⟨⟨hplace.symm, hkeylen.symm⟩, ⟨?_, hvaluelen.symm⟩,
    hend.symm, ?_, ?_⟩, ⟨?_, ?_, ?_⟩, ?_⟩
  · rw [value_scanned hmem, ht.p]
  · rw [hplace, hkeylen]
    exact hkey
  · rw [hvaluelen]
    exact hvalue
  · exact Nat.add_le_add_left hpre _
  · exact Nat.le_add_right _ _
  · simp only
    omega
  · rw [htail]

/-- Nothing is left of other pieces where an assignment is made, and no count overflows. -/
def Tidy (k_v : UInt8) : Nat → Nat → List Bytes → Prop
  | _, _, [] => True
  | k, v, q :: l =>
    Fits k_v k v q ∧
      if k + (keyPart k_v q).length ≠ 0 ∧ v + counted k_v q ≠ 0 then
        (k = 0 ∧ v = 0 ∧ Clean k_v q) ∧ Tidy k_v 0 0 l
      else Tidy k_v (k + (keyPart k_v q).length) (v + counted k_v q) l

theorem full_scanned_iff : Full (scanned k_v t q) ↔
    t.key_len + (keyPart k_v q).length ≠ 0 ∧ t.value_len + counted k_v q ≠ 0 := Iff.rfl

theorem recorded_none (h : ¬ Full (scanned k_v t q)) : recorded k_v q = none := by
  refine if_neg fun hrec => h (full_scanned_iff.mpr ?_)
  have hpos := List.length_pos_iff.mpr hrec.1
  omega

theorem recorded_some (hlen : t.key_len = 0 ∧ t.value_len = 0) (h : Full (scanned k_v t q)) :
    k_v ∈ q ∧
      recorded k_v q = some (keyPart k_v q, (valuePart k_v q).dropWhile (· = k_v)) := by
  rw [full_scanned_iff, hlen.1, hlen.2, Nat.zero_add, Nat.zero_add] at h
  refine ⟨?_, if_pos ⟨fun hnil => h.1 (by rw [hnil]; rfl), h.2⟩⟩
  by_contra hnot
  exact h.2 (counted_none hnot)

/-- What the loop does with a text that is read piece by piece. -/
def Reads (s : Bytes) (kv_kv k_v : UInt8) (rest : Bytes) (t : KV) : Prop :=
  ∃ u l, loop s kv_kv k_v rest t = some u ∧ u.kvs = t.kvs ++ l ∧
    l.map Assignment.pair = (rest.splitOn kv_kv).filterMap (recorded k_v) ∧ ∀ e ∈ l, e.Inside

/-- What is left behind a piece and its separator. -/
theorem text_next (hs : s = pre ++ (q ++ c :: rest)) : s = (pre ++ (q ++ [c])) ++ rest ∧
    (pre ++ (q ++ [c])).length = pre.length + q.length + 1 := by
  refine ⟨?_, ?_⟩
  · rw [hs, List.append_assoc, List.append_assoc]
    rfl
  · rw [List.length_append, List.length_append, Nat.add_assoc]
    rfl

theorem reads_of_tidy (hs : s = pre ++ rest) (ht : AtStart t pre.length)
    (h : Tidy k_v t.key_len t.value_len (rest.splitOn kv_kv)) : Reads s kv_kv k_v rest t := by
  induction rest using cut_induction (c := kv_kv) generalizing pre t with
  | last q hq =>
    rw [List.splitOn_eq_singleton hq] at h
    obtain ⟨hfits, h⟩ := h
    have hs' : s = pre ++ (q ++ []) := by rw [hs, List.append_nil]
    rw [Reads]
    rw [loop_last hq ht, if_pos hfits, List.splitOn_eq_singleton hq, finish]
    by_cases hfull : Full (scanned k_v t q)
    · rw [if_pos (full_scanned_iff.mp hfull)] at h
      obtain ⟨⟨hk, hv, hclean⟩, -⟩ := h
      obtain ⟨hmem, hrec⟩ := recorded_some ⟨hk, hv⟩ hfull
      obtain ⟨e, he, hin, hpair⟩ := assigned_of_clean hs' ht ⟨hk, hv⟩ hclean hmem
      refine ⟨_, [e], by rw [if_pos hfull]; exact put_eq_some_iff.mpr ⟨e, he, rfl⟩, rfl, ?_, ?_⟩
      · rw [List.filterMap_cons_some hrec, ← hpair]
        rfl
      · simpa using hin
    · refine ⟨_, [], if_neg hfull, (List.append_nil _).symm, ?_, by simp⟩
      rw [List.filterMap_cons_none (recorded_none hfull)]
      rfl
  | cons q rest hq ih =>
    rw [List.splitOn_append_cons_self_of_not_mem hq] at h
    obtain ⟨hfits, h⟩ := h
    obtain ⟨hs', hlength⟩ := text_next hs
    rw [Reads]
    rw [loop_cons hq ht, if_pos hfits, List.splitOn_append_cons_self_of_not_mem hq]
    by_cases hfull : Full (scanned k_v t q)
    · rw [if_pos (full_scanned_iff.mp hfull)] at h
      obtain ⟨⟨hk, hv, hclean⟩, h⟩ := h
      obtain ⟨hmem, hrec⟩ := recorded_some ⟨hk, hv⟩ hfull
      obtain ⟨e, he, hin, hpair⟩ := assigned_of_clean hs ht ⟨hk, hv⟩ hclean hmem
      have hsep := (separator_full (s := s) hfull).mpr ⟨e, he, rfl⟩
      obtain ⟨u, l, hloop, hkvs, hmap, hall⟩ := ih (t := next (behind (scanned k_v t q) e)) hs'
        (hlength ▸ atStart_next ht rfl rfl
          ⟨Nat.two_pow_pos 31, Nat.two_pow_pos 31⟩) h
      refine ⟨u, e :: l, by rw [hsep]; exact hloop, ?_, ?_, ?_⟩
      · rw [hkvs]
        exact List.append_assoc _ [e] l
      · rw [List.filterMap_cons_some hrec, List.map_cons, hpair, hmap]
      · exact List.forall_mem_cons.mpr ⟨hin, hall⟩
    · rw [if_neg fun hne => hfull (full_scanned_iff.mpr hne)] at h
      obtain ⟨u, l, hloop, hkvs, hmap, hall⟩ := ih (t := next (scanned k_v t q)) hs'
        (hlength ▸ atStart_next ht rfl rfl hfits) h
      refine ⟨u, l, by rw [separator_not_full hfull]; exact hloop, hkvs, ?_, hall⟩
      rw [List.filterMap_cons_none (recorded_none hfull), hmap]

theorem tidy_of_loop (hs : s = pre ++ rest) (ht : AtStart t pre.length)
    (h : loop s kv_kv k_v rest t = some u)
    (hall : ∀ e ∈ u.kvs, e.Inside ∧ k_v ∉ e.pair.1) :
    Tidy k_v t.key_len t.value_len (rest.splitOn kv_kv) := by
  induction rest using cut_induction (c := kv_kv) generalizing pre t with
  | last q hq =>
    rw [loop_last hq ht, Option.ite_none_right_eq_some] at h
    obtain ⟨hfits, h⟩ := h
    rw [List.splitOn_eq_singleton hq]
    refine ⟨hfits, ?_⟩
    split
    · rename_i hfull
      rw [finish, if_pos (full_scanned_iff.mpr hfull)] at h
      obtain ⟨e, he, rfl⟩ := put_eq_some_iff.mp h
      obtain ⟨hin, hkey⟩ := hall e (List.mem_append_right _ List.mem_cons_self)
      have hs' : s = pre ++ (q ++ []) := by rw [hs, List.append_nil]
      exact ⟨clean_of_inside hs' ht he hin hkey, trivial⟩
    · trivial
  | cons q rest hq ih =>
    rw [loop_cons hq ht, Option.ite_none_right_eq_some] at h
    obtain ⟨hfits, h⟩ := h
    obtain ⟨w, hw, h⟩ := Option.bind_eq_some_iff.mp h
    obtain ⟨hs', hlength⟩ := text_next hs
    rw [List.splitOn_append_cons_self_of_not_mem hq]
    refine ⟨hfits, ?_⟩
    split
    · rename_i hfull
      obtain ⟨e, he, rfl⟩ := (separator_full (full_scanned_iff.mpr hfull)).mp hw
      have hmem : e ∈ u.kvs := loop_kvs h (List.mem_append_right _ List.mem_cons_self)
      obtain ⟨hin, hkey⟩ := hall e hmem
      exact ⟨clean_of_inside hs ht he hin hkey, ih hs' (hlength ▸ atStart_next ht rfl rfl
        ⟨Nat.two_pow_pos 31, Nat.two_pow_pos 31⟩) h⟩
    · rename_i hfull
      rw [separator_not_full fun hf => hfull (full_scanned_iff.mp hf)] at hw
      cases hw
      exact ih hs' (hlength ▸ atStart_next ht rfl rfl hfits) h

end CppPrivate.Http.SplitKV
