import CppPrivate.Lib.Run
import CppPrivate.Public.ByteBuffer

/-! What a buffer and its copies hold after any writing calls. The initial capacity is reserved
but not counted as size, so a call that does not enlarge the vector writes behind its elements. -/
namespace CppPrivate.Public
open Run ByteBuffer

inductive Put where
  | PutByte (value : UInt8)
  | PutUint16 (value : UInt16)
  | PutUint32 (value : UInt32)
  | PutUint64 (value : UInt64)
  | PutBytes (buf : Bytes)
  | PutString (value : Bytes)

namespace Put

def apply (b : ByteBuffer) : Put → Option ByteBuffer
  | .PutByte value => b.PutByte value
  | .PutUint16 value => b.PutUint16 value
  | .PutUint32 value => b.PutUint32 value
  | .PutUint64 value => b.PutUint64 value
  | .PutBytes buf => b.PutBytes buf
  | .PutString value => b.PutString value

/-- The bytes a call appends under the byte order of the buffer. -/
def bytes (byteOrder : UInt32) : Put → Bytes
  | .PutByte value => [value]
  | .PutUint16 value => memory 2 (order16 byteOrder value).toNat
  | .PutUint32 value => memory 4 (order32 byteOrder value).toNat
  | .PutUint64 value => memory 8 (order64 byteOrder value).toNat
  | .PutBytes buf => buf
  | .PutString value => value

/-- The length of the first piece the call appends. -/
def first : Put → Nat
  | .PutByte _ => 1
  | .PutUint16 _ => 2
  | .PutUint32 _ => 4
  | .PutUint64 _ => 8
  | .PutBytes buf => min 1 buf.length
  | .PutString value => value.length

end Put

/-- A buffer with the bytes appended to it so far. -/
structure Tracked where
  buffer : ByteBuffer
  appended : Bytes

/-- A buffer and its copies, in the order in which they were made. -/
abbrev Family := List Tracked

inductive Op where
  | put (i : Nat) (p : Put)
  | copy (i : Nat)
  | SetByteOrder (i : Nat) (byteOrder : UInt32)

namespace Family

def new (capacity : Nat) : Family := [⟨.new capacity, []⟩]

def step (s : Family) : Op → Option Family
  | .put i p => s[i]?.bind fun x => (p.apply x.buffer).map fun b =>
    s.set i ⟨b, x.appended ++ p.bytes x.buffer.m_nByteOrder⟩
  | .copy i => s[i]?.map fun x => s ++ [⟨x.buffer.copy, x.appended⟩]
  | .SetByteOrder i byteOrder => s[i]?.map fun x =>
    s.set i ⟨x.buffer.SetByteOrder byteOrder, x.appended⟩

end Family

/-- The first `m_nLimit` bytes of the vector are those appended. -/
def Tracked.Intact (x : Tracked) : Prop :=
  x.buffer.m_nLimit.toNat ≤ x.buffer.m_vecBuffer.size ∧
  x.buffer.m_vecBuffer.store.take x.buffer.m_nLimit.toNat = x.appended.map some

def Family.Intact (s : Family) : Prop := ∀ x ∈ s, x.Intact

/-- The first piece of the call, if there is one, enlarges the vector, and the counters hold the
length of the whole. -/
def Grows (s : Family) : Op → Prop
  | .put i p => ∀ x ∈ s[i]?,
    (p.first = 0 ∨ x.buffer.m_nCapacity.toNat < x.buffer.m_nLimit.toNat + p.first) ∧
    x.buffer.m_nLimit.toNat + (p.bytes x.buffer.m_nByteOrder).length < 2 ^ 32
  | _ => True

instance (s : Family) : (op : Op) → Decidable (Grows s op)
  | .put i p => inferInstanceAs (Decidable (∀ x ∈ s[i]?,
      (p.first = 0 ∨ x.buffer.m_nCapacity.toNat < x.buffer.m_nLimit.toNat + p.first) ∧
      x.buffer.m_nLimit.toNat + (p.bytes x.buffer.m_nByteOrder).length < 2 ^ 32))
  | .copy .. | .SetByteOrder .. => inferInstanceAs (Decidable True)

/-- The vector holds exactly what was appended, and once there is something it is full. -/
structure Full (x : Tracked) : Prop where
  holds : x.buffer.m_vecBuffer.Holds x.appended
  limit : x.buffer.m_nLimit.toNat = x.appended.length
  position : x.buffer.m_nPosition = x.buffer.m_nLimit
  capacity : x.appended ≠ [] → x.buffer.m_nCapacity = x.buffer.m_nLimit

namespace Full
variable {x : Tracked}

theorem new (capacity : Nat) : Full ⟨.new capacity, []⟩ :=
  ⟨Vec.holds_empty.reserve capacity, rfl, rfl, fun h => absurd rfl h⟩

theorem intact (h : Full x) : x.Intact := by
  have hsize := h.holds.size
  refine ⟨Nat.le_of_eq (h.limit.trans hsize.symm), ?_⟩
  rw [h.limit, ← hsize]
  exact h.holds

/-- An append that enlarges the vector adds its bytes to a full buffer and fills it again. -/
theorem append (h : Full x) {src : Bytes} (hne : src ≠ [])
    (hgrow : x.buffer.m_nCapacity.toNat < x.buffer.m_nLimit.toNat + src.length)
    (hlen : x.buffer.m_nLimit.toNat + src.length < 2 ^ 32) :
    ∃ b, x.buffer.append src = some b ∧ Full ⟨b, x.appended ++ src⟩ ∧
      b.m_nCapacity = b.m_nLimit ∧ b.m_nLimit.toNat = x.buffer.m_nLimit.toNat + src.length ∧
      b.m_nByteOrder = x.buffer.m_nByteOrder := by
  obtain ⟨w, hw, hheld⟩ := h.holds.append src 0
  rw [← h.limit] at hw
  have hlen0 : src.length ≠ 0 := fun h0 => hne (List.length_eq_zero_iff.mp h0)
  have hpos : x.buffer.m_nPosition.toNat = x.buffer.m_nLimit.toNat := by rw [h.position]
  have hsum : UInt32.ofNat (x.buffer.m_nLimit.toNat + src.length) =
      x.buffer.m_nLimit + UInt32.ofNat src.length := by
    rw [UInt32.ofNat_add, UInt32.ofNat_toNat]
  have hnat : (x.buffer.m_nLimit + UInt32.ofNat src.length).toNat =
      x.buffer.m_nLimit.toNat + src.length := by
    rw [← hsum, UInt32.toNat_ofNat', Nat.mod_eq_of_lt hlen]
  let b : ByteBuffer :=
    { x.buffer with
      m_nPosition := x.buffer.m_nPosition + UInt32.ofNat src.length
      m_nLimit := x.buffer.m_nLimit + UInt32.ofNat src.length
      m_nCapacity := UInt32.ofNat (x.buffer.m_nLimit.toNat + src.length)
      m_vecBuffer := w }
  refine ⟨b, ?_, ⟨hheld, ?_, ?_, fun _ => hsum⟩, hsum, hnat, rfl⟩
  · simp only [ByteBuffer.append, if_neg hlen0, if_pos hgrow, hpos, hw, Option.map_some, b]
  · rw [List.length_append, ← h.limit]
    exact hnat
  · simp only [h.position, b]

/-- Once full, every further byte enlarges the vector. -/
theorem PutBytes (h : Full x) {buf : Bytes}
    (hgrow : buf = [] ∨ x.buffer.m_nCapacity.toNat < x.buffer.m_nLimit.toNat + 1)
    (hlen : x.buffer.m_nLimit.toNat + buf.length < 2 ^ 32) :
    ∃ b, x.buffer.PutBytes buf = some b ∧ Full ⟨b, x.appended ++ buf⟩ := by
  rw [ByteBuffer.PutBytes]
  induction buf generalizing x with
  | nil => exact ⟨x.buffer, rfl, by simpa using h⟩
  | cons value buf ih =>
    have hgrow := hgrow.resolve_left (List.cons_ne_nil value buf)
    rw [List.length_cons] at hlen
    obtain ⟨b, hb, hfull, hcap, hlim, -⟩ := h.append (List.cons_ne_nil value []) hgrow
      (by rw [List.length_singleton]; omega)
    rw [List.length_singleton] at hlim
    obtain ⟨c, hc, hfull'⟩ := ih hfull
      (Or.inr (show b.m_nCapacity.toNat < b.m_nLimit.toNat + 1 by rw [hcap]; omega))
      (show b.m_nLimit.toNat + buf.length < 2 ^ 32 by omega)
    refine ⟨c, ?_, ?_⟩
    · rw [List.foldlM_cons, hb]
      exact hc
    · simpa using hfull'

/-- An append of nothing changes nothing. -/
theorem append_any (h : Full x) (src : Bytes)
    (hgrow : src.length = 0 ∨ x.buffer.m_nCapacity.toNat < x.buffer.m_nLimit.toNat + src.length)
    (hlen : x.buffer.m_nLimit.toNat + src.length < 2 ^ 32) :
    ∃ b, x.buffer.append src = some b ∧ Full ⟨b, x.appended ++ src⟩ := by
  by_cases hne : src = []
  · subst hne
    exact ⟨x.buffer, rfl, by simpa using h⟩
  · have hgrow := hgrow.resolve_left fun h0 => hne (List.length_eq_zero_iff.mp h0)
    obtain ⟨b, hb, hfull, -⟩ := h.append hne hgrow hlen
    exact ⟨b, hb, hfull⟩

theorem put (h : Full x) {p : Put}
    (hgrow : p.first = 0 ∨ x.buffer.m_nCapacity.toNat < x.buffer.m_nLimit.toNat + p.first)
    (hlen : x.buffer.m_nLimit.toNat + (p.bytes x.buffer.m_nByteOrder).length < 2 ^ 32) :
    ∃ b, p.apply x.buffer = some b ∧ Full ⟨b, x.appended ++ p.bytes x.buffer.m_nByteOrder⟩ := by
  cases p with
  | PutBytes buf =>
    refine h.PutBytes ?_ hlen
    cases buf with
    | nil => exact Or.inl rfl
    | cons value buf =>
      have h1 : (Put.PutBytes (value :: buf)).first = 1 := by
        simp only [Put.first, List.length_cons]
        omega
      rw [h1] at hgrow
      exact Or.inr (hgrow.resolve_left Nat.one_ne_zero)
  | PutByte value => exact h.append_any [value] hgrow hlen
  | PutUint16 value => exact h.append_any (memory 2 _) hgrow hlen
  | PutUint32 value => exact h.append_any (memory 4 _) hgrow hlen
  | PutUint64 value => exact h.append_any (memory 8 _) hgrow hlen
  | PutString value => exact h.append_any value hgrow hlen

theorem copy (h : Full x) : Full ⟨x.buffer.copy, x.appended⟩ :=
  ⟨h.holds.copy, h.limit, h.position, h.capacity⟩

theorem SetByteOrder (h : Full x) (byteOrder : UInt32) :
    Full ⟨x.buffer.SetByteOrder byteOrder, x.appended⟩ :=
  ⟨h.holds, h.limit, h.position, h.capacity⟩

end Full

/-- Without room made for it, an append to a full buffer ends behind the elements. -/
theorem Full.append_lost {x : Tracked} (h : Full x) {src : Bytes} (hne : src ≠ [])
    (hroom : x.buffer.m_nLimit.toNat + src.length ≤ x.buffer.m_nCapacity.toNat) {b : ByteBuffer}
    (hb : x.buffer.append src = some b) : ¬ (⟨b, x.appended ++ src⟩ : Tracked).Intact := by
  have hlen0 : src.length ≠ 0 := fun h0 => hne (List.length_eq_zero_iff.mp h0)
  have hcap := x.buffer.m_nCapacity.toNat_lt
  simp only [ByteBuffer.append, if_neg hlen0, if_neg (Nat.not_lt.mpr hroom)] at hb
  obtain ⟨w, hw, rfl⟩ := Option.map_eq_some_iff.mp hb
  have hsize : w.size = x.buffer.m_vecBuffer.size := by
    rw [Vec.memcpy] at hw
    split at hw
    · cases hw
      rfl
    · cases hw
  have hlimit : (x.buffer.m_nLimit + UInt32.ofNat src.length).toNat =
      x.buffer.m_nLimit.toNat + src.length := by
    rw [UInt32.toNat_add, UInt32.toNat_ofNat']
    omega
  intro hcase
  obtain ⟨hle, -⟩ := hcase
  simp only [hsize, hlimit, h.holds.size, h.limit] at hle
  omega

theorem full_step {s t : Family} {op : Op} (h : ∀ x ∈ s, Full x) (hg : Grows s op)
    (hs : s.step op = some t) : ∀ x ∈ t, Full x := by
  cases op with
  | put i p =>
    obtain ⟨x, hx, hs⟩ := Option.bind_eq_some_iff.mp hs
    obtain ⟨b, hb, rfl⟩ := Option.map_eq_some_iff.mp hs
    obtain ⟨hgrow, hlen⟩ := hg x hx
    obtain ⟨b', hb', hfull⟩ := (h x (List.mem_of_getElem? hx)).put hgrow hlen
    rw [hb] at hb'
    cases hb'
    intro y hy
    cases List.mem_or_eq_of_mem_set hy with
    | inl hy => exact h y hy
    | inr heq =>
      subst heq
      exact hfull
  | copy i =>
    obtain ⟨x, hx, rfl⟩ := Option.map_eq_some_iff.mp hs
    intro y hy
    cases List.mem_append.mp hy with
    | inl hy => exact h y hy
    | inr hy =>
      rw [List.mem_singleton.mp hy]
      exact (h x (List.mem_of_getElem? hx)).copy
  | SetByteOrder i byteOrder =>
    obtain ⟨x, hx, rfl⟩ := Option.map_eq_some_iff.mp hs
    intro y hy
    cases List.mem_or_eq_of_mem_set hy with
    | inl hy => exact h y hy
    | inr heq =>
      subst heq
      exact (h x (List.mem_of_getElem? hx)).SetByteOrder byteOrder

theorem full_runs {capacity : Nat} {ops : List Op} {t : Family}
    (h : Runs Family.step Grows (.new capacity) ops t) : ∀ x ∈ t, Full x := by
  refine h.invariant (fun s => ∀ x ∈ s, Full x) ?_ fun _ _ _ hf hg hs => full_step hf hg hs
  intro x hx
  rw [List.mem_singleton.mp hx]
  exact Full.new capacity

theorem put_isSome {s : Family} {i : Nat} {p : Put} (h : ∀ x ∈ s, Full x) (hi : i < s.length)
    (hg : Grows s (.put i p)) : ∃ t, s.step (.put i p) = some t := by
  have hx : s[i]? = some s[i] := List.getElem?_eq_getElem hi
  obtain ⟨hgrow, hlen⟩ := hg s[i] hx
  obtain ⟨b, hb, -⟩ := (h s[i] (List.getElem_mem hi)).put hgrow hlen
  exact ⟨_, by simp only [Family.step, hx, hb, Option.bind_some, Option.map_some]; rfl⟩

/-- As long as every call enlarges the vector it appends to, the buffer and its copies hold just
what was appended to them, and the next such call has a result. -/
theorem appended_intact {capacity : Nat} {ops : List Op} {t : Family}
    (h : Runs Family.step Grows (.new capacity) ops t) : t.Intact ∧
      ∀ i p, i < t.length → Grows t (.put i p) → ∃ u, t.step (.put i p) = some u :=
  ⟨fun x hx => (full_runs h x hx).intact, fun _ _ hi hg => put_isSome (full_runs h) hi hg⟩

/-- A buffer without initial capacity, copied between the calls. -/
theorem appended_intact_copied : ∃ t, Runs Family.step Grows (.new 0)
    [.put 0 (.PutUint32 5), .copy 0, .put 0 (.PutString (CppPrivate.bytes "ab")),
      .put 1 (.PutBytes [1, 2, 3])] t ∧ t.Intact ∧ ∃ u, t.step (.put 1 (.PutByte 4)) = some u := by
  have h : (exec Family.step Grows (.new 0)
      [.put 0 (.PutUint32 5), .copy 0, .put 0 (.PutString (CppPrivate.bytes "ab")),
        .put 1 (.PutBytes [1, 2, 3])]).map
      (fun t => decide (1 < t.length ∧ Grows t (.put 1 (.PutByte 4)))) = some true := by decide
  obtain ⟨t, ht, hnext⟩ := Option.map_eq_some_iff.mp h
  obtain ⟨hlength, hgrows⟩ := of_decide_eq_true hnext
  obtain ⟨hintact, hput⟩ := appended_intact (runs_of_exec ht)
  exact ⟨t, runs_of_exec ht, hintact, hput 1 (.PutByte 4) hlength hgrows⟩

/-- The byte that fits the initial capacity is missing in the copy, and lost when the next one
enlarges the vector. -/
theorem first_byte_lost : ∃ t, Runs Family.step (fun _ _ => True) (.new 1)
    [.put 0 (.PutByte 7), .copy 0, .put 0 (.PutByte 8)] t ∧ ¬ t.Intact ∧
    t.map (fun x => (x.appended, x.buffer.m_nLimit.toNat, x.buffer.m_vecBuffer.size,
      x.buffer.m_vecBuffer.store)) = [([7, 8], 2, 2, [some 0, some 8]), ([7], 1, 0, [])] := by
  have h : (exec Family.step (fun _ _ => True) (.new 1)
      [.put 0 (.PutByte 7), .copy 0, .put 0 (.PutByte 8)]).map
      (fun t => t.map (fun x => (x.appended, x.buffer.m_nLimit.toNat, x.buffer.m_vecBuffer.size,
        x.buffer.m_vecBuffer.store))) =
        some [([7, 8], 2, 2, [some 0, some 8]), ([7], 1, 0, [])] := by decide
  obtain ⟨t, ht, hcells⟩ := Option.map_eq_some_iff.mp h
  refine ⟨t, runs_of_exec ht, fun hi => ?_, hcells⟩
  have hmem : ([7], 1, 0, []) ∈ t.map (fun x => (x.appended, x.buffer.m_nLimit.toNat,
      x.buffer.m_vecBuffer.size, x.buffer.m_vecBuffer.store)) := by
    rw [hcells]
    simp
  obtain ⟨x, hx, he⟩ := List.mem_map.mp hmem
  simp only [Prod.mk.injEq] at he
  have hle := (hi x hx).1
  omega

end CppPrivate.Public
