import CppPrivate.Public.Numbers
import CppPrivate.Public.Puts

/-! Numbers put into a byte buffer and read back. The 64-bit calls convert with the 32-bit helper,
and the first growth of the vector zeroes what the initial capacity held. -/
namespace CppPrivate.Public
open ByteBuffer

def ByteBuffer.cells (b : ByteBuffer) (pos n : Nat) : List (Option UInt8) :=
  (b.m_vecBuffer.store.drop pos).take n

/-- A number read at the position at which it was put is the same, under both byte orders, and
the bytes of the one are those of the other reversed. -/
structure Field.Agrees (f : Field) : Prop where
  roundTrip : ∀ b b' : ByteBuffer, IsByteOrder b.m_nByteOrder → b.m_nPosition ≤ b.m_nLimit →
    b.m_nLimit.toNat + f.size < 2 ^ 32 → f.put b = some b' →
    ∃ b'', f.getter.get (b'.SetPosition b.m_nPosition) = some (f, b'')
  reversed : ∀ b big little : ByteBuffer, f.put (b.SetByteOrder BYTE_ORDER_BIG_ENDIAN) = some big →
    f.put (b.SetByteOrder BYTE_ORDER_LITTLE_ENDIAN) = some little →
    big.cells b.m_nPosition.toNat f.size = (little.cells b.m_nPosition.toNat f.size).reverse

/-- A field with the byte order that is set before it is put and before it is read. -/
structure Entry where
  byteOrder : UInt32
  isByteOrder : IsByteOrder byteOrder
  field : Field

namespace Entry

def put (b : ByteBuffer) (e : Entry) : Option ByteBuffer := e.field.put (b.SetByteOrder e.byteOrder)

def get (b : ByteBuffer) (e : Entry) : Option (Field × ByteBuffer) :=
  e.field.getter.get (b.SetByteOrder e.byteOrder)

def bytes (e : Entry) : Bytes := e.field.bytes e.byteOrder

def zero (e : Entry) : Entry := { e with field := e.field.zero }

end Entry

def putAll (b : ByteBuffer) (es : List Entry) : Option ByteBuffer := es.foldlM Entry.put b

def getAll (b : ByteBuffer) : List Entry → Option (List Field)
  | [] => some []
  | e :: es => (e.get b).bind fun (f, b) => (getAll b es).map (f :: ·)

/-- The fields are put into a fresh buffer and read from its start. -/
def ReadBack (capacity : Nat) (es : List Entry) : Prop :=
  ∃ b, putAll (.new capacity) es = some b ∧
    getAll (b.SetPosition 0) es = some (es.map Entry.field)

def totalSize (es : List Entry) : Nat := (es.map fun e => e.field.size).sum

/-- The entries that are put while there is still room for them. -/
def fitting (room : Nat) : List Entry → List Entry
  | [] => []
  | e :: es => if e.field.size ≤ room then e :: fitting (room - e.field.size) es else []

/-- What the buffer has after the entries `es` have been put behind `done`. -/
def kept (room : Nat) (done : List Entry) : List Entry → List Entry
  | [] => done
  | e :: es =>
    if e.field.size ≤ room then kept (room - e.field.size) (done ++ [e]) es
    else done.map Entry.zero ++ e :: es

/-- The size the constructor notes. -/
def capacity32 (capacity : Nat) : Nat := (UInt32.ofNat capacity).toNat

theorem Entry.zero_eq_iff {e : Entry} : e.zero = e ↔ e.field.zero = e.field := by
  constructor
  · intro h
    exact congrArg Entry.field h
  · intro h
    simp only [zero, h]

theorem map_zero_eq_iff {done : List Entry} :
    done.map Entry.zero = done ↔ ∀ e ∈ done, e.field.zero = e.field := by
  simp only [← Entry.zero_eq_iff]
  induction done with
  | nil => simp
  | cons e done ih => simp [ih]

theorem totalSize_cons (e : Entry) (es : List Entry) :
    totalSize (e :: es) = e.field.size + totalSize es := by
  simp [totalSize]

theorem kept_eq_iff (room : Nat) (done es : List Entry) : kept room done es = done ++ es ↔
    totalSize es ≤ room ∨ ∀ e ∈ done ++ fitting room es, e.field.zero = e.field := by
  induction es generalizing room done with
  | nil => simp [kept, totalSize]
  | cons e es ih =>
    have htotal := totalSize_cons e es
    by_cases hfit : e.field.size ≤ room
    · rw [kept, if_pos hfit, fitting, if_pos hfit, htotal, List.append_cons done e es,
        List.append_cons done e (fitting _ es), ih]
      have hle : totalSize es ≤ room - e.field.size ↔ e.field.size + totalSize es ≤ room := by
        omega
      rw [hle]
    · have hnot : ¬ totalSize (e :: es) ≤ room := by omega
      rw [kept, if_neg hfit, fitting, if_neg hfit, List.append_nil, List.append_left_inj,
        map_zero_eq_iff]
      simp only [hnot, false_or]

/-- Every append that has a result writes its bytes at the position. -/
theorem ByteBuffer.of_append {b b' : ByteBuffer} {src : Bytes} (hne : src.length ≠ 0)
    (h : b.append src = some b') : b'.m_nPosition = b.m_nPosition + UInt32.ofNat src.length ∧
      b'.m_nLimit = b.m_nLimit + UInt32.ofNat src.length ∧ b'.m_nByteOrder = b.m_nByteOrder ∧
      (b.m_nLimit.toNat + src.length < 2 ^ 32 →
        b.m_nLimit.toNat + src.length ≤ b'.m_nCapacity.toNat) ∧
      b'.cells b.m_nPosition.toNat src.length = src.map some := by
  rw [ByteBuffer.append] at h
  simp only [if_neg hne] at h
  obtain ⟨w, hw, rfl⟩ := Option.map_eq_some_iff.mp h
  have hcells : (w.store.drop b.m_nPosition.toNat).take src.length = src.map some := by
    have hpos : (if b.m_nCapacity.toNat < b.m_nLimit.toNat + src.length then
        { b with
          m_vecBuffer := b.m_vecBuffer.resize (b.m_nLimit.toNat + src.length) 0
          m_nCapacity := UInt32.ofNat (b.m_nLimit.toNat + src.length) }
        else b).m_nPosition = b.m_nPosition := by split <;> rfl
    rw [hpos] at hw
    obtain ⟨-, -, hget⟩ := Vec.of_memcpy hw
    refine List.ext_getElem? fun i => ?_
    rw [List.getElem?_take, List.getElem?_drop, hget, List.getElem?_map]
    by_cases hi : i < src.length
    · rw [if_pos hi, if_pos (by omega), Nat.add_sub_cancel_left]
    · rw [if_neg hi, List.getElem?_eq_none (Nat.le_of_not_lt hi), Option.map_none]
  split
  · refine ⟨rfl, rfl, rfl, fun hlen => ?_, hcells⟩
    simp only
    rw [UInt32.toNat_ofNat', Nat.mod_eq_of_lt hlen]
  · rename_i hroom
    exact ⟨rfl, rfl, rfl, fun _ => Nat.le_of_not_lt hroom, hcells⟩

/-- Cells with known bytes, ahead of the position. -/
theorem ByteBuffer.ahead_of_cells {b : ByteBuffer} {bs : Bytes}
    (h : b.cells b.m_nPosition.toNat bs.length = bs.map some)
    (hlimit : b.m_nPosition.toNat + bs.length ≤ b.m_nLimit.toNat)
    (hcapacity : b.m_nPosition.toNat + bs.length ≤ b.m_nCapacity.toNat) : b.Ahead bs := by
  refine ⟨fun i hi => ?_, hlimit, hcapacity⟩
  have hget : (b.cells b.m_nPosition.toNat bs.length)[i]? = (bs.map some)[i]? := by rw [h]
  rw [cells, List.getElem?_take, if_pos hi, List.getElem?_drop, List.getElem?_map] at hget
  rw [hget, List.getElem?_eq_getElem hi]
  rfl

/-- What is put can be read at once. -/
theorem Field.ahead_of_put {f : Field} {b b' : ByteBuffer} (hpos : b.m_nPosition ≤ b.m_nLimit)
    (hlen : b.m_nLimit.toNat + f.size < 2 ^ 32) (h : f.put b = some b') :
    (b'.SetPosition b.m_nPosition).Ahead (f.bytes b.m_nByteOrder) ∧
      b'.m_nByteOrder = b.m_nByteOrder := by
  have hsize := f.size_pos
  have hpos := UInt32.le_iff_toNat_le.mp hpos
  rw [Field.put_eq] at h
  obtain ⟨-, hlimit, horder, hcapacity, hcells⟩ :=
    of_append (by rw [length_bytes]; omega) h
  rw [length_bytes] at hlimit hcapacity
  have hlimit : b'.m_nLimit.toNat = b.m_nLimit.toNat + f.size := by
    rw [hlimit, sum_toNat, UInt32.toNat_ofNat', Nat.mod_eq_of_lt (by omega : f.size < 2 ^ 32),
      Nat.mod_eq_of_lt hlen]
  have hcapacity := hcapacity hlen
  refine ⟨ahead_of_cells hcells ?_ ?_, horder⟩
  · change b.m_nPosition.toNat + _ ≤ b'.m_nLimit.toNat
    rw [length_bytes]
    omega
  · change b.m_nPosition.toNat + _ ≤ b'.m_nCapacity.toNat
    rw [length_bytes]
    omega

/-- The cells a field is put to. -/
theorem Field.cells_of_put {f : Field} {b b' : ByteBuffer} (h : f.put b = some b') :
    b'.cells b.m_nPosition.toNat f.size = (f.bytes b.m_nByteOrder).map some := by
  have hsize := f.size_pos
  rw [Field.put_eq] at h
  obtain ⟨-, -, -, -, hcells⟩ := of_append (by rw [length_bytes]; omega) h
  rw [length_bytes] at hcells
  exact hcells

/-- An empty buffer takes every field. -/
theorem Field.put_new (f : Field) (byteOrder : UInt32) :
    ∃ b, f.put ((ByteBuffer.new 0).SetByteOrder byteOrder) = some b := by
  have hpos := f.size_pos
  have hle := f.size_le
  have hlen := f.length_bytes byteOrder
  have hne : f.bytes byteOrder ≠ [] := by
    rw [← List.length_pos_iff, hlen]
    exact hpos
  obtain ⟨b, hb, -⟩ := ((Full.new 0).SetByteOrder byteOrder).append hne
    (by change 0 < 0 + _; omega) (by change 0 + _ < _; omega)
  rw [Field.put_eq]
  exact ⟨b, hb⟩

theorem Field.agrees_iff (f : Field) : f.Agrees ↔ f.wide = 0 := by
  constructor
  · intro h
    obtain ⟨big, hbig⟩ := f.put_new BYTE_ORDER_BIG_ENDIAN
    obtain ⟨little, hlittle⟩ := f.put_new BYTE_ORDER_LITTLE_ENDIAN
    have hrev := h.reversed _ big little hbig hlittle
    have hcells := Field.cells_of_put hbig
    have hcells' := Field.cells_of_put hlittle
    simp only [SetByteOrder] at hcells hcells'
    rw [hcells, hcells', ← List.map_reverse] at hrev
    exact f.reverse_iff.mp (List.map_injective_iff.mpr (Option.some_injective _) hrev)
  · intro hwide
    refine ⟨?_, ?_⟩
    · intro b b' horder hpos hlen hput
      obtain ⟨hahead, ho⟩ := Field.ahead_of_put hpos hlen hput
      have ho' : (b'.SetPosition b.m_nPosition).m_nByteOrder = b.m_nByteOrder := ho
      rw [← ho'] at hahead horder
      refine ⟨_, (hahead.get_iff horder).mpr fun _ => ?_⟩
      rw [hwide]
      decide
    · intro b big little hbig hlittle
      have hcells := Field.cells_of_put hbig
      have hcells' := Field.cells_of_put hlittle
      simp only [SetByteOrder] at hcells hcells'
      rw [hcells, hcells', f.reverse_iff.mpr hwide, List.map_reverse]

/-- An append that neither enlarges the vector nor ends behind its storage. -/
theorem ByteBuffer.append_fits {b : ByteBuffer} {src : Bytes} (hne : src.length ≠ 0)
    (hroom : b.m_nLimit.toNat + src.length ≤ b.m_nCapacity.toNat)
    (hstore : b.m_nPosition.toNat + src.length ≤ b.m_vecBuffer.store.length) :
    ∃ w, b.m_vecBuffer.memcpy b.m_nPosition.toNat src = some w ∧
      b.append src = some { b with
        m_vecBuffer := w
        m_nPosition := b.m_nPosition + UInt32.ofNat src.length
        m_nLimit := b.m_nLimit + UInt32.ofNat src.length } := by
  obtain ⟨w, hw⟩ : ∃ w, b.m_vecBuffer.memcpy b.m_nPosition.toNat src = some w :=
    ⟨_, dif_pos hstore⟩
  refine ⟨w, hw, ?_⟩
  simp only [ByteBuffer.append, if_neg hne, if_neg (Nat.not_lt.mpr hroom), hw, Option.map_some]

/-- A buffer in which the bytes lie from its start, and the next goes behind them. -/
structure Holding (b : ByteBuffer) (content : Bytes) : Prop where
  position : b.m_nPosition = b.m_nLimit
  limit : b.m_nLimit.toNat = content.length
  capacity : b.m_nLimit.toNat ≤ b.m_nCapacity.toNat
  cells : b.m_vecBuffer.store.take content.length = content.map some

/-- The vector has storage for `room` bytes, and no element. -/
structure Reserved (b : ByteBuffer) (content : Bytes) (room : Nat) : Prop extends
    Holding b content where
  size : b.m_vecBuffer.size = 0
  free : b.m_nCapacity.toNat = content.length + room
  store : content.length + room ≤ b.m_vecBuffer.store.length

theorem reserved_new (capacity : Nat) : Reserved (.new capacity) [] (capacity32 capacity) where
  position := rfl
  limit := rfl
  capacity := Nat.zero_le _
  cells := rfl
  size := rfl
  free := (Nat.zero_add _).symm
  store := by
    have hle : capacity32 capacity ≤ capacity := by
      rw [capacity32, UInt32.toNat_ofNat']
      exact Nat.mod_le _ _
    have hstore : ((Vec.empty : Vec UInt8).reserve capacity).store.length = capacity := by
      rw [Vec.reserve]
      simp only
      split
      · rename_i h
        exact (Nat.le_zero.mp h).symm
      · simp [Vec.empty]
    change 0 + capacity32 capacity ≤ ((Vec.empty : Vec UInt8).reserve capacity).store.length
    omega

namespace Reserved
variable {b : ByteBuffer} {content src : Bytes} {room : Nat}

/-- An append for which there is room is kept. -/
theorem fits (h : Reserved b content room) (hne : src.length ≠ 0) (hfit : src.length ≤ room) :
    ∃ b', b.append src = some b' ∧ Reserved b' (content ++ src) (room - src.length) := by
  have hstore := h.store
  have hfree := h.free
  have hlimit := h.limit
  have hcap := b.m_nCapacity.toNat_lt
  have hpos : b.m_nPosition.toNat = content.length := by rw [h.position, hlimit]
  obtain ⟨w, hw, hb'⟩ := append_fits hne (b := b) (by omega) (by omega)
  obtain ⟨hsize, hlength, -⟩ := Vec.of_memcpy hw
  have hsum : (b.m_nLimit + UInt32.ofNat src.length).toNat = content.length + src.length := by
    rw [read_toNat (b := { b with m_nPosition := b.m_nLimit }) (by simp only; omega)]
    exact congrArg (· + src.length) hlimit
  refine ⟨_, hb', ⟨⟨?_, ?_, ?_, ?_⟩, ?_, ?_, ?_⟩⟩
  · simp only [h.position]
  · rw [List.length_append]
    exact hsum
  · simp only
    omega
  · exact Vec.take_of_memcpy (hpos ▸ hw) h.cells
  · exact hsize.trans h.size
  · rw [List.length_append]
    simp only
    omega
  · rw [List.length_append]
    simp only
    omega

/-- One for which there is none leaves zeros where the earlier ones were. -/
theorem grows (h : Reserved b content room) (hfit : room < src.length)
    (hlen : content.length + src.length < 2 ^ 32) :
    ∃ b', b.append src = some b' ∧ Full ⟨b', List.replicate content.length 0 ++ src⟩ ∧
      b'.m_nCapacity = b'.m_nLimit := by
  have hne : src.length ≠ 0 := by omega
  have hlimit := h.limit
  have hfree := h.free
  have hpos : b.m_nPosition.toNat = content.length := by rw [h.position, hlimit]
  have hroom : b.m_nCapacity.toNat < content.length + src.length := by omega
  have hempty : b.m_vecBuffer.Holds [] := by
    rw [Vec.Holds]
    rw [h.size, List.take_zero]
    rfl
  obtain ⟨w, hw, hheld⟩ := hempty.append_behind content.length src 0
  rw [List.length_nil, Nat.zero_add] at hw
  rw [List.nil_append] at hheld
  have hsum : UInt32.ofNat (content.length + src.length) = b.m_nLimit + UInt32.ofNat src.length := by
    rw [UInt32.ofNat_add, ← hlimit, UInt32.ofNat_toNat]
  refine ⟨{ b with
    m_vecBuffer := w
    m_nPosition := b.m_nPosition + UInt32.ofNat src.length
    m_nLimit := b.m_nLimit + UInt32.ofNat src.length
    m_nCapacity := UInt32.ofNat (content.length + src.length) }, ?_, ⟨hheld, ?_, ?_, ?_⟩, hsum⟩
  · simp only [ByteBuffer.append, if_neg hne, hlimit, if_pos hroom, hpos, hw,
      Option.map_some]
  · rw [List.length_append, List.length_replicate]
    change (b.m_nLimit + UInt32.ofNat src.length).toNat = _
    rw [← hsum, UInt32.toNat_ofNat', Nat.mod_eq_of_lt hlen]
  · simp only [h.position]
  · exact fun _ => hsum

end Reserved

theorem Full.holding {x : Tracked} (h : Full x) (hcap : x.buffer.m_nCapacity = x.buffer.m_nLimit) :
    Holding x.buffer x.appended where
  position := h.position
  limit := h.limit
  capacity := by rw [hcap]
  cells := by
    rw [← h.holds.size]
    exact h.holds

theorem length_flatMap_bytes (es : List Entry) : (es.flatMap Entry.bytes).length = totalSize es := by
  induction es with
  | nil => rfl
  | cons e es ih =>
    rw [List.flatMap_cons, List.length_append, ih, totalSize_cons]
    exact congrArg (· + totalSize es) (e.field.length_bytes e.byteOrder)

/-- Entries that were zeroed. -/
theorem flatMap_zero (es : List Entry) :
    (es.map Entry.zero).flatMap Entry.bytes = List.replicate (totalSize es) 0 := by
  induction es with
  | nil => rfl
  | cons e es ih =>
    rw [List.map_cons, List.flatMap_cons, ih, totalSize_cons, List.replicate_add]
    exact congrArg (· ++ _) (Field.bytes_zero e.byteOrder e.field)

theorem Entry.put_eq (b : ByteBuffer) (e : Entry) :
    e.put b = (b.SetByteOrder e.byteOrder).append e.bytes := Field.put_eq _ _

@[simp] theorem Entry.length_bytes (e : Entry) : e.bytes.length = e.field.size :=
  Field.length_bytes _ _

/-- To a full buffer every further entry is appended. -/
theorem putAll_full {x : Tracked} {es : List Entry} (h : Full x)
    (hcap : x.buffer.m_nCapacity = x.buffer.m_nLimit)
    (hlen : x.buffer.m_nLimit.toNat + totalSize es < 2 ^ 32) : ∃ b, putAll x.buffer es = some b ∧
      Holding b (x.appended ++ es.flatMap Entry.bytes) := by
  induction es generalizing x with
  | nil => exact ⟨x.buffer, rfl, by simpa using h.holding hcap⟩
  | cons e es ih =>
    have hsize := e.field.size_pos
    rw [totalSize_cons] at hlen
    have hne : e.bytes ≠ [] := by
      rw [← List.length_pos_iff, e.length_bytes]
      exact hsize
    obtain ⟨b, hb, hfull, hcap', hlimit, -⟩ := (h.SetByteOrder e.byteOrder).append hne
      (by
        rw [e.length_bytes]
        change x.buffer.m_nCapacity.toNat < x.buffer.m_nLimit.toNat + _
        rw [hcap]
        omega)
      (by
        rw [e.length_bytes]
        change x.buffer.m_nLimit.toNat + _ < _
        omega)
    rw [e.length_bytes] at hlimit
    change b.m_nLimit.toNat = x.buffer.m_nLimit.toNat + e.field.size at hlimit
    obtain ⟨b', hb', hheld⟩ := ih hfull hcap' (by change b.m_nLimit.toNat + _ < _; omega)
    refine ⟨b', ?_, ?_⟩
    · rw [putAll, List.foldlM_cons, Entry.put_eq, hb]
      exact hb'
    · rw [List.flatMap_cons, ← List.append_assoc]
      exact hheld

theorem Reserved.SetByteOrder {b : ByteBuffer} {content : Bytes} {room : Nat}
    (h : Reserved b content room) (byteOrder : UInt32) :
    Reserved (b.SetByteOrder byteOrder) content room :=
  ⟨⟨h.position, h.limit, h.capacity, h.cells⟩, h.size, h.free, h.store⟩

/-- What a buffer holds after entries were put into it before its first growth and then others. -/
theorem putAll_reserved {b : ByteBuffer} {room : Nat} {done es : List Entry}
    (h : Reserved b (done.flatMap Entry.bytes) room) (hlen : totalSize done + totalSize es < 2 ^ 32) :
    ∃ b', putAll b es = some b' ∧ Holding b' ((kept room done es).flatMap Entry.bytes) := by
  induction es generalizing b room done with
  | nil => exact ⟨b, rfl, h.toHolding⟩
  | cons e es ih =>
    have hsize := e.field.size_pos
    have hdone := length_flatMap_bytes done
    have hbytes := e.length_bytes
    rw [totalSize_cons] at hlen
    by_cases hfit : e.field.size ≤ room
    · obtain ⟨b', hb', hres⟩ := (h.SetByteOrder e.byteOrder).fits (by omega) (hbytes.trans_le hfit)
      have hdone' : done.flatMap Entry.bytes ++ e.bytes = (done ++ [e]).flatMap Entry.bytes := by simp
      have htotal : totalSize (done ++ [e]) = totalSize done + e.field.size := by simp [totalSize]
      rw [hdone', hbytes] at hres
      obtain ⟨b'', hb'', hheld⟩ := ih hres (by omega)
      refine ⟨b'', ?_, ?_⟩
      · rw [putAll, List.foldlM_cons, Entry.put_eq, hb']
        exact hb''
      · rw [kept, if_pos hfit]
        exact hheld
    · obtain ⟨b', hb', hfull, hcap⟩ := (h.SetByteOrder e.byteOrder).grows
        (show room < e.bytes.length by omega) (by omega)
      have hlimit : b'.m_nLimit.toNat = totalSize done + e.field.size := by
        have hl : b'.m_nLimit.toNat = _ := hfull.limit
        rw [hl, List.length_append, List.length_replicate, hdone, hbytes]
      obtain ⟨b'', hb'', hheld⟩ := putAll_full hfull hcap
        (show b'.m_nLimit.toNat + totalSize es < 2 ^ 32 by omega)
      refine ⟨b'', ?_, ?_⟩
      · rw [putAll, List.foldlM_cons, Entry.put_eq, hb']
        exact hb''
      · rw [kept, if_neg hfit, List.flatMap_append, flatMap_zero, List.flatMap_cons,
          ← List.append_assoc, ← hdone]
        exact hheld

theorem ByteBuffer.cells_append {b : ByteBuffer} {pos : Nat} {bs bs' : Bytes}
    (h : b.cells pos (bs ++ bs').length = (bs ++ bs').map some) :
    b.cells pos bs.length = bs.map some ∧ b.cells (pos + bs.length) bs'.length = bs'.map some := by
  unfold cells at h ⊢
  rw [List.length_append, List.take_add, List.map_append, List.drop_drop] at h
  refine List.append_inj h ?_
  have hlen := congrArg List.length h
  simp only [List.length_append, List.length_take, List.length_drop, List.length_map] at hlen ⊢
  omega

/-- Entries that lie ahead, none of them beyond what the 64-bit calls convert. -/
theorem getAll_ahead {b : ByteBuffer} {es : List Entry} (hlow : ∀ e ∈ es, e.field.wide = 0)
    (hcells : b.cells b.m_nPosition.toNat (es.flatMap Entry.bytes).length =
      (es.flatMap Entry.bytes).map some)
    (hlimit : b.m_nPosition.toNat + totalSize es ≤ b.m_nLimit.toNat)
    (hcapacity : b.m_nLimit.toNat ≤ b.m_nCapacity.toNat) :
    getAll b es = some (es.map Entry.field) := by
  induction es generalizing b with
  | nil => rfl
  | cons e es ih =>
    have hl := b.m_nLimit.toNat_lt
    have hle := e.field.size_le
    rw [totalSize_cons] at hlimit
    rw [List.flatMap_cons] at hcells
    obtain ⟨hfront, hback⟩ := cells_append hcells
    have hbytes := e.length_bytes
    have hahead : (b.SetByteOrder e.byteOrder).Ahead e.bytes :=
      ahead_of_cells hfront (by change b.m_nPosition.toNat + _ ≤ b.m_nLimit.toNat; omega)
        (by change b.m_nPosition.toNat + _ ≤ b.m_nCapacity.toNat; omega)
    have hget : e.get b = _ := (hahead.get_iff e.isByteOrder).mpr fun _ => by
      rw [hlow e List.mem_cons_self]
      decide
    have hpos : ((b.SetByteOrder e.byteOrder).advance (UInt32.ofNat e.field.size)).m_nPosition.toNat =
        b.m_nPosition.toNat + e.field.size := read_toNat (b := b) (by omega)
    rw [getAll, hget, Option.bind_some]
    simp only
    rw [ih (b := (b.SetByteOrder e.byteOrder).advance (UInt32.ofNat e.field.size))
      (fun e' he => hlow e' (List.mem_cons_of_mem e he)) ?_ ?_ hcapacity]
    · rfl
    · rw [hpos, ← hbytes]
      exact hback
    · rw [hpos]
      change _ ≤ b.m_nLimit.toNat
      omega

def Entry.sig (e : Entry) : UInt32 × Getter := (e.byteOrder, e.field.getter)

theorem getAll_congr {es ks : List Entry} (h : es.map Entry.sig = ks.map Entry.sig)
    (b : ByteBuffer) : getAll b es = getAll b ks := by
  induction es generalizing b ks with
  | nil =>
    cases ks with
    | nil => rfl
    | cons k ks => cases h
  | cons e es ih =>
    cases ks with
    | nil => cases h
    | cons k ks =>
      simp only [List.map_cons, List.cons.injEq, Entry.sig, Prod.mk.injEq] at h
      obtain ⟨⟨horder, hgetter⟩, htail⟩ := h
      simp only [getAll, Entry.get, horder, hgetter, ih htail]

theorem sig_zero (e : Entry) : e.zero.sig = e.sig := by
  simp only [Entry.sig, Entry.zero, Field.getter_zero]

theorem kept_sig (room : Nat) (done es : List Entry) :
    (kept room done es).map Entry.sig = (done ++ es).map Entry.sig := by
  induction es generalizing room done with
  | nil => simp [kept]
  | cons e es ih =>
    rw [kept]
    split
    · rw [ih, List.append_cons done e es]
    · simp [sig_zero, Function.comp_def]

theorem mem_kept {room : Nat} {done es : List Entry} {k : Entry} (h : k ∈ kept room done es) :
    ∃ e ∈ done ++ es, k = e ∨ k = e.zero := by
  induction es generalizing room done with
  | nil => exact ⟨k, by simpa [kept] using h, Or.inl rfl⟩
  | cons e es ih =>
    rw [kept] at h
    split at h
    · obtain ⟨x, hx, hk⟩ := ih h
      exact ⟨x, by simpa using hx, hk⟩
    · cases List.mem_append.mp h with
      | inl h =>
        obtain ⟨x, hx, rfl⟩ := List.mem_map.mp h
        exact ⟨x, List.mem_append_left _ hx, Or.inr rfl⟩
      | inr h => exact ⟨k, List.mem_append_right _ h, Or.inl rfl⟩

theorem eq_of_sig {es ks : List Entry} (hsig : es.map Entry.sig = ks.map Entry.sig)
    (hfield : es.map Entry.field = ks.map Entry.field) : es = ks := by
  induction es generalizing ks with
  | nil =>
    cases ks with
    | nil => rfl
    | cons k ks => cases hsig
  | cons e es ih =>
    cases ks with
    | nil => cases hsig
    | cons k ks =>
      obtain ⟨byteOrder, _, field⟩ := e
      obtain ⟨byteOrder', _, field'⟩ := k
      simp only [List.map_cons, List.cons.injEq, Entry.sig, Prod.mk.injEq] at hsig hfield
      obtain ⟨⟨rfl, -⟩, hsig⟩ := hsig
      obtain ⟨rfl, hfield⟩ := hfield
      rw [ih hsig hfield]

/-- What is read of fields none of which has a wide value. -/
theorem readBack_iff {capacity : Nat} {es : List Entry} (hlen : totalSize es < 2 ^ 32)
    (hlow : ∀ e ∈ es, e.field.wide = 0) :
    ReadBack capacity es ↔ kept (capacity32 capacity) [] es = es := by
  obtain ⟨b, hb, hheld⟩ := putAll_reserved (reserved_new capacity)
    (show totalSize [] + totalSize es < 2 ^ 32 by simpa [totalSize] using hlen)
  have hkept : ∀ k ∈ kept (capacity32 capacity) [] es, k.field.wide = 0 := by
    intro k hk
    obtain ⟨e, he, hk⟩ := mem_kept hk
    cases hk with
    | inl hk => rw [hk, hlow e he]
    | inr hk => rw [hk, Entry.zero, Field.wide_zero]
  have hread : getAll (b.SetPosition 0) es =
      some ((kept (capacity32 capacity) [] es).map Entry.field) := by
    have hsig : es.map Entry.sig = (kept (capacity32 capacity) [] es).map Entry.sig :=
      (kept_sig _ [] es).symm
    rw [getAll_congr hsig]
    refine getAll_ahead hkept hheld.cells ?_ hheld.capacity
    change 0 + _ ≤ b.m_nLimit.toNat
    rw [hheld.limit, length_flatMap_bytes, Nat.zero_add]
  constructor
  · intro hcase
    obtain ⟨b', hb', hread'⟩ := hcase
    obtain rfl := Option.some.inj (hb.symm.trans hb')
    exact eq_of_sig (kept_sig _ [] es) (Option.some.inj (hread.symm.trans hread'))
  · intro hkept
    rw [hkept] at hread
    exact ⟨b, hb, hread⟩

/-- Numbers are read back, and written the other way round in the other byte order, exactly when
every 64-bit one is zero and no number but zero was put before the first growth of the vector. -/
theorem numbers_agree_iff {capacity : Nat} {es : List Entry} (hlen : totalSize es < 2 ^ 32) :
    ((∀ e ∈ es, e.field.Agrees) ∧ ReadBack capacity es) ↔
      (∀ e ∈ es, e.field.wide = 0) ∧ (totalSize es ≤ capacity32 capacity ∨
        ∀ e ∈ fitting (capacity32 capacity) es, e.field.zero = e.field) := by
  simp only [Field.agrees_iff]
  refine and_congr_right fun hlow => ?_
  exact (readBack_iff hlen hlow).trans (kept_eq_iff (capacity32 capacity) [] es)

/-- Two numbers in a buffer of four bytes: `-2` in big-endian order, then 513. -/
def twoNumbers : List Entry :=
  [⟨BYTE_ORDER_BIG_ENDIAN, by decide, .int16 (-2)⟩, ⟨BYTE_ORDER_LITTLE_ENDIAN, by decide, .uint16 513⟩]

theorem numbers_agree_two : (∀ e ∈ twoNumbers, e.field.Agrees) ∧ ReadBack 4 twoNumbers :=
  (numbers_agree_iff (by decide)).mpr ⟨by decide, by decide⟩

def sevenEight : List Entry :=
  [⟨BYTE_ORDER_LITTLE_ENDIAN, by decide, .uint16 7⟩, ⟨BYTE_ORDER_LITTLE_ENDIAN, by decide, .uint16 8⟩]

/-- `2^32` put in big-endian order is read as zero; and a number that filled the initial capacity
is lost when the next is put. -/
theorem wide_number_lost :
    (((Field.uint64 4294967296).put ((ByteBuffer.new 0).SetByteOrder BYTE_ORDER_BIG_ENDIAN)).bind
      fun b => (b.SetPosition 0).GetUInt64.map Prod.fst) = some 0 ∧
    ¬ (Field.uint64 4294967296).Agrees ∧ ¬ ReadBack 2 sevenEight := by
  refine ⟨by decide, ?_, ?_⟩
  · rw [Field.agrees_iff]
    decide
  · intro h
    have hkept := (readBack_iff (by decide) (by decide)).mp h
    have hzero := (kept_eq_iff (capacity32 2) [] sevenEight).mp hkept
    revert hzero
    decide

end CppPrivate.Public
