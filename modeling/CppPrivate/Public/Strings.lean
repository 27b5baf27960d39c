import CppPrivate.Public.ByteOrder
import Mathlib.Data.List.TakeWhile

/-! Strings put into a byte buffer behind their lengths, and read back. The reading call makes its
result from a zero-terminated copy. -/
namespace CppPrivate.Public.Strings
open ByteBuffer

def Resize (b : ByteBuffer) (capacity : Nat) : ByteBuffer :=
  { b with
    m_vecBuffer := b.m_vecBuffer.resize capacity 0
    m_nPosition := 0
    m_nLimit := 0
    m_nCapacity := UInt32.ofNat capacity }

def writeString (b : ByteBuffer) (value : Bytes) : Option ByteBuffer :=
  (b.PutUint32 (UInt32.ofNat value.length)).bind fun b => b.PutString value

def writeStrings (b : ByteBuffer) (values : List Bytes) : Option ByteBuffer :=
  values.foldlM writeString b

def readString (b : ByteBuffer) : Option (Bytes × ByteBuffer) :=
  b.GetUInt32.map fun (len, b) => ((b.GetString len).value, (b.GetString len).buffer)

def readStrings : Nat → ByteBuffer → Option (List Bytes)
  | 0, _ => some []
  | n + 1, b => (readString b).bind fun (value, b) => (readStrings n b).map (value :: ·)

/-- A string behind its length, as the bytes lie in the buffer. -/
def frame (byteOrder : UInt32) (value : Bytes) : Bytes :=
  memory 4 (order32 byteOrder (UInt32.ofNat value.length)).toNat ++ value

def frames (byteOrder : UInt32) (values : List Bytes) : Bytes := values.flatMap (frame byteOrder)

/-- The bytes lie from the start of the vector up to the position, and there is room for more
without enlarging it. -/
structure Room (b : ByteBuffer) (content : Bytes) (room : Nat) : Prop where
  position : b.m_nPosition.toNat = content.length
  limit : content.length ≤ b.m_nLimit.toNat
  capacity : b.m_nLimit.toNat + room ≤ b.m_nCapacity.toNat
  store : content.length + room ≤ b.m_vecBuffer.store.length
  cells : b.m_vecBuffer.store.take content.length = content.map some

section Writing
variable {b : ByteBuffer} {content src value : Bytes} {values : List Bytes} {room n : Nat}

theorem length_frame (byteOrder : UInt32) (value : Bytes) :
    (frame byteOrder value).length = 4 + value.length := by
  simp [frame]

/-- Storage that `Resize` makes is room. -/
theorem room_resize (b : ByteBuffer) (h : n < 2 ^ 32) : Room (Resize b n) [] n where
  position := rfl
  limit := Nat.zero_le _
  capacity := by
    change 0 + n ≤ (UInt32.ofNat n).toNat
    rw [UInt32.toNat_ofNat', Nat.mod_eq_of_lt h]
    omega
  store := by
    change 0 + n ≤ _
    rw [Nat.zero_add]
    exact (b.m_vecBuffer.resize n 0).le
  cells := rfl

theorem Room.append (h : Room b content room) (hfit : src.length ≤ room) :
    ∃ b', b.append src = some b' ∧ Room b' (content ++ src) (room - src.length) ∧
      b'.m_nByteOrder = b.m_nByteOrder := by
  have hposition := h.position
  have hlimit := h.limit
  have hcapacity := h.capacity
  have hstore := h.store
  have hcap := b.m_nCapacity.toNat_lt
  by_cases hne : src.length = 0
  · obtain rfl := List.length_eq_zero_iff.mp hne
    exact ⟨b, rfl, by simpa using h, rfl⟩
  · obtain ⟨w, hw, hb'⟩ := append_fits hne (b := b) (by omega) (by omega)
    obtain ⟨-, hlength, -⟩ := Vec.of_memcpy hw
    have hpos : (b.m_nPosition + UInt32.ofNat src.length).toNat = b.m_nPosition.toNat + src.length :=
      read_toNat (by omega)
    have hlim : (b.m_nLimit + UInt32.ofNat src.length).toNat = b.m_nLimit.toNat + src.length :=
      read_toNat (b := { b with m_nPosition := b.m_nLimit }) (by simp only; omega)
    refine ⟨_, hb', ⟨?_, ?_, ?_, ?_, ?_⟩, rfl⟩
    · rw [List.length_append, hpos, hposition]
    · rw [List.length_append, hlim]
      omega
    · rw [hlim]
      simp only
      omega
    · rw [List.length_append, hlength]
      omega
    · exact Vec.take_of_memcpy (hposition ▸ hw) h.cells

theorem Room.writeString (h : Room b content room)
    (hfit : (frame b.m_nByteOrder value).length ≤ room) :
    ∃ b', Strings.writeString b value = some b' ∧
      Room b' (content ++ frame b.m_nByteOrder value)
        (room - (frame b.m_nByteOrder value).length) ∧ b'.m_nByteOrder = b.m_nByteOrder := by
  have hlen := length_memory 4 (order32 b.m_nByteOrder (UInt32.ofNat value.length)).toNat
  rw [length_frame] at hfit
  obtain ⟨b1, hb1, hroom1, horder1⟩ := h.append (hlen.trans_le (by omega))
  have hrest : value.length ≤ room - (memory 4
      (order32 b.m_nByteOrder (UInt32.ofNat value.length)).toNat).length := by
    rw [hlen]
    omega
  obtain ⟨b2, hb2, hroom2, horder2⟩ := hroom1.append hrest
  have hput : b.PutUint32 (UInt32.ofNat value.length) = some b1 := hb1
  refine ⟨b2, ?_, ?_, horder2.trans horder1⟩
  · rw [Strings.writeString, hput]
    exact hb2
  · rw [length_frame]
    rw [List.append_assoc, hlen, Nat.sub_sub] at hroom2
    exact hroom2

theorem Room.writeStrings (h : Room b content room)
    (hfit : (frames b.m_nByteOrder values).length ≤ room) :
    ∃ b', Strings.writeStrings b values = some b' ∧
      Room b' (content ++ frames b.m_nByteOrder values)
        (room - (frames b.m_nByteOrder values).length) ∧ b'.m_nByteOrder = b.m_nByteOrder := by
  induction values generalizing b content room with
  | nil => exact ⟨b, rfl, by simpa [frames] using h, rfl⟩
  | cons value values ih =>
    have hframes : frames b.m_nByteOrder (value :: values) =
        frame b.m_nByteOrder value ++ frames b.m_nByteOrder values := List.flatMap_cons
    rw [hframes, List.length_append] at hfit
    have hfirst : (frame b.m_nByteOrder value).length ≤ room := by omega
    obtain ⟨b1, hb1, hroom1, horder1⟩ := h.writeString hfirst
    obtain ⟨b2, hb2, hroom2, horder2⟩ := ih hroom1 (by rw [horder1]; omega)
    rw [horder1] at hroom2 horder2
    refine ⟨b2, ?_, ?_, horder2⟩
    · rw [Strings.writeStrings, List.foldlM_cons, hb1]
      exact hb2
    · rw [hframes, List.length_append, ← List.append_assoc, ← Nat.sub_sub]
      exact hroom2

end Writing

section Reading
variable {b : ByteBuffer} {bs value : Bytes} {values : List Bytes}

/-- What ends at its first zero byte. -/
def cut (value : Bytes) : Bytes := value.takeWhile (· ≠ 0)

theorem cut_eq_iff : cut value = value ↔ 0 ∉ value := by
  rw [cut, List.takeWhile_eq_self_iff]
  constructor
  · intro h hmem
    exact absurd (h 0 hmem) (by decide)
  · intro h a ha
    exact decide_eq_true fun h0 => h (h0 ▸ ha)

theorem GetString_ahead (h : b.Ahead bs) {len : UInt32} (hlen : len.toNat = bs.length) :
    (b.GetString len).value = cut bs ∧ (b.GetString len).buffer = b.advance len := by
  have hl := b.m_nLimit.toNat_lt
  have hle := h.limit
  have hread : (List.range len.toNat).map (fun j =>
      ((b.m_vecBuffer.store[(b.m_nPosition + UInt32.ofNat j).toNat]?).join).getD 0) = bs := by
    rw [hlen]
    refine List.ext_getElem? fun i => ?_
    rw [List.getElem?_map]
    by_cases hi : i < bs.length
    · rw [List.getElem?_range hi, Option.map_some, read_toNat (by omega), h.cells i hi,
        List.getElem?_eq_getElem hi]
      rfl
    · rw [List.getElem?_eq_none (by rw [List.length_range]; omega),
        List.getElem?_eq_none (by omega)]
      rfl
  rw [ByteBuffer.GetString, if_neg (h.unchecked hlen), readLoop_eq]
  simp only [List.map_map, Function.comp_def]
  rw [hread, UInt32.ofNat_toNat]
  exact ⟨rfl, rfl⟩

theorem readString_ahead (horder : IsByteOrder b.m_nByteOrder)
    (h : b.Ahead (frame b.m_nByteOrder value)) :
    readString b = some (cut value, b.advance (UInt32.ofNat (frame b.m_nByteOrder value).length)) := by
  have hlimit := h.limit
  have hcapacity := h.capacity
  have hl := b.m_nLimit.toNat_lt
  have hlen4 := length_memory 4 (order32 b.m_nByteOrder (UInt32.ofNat value.length)).toNat
  rw [length_frame] at hlimit hcapacity
  have hhead : b.Ahead (memory 4 (order32 b.m_nByteOrder (UInt32.ofNat value.length)).toNat) := by
    refine ⟨fun i hi => ?_, by omega, by omega⟩
    rw [h.cells i (by rw [length_frame]; omega), frame, List.getElem?_append_left hi]
  have hpos : (b.m_nPosition + 4).toNat = b.m_nPosition.toNat + 4 :=
    read_toNat (j := 4) (by omega)
  have hbody : (b.advance 4).Ahead value := by
    refine ⟨fun i hi => ?_, ?_, ?_⟩
    · have hcell := h.cells (4 + i) (by rw [length_frame]; omega)
      rw [frame, List.getElem?_append_right (by omega), hlen4, Nat.add_sub_cancel_left] at hcell
      rw [advance, hpos, Nat.add_assoc]
      exact hcell
    · rw [advance, hpos]
      simp only
      omega
    · rw [advance, hpos]
      simp only
      omega
  have hlen : (UInt32.ofNat value.length).toNat = value.length := by
    rw [UInt32.toNat_ofNat', Nat.mod_eq_of_lt (by omega)]
  obtain ⟨hvalue, hbuffer⟩ := GetString_ahead hbody hlen
  rw [readString, hhead.GetUInt32 horder, order32_order32]
  simp only [Option.map_some, hvalue, hbuffer, Option.some.injEq, Prod.mk.injEq, true_and]
  rw [length_frame, UInt32.ofNat_add]
  simp only [advance, UInt32.add_assoc]
  rfl

theorem readStrings_ahead (horder : IsByteOrder b.m_nByteOrder)
    (h : b.Ahead (frames b.m_nByteOrder values)) :
    readStrings values.length b = some (values.map cut) := by
  induction values generalizing b with
  | nil => rfl
  | cons value values ih =>
    have hframes : frames b.m_nByteOrder (value :: values) =
        frame b.m_nByteOrder value ++ frames b.m_nByteOrder values := List.flatMap_cons
    have hlimit := h.limit
    have hcapacity := h.capacity
    have hl := b.m_nLimit.toNat_lt
    rw [hframes] at h hlimit hcapacity
    rw [List.length_append] at hlimit hcapacity
    have hfirst : b.Ahead (frame b.m_nByteOrder value) := by
      refine ⟨fun i hi => ?_, by omega, by omega⟩
      rw [h.cells i (by rw [List.length_append]; omega), List.getElem?_append_left hi]
    have hpos : (b.m_nPosition + UInt32.ofNat (frame b.m_nByteOrder value).length).toNat =
        b.m_nPosition.toNat + (frame b.m_nByteOrder value).length := read_toNat (by omega)
    have hrest : (b.advance (UInt32.ofNat (frame b.m_nByteOrder value).length)).Ahead
        (frames b.m_nByteOrder values) := by
      refine ⟨fun i hi => ?_, ?_, ?_⟩
      · have hcell := h.cells ((frame b.m_nByteOrder value).length + i)
          (by rw [List.length_append]; omega)
        rw [List.getElem?_append_right (by omega), Nat.add_sub_cancel_left] at hcell
        rw [advance, hpos, Nat.add_assoc]
        exact hcell
      · rw [advance, hpos]
        simp only
        omega
      · rw [advance, hpos]
        simp only
        omega
    rw [List.length_cons, readStrings, readString_ahead horder hfirst, Option.bind_some]
    simp only
    rw [ih (b := b.advance (UInt32.ofNat (frame b.m_nByteOrder value).length)) horder hrest]
    rfl

/-- Strings with room for them come back, each cut at its first zero byte. -/
theorem Room.readStrings (horder : IsByteOrder b.m_nByteOrder)
    (h : Room b [] (frames b.m_nByteOrder values).length) :
    ∃ b', Strings.writeStrings b values = some b' ∧
      Strings.readStrings values.length (b'.SetPosition 0) = some (values.map cut) := by
  obtain ⟨b', hb', hroom, horder'⟩ := h.writeStrings (Nat.le_refl _)
  rw [List.nil_append] at hroom
  have hlimit := hroom.limit
  have hcapacity := hroom.capacity
  have hahead : (b'.SetPosition 0).Ahead (frames (b'.SetPosition 0).m_nByteOrder values) := by
    have hbytes : (b'.SetPosition 0).m_nByteOrder = b.m_nByteOrder := horder'
    rw [hbytes]
    refine ahead_of_cells hroom.cells ?_ ?_
    · change 0 + _ ≤ b'.m_nLimit.toNat
      omega
    · change 0 + _ ≤ b'.m_nCapacity.toNat
      omega
  exact ⟨b', hb', readStrings_ahead (b := b'.SetPosition 0) (horder' ▸ horder) hahead⟩

theorem map_cut_eq_iff : values.map cut = values ↔ ∀ value ∈ values, 0 ∉ value := by
  simp only [← cut_eq_iff]
  conv_lhs => rw [← List.map_id values, List.map_map, List.map_inj_left]
  rfl

/-- They come back as they were exactly if none of them has a zero byte. -/
theorem strings_roundtrip_iff (horder : IsByteOrder b.m_nByteOrder)
    (h : Room b [] (frames b.m_nByteOrder values).length) :
    ∃ b', writeStrings b values = some b' ∧
      (readStrings values.length (b'.SetPosition 0) = some values ↔
        ∀ value ∈ values, 0 ∉ value) := by
  obtain ⟨b', hb', hread⟩ := h.readStrings horder
  refine ⟨b', hb', ?_⟩
  rw [hread, Option.some.injEq, map_cut_eq_iff]

theorem strings_roundtrip_two : ∃ b', writeStrings (Resize (.new 0) 10) [[], [97, 98]] = some b' ∧
    readStrings 2 (b'.SetPosition 0) = some [[], [97, 98]] := by
  have hroom : Room (Resize (.new 0) 10) []
      (frames (Resize (.new 0) 10).m_nByteOrder [[], [97, 98]]).length := room_resize _ (by decide)
  obtain ⟨b', hb', hiff⟩ := strings_roundtrip_iff (by decide) hroom
  exact ⟨b', hb', hiff.mpr (by simp)⟩

/-- The string is cut at its zero byte. -/
theorem not_strings_roundtrip : ¬ ∀ (b b' : ByteBuffer) (values : List Bytes),
    IsByteOrder b.m_nByteOrder → Room b [] (frames b.m_nByteOrder values).length →
    writeStrings b values = some b' →
    readStrings values.length (b'.SetPosition 0) = some values := by
  intro h
  have horder : IsByteOrder (Resize (.new 0) 7).m_nByteOrder := by decide
  have hroom : Room (Resize (.new 0) 7) [] (frames (Resize (.new 0) 7).m_nByteOrder
    [[97, 0, 98]]).length := room_resize _ (by decide)
  obtain ⟨b', hb', hread⟩ := hroom.readStrings horder
  rw [h _ _ _ horder hroom hb'] at hread
  exact absurd (Option.some.inj hread) (by decide)

end Reading

end CppPrivate.Public.Strings
