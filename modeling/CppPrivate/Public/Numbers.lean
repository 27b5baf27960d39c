import CppPrivate.Public.Gets
import Mathlib.Data.Nat.Digits.Defs

/-! The numbers of a byte buffer: the reading calls of each width, and the bytes a number is
written as under each byte order. -/
namespace CppPrivate.Public
open ByteBuffer

/-- The integer whose bytes lie in memory. -/
def ofMemory (bs : Bytes) : Nat := Nat.ofDigits 256 (bs.map UInt8.toNat)

namespace ByteBuffer

def SetPosition (b : ByteBuffer) (position : UInt32) : ByteBuffer :=
  { b with m_nPosition := position }

/-- `buf[i] = m_vecBuffer[m_nPosition++]`; no result where a byte that is read has no value. -/
def fetch (b : ByteBuffer) (len : UInt32) : Option (Bytes × ByteBuffer) :=
  let r := b.readLoop 0 len.toNat
  (r.2.mapM Access.value).map fun buf => (buf, r.1)

/-- `read<T>()` with its assertion. -/
def read (b : ByteBuffer) (len : UInt32) : Option (Nat × ByteBuffer) :=
  if b.m_nPosition.toNat + len.toNat ≤ b.m_nCapacity.toNat then
    ((List.range len.toNat).mapM fun i =>
      (b.m_vecBuffer.store[b.m_nPosition.toNat + i]?).join).map fun bs =>
        (ofMemory bs, { b with m_nPosition := b.m_nPosition + len })
  else none

/-- `(buf[i] & 0xff) << shift` -/
def shifted (buf : Bytes) (i : Nat) (shift : UInt32) : UInt32 :=
  ((buf[i]?).getD 0).toUInt32 <<< shift

def GetUInt32 (b : ByteBuffer) : Option (UInt32 × ByteBuffer) :=
  let len : UInt32 := 4
  if b.m_nPosition + len > b.m_nLimit then some (0, b)
  else (b.fetch len).map fun (buf, b) =>
    if b.m_nByteOrder = BYTE_ORDER_LITTLE_ENDIAN then
      (shifted buf 3 24 ||| shifted buf 2 16 ||| shifted buf 1 8 ||| shifted buf 0 0, b)
    else (shifted buf 0 24 ||| shifted buf 1 16 ||| shifted buf 2 8 ||| shifted buf 3 0, b)

def GetUint16 (b : ByteBuffer) : Option (UInt16 × ByteBuffer) :=
  let len : UInt32 := 2
  if b.m_nPosition + len > b.m_nLimit then some (0, b)
  else (b.fetch len).map fun (buf, b) =>
    if b.m_nByteOrder = BYTE_ORDER_LITTLE_ENDIAN then
      ((shifted buf 1 8 ||| shifted buf 0 0).toUInt16, b)
    else ((shifted buf 0 8 ||| shifted buf 1 0).toUInt16, b)

def GetInt16 (b : ByteBuffer) : Option (Int16 × ByteBuffer) :=
  let len : UInt32 := 2
  if b.m_nPosition + len > b.m_nLimit then some (0, b)
  else (b.read len).map fun (value, b) =>
    let value := (UInt16.ofNat value).toInt16
    (if b.m_nByteOrder = BYTE_ORDER_BIG_ENDIAN then (htons value.toUInt16).toInt16 else value, b)

def GetInt32 (b : ByteBuffer) : Option (Int32 × ByteBuffer) :=
  let len : UInt32 := 4
  if b.m_nPosition + len > b.m_nLimit then some (0, b)
  else (b.read len).map fun (value, b) =>
    let value := (UInt32.ofNat value).toInt32
    (if b.m_nByteOrder = BYTE_ORDER_BIG_ENDIAN then (htonl value.toUInt32).toInt32 else value, b)

/-- As in `PutUint64`, the conversion is that of 32 bits. -/
def GetInt64 (b : ByteBuffer) : Option (Int64 × ByteBuffer) :=
  let len : UInt32 := 8
  if b.m_nPosition + len > b.m_nLimit then some (0, b)
  else (b.read len).map fun (value, b) =>
    let value := (UInt64.ofNat value).toInt64
    (if b.m_nByteOrder = BYTE_ORDER_BIG_ENDIAN then
      (htonl value.toUInt64.toUInt32).toUInt64.toInt64 else value, b)

def GetUInt64 (b : ByteBuffer) : Option (UInt64 × ByteBuffer) :=
  let len : UInt32 := 8
  if b.m_nPosition + len > b.m_nLimit then some (0, b)
  else (b.read len).map fun (value, b) =>
    let value := UInt64.ofNat value
    (if b.m_nByteOrder = BYTE_ORDER_BIG_ENDIAN then (htonl value.toUInt32).toUInt64 else value, b)

end ByteBuffer

/-- A number with the getter that is to read it. -/
inductive Field where
  | uint16 (value : UInt16)
  | int16 (value : Int16)
  | uint32 (value : UInt32)
  | int32 (value : Int32)
  | uint64 (value : UInt64)
  | int64 (value : Int64)
  deriving DecidableEq

inductive Getter where
  | GetUint16 | GetInt16 | GetUInt32 | GetInt32 | GetUInt64 | GetInt64

def Getter.get (b : ByteBuffer) : Getter → Option (Field × ByteBuffer)
  | .GetUint16 => b.GetUint16.map fun (v, b) => (.uint16 v, b)
  | .GetInt16 => b.GetInt16.map fun (v, b) => (.int16 v, b)
  | .GetUInt32 => b.GetUInt32.map fun (v, b) => (.uint32 v, b)
  | .GetInt32 => b.GetInt32.map fun (v, b) => (.int32 v, b)
  | .GetUInt64 => b.GetUInt64.map fun (v, b) => (.uint64 v, b)
  | .GetInt64 => b.GetInt64.map fun (v, b) => (.int64 v, b)

namespace Field

def getter : Field → Getter
  | .uint16 _ => .GetUint16
  | .int16 _ => .GetInt16
  | .uint32 _ => .GetUInt32
  | .int32 _ => .GetInt32
  | .uint64 _ => .GetUInt64
  | .int64 _ => .GetInt64

/-- A signed value is converted to the parameter of the call. -/
def put (b : ByteBuffer) : Field → Option ByteBuffer
  | .uint16 value => b.PutUint16 value
  | .int16 value => b.PutUint16 value.toUInt16
  | .uint32 value => b.PutUint32 value
  | .int32 value => b.PutUint32 value.toUInt32
  | .uint64 value => b.PutUint64 value
  | .int64 value => b.PutUint64 value.toUInt64

end Field
theorem memory_succ (n value : Nat) :
    memory (n + 1) value = UInt8.ofNat value :: memory n (value / 256) := by
  rw [memory]
  rw [List.range_succ_eq_map, List.map_cons, List.map_map, Nat.pow_zero, Nat.div_one]
  refine congrArg (List.cons _) (List.map_congr_left fun i _ => ?_)
  rw [Function.comp_apply, Nat.div_div_eq_div_mul, Nat.pow_succ']

@[simp] theorem length_memory (n value : Nat) : (memory n value).length = n := by simp [memory]

theorem ofMemory_memory (n value : Nat) : ofMemory (memory n value) = value % 256 ^ n := by
  induction n generalizing value with
  | zero => simp [memory, ofMemory, Nat.mod_one]
  | succ n ih =>
    have hbyte : (UInt8.ofNat value).toNat = value % 256 := UInt8.toNat_ofNat'
    unfold ofMemory at ih
    rw [memory_succ, ofMemory, List.map_cons, Nat.ofDigits_cons, ih, hbyte, Nat.pow_succ',
      Nat.mod_mul]

/-- A byte under a mask. -/
theorem and_mask (x k : Nat) : x &&& 255 * 2 ^ k = x / 2 ^ k % 256 * 2 ^ k := by
  refine Nat.eq_of_testBit_eq fun i => ?_
  rw [Nat.testBit_and, ← Nat.shiftLeft_eq, ← Nat.shiftLeft_eq, Nat.testBit_shiftLeft,
    Nat.testBit_shiftLeft, show 255 = 2 ^ 8 - 1 from rfl, show 256 = 2 ^ 8 from rfl,
    Nat.testBit_two_pow_sub_one, Nat.testBit_mod_two_pow, Nat.testBit_div_two_pow]
  by_cases hi : k ≤ i
  · rw [Nat.sub_add_cancel hi]
    cases x.testBit i <;> simp
  · simp [hi]

theorem or_eq_add {a b : Nat} (k : Nat) (hb : b < 2 ^ k) : a * 2 ^ k ||| b = a * 2 ^ k + b := by
  rw [Nat.mul_comm, Nat.two_pow_add_eq_or_of_lt hb]

def word (a b c d : Nat) : Nat := a * 2 ^ 24 + b * 2 ^ 16 + c * 2 ^ 8 + d

theorem exists_word {n : Nat} (h : n < 2 ^ 32) :
    ∃ a b c d, a < 256 ∧ b < 256 ∧ c < 256 ∧ d < 256 ∧ n = word a b c d := by
  refine ⟨n / 2 ^ 24, n / 2 ^ 16 % 256, n / 2 ^ 8 % 256, n % 256, ?_⟩
  rw [word]
  omega

section
variable {a b c d : Nat} (ha : a < 256) (hb : b < 256) (hc : c < 256) (hd : d < 256)
include hb hc hd

/-- Bytes that are shifted to their places and joined. -/
theorem or_eq_word : a * 2 ^ 24 ||| b * 2 ^ 16 ||| c * 2 ^ 8 ||| d = word a b c d := by
  have h1 : a * 2 ^ 24 ||| b * 2 ^ 16 = (a * 2 ^ 8 + b) * 2 ^ 16 := by
    rw [or_eq_add 24 (by omega)]
    omega
  have h2 : (a * 2 ^ 8 + b) * 2 ^ 16 ||| c * 2 ^ 8 = (a * 2 ^ 16 + b * 2 ^ 8 + c) * 2 ^ 8 := by
    clear h1
    rw [or_eq_add 16 (by omega)]
    omega
  rw [h1, h2, or_eq_add 8 hd]
  clear h1 h2
  rw [word]
  omega

include ha

theorem htonl_word {v : UInt32} (hv : v.toNat = word a b c d) :
    (htonl v).toNat = word d c b a := by
  rw [word] at hv
  have h1 : v.toNat <<< 24 % 2 ^ 32 = d * 2 ^ 24 := by
    rw [Nat.shiftLeft_eq]
    omega
  have h2 : v.toNat <<< 8 % 2 ^ 32 &&& 0xff0000 = c * 2 ^ 16 := by
    rw [show 0xff0000 = 255 * 2 ^ 16 from rfl, and_mask, Nat.shiftLeft_eq]
    omega
  have h3 : v.toNat >>> 8 &&& 0xff00 = b * 2 ^ 8 := by
    rw [show 0xff00 = 255 * 2 ^ 8 from rfl, and_mask, Nat.shiftRight_eq_div_pow]
    omega
  have h4 : v.toNat >>> 24 = a := by
    rw [Nat.shiftRight_eq_div_pow]
    omega
  change v.toNat <<< 24 % 2 ^ 32 ||| v.toNat <<< 8 % 2 ^ 32 &&& 0xff0000 |||
    v.toNat >>> 8 &&& 0xff00 ||| v.toNat >>> 24 = _
  rw [h1, h2, h3, h4]
  exact or_eq_word hc hb ha

theorem memory_word : memory 4 (word a b c d) =
    [UInt8.ofNat d, UInt8.ofNat c, UInt8.ofNat b, UInt8.ofNat a] := by
  have hbyte {m n : Nat} (h : m % 256 = n) : UInt8.ofNat m = UInt8.ofNat n := by
    refine UInt8.toNat_inj.mp ?_
    change m % 256 = n % 256
    omega
  rw [memory, word]
  simp only [List.range_succ, List.range_zero, List.map_cons, List.map_nil, List.nil_append,
    List.cons_append, List.cons.injEq, and_true]
  exact ⟨hbyte (by omega), hbyte (by omega), hbyte (by omega), hbyte (by omega)⟩

end

theorem htons_toNat (v : UInt16) : (htons v).toNat = v.toNat % 256 * 2 ^ 8 + v.toNat / 2 ^ 8 := by
  have hv := v.toNat_lt
  have h1 : v.toNat <<< 8 % 2 ^ 16 = v.toNat % 256 * 2 ^ 8 := by
    rw [Nat.shiftLeft_eq]
    omega
  change v.toNat <<< 8 % 2 ^ 16 ||| v.toNat >>> 8 = _
  rw [h1, Nat.shiftRight_eq_div_pow, or_eq_add 8 (by omega)]

/-- Either conversion undoes itself. -/
theorem htons_htons (v : UInt16) : htons (htons v) = v := by
  have hv := v.toNat_lt
  refine UInt16.toNat_inj.mp ?_
  rw [htons_toNat, htons_toNat]
  omega

theorem htonl_htonl (v : UInt32) : htonl (htonl v) = v := by
  obtain ⟨a, b, c, d, ha, hb, hc, hd, hv⟩ := exists_word v.toNat_lt
  refine UInt32.toNat_inj.mp ?_
  rw [htonl_word hd hc hb ha (htonl_word ha hb hc hd hv), hv]

/-- Converted, the bytes of a number lie the other way round. -/
theorem memory_htonl (v : UInt32) : memory 4 (htonl v).toNat = (memory 4 v.toNat).reverse := by
  obtain ⟨a, b, c, d, ha, hb, hc, hd, hv⟩ := exists_word v.toNat_lt
  rw [htonl_word ha hb hc hd hv, hv, memory_word hd hc hb ha, memory_word ha hb hc hd]
  rfl

theorem order16_order16 (byteOrder : UInt32) (v : UInt16) :
    order16 byteOrder (order16 byteOrder v) = v := by
  unfold order16
  split
  · exact htons_htons v
  · rfl

theorem order32_order32 (byteOrder : UInt32) (v : UInt32) :
    order32 byteOrder (order32 byteOrder v) = v := by
  unfold order32
  split
  · exact htonl_htonl v
  · rfl

theorem getD_memory_word {a b c d : Nat} (ha : a < 256) (hb : b < 256) (hc : c < 256) (hd : d < 256) :
    (((memory 4 (word a b c d))[0]?).getD 0).toNat = d ∧
    (((memory 4 (word a b c d))[1]?).getD 0).toNat = c ∧
    (((memory 4 (word a b c d))[2]?).getD 0).toNat = b ∧
    (((memory 4 (word a b c d))[3]?).getD 0).toNat = a := by
  rw [memory_word ha hb hc hd]
  refine ⟨?_, ?_, ?_, ?_⟩
  · exact Nat.mod_eq_of_lt hd
  · exact Nat.mod_eq_of_lt hc
  · exact Nat.mod_eq_of_lt hb
  · exact Nat.mod_eq_of_lt ha

/-- A byte moved to its place. -/
theorem shifted_toNat {buf : Bytes} {i : Nat} {n : Nat} (h : ((buf[i]?).getD 0).toNat = n) :
    (shifted buf i 24).toNat = n * 2 ^ 24 ∧ (shifted buf i 16).toNat = n * 2 ^ 16 ∧
    (shifted buf i 8).toNat = n * 2 ^ 8 ∧ (shifted buf i 0).toNat = n := by
  have hn : n < 256 := by
    rw [← h]
    exact ((buf[i]?).getD 0).toNat_lt
  have hs (k : UInt32) (hk : k.toNat < 32) (hlt : n * 2 ^ k.toNat < 2 ^ 32) :
      (shifted buf i k).toNat = n * 2 ^ k.toNat := by
    rw [shifted]
    rw [UInt32.toNat_shiftLeft, UInt8.toNat_toUInt32, h, Nat.mod_eq_of_lt hk, Nat.shiftLeft_eq,
      Nat.mod_eq_of_lt hlt]
  refine ⟨?_, ?_, ?_, ?_⟩
  · exact hs 24 (by decide) (by change n * 2 ^ 24 < 2 ^ 32; omega)
  · exact hs 16 (by decide) (by change n * 2 ^ 16 < 2 ^ 32; omega)
  · exact hs 8 (by decide) (by change n * 2 ^ 8 < 2 ^ 32; omega)
  · rw [hs 0 (by decide) (by change n * 2 ^ 0 < 2 ^ 32; omega)]
    exact Nat.mul_one n

/-- Reassembled from the last byte down, a number in memory is itself; from the first byte up it
is converted. -/
theorem joined_memory (v : UInt32) :
    shifted (memory 4 v.toNat) 3 24 ||| shifted (memory 4 v.toNat) 2 16 |||
      shifted (memory 4 v.toNat) 1 8 ||| shifted (memory 4 v.toNat) 0 0 = v ∧
    shifted (memory 4 v.toNat) 0 24 ||| shifted (memory 4 v.toNat) 1 16 |||
      shifted (memory 4 v.toNat) 2 8 ||| shifted (memory 4 v.toNat) 3 0 = htonl v := by
  obtain ⟨a, b, c, d, ha, hb, hc, hd, hv⟩ := exists_word v.toNat_lt
  obtain ⟨h0, h1, h2, h3⟩ := getD_memory_word ha hb hc hd
  rw [hv]
  refine ⟨UInt32.toNat_inj.mp ?_, UInt32.toNat_inj.mp ?_⟩
  · rw [UInt32.toNat_or, UInt32.toNat_or, UInt32.toNat_or, (shifted_toNat h3).1,
      (shifted_toNat h2).2.1, (shifted_toNat h1).2.2.1, (shifted_toNat h0).2.2.2, hv]
    exact or_eq_word hb hc hd
  · rw [UInt32.toNat_or, UInt32.toNat_or, UInt32.toNat_or, (shifted_toNat h0).1,
      (shifted_toNat h1).2.1, (shifted_toNat h2).2.2.1, (shifted_toNat h3).2.2.2,
      htonl_word ha hb hc hd hv]
    exact or_eq_word hc hb ha

theorem getD_memory_two {n : Nat} (h : n < 2 ^ 16) :
    (((memory 2 n)[0]?).getD 0).toNat = n % 2 ^ 8 ∧
      (((memory 2 n)[1]?).getD 0).toNat = n / 2 ^ 8 := by
  refine ⟨?_, ?_⟩
  · change n / 1 % 256 = n % 2 ^ 8
    omega
  · change n / 256 % 256 = n / 2 ^ 8
    omega

theorem joined_memory16 (v : UInt16) :
    (shifted (memory 2 v.toNat) 1 8 ||| shifted (memory 2 v.toNat) 0 0).toUInt16 = v ∧
    (shifted (memory 2 v.toNat) 0 8 ||| shifted (memory 2 v.toNat) 1 0).toUInt16 = htons v := by
  have hv := v.toNat_lt
  obtain ⟨h0, h1⟩ := getD_memory_two hv
  refine ⟨UInt16.toNat_inj.mp ?_, UInt16.toNat_inj.mp ?_⟩
  · rw [UInt32.toNat_toUInt16, UInt32.toNat_or, (shifted_toNat h1).2.2.1, (shifted_toNat h0).2.2.2,
      or_eq_add 8 (by omega)]
    omega
  · rw [UInt32.toNat_toUInt16, UInt32.toNat_or, (shifted_toNat h0).2.2.1, (shifted_toNat h1).2.2.2,
      or_eq_add 8 (by omega), htons_toNat]
    omega

theorem memory_htons (v : UInt16) : memory 2 (htons v).toNat = (memory 2 v.toNat).reverse := by
  have hv := v.toNat_lt
  have hhigh : v.toNat / 2 ^ 8 < 256 := by omega
  have hbyte {m n : Nat} (h : m % 256 = n) (hn : n < 256) : UInt8.ofNat m = UInt8.ofNat n := by
    refine UInt8.toNat_inj.mp ?_
    change m % 256 = n % 256
    omega
  have hlow : UInt8.ofNat ((v.toNat % 256 * 2 ^ 8 + v.toNat / 2 ^ 8) / 256) = UInt8.ofNat v.toNat := by
    have hdiv : (v.toNat % 256 * 2 ^ 8 + v.toNat / 2 ^ 8) / 256 = v.toNat % 256 := by
      generalize v.toNat % 256 = low
      omega
    refine UInt8.toNat_inj.mp ?_
    change _ / 256 % 256 = v.toNat % 256
    rw [hdiv, Nat.mod_mod]
  have hswap : UInt8.ofNat (v.toNat % 256 * 2 ^ 8 + v.toNat / 2 ^ 8) = UInt8.ofNat (v.toNat / 256) :=
    hbyte (by omega) hhigh
  rw [htons_toNat]
  unfold memory
  simp only [List.range_succ, List.range_zero, List.map_cons, List.map_nil, List.nil_append,
    List.cons_append, List.reverse_cons, List.reverse_nil, Nat.pow_zero, Nat.pow_one, Nat.div_one,
    hlow, hswap]

/-- Either of the two byte orders; with any other number the calls do not agree. -/
def IsByteOrder (byteOrder : UInt32) : Prop :=
  byteOrder = BYTE_ORDER_BIG_ENDIAN ∨ byteOrder = BYTE_ORDER_LITTLE_ENDIAN

instance (byteOrder : UInt32) : Decidable (IsByteOrder byteOrder) :=
  inferInstanceAs (Decidable (_ ∨ _))

theorem mapM_range {α : Type} {f : Nat → Option α} {l : List α} (h : ∀ i < l.length, f i = l[i]?) :
    (List.range l.length).mapM f = some l := by
  induction l generalizing f with
  | nil => rfl
  | cons a l ih =>
    have h0 : f 0 = some a := h 0 (Nat.zero_lt_succ _)
    have htail := ih (f := f ∘ Nat.succ) fun i hi => h (i + 1) (Nat.succ_lt_succ hi)
    rw [List.length_cons, List.range_succ_eq_map, List.mapM_cons, h0, List.mapM_map, htail]
    rfl

namespace ByteBuffer
variable {b : ByteBuffer} {bs : Bytes}

/-- The bytes ahead of the position, with the counters that admit reading them. -/
structure Ahead (b : ByteBuffer) (bs : Bytes) : Prop where
  cells : ∀ i < bs.length, (b.m_vecBuffer.store[b.m_nPosition.toNat + i]?).join = bs[i]?
  limit : b.m_nPosition.toNat + bs.length ≤ b.m_nLimit.toNat
  capacity : b.m_nPosition.toNat + bs.length ≤ b.m_nCapacity.toNat

def advance (b : ByteBuffer) (len : UInt32) : ByteBuffer :=
  { b with m_nPosition := b.m_nPosition + len }

theorem Ahead.unchecked (h : b.Ahead bs) {len : UInt32} (hlen : len.toNat = bs.length) :
    ¬ b.m_nPosition + len > b.m_nLimit := by
  have hl := b.m_nLimit.toNat_lt
  have hle := h.limit
  rw [check_iff (by omega)]
  omega

theorem Ahead.fetch (h : b.Ahead bs) {len : UInt32} (hlen : len.toNat = bs.length) :
    b.fetch len = some (bs, b.advance len) := by
  have hl := b.m_nLimit.toNat_lt
  have hle := h.limit
  have hread : (List.range len.toNat).mapM (fun i =>
      (b.m_vecBuffer.store[(b.m_nPosition + UInt32.ofNat i).toNat]?).join) = some bs := by
    rw [hlen]
    refine mapM_range fun i hi => ?_
    rw [read_toNat (by omega)]
    exact h.cells i hi
  rw [ByteBuffer.fetch]
  rw [readLoop_eq]
  simp only [List.mapM_map, Function.comp_def]
  rw [hread, UInt32.ofNat_toNat]
  rfl

theorem Ahead.read (h : b.Ahead bs) {len : UInt32} (hlen : len.toNat = bs.length) :
    b.read len = some (ofMemory bs, b.advance len) := by
  have hle := h.capacity
  rw [ByteBuffer.read]
  rw [if_pos (by omega), hlen, mapM_range h.cells]
  rfl

/-- The bytes ahead are those of a number: what each getter makes of them. -/
theorem Ahead.GetUint16 {v : UInt16} (h : b.Ahead (memory 2 v.toNat))
    (horder : IsByteOrder b.m_nByteOrder) :
    b.GetUint16 = some (order16 b.m_nByteOrder v, b.advance 2) := by
  have hlen : (2 : UInt32).toNat = (memory 2 v.toNat).length := (length_memory 2 _).symm
  rw [ByteBuffer.GetUint16]
  simp only
  rw [if_neg (h.unchecked hlen), h.fetch hlen]
  obtain ⟨hlittle, hbig⟩ := joined_memory16 v
  simp only [Option.map_some, hlittle, hbig, order16, advance]
  cases horder with
  | inl ho => simp [ho, BYTE_ORDER_BIG_ENDIAN, BYTE_ORDER_LITTLE_ENDIAN]
  | inr ho => simp [ho, BYTE_ORDER_BIG_ENDIAN, BYTE_ORDER_LITTLE_ENDIAN]

theorem Ahead.GetUInt32 {v : UInt32} (h : b.Ahead (memory 4 v.toNat))
    (horder : IsByteOrder b.m_nByteOrder) :
    b.GetUInt32 = some (order32 b.m_nByteOrder v, b.advance 4) := by
  have hlen : (4 : UInt32).toNat = (memory 4 v.toNat).length := (length_memory 4 _).symm
  rw [ByteBuffer.GetUInt32]
  simp only
  rw [if_neg (h.unchecked hlen), h.fetch hlen]
  obtain ⟨hlittle, hbig⟩ := joined_memory v
  simp only [Option.map_some, hlittle, hbig, order32, advance]
  cases horder with
  | inl ho => simp [ho, BYTE_ORDER_BIG_ENDIAN, BYTE_ORDER_LITTLE_ENDIAN]
  | inr ho => simp [ho, BYTE_ORDER_BIG_ENDIAN, BYTE_ORDER_LITTLE_ENDIAN]

theorem Ahead.GetInt16 {v : UInt16} (h : b.Ahead (memory 2 v.toNat)) :
    b.GetInt16 = some ((order16 b.m_nByteOrder v).toInt16, b.advance 2) := by
  have hlen : (2 : UInt32).toNat = (memory 2 v.toNat).length := (length_memory 2 _).symm
  have hvalue : UInt16.ofNat (ofMemory (memory 2 v.toNat)) = v := by
    rw [ofMemory_memory, show 256 ^ 2 = 2 ^ 16 from rfl, Nat.mod_eq_of_lt v.toNat_lt,
      UInt16.ofNat_toNat]
  rw [ByteBuffer.GetInt16, order16]
  simp only
  rw [if_neg (h.unchecked hlen), h.read hlen, Option.map_some]
  simp only [hvalue, UInt16.toUInt16_toInt16, advance]
  split <;> rfl

theorem Ahead.GetInt32 {v : UInt32} (h : b.Ahead (memory 4 v.toNat)) :
    b.GetInt32 = some ((order32 b.m_nByteOrder v).toInt32, b.advance 4) := by
  have hlen : (4 : UInt32).toNat = (memory 4 v.toNat).length := (length_memory 4 _).symm
  have hvalue : UInt32.ofNat (ofMemory (memory 4 v.toNat)) = v := by
    rw [ofMemory_memory, show 256 ^ 4 = 2 ^ 32 from rfl, Nat.mod_eq_of_lt v.toNat_lt,
      UInt32.ofNat_toNat]
  rw [ByteBuffer.GetInt32, order32]
  simp only
  rw [if_neg (h.unchecked hlen), h.read hlen, Option.map_some]
  simp only [hvalue, UInt32.toUInt32_toInt32, advance]
  split <;> rfl

theorem ofMemory_eight (v : UInt64) : UInt64.ofNat (ofMemory (memory 8 v.toNat)) = v := by
  rw [ofMemory_memory, show 256 ^ 8 = 2 ^ 64 from rfl, Nat.mod_eq_of_lt v.toNat_lt,
    UInt64.ofNat_toNat]

theorem Ahead.GetInt64 {v : UInt64} (h : b.Ahead (memory 8 v.toNat)) :
    b.GetInt64 = some ((order64 b.m_nByteOrder v).toInt64, b.advance 8) := by
  have hlen : (8 : UInt32).toNat = (memory 8 v.toNat).length := (length_memory 8 _).symm
  rw [ByteBuffer.GetInt64, order64]
  simp only
  rw [if_neg (h.unchecked hlen), h.read hlen, Option.map_some]
  simp only [ofMemory_eight, UInt64.toUInt64_toInt64, advance]
  split <;> rfl

theorem Ahead.GetUInt64 {v : UInt64} (h : b.Ahead (memory 8 v.toNat)) :
    b.GetUInt64 = some (order64 b.m_nByteOrder v, b.advance 8) := by
  have hlen : (8 : UInt32).toNat = (memory 8 v.toNat).length := (length_memory 8 _).symm
  rw [ByteBuffer.GetUInt64, order64]
  simp only
  rw [if_neg (h.unchecked hlen), h.read hlen, Option.map_some]
  simp only [ofMemory_eight, advance]

end ByteBuffer

namespace Field

def bytes (byteOrder : UInt32) : Field → Bytes
  | .uint16 value => memory 2 (order16 byteOrder value).toNat
  | .int16 value => memory 2 (order16 byteOrder value.toUInt16).toNat
  | .uint32 value => memory 4 (order32 byteOrder value).toNat
  | .int32 value => memory 4 (order32 byteOrder value.toUInt32).toNat
  | .uint64 value => memory 8 (order64 byteOrder value).toNat
  | .int64 value => memory 8 (order64 byteOrder value.toUInt64).toNat

def size : Field → Nat
  | .uint16 _ | .int16 _ => 2
  | .uint32 _ | .int32 _ => 4
  | .uint64 _ | .int64 _ => 8

def wide : Field → UInt64
  | .uint64 value => value
  | .int64 value => value.toUInt64
  | _ => 0

theorem put_eq (b : ByteBuffer) (f : Field) : f.put b = b.append (f.bytes b.m_nByteOrder) := by
  cases f <;> rfl

@[simp] theorem length_bytes (byteOrder : UInt32) (f : Field) :
    (f.bytes byteOrder).length = f.size := by
  cases f <;> exact length_memory _ _

theorem size_pos (f : Field) : 0 < f.size := by cases f <;> exact Nat.zero_lt_succ _

theorem size_le (f : Field) : f.size ≤ 8 := by
  unfold size
  cases f <;> simp

end Field

/-- Through both conversions a 64-bit value keeps its low half. -/
theorem order64_order64_iff (byteOrder : UInt32) (v : UInt64) :
    order64 byteOrder (order64 byteOrder v) = v ↔
      (byteOrder = BYTE_ORDER_BIG_ENDIAN → v.toNat < 2 ^ 32) := by
  unfold order64
  by_cases ho : byteOrder = BYTE_ORDER_BIG_ENDIAN
  · have hlow : (htonl (htonl v.toUInt32).toUInt64.toUInt32).toUInt64 = v.toUInt32.toUInt64 := by
      rw [UInt32.toUInt32_toUInt64, htonl_htonl]
    rw [if_pos ho, if_pos ho, hlow]
    simp only [ho, true_imp_iff]
    rw [← UInt64.toNat_inj, UInt32.toNat_toUInt64, UInt64.toNat_toUInt32]
    omega
  · rw [if_neg ho, if_neg ho]
    simp only [ho, false_imp_iff]

theorem toInt64_eq_iff {x : UInt64} {v : Int64} : x.toInt64 = v ↔ x = v.toUInt64 := by
  constructor
  · intro h
    rw [← h, UInt64.toUInt64_toInt64]
  · intro h
    rw [h, Int64.toInt64_toUInt64]

namespace ByteBuffer
variable {b : ByteBuffer}

/-- What is read where a field was written. -/
theorem Ahead.get_iff {f : Field} (h : b.Ahead (f.bytes b.m_nByteOrder))
    (horder : IsByteOrder b.m_nByteOrder) :
    f.getter.get b = some (f, b.advance (UInt32.ofNat f.size)) ↔
      (b.m_nByteOrder = BYTE_ORDER_BIG_ENDIAN → f.wide.toNat < 2 ^ 32) := by
  have hzero (o : Prop) : o → (0 : UInt64).toNat < 2 ^ 32 := fun _ => by decide
  cases f with
  | uint16 v =>
    have hget := Ahead.GetUint16 (v := order16 b.m_nByteOrder v) h horder
    simp only [Field.getter, Getter.get, hget, order16_order16, Option.map_some]
    exact iff_of_true rfl (hzero _)
  | int16 v =>
    have hget := Ahead.GetInt16 (v := order16 b.m_nByteOrder v.toUInt16) h
    simp only [Field.getter, Getter.get, hget, order16_order16, Option.map_some,
      Int16.toInt16_toUInt16]
    exact iff_of_true rfl (hzero _)
  | uint32 v =>
    have hget := Ahead.GetUInt32 (v := order32 b.m_nByteOrder v) h horder
    simp only [Field.getter, Getter.get, hget, order32_order32, Option.map_some]
    exact iff_of_true rfl (hzero _)
  | int32 v =>
    have hget := Ahead.GetInt32 (v := order32 b.m_nByteOrder v.toUInt32) h
    simp only [Field.getter, Getter.get, hget, order32_order32, Option.map_some,
      Int32.toInt32_toUInt32]
    exact iff_of_true rfl (hzero _)
  | uint64 v =>
    have hget := Ahead.GetUInt64 (v := order64 b.m_nByteOrder v) h
    simp only [Field.getter, Getter.get, hget, Option.map_some, Field.wide]
    rw [← order64_order64_iff]
    simp [Field.size, advance]
  | int64 v =>
    have hget := Ahead.GetInt64 (v := order64 b.m_nByteOrder v.toUInt64) h
    simp only [Field.getter, Getter.get, hget, Option.map_some, Field.wide]
    rw [← order64_order64_iff]
    simp [Field.size, advance, toInt64_eq_iff]

end ByteBuffer
theorem memory_add (m n value : Nat) :
    memory (m + n) value = memory m value ++ memory n (value / 256 ^ m) := by
  rw [memory]
  rw [List.range_add, List.map_append, List.map_map]
  refine congrArg _ (List.map_congr_left fun i _ => ?_)
  rw [Function.comp_apply, Nat.div_div_eq_div_mul, Nat.pow_add]

@[simp] theorem memory_zero (n : Nat) : memory n 0 = List.replicate n 0 := by
  unfold memory
  simp only [Nat.zero_div, List.map_const', List.length_range]
  rfl

/-- Bytes that are all zero are those of a multiple of what they can hold. -/
theorem memory_eq_zero {n value : Nat} (h : memory n value = List.replicate n 0) :
    value % 256 ^ n = 0 := by
  rw [← ofMemory_memory, h, ← memory_zero, ofMemory_memory, Nat.zero_mod]

/-- A 64-bit value is written the other way round only if there is nothing to it. -/
theorem memory_order64_iff (v : UInt64) :
    memory 8 (order64 BYTE_ORDER_BIG_ENDIAN v).toNat = (memory 8 v.toNat).reverse ↔ v = 0 := by
  have hv := v.toNat_lt
  have hbig : (order64 BYTE_ORDER_BIG_ENDIAN v).toNat = (htonl v.toUInt32).toNat := by
    rw [order64, if_pos rfl, UInt32.toNat_toUInt64]
  have hhigh : (htonl v.toUInt32).toNat / 256 ^ 4 = 0 :=
    Nat.div_eq_of_lt (htonl v.toUInt32).toNat_lt
  have hlow : memory 4 (htonl v.toUInt32).toNat = (memory 4 (v.toNat % 2 ^ 32)).reverse := by
    rw [memory_htonl, UInt64.toNat_toUInt32]
  constructor
  · intro h
    rw [hbig, memory_add 4 4, memory_add 4 4 v.toNat, List.reverse_append, hhigh, memory_zero] at h
    obtain ⟨hfront, hback⟩ := List.append_inj h (by simp)
    have hzero : v.toNat % 256 ^ 4 = 0 := by
      refine memory_eq_zero ?_
      rw [← List.reverse_reverse (memory 4 v.toNat), ← hback, List.reverse_replicate]
    have hmod : v.toNat % 2 ^ 32 = 0 := hzero
    rw [hlow, hmod, memory_zero, List.reverse_replicate] at hfront
    have hrest : v.toNat / 256 ^ 4 % 256 ^ 4 = 0 := by
      refine memory_eq_zero ?_
      rw [← List.reverse_reverse (memory 4 _), ← hfront, List.reverse_replicate]
    refine UInt64.toNat_inj.mp ?_
    change v.toNat = 0
    omega
  · intro heq
    subst heq
    decide

namespace Field

theorem reverse_iff (f : Field) : f.bytes BYTE_ORDER_BIG_ENDIAN =
    (f.bytes BYTE_ORDER_LITTLE_ENDIAN).reverse ↔ f.wide = 0 := by
  cases f with
  | uint16 v => exact iff_of_true (memory_htons v) rfl
  | int16 v => exact iff_of_true (memory_htons v.toUInt16) rfl
  | uint32 v => exact iff_of_true (memory_htonl v) rfl
  | int32 v => exact iff_of_true (memory_htonl v.toUInt32) rfl
  | uint64 v => exact memory_order64_iff v
  | int64 v => exact memory_order64_iff v.toUInt64

/-- The field of the same kind whose value is zero. -/
def zero : Field → Field
  | .uint16 _ => .uint16 0
  | .int16 _ => .int16 0
  | .uint32 _ => .uint32 0
  | .int32 _ => .int32 0
  | .uint64 _ => .uint64 0
  | .int64 _ => .int64 0

@[simp] theorem getter_zero (f : Field) : f.zero.getter = f.getter := by cases f <;> rfl

@[simp] theorem wide_zero (f : Field) : f.zero.wide = 0 := by cases f <;> rfl

theorem bytes_zero (byteOrder : UInt32) (f : Field) :
    f.zero.bytes byteOrder = List.replicate f.size 0 := by
  have h16 : memory 2 (order16 byteOrder 0).toNat = List.replicate 2 0 := by
    rw [order16]
    split <;> rfl
  have h32 : memory 4 (order32 byteOrder 0).toNat = List.replicate 4 0 := by
    rw [order32]
    split <;> rfl
  have h64 : memory 8 (order64 byteOrder 0).toNat = List.replicate 8 0 := by
    rw [order64]
    split <;> rfl
  cases f with
  | uint16 v => exact h16
  | int16 v => exact h16
  | uint32 v => exact h32
  | int32 v => exact h32
  | uint64 v => exact h64
  | int64 v => exact h64

end Field
end CppPrivate.Public
