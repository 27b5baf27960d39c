import CppPrivate.Lib.Bytes
import CppPrivate.Lib.Vec

/-! The byte buffer on a little-endian host. Counters are 32 bits wide, sizes 64 bits; the sum of
a counter and a size in memory does not reach `2^64`. -/
namespace CppPrivate.Public

def BYTE_ORDER_BIG_ENDIAN : UInt32 := 1
def BYTE_ORDER_LITTLE_ENDIAN : UInt32 := 2
def DEFAULT_BUFFER_SIZE : Nat := 2048

structure ByteBuffer where
  m_nPosition : UInt32
  m_nLimit : UInt32
  m_nCapacity : UInt32
  m_nByteOrder : UInt32
  m_vecBuffer : Vec UInt8

/-- The low `n` bytes of an integer, as they lie in memory. -/
def memory (n : Nat) (value : Nat) : Bytes :=
  (List.range n).map fun i => UInt8.ofNat (value / 256 ^ i)

def htons (value : UInt16) : UInt16 := (value <<< 8) ||| (value >>> 8)

def htonl (value : UInt32) : UInt32 :=
  (value <<< 24) ||| ((value <<< 8) &&& (0xff0000 : UInt32)) |||
    ((value >>> 8) &&& (0xff00 : UInt32)) ||| (value >>> 24)

namespace ByteBuffer

/-- The constructor with an initial capacity; the one without takes `DEFAULT_BUFFER_SIZE`. -/
def new (capacity : Nat) : ByteBuffer where
  m_nPosition := 0
  m_nLimit := 0
  m_nCapacity := UInt32.ofNat capacity
  m_nByteOrder := BYTE_ORDER_LITTLE_ENDIAN
  m_vecBuffer := Vec.empty.reserve capacity

def copy (buf : ByteBuffer) : ByteBuffer := { buf with m_vecBuffer := buf.m_vecBuffer.copy }

def SetByteOrder (b : ByteBuffer) (byteOrder : UInt32) : ByteBuffer :=
  { b with m_nByteOrder := byteOrder }

def append (b : ByteBuffer) (src : Bytes) : Option ByteBuffer :=
  if src.length = 0 then some b
  else
    let size := src.length
    let grown := if b.m_nCapacity.toNat < b.m_nLimit.toNat + size then
        { b with
          m_vecBuffer := b.m_vecBuffer.resize (b.m_nLimit.toNat + size) 0
          m_nCapacity := UInt32.ofNat (b.m_nLimit.toNat + size) }
      else b
    (grown.m_vecBuffer.memcpy grown.m_nPosition.toNat src).map fun m_vecBuffer =>
      { grown with
        m_vecBuffer
        m_nPosition := grown.m_nPosition + UInt32.ofNat size
        m_nLimit := grown.m_nLimit + UInt32.ofNat size }

def PutByte (b : ByteBuffer) (value : UInt8) : Option ByteBuffer := b.append [value]

/-- The value as it is stored under the byte order. -/
def order16 (byteOrder : UInt32) (value : UInt16) : UInt16 :=
  if byteOrder = BYTE_ORDER_BIG_ENDIAN then htons value else value

def order32 (byteOrder : UInt32) (value : UInt32) : UInt32 :=
  if byteOrder = BYTE_ORDER_BIG_ENDIAN then htonl value else value

/-- A 64-bit value goes through the 32-bit conversion. -/
def order64 (byteOrder : UInt32) (value : UInt64) : UInt64 :=
  if byteOrder = BYTE_ORDER_BIG_ENDIAN then (htonl value.toUInt32).toUInt64 else value

def PutUint16 (b : ByteBuffer) (value : UInt16) : Option ByteBuffer :=
  b.append (memory 2 (order16 b.m_nByteOrder value).toNat)

def PutUint32 (b : ByteBuffer) (value : UInt32) : Option ByteBuffer :=
  b.append (memory 4 (order32 b.m_nByteOrder value).toNat)

def PutUint64 (b : ByteBuffer) (value : UInt64) : Option ByteBuffer :=
  b.append (memory 8 (order64 b.m_nByteOrder value).toNat)

/-- Byte by byte. -/
def PutBytes (b : ByteBuffer) (buf : Bytes) : Option ByteBuffer :=
  buf.foldlM (fun b value => b.append [value]) b

def PutString (b : ByteBuffer) (value : Bytes) : Option ByteBuffer := b.append value

/-- One step of a reading loop: the subscript of the buffer it writes to, the subscript of
`m_vecBuffer` it reads, and what it finds there. -/
structure Access where
  write : Nat
  read : Nat
  value : Option UInt8

/-- The loops `buf[i] = m_vecBuffer[m_nPosition++]`, `n` rounds from round `i` on. -/
def readLoop (b : ByteBuffer) (i : Nat) : Nat → ByteBuffer × List Access
  | 0 => (b, [])
  | n + 1 =>
    let r := readLoop { b with m_nPosition := b.m_nPosition + 1 } (i + 1) n
    (r.1, ⟨i, b.m_nPosition.toNat, (b.m_vecBuffer.store[b.m_nPosition.toNat]?).join⟩ :: r.2)

def GetBytes (b : ByteBuffer) (len : UInt32) : ByteBuffer × Bool × List Access :=
  if b.m_nPosition + len > b.m_nLimit then (b, false, [])
  else
    let r := b.readLoop 0 len.toNat
    (r.1, true, r.2)

/-- The string read, and the size of the temporary buffer it went through. -/
structure StringRead where
  buffer : ByteBuffer
  value : Bytes
  nSize : UInt32
  accesses : List Access

/-- The result ends at the first zero byte. -/
def GetString (b : ByteBuffer) (len : UInt32) : StringRead :=
  if b.m_nPosition + len > b.m_nLimit then ⟨b, [], 0, []⟩
  else
    let r := b.readLoop 0 len.toNat
    ⟨r.1, (r.2.map fun x => x.value.getD 0).takeWhile (· ≠ 0), len + 1, r.2⟩

theorem readLoop_eq (b : ByteBuffer) (i n : Nat) : b.readLoop i n =
    ({ b with m_nPosition := b.m_nPosition + UInt32.ofNat n },
      (List.range n).map fun j => ⟨i + j, (b.m_nPosition + UInt32.ofNat j).toNat,
        (b.m_vecBuffer.store[(b.m_nPosition + UInt32.ofNat j).toNat]?).join⟩) := by
  induction n generalizing b i with
  | zero => simp [readLoop]
  | succ n ih =>
    have hadd : ∀ j : Nat, b.m_nPosition + 1 + UInt32.ofNat j =
        b.m_nPosition + UInt32.ofNat (j + 1) := by
      intro j
      rw [UInt32.add_assoc, Nat.add_comm, UInt32.ofNat_add]
      rfl
    have hzero : b.m_nPosition + UInt32.ofNat 0 = b.m_nPosition := UInt32.add_zero _
    simp only [readLoop, ih, hadd, List.range_succ_eq_map, List.map_cons, List.map_map, hzero]
    refine congrArg (Prod.mk _) (congrArg (List.cons _) (List.map_congr_left fun j _ => ?_))
    simp only [Function.comp_apply, Nat.succ_eq_add_one, Nat.add_comm j 1, Nat.add_assoc]

end ByteBuffer
end CppPrivate.Public
