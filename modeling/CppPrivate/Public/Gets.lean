import CppPrivate.Public.ByteBuffer

/-! The bounds of the reading calls. The check adds the length to the position in 32 bits, and so
does the size of the temporary buffer; where either sum wraps, the check guards nothing. -/
namespace CppPrivate.Public
open ByteBuffer

def Short (b : ByteBuffer) (len : UInt32) : Prop :=
  b.m_nLimit.toNat - b.m_nPosition.toNat < len.toNat

/-- Every read finds an element between position and limit, and the position of `b'` is `len`
further on. -/
structure ReadsRest (b b' : ByteBuffer) (len : UInt32) (accesses : List Access) : Prop where
  inside : ∀ x ∈ accesses, b.m_nPosition.toNat ≤ x.read ∧ x.read < b.m_nLimit.toNat
  found : ∀ x ∈ accesses, x.value.isSome
  advanced : b'.m_nPosition.toNat = b.m_nPosition.toNat + len.toNat

/-- What a caller of `GetBytes` may rely on. -/
def GetBytesSafe (b : ByteBuffer) (len : UInt32) : Prop :=
  let (b', ok, accesses) := b.GetBytes len
  (Short b len ∧ ok = false ∧ b' = b ∧ accesses = []) ∨ (ok = true ∧ ReadsRest b b' len accesses)

/-- What a caller of `GetString` may rely on; the temporary buffer has `nSize` bytes. -/
def GetStringSafe (b : ByteBuffer) (len : UInt32) : Prop :=
  let r := b.GetString len
  (Short b len ∧ r.value = [] ∧ r.buffer = b ∧ r.accesses = []) ∨
    (ReadsRest b r.buffer len r.accesses ∧ ∀ x ∈ r.accesses, x.write < r.nSize.toNat)

variable {b : ByteBuffer} {len : UInt32}

theorem sum_toNat (a c : UInt32) : (a + c).toNat = (a.toNat + c.toNat) % 2 ^ 32 := UInt32.toNat_add a c

/-- Without a wrap the check is right. -/
theorem check_iff (h : b.m_nPosition.toNat + len.toNat < 2 ^ 32) :
    b.m_nPosition + len > b.m_nLimit ↔ b.m_nLimit.toNat < b.m_nPosition.toNat + len.toNat := by
  rw [gt_iff_lt, UInt32.lt_iff_toNat_lt, sum_toNat, Nat.mod_eq_of_lt h]

/-- A sum that wraps is below the position it started from, and passes. -/
theorem check_wraps (hpos : b.m_nPosition ≤ b.m_nLimit)
    (h : 2 ^ 32 ≤ b.m_nPosition.toNat + len.toNat) : ¬ b.m_nPosition + len > b.m_nLimit := by
  have hlen := len.toNat_lt
  have hp := b.m_nPosition.toNat_lt
  rw [UInt32.le_iff_toNat_le] at hpos
  rw [gt_iff_lt, UInt32.lt_iff_toNat_lt, sum_toNat]
  omega

theorem mem_accesses {i n : Nat} {x : Access} (h : x ∈ (b.readLoop i n).2) :
    ∃ j < n, x = ⟨i + j, (b.m_nPosition + UInt32.ofNat j).toNat,
      (b.m_vecBuffer.store[(b.m_nPosition + UInt32.ofNat j).toNat]?).join⟩ := by
  rw [readLoop_eq] at h
  obtain ⟨j, hj, rfl⟩ := List.mem_map.mp h
  exact ⟨j, List.mem_range.mp hj, rfl⟩

theorem accesses_mem {n j : Nat} (i : Nat) (h : j < n) :
    (⟨i + j, (b.m_nPosition + UInt32.ofNat j).toNat,
      (b.m_vecBuffer.store[(b.m_nPosition + UInt32.ofNat j).toNat]?).join⟩ : Access) ∈
      (b.readLoop i n).2 := by
  rw [readLoop_eq]
  exact List.mem_map.mpr ⟨j, List.mem_range.mpr h, rfl⟩

theorem read_toNat {j : Nat} (h : b.m_nPosition.toNat + j < 2 ^ 32) :
    (b.m_nPosition + UInt32.ofNat j).toNat = b.m_nPosition.toNat + j := by
  rw [sum_toNat, UInt32.toNat_ofNat', Nat.mod_eq_of_lt (by omega : j < 2 ^ 32), Nat.mod_eq_of_lt h]

/-- The loop reads what remains when it is long enough. -/
theorem readsRest_of_le (hsize : b.m_nLimit.toNat ≤ b.m_vecBuffer.size)
    (h : b.m_nPosition.toNat + len.toNat ≤ b.m_nLimit.toNat) :
    ReadsRest b (b.readLoop 0 len.toNat).1 len (b.readLoop 0 len.toNat).2 := by
  have hl := b.m_nLimit.toNat_lt
  refine ⟨?_, ?_, ?_⟩
  · intro x hx
    obtain ⟨j, hj, rfl⟩ := mem_accesses hx
    simp only
    rw [read_toNat (by omega)]
    omega
  · intro x hx
    obtain ⟨j, hj, rfl⟩ := mem_accesses hx
    obtain ⟨a, ha⟩ := b.m_vecBuffer.live (b.m_nPosition.toNat + j) (by omega)
    simp only
    rw [read_toNat (by omega), ha]
    rfl
  · rw [readLoop_eq]
    simp only [UInt32.ofNat_toNat]
    rw [sum_toNat, Nat.mod_eq_of_lt (by omega)]

/-- A loop that is longer than what remains reads at the limit. -/
theorem not_readsRest_of_short {b' : ByteBuffer} (hpos : b.m_nPosition ≤ b.m_nLimit)
    (h : Short b len) : ¬ ReadsRest b b' len (b.readLoop 0 len.toNat).2 := by
  intro hr
  have hl := b.m_nLimit.toNat_lt
  rw [UInt32.le_iff_toNat_le] at hpos
  have hmem := accesses_mem (b := b) 0 h
  have := (hr.inside _ hmem).2
  simp only at this
  rw [read_toNat (by omega)] at this
  omega

theorem short_of_wraps (h : 2 ^ 32 ≤ b.m_nPosition.toNat + len.toNat) : Short b len := by
  have hl := b.m_nLimit.toNat_lt
  have hp := b.m_nPosition.toNat_lt
  rw [Short]
  omega

theorem getBytes_safe_iff (hpos : b.m_nPosition ≤ b.m_nLimit)
    (hsize : b.m_nLimit.toNat ≤ b.m_vecBuffer.size) :
    GetBytesSafe b len ↔ b.m_nPosition.toNat + len.toNat < 2 ^ 32 := by
  rw [GetBytesSafe, GetBytes]
  constructor
  · intro h
    by_contra hw
    have hw : 2 ^ 32 ≤ b.m_nPosition.toNat + len.toNat := by omega
    rw [if_neg (check_wraps hpos hw)] at h
    cases h with
    | inl hcase =>
      obtain ⟨-, h, -⟩ := hcase
      cases h
    | inr hcase =>
      obtain ⟨-, h⟩ := hcase
      exact not_readsRest_of_short hpos (short_of_wraps hw) h
  · intro h
    by_cases hc : b.m_nPosition + len > b.m_nLimit
    · rw [if_pos hc]
      have := (check_iff h).mp hc
      have := UInt32.le_iff_toNat_le.mp hpos
      refine Or.inl ⟨?_, rfl, rfl, rfl⟩
      rw [Short]
      omega
    · rw [if_neg hc]
      rw [check_iff h, Nat.not_lt] at hc
      exact Or.inr ⟨rfl, readsRest_of_le hsize hc⟩

theorem getString_safe_iff (hpos : b.m_nPosition ≤ b.m_nLimit)
    (hsize : b.m_nLimit.toNat ≤ b.m_vecBuffer.size) :
    GetStringSafe b len ↔ b.m_nPosition.toNat + len.toNat < 2 ^ 32 ∧
      ¬ (len.toNat = 2 ^ 32 - 1 ∧ b.m_nLimit.toNat = 2 ^ 32 - 1) := by
  have hl := b.m_nLimit.toNat_lt
  have hn := len.toNat_lt
  have hone : (len + 1).toNat = (len.toNat + 1) % 2 ^ 32 := sum_toNat len 1
  rw [GetStringSafe, GetString]
  constructor
  · intro h
    have hno : b.m_nPosition.toNat + len.toNat < 2 ^ 32 := by
      by_contra hw
      have hw : 2 ^ 32 ≤ b.m_nPosition.toNat + len.toNat := by omega
      have hshort := short_of_wraps hw
      rw [if_neg (check_wraps hpos hw)] at h
      simp only at h
      cases h with
      | inl hcase =>
        obtain ⟨-, -, -, h⟩ := hcase
        have hmem := accesses_mem (b := b) 0 hshort
        rw [h] at hmem
        cases hmem
      | inr hcase =>
        obtain ⟨h, -⟩ := hcase
        exact not_readsRest_of_short hpos hshort h
    refine ⟨hno, ?_⟩
    -- the temporary buffer of the longest string has no byte at all
    intro hother
    obtain ⟨hlen, hlim⟩ := hother
    have hc : ¬ b.m_nPosition + len > b.m_nLimit := by
      rw [check_iff hno]
      omega
    rw [if_neg hc] at h
    have hmem := accesses_mem (b := b) 0 (by omega : 0 < len.toNat)
    simp only at h
    cases h with
    | inl hcase =>
      obtain ⟨-, -, -, h⟩ := hcase
      rw [h] at hmem
      cases hmem
    | inr hcase =>
      obtain ⟨-, h⟩ := hcase
      have := h _ hmem
      simp only at this
      omega
  · intro hother
    obtain ⟨hno, hlong⟩ := hother
    by_cases hc : b.m_nPosition + len > b.m_nLimit
    · rw [if_pos hc]
      have := (check_iff hno).mp hc
      have := UInt32.le_iff_toNat_le.mp hpos
      refine Or.inl ⟨?_, rfl, rfl, rfl⟩
      rw [Short]
      omega
    · rw [if_neg hc]
      rw [check_iff hno, Nat.not_lt] at hc
      refine Or.inr ⟨readsRest_of_le hsize hc, ?_⟩
      intro x hx
      obtain ⟨j, hj, rfl⟩ := mem_accesses hx
      simp only
      omega

/-- The reading calls keep within bounds exactly when the sum of position and length does not
wrap and, for a string, neither does the length plus one. -/
theorem gets_safe_iff (hpos : b.m_nPosition ≤ b.m_nLimit)
    (hsize : b.m_nLimit.toNat ≤ b.m_vecBuffer.size) :
    (GetBytesSafe b len ↔ b.m_nPosition.toNat + len.toNat < 2 ^ 32) ∧
    (GetStringSafe b len ↔ b.m_nPosition.toNat + len.toNat < 2 ^ 32 ∧
      ¬ (len.toNat = 2 ^ 32 - 1 ∧ b.m_nLimit.toNat = 2 ^ 32 - 1)) :=
  ⟨getBytes_safe_iff hpos hsize, getString_safe_iff hpos hsize⟩

/-- A buffer of one byte, read to its end. -/
def readByte : ByteBuffer := ⟨1, 1, 1, BYTE_ORDER_LITTLE_ENDIAN, Vec.empty.resize 1 0⟩

theorem gets_safe_iff_read : GetBytesSafe readByte 5 ∧ GetStringSafe readByte 5 := by
  have hpos : readByte.m_nPosition ≤ readByte.m_nLimit := by decide
  have hsize : readByte.m_nLimit.toNat ≤ readByte.m_vecBuffer.size := by decide
  have h : GetBytesSafe readByte 5 ↔ _ := (gets_safe_iff hpos hsize).1
  have h' : GetStringSafe readByte 5 ↔ _ := (gets_safe_iff hpos hsize).2
  exact ⟨h.mpr (by decide), h'.mpr (by decide)⟩

/-- A length of `2^32 - 1` passes the check at position 1, where nothing remains. -/
theorem longest_read_unchecked : readByte.m_nPosition ≤ readByte.m_nLimit ∧
    readByte.m_nLimit.toNat ≤ readByte.m_vecBuffer.size ∧
    (readByte.GetBytes 4294967295).2.1 = true ∧
    ¬ GetBytesSafe readByte 4294967295 ∧ ¬ GetStringSafe readByte 4294967295 := by
  have hpos : readByte.m_nPosition ≤ readByte.m_nLimit := by decide
  have hsize : readByte.m_nLimit.toNat ≤ readByte.m_vecBuffer.size := by decide
  refine ⟨hpos, hsize, ?_, ?_, ?_⟩
  · rw [GetBytes]
    rw [if_neg (by decide)]
  · rw [getBytes_safe_iff hpos hsize]
    decide
  · rw [getString_safe_iff hpos hsize]
    decide

end CppPrivate.Public
