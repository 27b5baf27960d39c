import CppPrivate.Lib.Bytes
import CppPrivate.Lib.Crc

/-! The slots of the cluster: which part of a key is hashed, and by which remainder. -/
namespace CppPrivate.Cluster
open Crc Polynomial

def REDIS_CLUSTER_SLOTS : Nat := 16384

set_option maxRecDepth 4096 in
def crc16tab : Vector UInt16 256 := #v[
  0x0000, 0x1021, 0x2042, 0x3063, 0x4084, 0x50a5, 0x60c6, 0x70e7, 0x8108, 0x9129, 0xa14a, 0xb16b,
  0xc18c, 0xd1ad, 0xe1ce, 0xf1ef, 0x1231, 0x0210, 0x3273, 0x2252, 0x52b5, 0x4294, 0x72f7, 0x62d6,
  0x9339, 0x8318, 0xb37b, 0xa35a, 0xd3bd, 0xc39c, 0xf3ff, 0xe3de, 0x2462, 0x3443, 0x0420, 0x1401,
  0x64e6, 0x74c7, 0x44a4, 0x5485, 0xa56a, 0xb54b, 0x8528, 0x9509, 0xe5ee, 0xf5cf, 0xc5ac, 0xd58d,
  0x3653, 0x2672, 0x1611, 0x0630, 0x76d7, 0x66f6, 0x5695, 0x46b4, 0xb75b, 0xa77a, 0x9719, 0x8738,
  0xf7df, 0xe7fe, 0xd79d, 0xc7bc, 0x48c4, 0x58e5, 0x6886, 0x78a7, 0x0840, 0x1861, 0x2802, 0x3823,
  0xc9cc, 0xd9ed, 0xe98e, 0xf9af, 0x8948, 0x9969, 0xa90a, 0xb92b, 0x5af5, 0x4ad4, 0x7ab7, 0x6a96,
  0x1a71, 0x0a50, 0x3a33, 0x2a12, 0xdbfd, 0xcbdc, 0xfbbf, 0xeb9e, 0x9b79, 0x8b58, 0xbb3b, 0xab1a,
  0x6ca6, 0x7c87, 0x4ce4, 0x5cc5, 0x2c22, 0x3c03, 0x0c60, 0x1c41, 0xedae, 0xfd8f, 0xcdec, 0xddcd,
  0xad2a, 0xbd0b, 0x8d68, 0x9d49, 0x7e97, 0x6eb6, 0x5ed5, 0x4ef4, 0x3e13, 0x2e32, 0x1e51, 0x0e70,
  0xff9f, 0xefbe, 0xdfdd, 0xcffc, 0xbf1b, 0xaf3a, 0x9f59, 0x8f78, 0x9188, 0x81a9, 0xb1ca, 0xa1eb,
  0xd10c, 0xc12d, 0xf14e, 0xe16f, 0x1080, 0x00a1, 0x30c2, 0x20e3, 0x5004, 0x4025, 0x7046, 0x6067,
  0x83b9, 0x9398, 0xa3fb, 0xb3da, 0xc33d, 0xd31c, 0xe37f, 0xf35e, 0x02b1, 0x1290, 0x22f3, 0x32d2,
  0x4235, 0x5214, 0x6277, 0x7256, 0xb5ea, 0xa5cb, 0x95a8, 0x8589, 0xf56e, 0xe54f, 0xd52c, 0xc50d,
  0x34e2, 0x24c3, 0x14a0, 0x0481, 0x7466, 0x6447, 0x5424, 0x4405, 0xa7db, 0xb7fa, 0x8799, 0x97b8,
  0xe75f, 0xf77e, 0xc71d, 0xd73c, 0x26d3, 0x36f2, 0x0691, 0x16b0, 0x6657, 0x7676, 0x4615, 0x5634,
  0xd94c, 0xc96d, 0xf90e, 0xe92f, 0x99c8, 0x89e9, 0xb98a, 0xa9ab, 0x5844, 0x4865, 0x7806, 0x6827,
  0x18c0, 0x08e1, 0x3882, 0x28a3, 0xcb7d, 0xdb5c, 0xeb3f, 0xfb1e, 0x8bf9, 0x9bd8, 0xabbb, 0xbb9a,
  0x4a75, 0x5a54, 0x6a37, 0x7a16, 0x0af1, 0x1ad0, 0x2ab3, 0x3a92, 0xfd2e, 0xed0f, 0xdd6c, 0xcd4d,
  0xbdaa, 0xad8b, 0x9de8, 0x8dc9, 0x7c26, 0x6c07, 0x5c64, 0x4c45, 0x3ca2, 0x2c83, 0x1ce0, 0x0cc1,
  0xef1f, 0xff3e, 0xcf5d, 0xdf7c, 0xaf9b, 0xbfba, 0x8fd9, 0x9ff8, 0x6e17, 0x7e36, 0x4e55, 0x5e74,
  0x2e93, 0x3eb2, 0x0ed1, 0x1ef0]

def crc16 (buf : Bytes) : UInt16 :=
  buf.foldl (fun crc c => (crc <<< 8) ^^^ crc16tab.get ((crc >>> 8).toUInt8 ^^^ c).toFin) 0

def keyHashSlot (key : Bytes) : Nat :=
  let s := key.idxOf 123  -- `{`
  if s = key.length then (crc16 key &&& 0x3FFF).toNat
  else
    let e := s + 1 + (key.drop (s + 1)).idxOf 125  -- `}`
    if e = key.length ∨ e = s + 1 then (crc16 key &&& 0x3FFF).toNat
    else (crc16 ((key.drop (s + 1)).take (e - s - 1)) &&& 0x3FFF).toNat

/-- The key has a hash tag: what stands between its first `{` and the next `}`. -/
def Tagged (key tag : Bytes) : Prop :=
  tag ≠ [] ∧ 125 ∉ tag ∧ ∃ before after, 123 ∉ before ∧ key = before ++ 123 :: tag ++ 125 :: after

def Hashed (key part : Bytes) : Prop :=
  Tagged key part ∨ part = key ∧ ∀ tag, ¬ Tagged key tag

/-- The remainder a hash slot is cut from: by `x^16 + x^12 + x^5 + 1`, of the message moved up. -/
def Remainder (part : Bytes) (crc : BitVec 16) : Prop :=
  poly crc = (X ^ 16 * message (part.map UInt8.toBitVec)) %ₘ (X ^ 16 + X ^ 12 + X ^ 5 + 1)

def table (k : BitVec 8) : BitVec 16 := (crc16tab.get k.toFin).toBitVec

theorem table_isTable : IsTable 0x1021#16 table := by
  unfold IsTable
  decide +kernel

theorem generator_eq : generator 0x1021#16 = X ^ 16 + X ^ 12 + X ^ 5 + 1 := by
  have hpoly : poly 0x1021#16 = X ^ 12 + X ^ 5 + 1 := by
    simp only [poly, Finset.sum_range_succ, Finset.sum_range_zero]
    simp
    ring
  rw [generator, hpoly]
  ring

theorem crc16_step (crc : UInt16) (c : UInt8) :
    ((crc <<< 8) ^^^ crc16tab.get ((crc >>> 8).toUInt8 ^^^ c).toFin).toBitVec =
      step table crc.toBitVec c.toBitVec := by
  simp [step, table, upper]
  rfl

theorem crc16_eq (buf : Bytes) :
    (crc16 buf).toBitVec = (buf.map UInt8.toBitVec).foldl (step table) 0#16 := by
  have hfold : ∀ crc0 : UInt16, (buf.foldl (fun (crc : UInt16) c =>
      (crc <<< 8) ^^^ crc16tab.get ((crc >>> 8).toUInt8 ^^^ c).toFin) crc0).toBitVec =
        (buf.map UInt8.toBitVec).foldl (step table) crc0.toBitVec := by
    induction buf with
    | nil => exact fun _ => rfl
    | cons c buf ih =>
      intro crc0
      rw [List.foldl_cons, ih, crc16_step, List.map_cons, List.foldl_cons]
  exact hfold 0

theorem crc16_remainder (buf : Bytes) : Remainder buf (crc16 buf).toBitVec := by
  unfold Remainder
  rw [crc16_eq, ← generator_eq]
  exact poly_foldl_step (by decide) table_isTable _

theorem and_slots (c : UInt16) : (c &&& 0x3FFF).toNat = c.toNat % REDIS_CLUSTER_SLOTS := by
  rw [UInt16.toNat_and]
  exact Nat.and_two_pow_sub_one_eq_mod c.toNat 14

section Tags
variable {key tag before rest : Bytes}

theorem tagged_cut (hbefore : 123 ∉ before) : Tagged (before ++ 123 :: rest) tag ↔
    tag ≠ [] ∧ 125 ∉ tag ∧ ∃ after, rest = tag ++ 125 :: after := by
  constructor
  · rintro ⟨hne, hclose, before', after, hbefore', heq⟩
    obtain ⟨-, hrest⟩ := cut_inj hbefore hbefore' (by simpa using heq)
    exact ⟨hne, hclose, after, by simpa using hrest⟩
  · rintro ⟨hne, hclose, after, rfl⟩
    exact ⟨hne, hclose, before, after, hbefore, by simp⟩

theorem not_tagged (h : 123 ∉ key) : ¬ Tagged key tag := by
  rintro ⟨-, -, before, after, -, rfl⟩
  simp at h

theorem hashed_exists (key : Bytes) : ∃ part, Hashed key part := by
  by_cases h : ∃ tag, Tagged key tag
  · obtain ⟨tag, htag⟩ := h
    exact ⟨tag, .inl htag⟩
  · exact ⟨key, .inr ⟨rfl, fun tag htag => h ⟨tag, htag⟩⟩⟩

/-- The loop for the closing brace, in a key cut at its opening one. -/
theorem keyHashSlot_cut (hbefore : 123 ∉ before) : keyHashSlot (before ++ 123 :: rest) =
    (crc16 (if rest.idxOf 125 = rest.length ∨ rest.idxOf 125 = 0 then before ++ 123 :: rest
      else rest.take (rest.idxOf 125)) &&& 0x3FFF).toNat := by
  have hs : (before ++ 123 :: rest).idxOf 123 = before.length := by
    rw [List.idxOf_append_of_notMem hbefore, List.idxOf_cons_self, Nat.add_zero]
  have hdrop : (before ++ 123 :: rest).drop (before.length + 1) = rest := by
    simp [← List.drop_drop]
  simp only [keyHashSlot, hs, hdrop, List.length_append, List.length_cons]
  rw [if_neg (by omega)]
  by_cases h : rest.idxOf 125 = rest.length ∨ rest.idxOf 125 = 0
  · rw [if_pos h, if_pos (by omega)]
  · rw [if_neg h, if_neg (by omega)]
    congr 4
    omega

theorem keyHashSlot_of_hashed {part : Bytes} (h : Hashed key part) :
    keyHashSlot key = (crc16 part).toNat % REDIS_CLUSTER_SLOTS := by
  rw [← and_slots]
  by_cases hopen : 123 ∈ key
  · obtain ⟨before, rest, rfl, hbefore⟩ := List.eq_append_cons_of_mem hopen
    rw [keyHashSlot_cut hbefore]
    congr 3
    rcases h with htag | ⟨rfl, hnone⟩
    · obtain ⟨hne, hclose, after, rfl⟩ := (tagged_cut hbefore).mp htag
      have hidx : (part ++ 125 :: after).idxOf 125 = part.length := by
        rw [List.idxOf_append_of_notMem hclose, List.idxOf_cons_self, Nat.add_zero]
      rw [hidx, if_neg (by simp [hne]), List.take_left]
    · rw [if_pos]
      by_cases hmem : 125 ∈ rest
      · obtain ⟨tag, after, rfl, hclose⟩ := List.eq_append_cons_of_mem hmem
        right
        by_contra hidx
        refine hnone tag ((tagged_cut hbefore).mpr ⟨?_, hclose, after, rfl⟩)
        rintro rfl
        simp at hidx
      · exact .inl (List.idxOf_eq_length_iff.mpr hmem)
  · have hslot : keyHashSlot key = (crc16 key &&& 0x3FFF).toNat := by
      rw [keyHashSlot, if_pos (List.idxOf_eq_length_iff.mpr hopen)]
    rcases h with htag | ⟨rfl, -⟩
    · exact absurd htag (not_tagged hopen)
    · exact hslot

theorem keyHashSlot_lt (key : Bytes) : keyHashSlot key < REDIS_CLUSTER_SLOTS := by
  obtain ⟨part, h⟩ := hashed_exists key
  rw [keyHashSlot_of_hashed h]
  exact Nat.mod_lt _ (by decide)

/-- The slot of a key is cut from the remainder of its hashed part. -/
theorem keyHashSlot_remainder (key : Bytes) : ∃ part crc, Hashed key part ∧ Remainder part crc ∧
    keyHashSlot key = crc.toNat % REDIS_CLUSTER_SLOTS := by
  obtain ⟨part, h⟩ := hashed_exists key
  exact ⟨part, (crc16 part).toBitVec, h, crc16_remainder part, keyHashSlot_of_hashed h⟩

example : (crc16 (bytes "123456789")).toNat = 0x31C3 := by decide +kernel

end Tags

end CppPrivate.Cluster
