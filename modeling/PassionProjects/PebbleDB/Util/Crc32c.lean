/-
  PassionProjects.PebbleDB.Util.Crc32c

  The table-driven CRC-32C of `util/crc32c.cpp`, and the one property the
  formats rely on: two byte strings that differ in a single byte have different
  checksums.

  The table holds eight steps of the one-bit shift register, so a byte step is
  eight bit steps (`crcByte_eq`); a bit step loses nothing (`crcUnbit_crcBit`),
  and injectivity carries through the whole string.
-/

import Mathlib.Logic.Function.Iterate
import Mathlib.Tactic.IntervalCases
import PassionProjects.PebbleDB.Util.Coding

namespace PassionProjects.PebbleDB.Util

/-- Reversed-bit CRC-32C polynomial. -/
def kPoly : UInt32 := 0x82F63B78

/-- The value the register starts from and is finished with. -/
def kMask : UInt32 := 0xFFFFFFFF

/-- One turn of `BuildTable`'s inner loop. -/
def crcBit (crc : UInt32) : UInt32 :=
  if crc &&& 1 != 0 then kPoly ^^^ (crc >>> 1) else crc >>> 1

/-- `BuildTable`. -/
def kTable : List UInt32 := (List.range 256).map fun i => crcBit^[8] (UInt32.ofNat i)

/-- The loop body of `ExtendCrc32c`. -/
def crcByte (crc : UInt32) (b : UInt8) : UInt32 :=
  kTable.getD ((crc ^^^ b.toUInt32) &&& 0xFF).toNat 0 ^^^ (crc >>> 8)

/-- `ExtendCrc32c`. -/
def extendCrc32c (partialCrc : UInt32) (data : Bytes) : UInt32 :=
  data.foldl crcByte (partialCrc ^^^ kMask) ^^^ kMask

/-- `Crc32c`. -/
def crc32c (data : Bytes) : UInt32 := extendCrc32c 0 data

-- ============================================================================
-- One bit
-- ============================================================================

/-- The bit that `BuildTable` tests. -/
theorem lowBit_ne_zero (x : UInt32) : ((x &&& 1) != 0) = x.toBitVec[0] := by
  have hand : (x &&& (1 : UInt32)) = if x.toBitVec[0] then 1 else 0 := by
    rw [← UInt32.toBitVec_inj]
    apply BitVec.eq_of_getLsbD_eq
    intro i hi
    cases h : x.toBitVec[0] <;> interval_cases i <;> simp [h]
  rw [hand]
  cases x.toBitVec[0] <;> simp

theorem crcBit_xor (x y : UInt32) : crcBit (x ^^^ y) = crcBit x ^^^ crcBit y := by
  unfold crcBit
  simp only [lowBit_ne_zero, UInt32.toBitVec_xor, BitVec.getElem_xor, UInt32.shiftRight_xor]
  cases hx : x.toBitVec[0] <;> cases hy : y.toBitVec[0] <;> simp
  · ac_rfl
  · ac_rfl
  · rw [UInt32.xor_comm kPoly, UInt32.xor_assoc, ← UInt32.xor_assoc kPoly, UInt32.xor_self,
      UInt32.zero_xor]

/-- What `crcBit` was applied to.  The polynomial has its top bit set, so the top
    bit of the result is the low bit that was shifted out. -/
def crcUnbit (y : UInt32) : UInt32 :=
  if y.toBitVec[31] then ((y ^^^ kPoly) <<< 1) ||| 1 else y <<< 1

theorem crcUnbit_crcBit (x : UInt32) : crcUnbit (crcBit x) = x := by
  unfold crcBit crcUnbit
  rw [lowBit_ne_zero]
  cases hx : x.toBitVec[0]
  · have htop : (x >>> 1).toBitVec[31] = false := by simp
    simp only [Bool.false_eq_true, if_false, htop]
    rw [← UInt32.toBitVec_inj]
    apply BitVec.eq_of_getLsbD_eq
    intro i hi
    interval_cases i <;> simp [hx]
  · have htop : (kPoly ^^^ x >>> 1).toBitVec[31] = true := by simp [kPoly]
    simp only [if_true, htop]
    rw [← UInt32.toBitVec_inj]
    apply BitVec.eq_of_getLsbD_eq
    intro i hi
    interval_cases i <;> simp [hx, kPoly]

theorem crcBit_injective : Function.Injective crcBit :=
  Function.LeftInverse.injective crcUnbit_crcBit

theorem crcBit_even (x : UInt32) (h : x.toBitVec[0] = false) : crcBit x = x >>> 1 := by
  simp [crcBit, lowBit_ne_zero, h]

-- ============================================================================
-- Eight bits: the table
-- ============================================================================

theorem crcBits_xor (n : Nat) (x y : UInt32) :
    crcBit^[n] (x ^^^ y) = crcBit^[n] x ^^^ crcBit^[n] y := by
  induction n generalizing x y with
  | zero => rfl
  | succ n ih => simp only [Function.iterate_succ_apply, crcBit_xor, ih]

/-- While the low bits are clear `crcBit` only shifts. -/
theorem crcBits_shift (x : UInt32) (n : Nat) (h : ∀ i, i < n → x.toBitVec.getLsbD i = false) :
    (crcBit^[n] x).toBitVec = x.toBitVec >>> n := by
  induction n with
  | zero => simp
  | succ n ih =>
      have ih := ih fun i hi => h i (Nat.lt_succ_of_lt hi)
      have hlow : (crcBit^[n] x).toBitVec[0] = false := by
        have hn := h n (Nat.lt_succ_self n)
        rw [← BitVec.getLsbD_eq_getElem, ih]
        simpa using hn
      rw [Function.iterate_succ_apply', crcBit_even _ hlow]
      rw [UInt32.toBitVec_shiftRight, ih, BitVec.shiftRight_add]
      rfl

theorem crcBits_high (x : UInt32) : crcBit^[8] (x &&& 0xFFFFFF00) = x >>> 8 := by
  rw [← UInt32.toBitVec_inj, crcBits_shift]
  · apply BitVec.eq_of_getLsbD_eq
    intro i hi
    interval_cases i <;> simp
  · intro i hi
    interval_cases i <;> simp

theorem low_xor_high (x : UInt32) : (x &&& 0xFF) ^^^ (x &&& 0xFFFFFF00) = x := by
  rw [← UInt32.toBitVec_inj]
  apply BitVec.eq_of_getLsbD_eq
  intro i hi
  interval_cases i <;> simp

theorem kTable_getD (x : UInt32) : kTable.getD (x &&& 0xFF).toNat 0 = crcBit^[8] (x &&& 0xFF) := by
  have hlt : (x &&& 0xFF).toNat < 256 := by
    have hle : (x &&& 0xFF).toNat ≤ 255 := by
      rw [UInt32.toNat_and]
      exact Nat.and_le_right
    omega
  rw [kTable, List.getD_eq_getElem?_getD, List.getElem?_map, List.getElem?_range hlt]
  simp only [Option.map_some, Option.getD_some, UInt32.ofNat_toNat]

/-- A byte step is eight bit steps on the register with the byte mixed in. -/
theorem crcByte_eq (crc : UInt32) (b : UInt8) :
    crcByte crc b = crcBit^[8] (crc ^^^ b.toUInt32) := by
  have hhigh : (crc ^^^ b.toUInt32) >>> 8 = crc >>> 8 := by
    rw [← UInt32.toBitVec_inj]
    apply BitVec.eq_of_getLsbD_eq
    intro i hi
    interval_cases i <;> simp
  calc crcByte crc b
      = crcBit^[8] ((crc ^^^ b.toUInt32) &&& 0xFF) ^^^ (crc >>> 8) := by
        rw [crcByte, kTable_getD]
    _ = crcBit^[8] ((crc ^^^ b.toUInt32) &&& 0xFF) ^^^
          crcBit^[8] ((crc ^^^ b.toUInt32) &&& 0xFFFFFF00) := by
        rw [crcBits_high, hhigh]
    _ = crcBit^[8] (crc ^^^ b.toUInt32) := by
        rw [← crcBits_xor, low_xor_high]

theorem crcByte_inj {crc crc' : UInt32} {b b' : UInt8} (h : crcByte crc b = crcByte crc' b') :
    crc ^^^ b.toUInt32 = crc' ^^^ b'.toUInt32 := by
  rw [crcByte_eq, crcByte_eq] at h
  exact crcBit_injective.iterate 8 h

-- ============================================================================
-- Strings
-- ============================================================================

theorem extendCrc32c_append (crc : UInt32) (xs ys : Bytes) :
    extendCrc32c crc (xs ++ ys) = extendCrc32c (extendCrc32c crc xs) ys := by
  simp only [extendCrc32c, List.foldl_append, UInt32.xor_assoc, UInt32.xor_self, UInt32.xor_zero]

/-- The register keeps apart what it held apart. -/
theorem foldl_crcByte_inj (data : Bytes) {x y : UInt32}
    (h : data.foldl crcByte x = data.foldl crcByte y) : x = y := by
  induction data generalizing x y with
  | nil => exact h
  | cons b data ih =>
      have hb := crcByte_inj (ih h)
      exact (UInt32.xor_left_inj b.toUInt32).mp hb

/-- Changing one byte changes the checksum. -/
theorem extendCrc32c_byte_ne (crc : UInt32) (pre post : Bytes) {b c : UInt8} (h : b ≠ c) :
    extendCrc32c crc (pre ++ b :: post) ≠ extendCrc32c crc (pre ++ c :: post) := by
  intro heq
  unfold extendCrc32c at heq
  rw [UInt32.xor_left_inj, List.foldl_append, List.foldl_append] at heq
  have hb := crcByte_inj (foldl_crcByte_inj post heq)
  have hbc := (UInt32.xor_right_inj _).mp hb
  exact h (UInt8.toUInt32_inj.mp hbc)

end PassionProjects.PebbleDB.Util
