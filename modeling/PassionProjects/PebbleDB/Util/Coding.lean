/-
  PassionProjects.PebbleDB.Util.Coding

  The vocabulary every PebbleDB module shares: byte strings, `Status`, and what a layer
  answers when it is asked for a key.  The fixed-width little-endian integers every on-disk
  format is built from (`util/coding.cpp`), and that decoding inverts encoding in both
  directions.
-/

import Mathlib.Data.List.Basic
import Mathlib.Tactic.IntervalCases

namespace PassionProjects.PebbleDB

/-- A `std::string` or `Slice`: bytes, with no encoding attached. -/
abbrev Bytes := List UInt8

abbrev Key := Bytes
abbrev Value := Bytes

inductive StatusCode where
  | ok
  | notFound
  | corruption
  | ioError
  | invalidArgument
  | notSupported
  deriving DecidableEq, Repr

/-- The outcome of a fallible operation.  Messages are the source's texts without
    the path and the `strerror` suffix. -/
structure Status where
  code : StatusCode
  message : String
  deriving DecidableEq, Repr

namespace Status

def OK : Status := ⟨.ok, ""⟩
def NotFound (message : String) : Status := ⟨.notFound, message⟩
def Corruption (message : String) : Status := ⟨.corruption, message⟩
def IOError (message : String) : Status := ⟨.ioError, message⟩
def InvalidArgument (message : String) : Status := ⟨.invalidArgument, message⟩
def NotSupported (message : String) : Status := ⟨.notSupported, message⟩

def ok (s : Status) : Bool := s.code == .ok
def isNotFound (s : Status) : Bool := s.code == .notFound

@[simp] theorem ok_OK : OK.ok = true := rfl
@[simp] theorem ok_NotFound (m : String) : (NotFound m).ok = false := rfl
@[simp] theorem ok_Corruption (m : String) : (Corruption m).ok = false := rfl
@[simp] theorem ok_IOError (m : String) : (IOError m).ok = false := rfl
@[simp] theorem ok_InvalidArgument (m : String) : (InvalidArgument m).ok = false := rfl
@[simp] theorem ok_NotSupported (m : String) : (NotSupported m).ok = false := rfl
@[simp] theorem isNotFound_NotFound (m : String) : (NotFound m).isNotFound = true := rfl
@[simp] theorem isNotFound_Corruption (m : String) : (Corruption m).isNotFound = false := rfl
@[simp] theorem isNotFound_IOError (m : String) : (IOError m).isNotFound = false := rfl
@[simp] theorem isNotFound_NotSupported (m : String) : (NotSupported m).isNotFound = false := rfl

end Status

/-- What kind of write an entry records. -/
inductive EntryType where
  | kValue
  | kTombstone
  deriving DecidableEq, Repr

/-- `LookupResult` together with the out-parameters it fills in: the value of
    a `kFound`, and the sequence number of a `kFound` or `kDeleted`. -/
inductive LookupResult where
  | kFound (value : Value) (sequence : UInt64)
  | kDeleted (sequence : UInt64)
  | kNotFound
  deriving DecidableEq, Repr

/-- `sstable::Entry`: one key of a table. -/
structure Entry where
  key : Key
  sequence : UInt64
  type : EntryType
  value : Value
  deriving DecidableEq, Repr

/-- What a layer answers from the entry it holds for a key. -/
def LookupResult.ofEntry (sequence : UInt64) (type : EntryType) (value : Value) : LookupResult :=
  match type with
  | .kTombstone => .kDeleted sequence
  | .kValue => .kFound value sequence

end PassionProjects.PebbleDB

namespace PassionProjects.PebbleDB.Util

/-- `PutFixed32`: the four bytes it appends. -/
def putFixed32 (value : UInt32) : Bytes :=
  [(value &&& 0xFF).toUInt8, ((value >>> 8) &&& 0xFF).toUInt8,
   ((value >>> 16) &&& 0xFF).toUInt8, ((value >>> 24) &&& 0xFF).toUInt8]

/-- `PutFixed64`: the eight bytes it appends. -/
def putFixed64 (value : UInt64) : Bytes :=
  (List.range 8).map fun i => ((value >>> (8 * UInt64.ofNat i)) &&& 0xFF).toUInt8

/-- `DecodeFixed32`: reads four bytes at the front of `b`. -/
def decodeFixed32 (b : Bytes) : UInt32 :=
  (b.getD 0 0).toUInt32 ||| ((b.getD 1 0).toUInt32 <<< 8) |||
    ((b.getD 2 0).toUInt32 <<< 16) ||| ((b.getD 3 0).toUInt32 <<< 24)

/-- `DecodeFixed64`: reads eight bytes at the front of `b`, highest first. -/
def decodeFixed64 (b : Bytes) : UInt64 :=
  [7, 6, 5, 4, 3, 2, 1, 0].foldl (fun result i => (result <<< 8) ||| (b.getD i 0).toUInt64) 0

@[simp] theorem putFixed32_length (value : UInt32) : (putFixed32 value).length = 4 := rfl

@[simp] theorem putFixed64_length (value : UInt64) : (putFixed64 value).length = 8 := rfl

/-- Decoding reads back what was encoded, whatever follows it. -/
@[simp] theorem decodeFixed32_putFixed32 (v : UInt32) (rest : Bytes) :
    decodeFixed32 (putFixed32 v ++ rest) = v := by
  rw [← UInt32.toBitVec_inj]
  apply BitVec.eq_of_getLsbD_eq
  intro i hi
  simp only [putFixed32, decodeFixed32, List.cons_append, List.getD_cons_zero,
    List.getD_cons_succ, UInt32.toBitVec_or, UInt32.toBitVec_shiftLeft, UInt8.toBitVec_toUInt32,
    UInt32.toBitVec_toUInt8, UInt32.toBitVec_and, UInt32.toBitVec_shiftRight]
  interval_cases i <;> simp

/-- A word is its low byte under the rest of it. -/
theorem join_low_byte (w : UInt64) : (w >>> 8) <<< 8 ||| (w &&& 0xFF).toUInt8.toUInt64 = w := by
  rw [← UInt64.toBitVec_inj]
  apply BitVec.eq_of_getLsbD_eq
  intro i hi
  simp only [UInt64.toBitVec_or, UInt64.toBitVec_shiftLeft, UInt64.toBitVec_shiftRight,
    UInt8.toBitVec_toUInt64, UInt64.toBitVec_toUInt8, UInt64.toBitVec_and, BitVec.getLsbD_or,
    BitVec.getLsbD_setWidth, BitVec.getLsbD_and]
  by_cases hlow : i < 8
  · have hmask : (UInt64.toBitVec 0xFF).getLsbD i = true := by
      interval_cases i <;> rfl
    rw [hmask]
    simp [hlow, hi]
  · simp [hlow, hi, Nat.add_sub_cancel' (Nat.not_lt.mp hlow)]

/-- Shifts by whole bytes add up. -/
theorem shiftRight_byte (v : UInt64) {i : Nat} (hi : i < 7) :
    v >>> (8 * UInt64.ofNat (i + 1)) = (v >>> (8 * UInt64.ofNat i)) >>> 8 := by
  rw [← UInt64.toNat_inj]
  have hshift (j : Nat) (hj : j < 8) : (8 * UInt64.ofNat j).toNat % 64 = 8 * j := by
    interval_cases j <;> rfl
  have height : (8 : UInt64).toNat % 64 = 8 := rfl
  rw [UInt64.toNat_shiftRight, UInt64.toNat_shiftRight, UInt64.toNat_shiftRight,
    hshift (i + 1) (by omega), hshift i (by omega), height, ← Nat.shiftRight_add, Nat.mul_succ]

@[simp] theorem decodeFixed64_putFixed64 (v : UInt64) (rest : Bytes) :
    decodeFixed64 (putFixed64 v ++ rest) = v := by
  have hjoin (i : Nat) (hi : i < 7) : (v >>> (8 * UInt64.ofNat (i + 1))) <<< 8 |||
      ((v >>> (8 * UInt64.ofNat i)) &&& 0xFF).toUInt8.toUInt64 = v >>> (8 * UInt64.ofNat i) := by
    rw [shiftRight_byte v hi, join_low_byte]
  -- nothing is above the highest byte
  have htop : (0 : UInt64) <<< 8 ||| ((v >>> (8 * UInt64.ofNat 7)) &&& 0xFF).toUInt8.toUInt64 =
      v >>> (8 * UInt64.ofNat 7) := by
    have hzero : v >>> (8 * UInt64.ofNat 7) >>> 8 = 0 := by
      rw [← UInt64.toNat_inj, UInt64.toNat_shiftRight, UInt64.toNat_shiftRight,
        ← Nat.shiftRight_add, Nat.shiftRight_eq_div_pow]
      exact Nat.div_eq_of_lt v.toNat_lt
    rw [← hzero, join_low_byte]
  simp only [putFixed64, decodeFixed64, List.range, List.range.loop, List.map, List.foldl,
    List.cons_append, List.getD_cons_zero, List.getD_cons_succ]
  rw [htop, hjoin 6 (by decide), hjoin 5 (by decide), hjoin 4 (by decide), hjoin 3 (by decide),
    hjoin 2 (by decide), hjoin 1 (by decide), hjoin 0 (by decide)]
  exact UInt64.shiftRight_zero
theorem putFixed32_decodeFixed32 (b : Bytes) (h : b.length = 4) :
    putFixed32 (decodeFixed32 b) = b := by
  obtain ⟨b₀, b₁, b₂, b₃, rfl⟩ : ∃ b₀ b₁ b₂ b₃, b = [b₀, b₁, b₂, b₃] := by
    match b, h with
    | [b₀, b₁, b₂, b₃], _ => exact ⟨b₀, b₁, b₂, b₃, rfl⟩
  have hbyte (x y : UInt8) (h : ∀ i, i < 8 → x.toBitVec.getLsbD i = y.toBitVec.getLsbD i) :
      x = y := by
    rw [← UInt8.toBitVec_inj]
    exact BitVec.eq_of_getLsbD_eq h
  simp only [putFixed32, decodeFixed32, List.getD_cons_zero, List.getD_cons_succ]
  congr 1
  · exact hbyte _ _ fun i hi => by interval_cases i <;> simp
  · congr 1
    · exact hbyte _ _ fun i hi => by interval_cases i <;> simp
    · congr 1
      · exact hbyte _ _ fun i hi => by interval_cases i <;> simp
      · congr 1
        exact hbyte _ _ fun i hi => by interval_cases i <;> simp

/-- Four-byte fields with the same decoded value are the same bytes. -/
theorem decodeFixed32_inj {b c : Bytes} (hb : b.length = 4) (hc : c.length = 4)
    (h : decodeFixed32 b = decodeFixed32 c) : b = c := by
  rw [← putFixed32_decodeFixed32 b hb, h, putFixed32_decodeFixed32 c hc]

/-- Only the first four bytes are read. -/
theorem decodeFixed32_append (b rest : Bytes) (h : 4 ≤ b.length) :
    decodeFixed32 (b ++ rest) = decodeFixed32 b := by
  have hget (i : Nat) (hi : i < 4) : (b ++ rest).getD i 0 = b.getD i 0 := by
    simp only [List.getD_eq_getElem?_getD]
    rw [List.getElem?_append_left (by omega)]
  simp only [decodeFixed32, hget 0 (by omega), hget 1 (by omega), hget 2 (by omega),
    hget 3 (by omega)]

theorem decodeFixed32_take (b : Bytes) : decodeFixed32 (b.take 4) = decodeFixed32 b := by
  have hget (i : Nat) (hi : i < 4) : (b.take 4).getD i 0 = b.getD i 0 := by
    rw [List.getD_eq_getElem?_getD, List.getElem?_take_of_lt hi, List.getD_eq_getElem?_getD]
  simp only [decodeFixed32, hget 0 (by omega), hget 1 (by omega), hget 2 (by omega),
    hget 3 (by omega)]

/-- Only the first eight bytes are read. -/
theorem decodeFixed64_take (b : Bytes) : decodeFixed64 (b.take 8) = decodeFixed64 b := by
  have hget (i : Nat) (hi : i < 8) : (b.take 8).getD i 0 = b.getD i 0 := by
    rw [List.getD_eq_getElem?_getD, List.getElem?_take_of_lt hi, List.getD_eq_getElem?_getD]
  simp only [decodeFixed64, List.foldl, hget 0 (by omega), hget 1 (by omega), hget 2 (by omega),
    hget 3 (by omega), hget 4 (by omega), hget 5 (by omega), hget 6 (by omega), hget 7 (by omega)]

end PassionProjects.PebbleDB.Util
