/-
  PassionProjects.PebbleDB.Wal.Record

  WAL record v1 (`wal/record.cpp`): a 26-byte header followed by the key and the
  value.  The encoder, the two-stage decoder, and that the decoder reads back
  what the encoder wrote.
-/

import PassionProjects.PebbleDB.Util.Coding
import PassionProjects.PebbleDB.Util.Crc32c

namespace PassionProjects.PebbleDB.Wal

open PassionProjects.PebbleDB.Util

inductive RecordType where
  | kPut
  | kDelete
  deriving DecidableEq, Repr

/-- The op byte of a record type. -/
def RecordType.toByte : RecordType → UInt8
  | .kPut => 1
  | .kDelete => 2

structure Record where
  sequence : UInt64
  type : RecordType
  key : Key
  value : Value
  deriving DecidableEq, Repr

def kMagic : UInt32 := 0x50424B31
def kFormatVersion : UInt8 := 1

/-- checksum(4) + magic(4) + format_version(1) + op(1) + sequence(8) +
    key_length(4) + value_length(4) -/
def kHeaderSize : Nat := 26

def kMaxKeyLength : UInt32 := 1048576
def kMaxValueLength : UInt32 := 67108864

def kMagicOffset : Nat := 4
def kFormatVersionOffset : Nat := 8
def kOpOffset : Nat := 9
def kSequenceOffset : Nat := 10
def kKeyLengthOffset : Nat := 18
def kValueLengthOffset : Nat := 22

-- ============================================================================
-- Encoding
-- ============================================================================

/-- The value bytes a record puts in the log: none for a Delete. -/
def Record.storedValue (record : Record) : Value :=
  if record.type = .kDelete then [] else record.value

/-- The header after the checksum field. -/
def encodeHeaderRest (record : Record) : Bytes :=
  putFixed32 kMagic ++ ([kFormatVersion] ++ ([record.type.toByte] ++
    (putFixed64 record.sequence ++ (putFixed32 (UInt32.ofNat record.key.length) ++
      putFixed32 (UInt32.ofNat record.storedValue.length)))))

def encodePayload (record : Record) : Bytes := record.key ++ record.storedValue

/-- The checksummed region of `EncodeRecord`. -/
def encodeBody (record : Record) : Bytes := encodeHeaderRest record ++ encodePayload record

/-- `EncodeRecord`: the bytes it appends. -/
def encodeRecord (record : Record) : Bytes :=
  putFixed32 (crc32c (encodeBody record)) ++ encodeBody record

/-- Records encoded back to back. -/
def encodeRecords (records : List Record) : Bytes := records.flatMap encodeRecord

-- ============================================================================
-- Decoding
-- ============================================================================

/-- `DecodeStatus` other than `kOk`. -/
inductive DecodeStatus where
  | kTruncatedHeader
  | kBadMagic
  | kUnsupportedVersion
  | kBadLength
  | kTruncatedPayload
  | kBadOperation
  | kChecksumMismatch
  deriving DecidableEq, Repr

structure DecodedHeader where
  storedChecksum : UInt32
  formatVersion : UInt8
  opByte : UInt8
  sequence : UInt64
  keyLength : UInt32
  valueLength : UInt32
  deriving DecidableEq, Repr

/-- `key_length + value_length`, as a `size_t`. -/
def DecodedHeader.payloadLength (decoded : DecodedHeader) : Nat :=
  decoded.keyLength.toNat + decoded.valueLength.toNat

/-- `DecodeHeader`. -/
def decodeHeader (header : Bytes) : Except DecodeStatus DecodedHeader :=
  if header.length < kHeaderSize then .error .kTruncatedHeader
  else if decodeFixed32 (header.drop kMagicOffset) ≠ kMagic then .error .kBadMagic
  else
    let formatVersion := header.getD kFormatVersionOffset 0
    if formatVersion = 0 ∨ formatVersion > kFormatVersion then .error .kUnsupportedVersion
    else
      let keyLength := decodeFixed32 (header.drop kKeyLengthOffset)
      let valueLength := decodeFixed32 (header.drop kValueLengthOffset)
      if keyLength > kMaxKeyLength ∨ valueLength > kMaxValueLength then .error .kBadLength
      else .ok {
        storedChecksum := decodeFixed32 header
        formatVersion := formatVersion
        opByte := header.getD kOpOffset 0
        sequence := decodeFixed64 (header.drop kSequenceOffset)
        keyLength := keyLength
        valueLength := valueLength }

/-- The record type of an op byte, as `DecodeBody` accepts it. -/
def recordTypeOf (opByte : UInt8) : Option RecordType :=
  if opByte = RecordType.kPut.toByte then some .kPut
  else if opByte = RecordType.kDelete.toByte then some .kDelete
  else none

/-- The checksum `DecodeBody` computes over the header and the payload. -/
def bodyChecksum (header payload : Bytes) : UInt32 :=
  extendCrc32c (crc32c ((header.drop kMagicOffset).take (kHeaderSize - kMagicOffset))) payload

/-- `DecodeBody`. -/
def decodeBody (decoded : DecodedHeader) (header payload : Bytes) : Except DecodeStatus Record :=
  if payload.length < decoded.payloadLength then .error .kTruncatedPayload
  else if bodyChecksum header payload ≠ decoded.storedChecksum then .error .kChecksumMismatch
  else
    match recordTypeOf decoded.opByte with
    | none => .error .kBadOperation
    | some type => .ok {
        sequence := decoded.sequence
        type := type
        key := payload.take decoded.keyLength.toNat
        value := (payload.drop decoded.keyLength.toNat).take decoded.valueLength.toNat }

-- ============================================================================
-- Decoding inverts encoding
-- ============================================================================

/-- The bounds `Writer::AddRecord` enforces. -/
def Record.Fits (record : Record) : Prop :=
  record.key.length ≤ kMaxKeyLength.toNat ∧ record.storedValue.length ≤ kMaxValueLength.toNat

instance (record : Record) : Decidable record.Fits := by unfold Record.Fits; infer_instance

/-- What a log holds of a record: the value of a Delete is not persisted. -/
def Record.stored (record : Record) : Record := { record with value := record.storedValue }

/-- The header `EncodeRecord` writes. -/
def encodeHeader (record : Record) : Bytes :=
  putFixed32 (crc32c (encodeBody record)) ++ encodeHeaderRest record

theorem encodeRecord_eq (record : Record) :
    encodeRecord record = encodeHeader record ++ encodePayload record := by
  simp only [encodeRecord, encodeHeader, encodeBody, List.append_assoc]

@[simp] theorem encodeHeader_length (record : Record) :
    (encodeHeader record).length = kHeaderSize := rfl

theorem take_encodeHeader (record : Record) (rest : Bytes) :
    (encodeHeader record ++ rest).take kHeaderSize = encodeHeader record := by
  rw [← encodeHeader_length record, List.take_left]

theorem drop_encodeHeader (record : Record) (rest : Bytes) :
    (encodeHeader record ++ rest).drop kHeaderSize = rest := by
  rw [← encodeHeader_length record, List.drop_left]

theorem encodePayload_length (record : Record) :
    (encodePayload record).length = record.key.length + record.storedValue.length := by
  simp [encodePayload]

theorem encodeRecord_length (record : Record) :
    (encodeRecord record).length = kHeaderSize + (encodePayload record).length := by
  rw [encodeRecord_eq, List.length_append, encodeHeader_length]

@[simp] theorem encodeRecords_nil : encodeRecords [] = [] := rfl

@[simp] theorem encodeRecords_cons (record : Record) (records : List Record) :
    encodeRecords (record :: records) = encodeRecord record ++ encodeRecords records := rfl

@[simp] theorem encodeRecords_append (xs ys : List Record) :
    encodeRecords (xs ++ ys) = encodeRecords xs ++ encodeRecords ys := by
  simp [encodeRecords]

@[simp] theorem recordTypeOf_toByte (type : RecordType) : recordTypeOf type.toByte = some type := by
  cases type <;> rfl

/-- The header fields of a record, as they are decoded. -/
def headerOf (record : Record) : DecodedHeader where
  storedChecksum := crc32c (encodeBody record)
  formatVersion := kFormatVersion
  opByte := record.type.toByte
  sequence := record.sequence
  keyLength := UInt32.ofNat record.key.length
  valueLength := UInt32.ofNat record.storedValue.length

theorem Record.Fits.keyLength {record : Record} (h : record.Fits) :
    (UInt32.ofNat record.key.length).toNat = record.key.length := by
  have hk : record.key.length ≤ 1048576 := h.1
  rw [UInt32.toNat_ofNat']
  omega

theorem Record.Fits.valueLength {record : Record} (h : record.Fits) :
    (UInt32.ofNat record.storedValue.length).toNat = record.storedValue.length := by
  have hv : record.storedValue.length ≤ 67108864 := h.2
  rw [UInt32.toNat_ofNat']
  omega

theorem Record.Fits.payloadLength {record : Record} (h : record.Fits) :
    (headerOf record).payloadLength = (encodePayload record).length := by
  rw [encodePayload_length]
  simp only [DecodedHeader.payloadLength, headerOf, h.keyLength, h.valueLength]

/-- `DecodeHeader` reads back the header of a record within bounds. -/
theorem decodeHeader_encodeHeader {record : Record} (h : record.Fits) :
    decodeHeader (encodeHeader record) = .ok (headerOf record) := by
  have hmagic : decodeFixed32 ((encodeHeader record).drop kMagicOffset) = kMagic :=
    decodeFixed32_putFixed32 kMagic _
  have hversion : (encodeHeader record).getD kFormatVersionOffset 0 = kFormatVersion := rfl
  have hop : (encodeHeader record).getD kOpOffset 0 = record.type.toByte := rfl
  have hseq : decodeFixed64 ((encodeHeader record).drop kSequenceOffset) = record.sequence :=
    decodeFixed64_putFixed64 record.sequence _
  have hkey : decodeFixed32 ((encodeHeader record).drop kKeyLengthOffset) =
      UInt32.ofNat record.key.length := decodeFixed32_putFixed32 _ _
  have hvalue : decodeFixed32 ((encodeHeader record).drop kValueLengthOffset) =
      UInt32.ofNat record.storedValue.length := by
    have := decodeFixed32_putFixed32 (UInt32.ofNat record.storedValue.length) []
    rwa [List.append_nil] at this
  have hsum : decodeFixed32 (encodeHeader record) = crc32c (encodeBody record) :=
    decodeFixed32_putFixed32 _ _
  have hkbound : ¬ UInt32.ofNat record.key.length > kMaxKeyLength := by
    rw [gt_iff_lt, UInt32.lt_iff_toNat_lt, h.keyLength]
    exact Nat.not_lt.mpr h.1
  have hvbound : ¬ UInt32.ofNat record.storedValue.length > kMaxValueLength := by
    rw [gt_iff_lt, UInt32.lt_iff_toNat_lt, h.valueLength]
    exact Nat.not_lt.mpr h.2
  have hversion_ok : ¬ (kFormatVersion = 0 ∨ kFormatVersion > kFormatVersion) := by decide
  have hlength : ¬ (encodeHeader record).length < kHeaderSize := by simp
  simp only [decodeHeader, if_neg hlength, hmagic, hversion, hop, hseq, hkey, hvalue, hsum,
    ne_eq, not_true_eq_false, if_false, if_neg hversion_ok, hkbound, hvbound, or_self, headerOf]

theorem bodyChecksum_encode (record : Record) :
    bodyChecksum (encodeHeader record) (encodePayload record) = crc32c (encodeBody record) := by
  have hrest : ((encodeHeader record).drop kMagicOffset).take (kHeaderSize - kMagicOffset) =
      encodeHeaderRest record := rfl
  rw [bodyChecksum, hrest, encodeBody, crc32c, crc32c, extendCrc32c_append]

/-- `DecodeBody` reads back the record, less the value of a Delete. -/
theorem decodeBody_encode {record : Record} (h : record.Fits) :
    decodeBody (headerOf record) (encodeHeader record) (encodePayload record) =
      .ok record.stored := by
  have hlength : ¬ (encodePayload record).length < (headerOf record).payloadLength := by
    rw [h.payloadLength]
    exact Nat.lt_irrefl _
  have hsum : bodyChecksum (encodeHeader record) (encodePayload record) =
      (headerOf record).storedChecksum := bodyChecksum_encode record
  have hkey : (encodePayload record).take (headerOf record).keyLength.toNat = record.key := by
    show (record.key ++ record.storedValue).take (UInt32.ofNat record.key.length).toNat = record.key
    rw [h.keyLength, List.take_left]
  have hvalue : ((encodePayload record).drop (headerOf record).keyLength.toNat).take
      (headerOf record).valueLength.toNat = record.storedValue := by
    show ((record.key ++ record.storedValue).drop (UInt32.ofNat record.key.length).toNat).take
      (UInt32.ofNat record.storedValue.length).toNat = record.storedValue
    rw [h.keyLength, h.valueLength, List.drop_left, List.take_length]
  have hop : recordTypeOf (headerOf record).opByte = some record.type :=
    recordTypeOf_toByte record.type
  simp only [decodeBody, if_neg hlength, hsum, ne_eq, not_true_eq_false, if_false, hop, hkey,
    hvalue]
  rfl

end PassionProjects.PebbleDB.Wal
