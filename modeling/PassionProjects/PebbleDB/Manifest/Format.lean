/-
  PassionProjects.PebbleDB.Manifest.Format

  The manifest format (`manifest/format.cpp`): a checksummed header with the
  three counters, followed by one fixed-size entry for each table, oldest first.
-/

import PassionProjects.PebbleDB.Util.Coding
import PassionProjects.PebbleDB.Util.Crc32c

namespace PassionProjects.PebbleDB.Manifest

open PassionProjects.PebbleDB.Util

structure TableFileInfo where
  fileNumber : UInt64
  level : UInt32
  deriving DecidableEq, Repr

/-- The defaults are those of a directory without a manifest. -/
structure ManifestData where
  nextFileNumber : UInt64 := 1
  walFileNumber : UInt64 := 0
  lastSequence : UInt64 := 0
  tables : List TableFileInfo := []
  deriving DecidableEq, Repr

def kMagic : UInt32 := 0x50424D46
def kFormatVersion : UInt8 := 1

def kHeaderSize : Nat := 37
def kTableEntrySize : Nat := 12
def kMaxTableCount : UInt32 := 1048576

def kMagicOffset : Nat := 4
def kFormatVersionOffset : Nat := 8
def kNextFileNumberOffset : Nat := 9
def kWalFileNumberOffset : Nat := 17
def kLastSequenceOffset : Nat := 25
def kNumTablesOffset : Nat := 33

/-- The body of the table loop of `EncodeManifest`. -/
def encodeTable (table : TableFileInfo) : Bytes :=
  putFixed64 table.fileNumber ++ putFixed32 table.level

/-- The checksummed region of `EncodeManifest`. -/
def encodeBody (data : ManifestData) : Bytes :=
  putFixed32 kMagic ++ ([kFormatVersion] ++ (putFixed64 data.nextFileNumber ++
    (putFixed64 data.walFileNumber ++ (putFixed64 data.lastSequence ++
      (putFixed32 (UInt32.ofNat data.tables.length) ++ data.tables.flatMap encodeTable)))))

/-- `EncodeManifest`: the bytes it appends. -/
def encodeManifest (data : ManifestData) : Bytes :=
  putFixed32 (crc32c (encodeBody data)) ++ encodeBody data

/-- `DecodeStatus` other than `kOk`. -/
inductive DecodeStatus where
  | kTruncated
  | kBadMagic
  | kUnsupportedVersion
  | kBadTableCount
  | kBadLength
  | kChecksumMismatch
  deriving DecidableEq, Repr

/-- `DecodeStatusName`. -/
def DecodeStatus.name : DecodeStatus → String
  | .kTruncated => "Truncated"
  | .kBadMagic => "BadMagic"
  | .kUnsupportedVersion => "UnsupportedVersion"
  | .kBadTableCount => "BadTableCount"
  | .kBadLength => "BadLength"
  | .kChecksumMismatch => "ChecksumMismatch"

/-- The table loop of `DecodeManifest`. -/
def decodeTables : Nat → Bytes → List TableFileInfo
  | 0, _ => []
  | n + 1, bytes =>
    ⟨decodeFixed64 bytes, decodeFixed32 (bytes.drop 8)⟩ ::
      decodeTables n (bytes.drop kTableEntrySize)

/-- `DecodeManifest`. -/
def decodeManifest (bytes : Bytes) : Except DecodeStatus ManifestData :=
  if bytes.length < kHeaderSize then .error .kTruncated
  else if decodeFixed32 (bytes.drop kMagicOffset) ≠ kMagic then .error .kBadMagic
  else
    let formatVersion := bytes.getD kFormatVersionOffset 0
    if formatVersion = 0 ∨ formatVersion > kFormatVersion then .error .kUnsupportedVersion
    else
      let numTables := decodeFixed32 (bytes.drop kNumTablesOffset)
      if numTables > kMaxTableCount then .error .kBadTableCount
      else
        let expectedSize := kHeaderSize + numTables.toNat * kTableEntrySize
        if bytes.length < expectedSize then .error .kTruncated
        else if bytes.length > expectedSize then .error .kBadLength
        else if crc32c ((bytes.drop kMagicOffset).take (expectedSize - kMagicOffset)) ≠
            decodeFixed32 bytes then .error .kChecksumMismatch
        else .ok {
          nextFileNumber := decodeFixed64 (bytes.drop kNextFileNumberOffset)
          walFileNumber := decodeFixed64 (bytes.drop kWalFileNumberOffset)
          lastSequence := decodeFixed64 (bytes.drop kLastSequenceOffset)
          tables := decodeTables numTables.toNat (bytes.drop kHeaderSize) }

-- ============================================================================
-- Decoding inverts encoding
-- ============================================================================

@[simp] theorem encodeTable_length (table : TableFileInfo) :
    (encodeTable table).length = kTableEntrySize := rfl

theorem encodeTables_length (tables : List TableFileInfo) :
    (tables.flatMap encodeTable).length = tables.length * kTableEntrySize := by
  induction tables with
  | nil => rfl
  | cons t ts ih =>
      rw [List.flatMap_cons, List.length_append, ih, encodeTable_length, List.length_cons,
        Nat.succ_mul, Nat.add_comm]

theorem decodeTables_encode (tables : List TableFileInfo) :
    decodeTables tables.length (tables.flatMap encodeTable) = tables := by
  induction tables with
  | nil => rfl
  | cons t ts ih =>
      have hnumber : decodeFixed64 ((t :: ts).flatMap encodeTable) = t.fileNumber := by
        rw [List.flatMap_cons, encodeTable, List.append_assoc]
        exact decodeFixed64_putFixed64 _ _
      have hlevel : decodeFixed32 (((t :: ts).flatMap encodeTable).drop 8) = t.level := by
        rw [List.flatMap_cons, encodeTable, List.append_assoc, ← putFixed64_length t.fileNumber,
          List.drop_left]
        exact decodeFixed32_putFixed32 _ _
      have hrest : ((t :: ts).flatMap encodeTable).drop kTableEntrySize =
          ts.flatMap encodeTable := by
        rw [List.flatMap_cons, ← encodeTable_length t, List.drop_left]
      rw [List.length_cons, decodeTables, hnumber, hlevel, hrest, ih]

theorem encodeManifest_length (data : ManifestData) :
    (encodeManifest data).length = kHeaderSize + data.tables.length * kTableEntrySize := by
  rw [← encodeTables_length]
  simp only [encodeManifest, encodeBody, List.length_append, putFixed32_length, putFixed64_length,
    List.length_singleton, kHeaderSize]
  omega

/-- What is encoded is decoded to the same data, as long as the number of tables
    stays within the bound that `DecodeManifest` checks. -/
theorem decodeManifest_encodeManifest (data : ManifestData)
    (h : data.tables.length ≤ kMaxTableCount.toNat) :
    decodeManifest (encodeManifest data) = .ok data := by
  have hcount : (UInt32.ofNat data.tables.length).toNat = data.tables.length := by
    have hle : data.tables.length ≤ 1048576 := h
    rw [UInt32.toNat_ofNat']
    omega
  have hbound : ¬ UInt32.ofNat data.tables.length > kMaxTableCount := by
    rw [gt_iff_lt, UInt32.lt_iff_toNat_lt, hcount]
    exact Nat.not_lt.mpr h
  have hmagic : decodeFixed32 ((encodeManifest data).drop kMagicOffset) = kMagic :=
    decodeFixed32_putFixed32 kMagic _
  have hversion : (encodeManifest data).getD kFormatVersionOffset 0 = kFormatVersion := rfl
  have hnum : decodeFixed32 ((encodeManifest data).drop kNumTablesOffset) =
      UInt32.ofNat data.tables.length := decodeFixed32_putFixed32 _ _
  have hnext : decodeFixed64 ((encodeManifest data).drop kNextFileNumberOffset) =
      data.nextFileNumber := decodeFixed64_putFixed64 _ _
  have hwal : decodeFixed64 ((encodeManifest data).drop kWalFileNumberOffset) =
      data.walFileNumber := decodeFixed64_putFixed64 _ _
  have hlast : decodeFixed64 ((encodeManifest data).drop kLastSequenceOffset) =
      data.lastSequence := decodeFixed64_putFixed64 _ _
  have htables : (encodeManifest data).drop kHeaderSize = data.tables.flatMap encodeTable := rfl
  have hsum : decodeFixed32 (encodeManifest data) = crc32c (encodeBody data) :=
    decodeFixed32_putFixed32 _ _
  have hbody : (encodeManifest data).drop kMagicOffset = encodeBody data := rfl
  have hcovered : (encodeBody data).take
      (kHeaderSize + data.tables.length * kTableEntrySize - kMagicOffset) = encodeBody data := by
    rw [← encodeManifest_length, List.take_of_length_le]
    rw [← hbody, List.length_drop]
  have hversion_ok : ¬ (kFormatVersion = 0 ∨ kFormatVersion > kFormatVersion) := by decide
  have hlong : ¬ kHeaderSize + data.tables.length * kTableEntrySize < kHeaderSize := by omega
  rw [hbody] at hmagic
  simp only [decodeManifest, encodeManifest_length, if_neg hlong, hbody, hmagic, hversion, hnum,
    hnext, hwal, hlast, htables, hsum, hcount, hcovered, if_neg hversion_ok, hbound, ne_eq,
    not_true_eq_false, if_false, Nat.lt_irrefl, gt_iff_lt, decodeTables_encode]

theorem decodeTables_length (n : Nat) (bytes : Bytes) : (decodeTables n bytes).length = n := by
  induction n generalizing bytes with
  | zero => rfl
  | succ n ih => rw [decodeTables, List.length_cons, ih]

/-- `DecodeManifest` accepts no more than `kMaxTableCount` tables. -/
theorem decodeManifest_tables_le {bytes : Bytes} {data : ManifestData}
    (h : decodeManifest bytes = .ok data) : data.tables.length ≤ kMaxTableCount.toNat := by
  simp only [decodeManifest] at h
  repeat' split at h
  all_goals cases h
  rename_i hcount _ _ _
  rw [decodeTables_length]
  exact Nat.not_lt.mp hcount

/-- The bound that `DecodeManifest` checks is exactly where the round trip ends. -/
theorem decodeManifest_encodeManifest_iff (data : ManifestData) :
    decodeManifest (encodeManifest data) = .ok data ↔
      data.tables.length ≤ kMaxTableCount.toNat :=
  ⟨decodeManifest_tables_le, decodeManifest_encodeManifest data⟩

/-- An accepted manifest is as long as its tables say. -/
theorem length_of_decodeManifest {bytes : Bytes} {data : ManifestData}
    (h : decodeManifest bytes = .ok data) :
    bytes.length = kHeaderSize + data.tables.length * kTableEntrySize := by
  simp only [decodeManifest] at h
  repeat' split at h
  all_goals cases h
  rw [decodeTables_length]
  omega

/-- Whatever is accepted of an encoded manifest is its data. -/
theorem eq_of_decodeManifest_encodeManifest {data md : ManifestData}
    (h : decodeManifest (encodeManifest data) = .ok md) : md = data := by
  have hlen := length_of_decodeManifest h
  rw [encodeManifest_length] at hlen
  have hpos : 0 < kTableEntrySize := by decide
  have hcount : data.tables.length = md.tables.length :=
    Nat.eq_of_mul_eq_mul_right hpos (Nat.add_left_cancel hlen)
  have hok := decodeManifest_encodeManifest data (hcount ▸ decodeManifest_tables_le h)
  exact Except.ok.inj (h.symm.trans hok)

/-- An encoded manifest determines its data, whatever the number of tables. -/
theorem encodeManifest_inj {a b : ManifestData} (h : encodeManifest a = encodeManifest b) :
    a = b := by
  have hnext (md : ManifestData) :
      decodeFixed64 ((encodeManifest md).drop kNextFileNumberOffset) = md.nextFileNumber :=
    decodeFixed64_putFixed64 _ _
  have hwal (md : ManifestData) :
      decodeFixed64 ((encodeManifest md).drop kWalFileNumberOffset) = md.walFileNumber :=
    decodeFixed64_putFixed64 _ _
  have hlast (md : ManifestData) :
      decodeFixed64 ((encodeManifest md).drop kLastSequenceOffset) = md.lastSequence :=
    decodeFixed64_putFixed64 _ _
  have htables (md : ManifestData) :
      decodeTables md.tables.length ((encodeManifest md).drop kHeaderSize) = md.tables :=
    decodeTables_encode md.tables
  have hlen : a.tables.length = b.tables.length := by
    have hlen := congrArg List.length h
    rw [encodeManifest_length, encodeManifest_length] at hlen
    have hpos : 0 < kTableEntrySize := by decide
    exact Nat.eq_of_mul_eq_mul_right hpos (Nat.add_left_cancel hlen)
  have hn := hnext a
  have hw := hwal a
  have hl := hlast a
  have ht := htables a
  rw [h, hnext b] at hn
  rw [h, hwal b] at hw
  rw [h, hlast b] at hl
  rw [h, hlen, htables b] at ht
  obtain ⟨nextA, walA, lastA, tablesA⟩ := a
  obtain ⟨nextB, walB, lastB, tablesB⟩ := b
  simp only at hn hw hl ht
  rw [hn, hw, hl, ht]

end PassionProjects.PebbleDB.Manifest
