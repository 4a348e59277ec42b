/-
  PassionProjects.PebbleDB.Sstable.Format

  The table format (`sstable/format.cpp`): entries, index entries, the trailer
  every block ends with, and the footer.  Each decoder reads back what its
  encoder wrote, whatever follows it in the buffer.
-/

import PassionProjects.PebbleDB.Util.Coding
import PassionProjects.PebbleDB.Util.Crc32c

namespace PassionProjects.PebbleDB

/-- The byte of an entry type. -/
def EntryType.toByte : EntryType → UInt8
  | .kValue => 1
  | .kTombstone => 2

/-- What a table keeps of a value: nothing for a tombstone. -/
def EntryType.kept (type : EntryType) (value : Value) : Value :=
  match type with
  | .kTombstone => []
  | .kValue => value

/-- What a table keeps of an entry. -/
def Entry.stored (e : Entry) : Entry := { e with value := e.type.kept e.value }

@[simp] theorem Entry.stored_key (e : Entry) : e.stored.key = e.key := rfl

/-- The length fields of an entry hold its lengths. -/
def Entry.Fits (e : Entry) : Prop := e.key.length < 2 ^ 32 ∧ e.value.length < 2 ^ 32

namespace Sstable

open PassionProjects.PebbleDB.Util

def kMagic : UInt32 := 0x50425354
def kFormatVersion : UInt8 := 1
def kEntryHeaderSize : Nat := 17
def kBlockTrailerSize : Nat := 5
def kFooterSize : Nat := 49

/-- `CompressionType::kNone`. -/
def kNone : UInt8 := 0

structure BlockHandle where
  offset : UInt64
  size : UInt64
  deriving DecidableEq, Repr

structure IndexEntry where
  lastKey : Key
  handle : BlockHandle
  deriving DecidableEq, Repr

structure Footer where
  storedChecksum : UInt32 := 0
  formatVersion : UInt8
  indexHandle : BlockHandle
  filterHandle : BlockHandle
  numEntries : UInt64
  deriving DecidableEq, Repr

/-- `DecodeStatus` other than `kOk`. -/
inductive DecodeStatus where
  | kTruncated
  | kBadMagic
  | kUnsupportedVersion
  | kChecksumMismatch
  | kBadEntryType
  | kUnsupportedCompression
  deriving DecidableEq, Repr

/-- `DecodeStatusName`. -/
def DecodeStatus.name : DecodeStatus → String
  | .kTruncated => "Truncated"
  | .kBadMagic => "BadMagic"
  | .kUnsupportedVersion => "UnsupportedVersion"
  | .kChecksumMismatch => "ChecksumMismatch"
  | .kBadEntryType => "BadEntryType"
  | .kUnsupportedCompression => "UnsupportedCompression"

-- ============================================================================
-- Entries
-- ============================================================================

/-- `EncodeEntry`: the bytes it appends. -/
def encodeEntry (key : Key) (sequence : UInt64) (type : EntryType) (value : Value) : Bytes :=
  [type.toByte] ++ (putFixed64 sequence ++ (putFixed32 (UInt32.ofNat key.length) ++
    (putFixed32 (UInt32.ofNat (type.kept value).length) ++ (key ++ type.kept value))))

/-- The entry type of a byte, as `DecodeEntry` accepts it. -/
def entryTypeOf (typeByte : UInt8) : Option EntryType :=
  if typeByte = EntryType.kValue.toByte then some .kValue
  else if typeByte = EntryType.kTombstone.toByte then some .kTombstone
  else none

/-- `DecodeEntry`: the entry, and the input it leaves. -/
def decodeEntry (input : Bytes) : Except DecodeStatus (Entry × Bytes) :=
  if input.length < kEntryHeaderSize then .error .kTruncated
  else
    match entryTypeOf (input.getD 0 0) with
    | none => .error .kBadEntryType
    | some type =>
      let sequence := decodeFixed64 (input.drop 1)
      let keyLength := (decodeFixed32 (input.drop 9)).toNat
      let valueLength := (decodeFixed32 (input.drop 13)).toNat
      let total := kEntryHeaderSize + keyLength + valueLength
      if input.length < total then .error .kTruncated
      else .ok (
        { key := (input.drop kEntryHeaderSize).take keyLength
          sequence := sequence
          type := type
          value := (input.drop (kEntryHeaderSize + keyLength)).take valueLength },
        input.drop total)

@[simp] theorem entryTypeOf_toByte (type : EntryType) : entryTypeOf type.toByte = some type := by
  cases type <;> rfl

theorem length_kept_le (type : EntryType) (value : Value) :
    (type.kept value).length ≤ value.length := by
  cases type <;> simp [EntryType.kept]

theorem encodeEntry_length (key : Key) (sequence : UInt64) (type : EntryType) (value : Value) :
    (encodeEntry key sequence type value).length =
      kEntryHeaderSize + key.length + (type.kept value).length := by
  simp only [encodeEntry, List.length_append, List.length_singleton, putFixed64_length,
    putFixed32_length, kEntryHeaderSize]
  omega

theorem toNat_ofNat_length {n : Nat} (h : n < 2 ^ 32) : (UInt32.ofNat n).toNat = n := by
  rw [UInt32.toNat_ofNat']
  omega

/-- `DecodeEntry` reads back an entry, less the value of a tombstone. -/
theorem decodeEntry_encodeEntry {e : Entry} (h : e.Fits) (rest : Bytes) :
    decodeEntry (encodeEntry e.key e.sequence e.type e.value ++ rest) = .ok (e.stored, rest) := by
  obtain ⟨key, sequence, type, value⟩ := e
  obtain ⟨hkey, hvalue⟩ := h
  have hkept : (type.kept value).length < 2 ^ 32 :=
    Nat.lt_of_le_of_lt (length_kept_le type value) hvalue
  have hbytes : encodeEntry key sequence type value ++ rest =
      type.toByte :: (putFixed64 sequence ++ (putFixed32 (UInt32.ofNat key.length) ++
        (putFixed32 (UInt32.ofNat (type.kept value).length) ++
          (key ++ (type.kept value ++ rest))))) := by
    simp [encodeEntry]
  have htype : (encodeEntry key sequence type value ++ rest).getD 0 0 = type.toByte := by
    rw [hbytes]
    rfl
  have hseq : decodeFixed64 ((encodeEntry key sequence type value ++ rest).drop 1) = sequence := by
    rw [hbytes]
    exact decodeFixed64_putFixed64 sequence _
  have hkeyLen : decodeFixed32 ((encodeEntry key sequence type value ++ rest).drop 9) =
      UInt32.ofNat key.length := by
    rw [hbytes]
    exact decodeFixed32_putFixed32 _ _
  have hvalueLen : decodeFixed32 ((encodeEntry key sequence type value ++ rest).drop 13) =
      UInt32.ofNat (type.kept value).length := by
    rw [hbytes]
    exact decodeFixed32_putFixed32 _ _
  have hpayload : (encodeEntry key sequence type value ++ rest).drop kEntryHeaderSize =
      key ++ (type.kept value ++ rest) := by
    rw [hbytes]
    rfl
  have hafterKey : (encodeEntry key sequence type value ++ rest).drop
      (kEntryHeaderSize + key.length) = type.kept value ++ rest := by
    rw [← List.drop_drop, hpayload, List.drop_left]
  have hrest : (encodeEntry key sequence type value ++ rest).drop
      (kEntryHeaderSize + key.length + (type.kept value).length) = rest := by
    rw [← List.drop_drop, hafterKey, List.drop_left]
  have hlen : (encodeEntry key sequence type value ++ rest).length =
      kEntryHeaderSize + key.length + (type.kept value).length + rest.length := by
    rw [List.length_append, encodeEntry_length]
  have hlong : ¬ (encodeEntry key sequence type value ++ rest).length < kEntryHeaderSize := by
    omega
  have htotal : ¬ (encodeEntry key sequence type value ++ rest).length <
      kEntryHeaderSize + key.length + (type.kept value).length := by omega
  simp only [decodeEntry, if_neg hlong, htype, entryTypeOf_toByte, hseq, hkeyLen, hvalueLen,
    toNat_ofNat_length hkey, toNat_ofNat_length hkept, if_neg htotal, hpayload, hafterKey, hrest,
    List.take_left]
  rfl

/-- What is decoded is shorter than what it was decoded from. -/
theorem decodeEntry_shrinks {input rest : Bytes} {e : Entry}
    (h : decodeEntry input = .ok (e, rest)) :
    rest.length + kEntryHeaderSize ≤ input.length := by
  unfold decodeEntry at h
  by_cases hshort : input.length < kEntryHeaderSize
  · rw [if_pos hshort] at h
    exact absurd h (by simp)
  · rw [if_neg hshort] at h
    cases htype : entryTypeOf (input.getD 0 0) with
    | none => rw [htype] at h; exact absurd h (by simp)
    | some type =>
        rw [htype] at h
        simp only at h
        split at h
        · exact absurd h (by simp)
        · have hrest := (Prod.mk.inj (Except.ok.inj h)).2
          rw [← hrest, List.length_drop]
          omega

-- ============================================================================
-- Index entries
-- ============================================================================

/-- `kFixedPart` of `DecodeIndexEntry`: key_length(4) + offset(8) + size(8). -/
def kFixedPart : Nat := 20

/-- `EncodeIndexEntry`: the bytes it appends. -/
def encodeIndexEntry (entry : IndexEntry) : Bytes :=
  putFixed32 (UInt32.ofNat entry.lastKey.length) ++ (entry.lastKey ++
    (putFixed64 entry.handle.offset ++ putFixed64 entry.handle.size))

/-- `DecodeIndexEntry`: the entry, and the input it leaves. -/
def decodeIndexEntry (input : Bytes) : Except DecodeStatus (IndexEntry × Bytes) :=
  if input.length < 4 then .error .kTruncated
  else
    let keyLength := (decodeFixed32 input).toNat
    let total := kFixedPart + keyLength
    if input.length < total then .error .kTruncated
    else .ok (
      { lastKey := (input.drop 4).take keyLength
        handle :=
          { offset := decodeFixed64 (input.drop (4 + keyLength))
            size := decodeFixed64 (input.drop (4 + keyLength + 8)) } },
      input.drop total)

theorem encodeIndexEntry_length (entry : IndexEntry) :
    (encodeIndexEntry entry).length = kFixedPart + entry.lastKey.length := by
  simp only [encodeIndexEntry, List.length_append, putFixed64_length, putFixed32_length, kFixedPart]
  omega

/-- `DecodeIndexEntry` reads back an index entry. -/
theorem decodeIndexEntry_encodeIndexEntry {entry : IndexEntry} (h : entry.lastKey.length < 2 ^ 32)
    (rest : Bytes) : decodeIndexEntry (encodeIndexEntry entry ++ rest) = .ok (entry, rest) := by
  obtain ⟨key, offset, size⟩ := entry
  have hbytes : encodeIndexEntry ⟨key, offset, size⟩ ++ rest =
      putFixed32 (UInt32.ofNat key.length) ++ (key ++ (putFixed64 offset ++
        (putFixed64 size ++ rest))) := by simp [encodeIndexEntry]
  have hkeyLen : decodeFixed32 (encodeIndexEntry ⟨key, offset, size⟩ ++ rest) =
      UInt32.ofNat key.length := by
    rw [hbytes]
    exact decodeFixed32_putFixed32 _ _
  have hkey : (encodeIndexEntry ⟨key, offset, size⟩ ++ rest).drop 4 =
      key ++ (putFixed64 offset ++ (putFixed64 size ++ rest)) := by
    rw [hbytes]
    rfl
  have hoffset : (encodeIndexEntry ⟨key, offset, size⟩ ++ rest).drop (4 + key.length) =
      putFixed64 offset ++ (putFixed64 size ++ rest) := by
    rw [← List.drop_drop, hkey, List.drop_left]
  have hsize : (encodeIndexEntry ⟨key, offset, size⟩ ++ rest).drop (4 + key.length + 8) =
      putFixed64 size ++ rest := by
    rw [← List.drop_drop, hoffset]
    rfl
  have hrest : (encodeIndexEntry ⟨key, offset, size⟩ ++ rest).drop (kFixedPart + key.length) =
      rest := by
    have hsum : kFixedPart + key.length = 4 + key.length + 8 + 8 := by
      simp only [kFixedPart]
      omega
    rw [hsum, ← List.drop_drop, hsize]
    rfl
  have hlen : (encodeIndexEntry ⟨key, offset, size⟩ ++ rest).length =
      kFixedPart + key.length + rest.length := by
    rw [List.length_append, encodeIndexEntry_length]
  have hlong : ¬ (encodeIndexEntry ⟨key, offset, size⟩ ++ rest).length < 4 := by
    simp only [kFixedPart] at hlen
    omega
  have htotal : ¬ (encodeIndexEntry ⟨key, offset, size⟩ ++ rest).length <
      kFixedPart + key.length := by omega
  simp only [decodeIndexEntry, if_neg hlong, hkeyLen, toNat_ofNat_length h, if_neg htotal, hkey,
    hoffset, hsize, hrest, List.take_left, decodeFixed64_putFixed64]

/-- What is decoded is shorter than what it was decoded from. -/
theorem decodeIndexEntry_shrinks {input rest : Bytes} {entry : IndexEntry}
    (h : decodeIndexEntry input = .ok (entry, rest)) :
    rest.length + kFixedPart ≤ input.length := by
  unfold decodeIndexEntry at h
  by_cases hshort : input.length < 4
  · rw [if_pos hshort] at h
    exact absurd h (by simp)
  · rw [if_neg hshort] at h
    simp only at h
    split at h
    · exact absurd h (by simp)
    · have hrest := (Prod.mk.inj (Except.ok.inj h)).2
      rw [← hrest, List.length_drop]
      omega

-- ============================================================================
-- Blocks
-- ============================================================================

/-- The checksum of a block: its contents, then the compression byte. -/
def blockChecksum (contents : Bytes) (compression : UInt8) : UInt32 :=
  extendCrc32c (crc32c contents) [compression]

/-- `FinishBlock`: the bytes it appends. -/
def finishBlock (contents : Bytes) : Bytes :=
  contents ++ ([kNone] ++ putFixed32 (blockChecksum contents kNone))

/-- `VerifyAndStripBlockTrailer`. -/
def verifyAndStripBlockTrailer (rawBlock : Bytes) : Except DecodeStatus Bytes :=
  if rawBlock.length < kBlockTrailerSize then .error .kTruncated
  else
    let entriesLen := rawBlock.length - kBlockTrailerSize
    let entries := rawBlock.take entriesLen
    let compression := rawBlock.getD entriesLen 0
    if compression ≠ kNone then .error .kUnsupportedCompression
    else if blockChecksum entries compression ≠ decodeFixed32 (rawBlock.drop (entriesLen + 1)) then
      .error .kChecksumMismatch
    else .ok entries

@[simp] theorem finishBlock_length (contents : Bytes) :
    (finishBlock contents).length = contents.length + kBlockTrailerSize := by
  simp [finishBlock, kBlockTrailerSize]

/-- The trailer of a finished block verifies. -/
theorem verify_finishBlock (contents : Bytes) :
    verifyAndStripBlockTrailer (finishBlock contents) = .ok contents := by
  have hlen : (finishBlock contents).length - kBlockTrailerSize = contents.length := by
    rw [finishBlock_length, Nat.add_sub_cancel]
  have hlong : ¬ (finishBlock contents).length < kBlockTrailerSize := by
    rw [finishBlock_length]
    omega
  have htake : (finishBlock contents).take contents.length = contents := List.take_left
  have hdrop : (finishBlock contents).drop contents.length =
      kNone :: putFixed32 (blockChecksum contents kNone) := List.drop_left
  have hcompression : (finishBlock contents).getD contents.length 0 = kNone := by
    rw [List.getD_eq_getElem?_getD, ← Nat.add_zero contents.length, ← List.getElem?_drop, hdrop]
    rfl
  have hsum : decodeFixed32 ((finishBlock contents).drop (contents.length + 1)) =
      blockChecksum contents kNone := by
    rw [← List.drop_drop, hdrop]
    have := decodeFixed32_putFixed32 (blockChecksum contents kNone) []
    rwa [List.append_nil] at this
  simp only [verifyAndStripBlockTrailer, if_neg hlong, hlen, htake, hcompression, hsum, ne_eq,
    not_true_eq_false, if_false]

-- ============================================================================
-- The footer
-- ============================================================================

def kFooterMagicOffset : Nat := 4
def kFooterFormatVersionOffset : Nat := 8
def kFooterIndexOffsetOffset : Nat := 9
def kFooterIndexSizeOffset : Nat := 17
def kFooterFilterOffsetOffset : Nat := 25
def kFooterFilterSizeOffset : Nat := 33
def kFooterNumEntriesOffset : Nat := 41

/-- The checksummed region of `EncodeFooter`. -/
def encodeFooterBody (footer : Footer) : Bytes :=
  putFixed32 kMagic ++ ([footer.formatVersion] ++ (putFixed64 footer.indexHandle.offset ++
    (putFixed64 footer.indexHandle.size ++ (putFixed64 footer.filterHandle.offset ++
      (putFixed64 footer.filterHandle.size ++ putFixed64 footer.numEntries)))))

/-- `EncodeFooter`: the bytes it appends. -/
def encodeFooter (footer : Footer) : Bytes :=
  putFixed32 (crc32c (encodeFooterBody footer)) ++ encodeFooterBody footer

/-- `DecodeFooter`. -/
def decodeFooter (footerBytes : Bytes) : Except DecodeStatus Footer :=
  if footerBytes.length < kFooterSize then .error .kTruncated
  else if decodeFixed32 (footerBytes.drop kFooterMagicOffset) ≠ kMagic then .error .kBadMagic
  else
    let formatVersion := footerBytes.getD kFooterFormatVersionOffset 0
    if formatVersion = 0 ∨ formatVersion > kFormatVersion then .error .kUnsupportedVersion
    else
      let storedChecksum := decodeFixed32 footerBytes
      let covered := (footerBytes.drop kFooterMagicOffset).take (kFooterSize - kFooterMagicOffset)
      if crc32c covered ≠ storedChecksum then .error .kChecksumMismatch
      else .ok {
        storedChecksum := storedChecksum
        formatVersion := formatVersion
        indexHandle :=
          { offset := decodeFixed64 (footerBytes.drop kFooterIndexOffsetOffset)
            size := decodeFixed64 (footerBytes.drop kFooterIndexSizeOffset) }
        filterHandle :=
          { offset := decodeFixed64 (footerBytes.drop kFooterFilterOffsetOffset)
            size := decodeFixed64 (footerBytes.drop kFooterFilterSizeOffset) }
        numEntries := decodeFixed64 (footerBytes.drop kFooterNumEntriesOffset) }

@[simp] theorem encodeFooter_length (footer : Footer) :
    (encodeFooter footer).length = kFooterSize := rfl

/-- `DecodeFooter` reads back a footer of the current format. -/
theorem decodeFooter_encodeFooter {footer : Footer} (h : footer.formatVersion = kFormatVersion) :
    decodeFooter (encodeFooter footer) =
      .ok { footer with storedChecksum := crc32c (encodeFooterBody footer) } := by
  have hmagic : decodeFixed32 ((encodeFooter footer).drop kFooterMagicOffset) = kMagic :=
    decodeFixed32_putFixed32 kMagic _
  have hversion : (encodeFooter footer).getD kFooterFormatVersionOffset 0 = kFormatVersion := h
  have hsum : decodeFixed32 (encodeFooter footer) = crc32c (encodeFooterBody footer) :=
    decodeFixed32_putFixed32 _ _
  have hbody : ((encodeFooter footer).drop kFooterMagicOffset).take
      (kFooterSize - kFooterMagicOffset) = encodeFooterBody footer := rfl
  have hindexOffset : decodeFixed64 ((encodeFooter footer).drop kFooterIndexOffsetOffset) =
      footer.indexHandle.offset := decodeFixed64_putFixed64 _ _
  have hindexSize : decodeFixed64 ((encodeFooter footer).drop kFooterIndexSizeOffset) =
      footer.indexHandle.size := decodeFixed64_putFixed64 _ _
  have hfilterOffset : decodeFixed64 ((encodeFooter footer).drop kFooterFilterOffsetOffset) =
      footer.filterHandle.offset := decodeFixed64_putFixed64 _ _
  have hfilterSize : decodeFixed64 ((encodeFooter footer).drop kFooterFilterSizeOffset) =
      footer.filterHandle.size := decodeFixed64_putFixed64 _ _
  have hnum : decodeFixed64 ((encodeFooter footer).drop kFooterNumEntriesOffset) =
      footer.numEntries := by
    have := decodeFixed64_putFixed64 footer.numEntries []
    rwa [List.append_nil] at this
  have hlong : ¬ (encodeFooter footer).length < kFooterSize := by simp
  have hversion_ok : ¬ (kFormatVersion = 0 ∨ kFormatVersion > kFormatVersion) := by decide
  simp only [decodeFooter, if_neg hlong, hmagic, hversion, hsum, hbody, hindexOffset, hindexSize,
    hfilterOffset, hfilterSize, hnum, if_neg hversion_ok, ne_eq, not_true_eq_false, if_false, h]

end Sstable

end PassionProjects.PebbleDB
