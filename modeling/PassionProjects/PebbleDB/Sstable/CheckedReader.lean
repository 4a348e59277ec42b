/-
  PassionProjects.PebbleDB.Sstable.CheckedReader

  The decoders and the reader once more, with every step that the machine gives
  no meaning to ending the run: an index or a slice outside its buffer, a file
  read past the end of the file, a size that wraps, a remainder by zero, a loop
  that is handed as much input as it had.  `length` is the length of the file.

  Where such a run has a result it is the one `Sstable.Reader` computes.
-/

import PassionProjects.Lib.Results
import PassionProjects.PebbleDB.Sstable.Reader

namespace PassionProjects.PebbleDB.Sstable.Checked

open PassionProjects.Checked
open PassionProjects.PebbleDB.Util
open PassionProjects.PebbleDB.Cache

/-- `DecodeFixed32` at an offset of a buffer. -/
def fixed32 (buf : Bytes) (offset : Nat) : Option UInt32 := (slice buf offset 4).map decodeFixed32

/-- `DecodeFixed64` at an offset of a buffer. -/
def fixed64 (buf : Bytes) (offset : Nat) : Option UInt64 := (slice buf offset 8).map decodeFixed64

-- ============================================================================
-- Decoders
-- ============================================================================

/-- `DecodeEntry`. -/
def decodeEntry (input : Bytes) : Option (Except DecodeStatus (Entry × Bytes)) :=
  if input.length < kEntryHeaderSize then some (.error .kTruncated)
  else do
    let typeByte ← input[0]?
    match entryTypeOf typeByte with
    | none => some (.error .kBadEntryType)
    | some type =>
      let sequence ← fixed64 input 1
      let keyLength ← fixed32 input 9
      let valueLength ← fixed32 input 13
      let withKey ← add kEntryHeaderSize keyLength.toNat
      let total ← add withKey valueLength.toNat
      if input.length < total then some (.error .kTruncated)
      else
        let key ← slice input kEntryHeaderSize keyLength.toNat
        let value ← slice input withKey valueLength.toNat
        let rest ← removePrefix input total
        some (.ok (⟨key, sequence, type, value⟩, rest))

/-- `DecodeIndexEntry`. -/
def decodeIndexEntry (input : Bytes) : Option (Except DecodeStatus (IndexEntry × Bytes)) :=
  if input.length < 4 then some (.error .kTruncated)
  else do
    let keyLength ← fixed32 input 0
    let total ← add kFixedPart keyLength.toNat
    if input.length < total then some (.error .kTruncated)
    else
      let lastKey ← slice input 4 keyLength.toNat
      let offset ← fixed64 input (4 + keyLength.toNat)
      let size ← fixed64 input (4 + keyLength.toNat + 8)
      let rest ← removePrefix input total
      some (.ok (⟨lastKey, ⟨offset, size⟩⟩, rest))

/-- `VerifyAndStripBlockTrailer`. -/
def verifyAndStripBlockTrailer (rawBlock : Bytes) : Option (Except DecodeStatus Bytes) :=
  if rawBlock.length < kBlockTrailerSize then some (.error .kTruncated)
  else do
    let entriesLen ← sub rawBlock.length kBlockTrailerSize
    let entries ← slice rawBlock 0 entriesLen
    let compression ← rawBlock[entriesLen]?
    if compression ≠ kNone then some (.error .kUnsupportedCompression)
    else
      let storedChecksum ← fixed32 rawBlock (entriesLen + 1)
      if blockChecksum entries compression ≠ storedChecksum then some (.error .kChecksumMismatch)
      else some (.ok entries)

/-- `DecodeFooter`. -/
def decodeFooter (footerBytes : Bytes) : Option (Except DecodeStatus Footer) :=
  if footerBytes.length < kFooterSize then some (.error .kTruncated)
  else do
    let magic ← fixed32 footerBytes kFooterMagicOffset
    if magic ≠ kMagic then some (.error .kBadMagic)
    else
      let formatVersion ← footerBytes[kFooterFormatVersionOffset]?
      if formatVersion = 0 ∨ formatVersion > kFormatVersion then
        some (.error .kUnsupportedVersion)
      else
        let storedChecksum ← fixed32 footerBytes 0
        let covered ← slice footerBytes kFooterMagicOffset (kFooterSize - kFooterMagicOffset)
        if crc32c covered ≠ storedChecksum then some (.error .kChecksumMismatch)
        else
          let indexOffset ← fixed64 footerBytes kFooterIndexOffsetOffset
          let indexSize ← fixed64 footerBytes kFooterIndexSizeOffset
          let filterOffset ← fixed64 footerBytes kFooterFilterOffsetOffset
          let filterSize ← fixed64 footerBytes kFooterFilterSizeOffset
          let numEntries ← fixed64 footerBytes kFooterNumEntriesOffset
          some (.ok {
            storedChecksum := storedChecksum
            formatVersion := formatVersion
            indexHandle := ⟨indexOffset, indexSize⟩
            filterHandle := ⟨filterOffset, filterSize⟩
            numEntries := numEntries })

-- ============================================================================
-- The filter
-- ============================================================================

/-- The probe loop of `KeyMayMatch`. -/
def checkProbes (numBits h2 : UInt32) (bits : Bytes) : Nat → UInt32 → Option Bool
  | 0, _ => some true
  | n + 1, g =>
    if numBits = 0 then none
    else do
      let byte ← bits[(g % numBits / 8).toNat]?
      if byte &&& Bloom.bitMask (g % numBits) != 0 then checkProbes numBits h2 bits n (g + h2)
      else some false

/-- `KeyMayMatch`. -/
def keyMayMatch (key : Key) (filter : Bytes) : Option Bool :=
  if filter.length < 2 then some true
  else do
    let numProbes ← filter[0]?
    let bits ← removePrefix filter 1
    let h1 := Bloom.hash1 key
    checkProbes (UInt64.ofNat bits.length * 8).toUInt32 (Bloom.hash2 h1) bits numProbes.toNat h1

-- ============================================================================
-- The reader
-- ============================================================================

/-- `ReadAt` inside the file. -/
def readAt (file : ReadableFile) (length : Nat) (offset n : UInt64) :
    Option (Except Status (Bytes × Bool)) :=
  if offset.toNat + n.toNat ≤ length then some (file.readAt offset n) else none

/-- `ValidateHandleInBounds`. -/
def validateHandleInBounds (handle : BlockHandle) (fileSize : UInt64) (what : String) :
    Option Status :=
  if handle.size > fileSize then
    some (Status.Corruption (what ++ ": block handle extends beyond file size"))
  else do
    let limit ← sub fileSize.toNat handle.size.toNat
    if handle.offset.toNat > limit then
      some (Status.Corruption (what ++ ": block handle extends beyond file size"))
    else some Status.OK

/-- `ReadBlock`. -/
def readBlock (file : ReadableFile) (length : Nat) (fileSize : UInt64) (handle : BlockHandle) :
    Option (Except Status Bytes) := do
  let boundsStatus ← validateHandleInBounds handle fileSize "sstable block"
  if boundsStatus.ok then
    match ← readAt file length handle.offset handle.size with
    | .error s => some (.error s)
    | .ok (_, true) => some (.error (Status.Corruption "short read while reading sstable block"))
    | .ok (rawBlock, false) =>
      match ← verifyAndStripBlockTrailer rawBlock with
      | .error ds => some (.error (toStatus ds "sstable block"))
      | .ok entries => some (.ok entries)
  else some (.error boundsStatus)

/-- The index loop of `Open`; without turns left it would not have ended. -/
def decodeIndex : Nat → Bytes → Option (Except Status (List IndexEntry))
  | 0, remaining => if remaining.isEmpty then some (.ok []) else none
  | turns + 1, remaining =>
    if remaining.isEmpty then some (.ok [])
    else do
      match ← decodeIndexEntry remaining with
      | .error ds => some (.error (toStatus ds "sstable index entry"))
      | .ok (entry, rest) =>
        let rest ← shrink remaining rest
        match ← decodeIndex turns rest with
        | .error s => some (.error s)
        | .ok entries => some (.ok (entry :: entries))

/-- The index block of `Open`. -/
def openIndex (file : ReadableFile) (length : Nat) (fileSize : UInt64) (handle : BlockHandle) :
    Option (Except Status (List IndexEntry)) :=
  if handle.size > 0 then do
    match ← readBlock file length fileSize handle with
    | .error s => some (.error s)
    | .ok view => decodeIndex view.length view
  else some (.ok [])

/-- The filter block of `Open`. -/
def openFilter (file : ReadableFile) (length : Nat) (fileSize : UInt64) (handle : BlockHandle) :
    Option (Except Status Bytes) :=
  if handle.size > 0 then readBlock file length fileSize handle else some (.ok [])

/-- `Open` once the footer is decoded. -/
def openWith (file : ReadableFile) (length : Nat) (fileSize fileId : UInt64) (footer : Footer) :
    Option (Except Status Reader) := do
  let indexStatus ← validateHandleInBounds footer.indexHandle fileSize "sstable index handle"
  if ¬ indexStatus.ok then some (.error indexStatus)
  else
    let filterStatus ← validateHandleInBounds footer.filterHandle fileSize "sstable filter handle"
    if ¬ filterStatus.ok then some (.error filterStatus)
    else
      match ← openIndex file length fileSize footer.indexHandle with
      | .error s => some (.error s)
      | .ok index =>
        match ← openFilter file length fileSize footer.filterHandle with
        | .error s => some (.error s)
        | .ok filter => some (.ok ⟨file, footer, index, filter, fileSize, fileId⟩)

/-- `Open`, from what `PosixFile::OpenRead` returned. -/
def openReader (opened : Except Status ReadableFile) (length : Nat) (fileId : UInt64) :
    Option (Except Status Reader) :=
  match opened with
  | .error s => some (.error s)
  | .ok file =>
    match file.size with
    | .error s => some (.error s)
    | .ok fileSize =>
      if fileSize < UInt64.ofNat kFooterSize then
        some (.error (Status.Corruption "sstable file is smaller than a footer"))
      else do
        let offset ← sub fileSize.toNat kFooterSize
        match ← readAt file length (UInt64.ofNat offset) (UInt64.ofNat kFooterSize) with
        | .error s => some (.error s)
        | .ok (_, true) =>
          some (.error (Status.Corruption "short read while reading sstable footer"))
        | .ok (footerBuf, false) =>
          match ← decodeFooter footerBuf with
          | .error ds => some (.error (toStatus ds "sstable footer"))
          | .ok footer => openWith file length fileSize fileId footer

/-- `ReadDataBlock`. -/
def readDataBlock (r : Reader) (length : Nat) (cache : Option BlockCache) (handle : BlockHandle) :
    Option (Except Status Bytes × Option BlockCache) :=
  match cache with
  | none => do
    let block ← readBlock r.file length r.fileSize handle
    some (block, none)
  | some c =>
    match c.lookup r.fileId handle.offset with
    | (some entries, c) => some (.ok entries, some c)
    | (none, c) => do
      match ← readBlock r.file length r.fileSize handle with
      | .error s => some (.error s, some c)
      | .ok entries => some (.ok entries, some (c.insert r.fileId handle.offset entries))

/-- The loop of `Get` over the entries of a block. -/
def searchBlock (key : Key) : Nat → Bytes → Option (Except Status LookupResult)
  | 0, view => if view.isEmpty then some (.ok .kNotFound) else none
  | turns + 1, view =>
    if view.isEmpty then some (.ok .kNotFound)
    else do
      match ← decodeEntry view with
      | .error ds => some (.error (toStatus ds "sstable data entry"))
      | .ok (entry, rest) =>
        if entry.key = key then some (.ok (.ofEntry entry.sequence entry.type entry.value))
        else if entry.key > key then some (.ok .kNotFound)
        else
          let rest ← shrink view rest
          searchBlock key turns rest

/-- `Get` behind the filter. -/
def getUnfiltered (r : Reader) (length : Nat) (cache : Option BlockCache) (key : Key) :
    Option (Except Status LookupResult × Option BlockCache) :=
  match r.blockFor key with
  | none => some (.ok .kNotFound, cache)
  | some it => do
    match ← readDataBlock r length cache it.handle with
    | (.error s, cache) => some (.error s, cache)
    | (.ok view, cache) =>
      let result ← searchBlock key view.length view
      some (result, cache)

/-- `Get`. -/
def get (r : Reader) (length : Nat) (cache : Option BlockCache) (key : Key) :
    Option (Except Status LookupResult × Option BlockCache) := do
  let passes ← if r.filter.isEmpty then some true else keyMayMatch key r.filter
  if passes then getUnfiltered r length cache key else some (.ok .kNotFound, cache)

/-- The inner loop of `ForEachEntry`. -/
def entriesOf : Nat → Bytes → Option (List Entry × Status)
  | 0, view => if view.isEmpty then some ([], Status.OK) else none
  | turns + 1, view =>
    if view.isEmpty then some ([], Status.OK)
    else do
      match ← decodeEntry view with
      | .error ds => some ([], toStatus ds "sstable data entry")
      | .ok (entry, rest) =>
        let rest ← shrink view rest
        let (entries, s) ← entriesOf turns rest
        some (entry :: entries, s)

/-- The loop of `ForEachEntry` over the index. -/
def forEachBlock (r : Reader) (length : Nat) : List IndexEntry → Option BlockCache →
    Option (List Entry × Status × Option BlockCache)
  | [], cache => some ([], Status.OK, cache)
  | indexEntry :: rest, cache => do
    match ← readDataBlock r length cache indexEntry.handle with
    | (.error s, cache) => some ([], s, cache)
    | (.ok view, cache) =>
      let (entries, s) ← entriesOf view.length view
      if s.ok then
        let (others, s, cache) ← forEachBlock r length rest cache
        some (entries ++ others, s, cache)
      else some (entries, s, cache)

/-- `ForEachEntry`. -/
def forEachEntry (r : Reader) (length : Nat) (cache : Option BlockCache) :
    Option (List Entry × Status × Option BlockCache) := forEachBlock r length r.index cache

end PassionProjects.PebbleDB.Sstable.Checked
