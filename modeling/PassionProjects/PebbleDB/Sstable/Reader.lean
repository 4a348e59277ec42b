/-
  PassionProjects.PebbleDB.Sstable.Reader

  The table reader (`sstable/reader.cpp`) and the block cache it may share with
  other readers.

  A reader is a value; the cache is the state that `Get` and `ForEachEntry`
  pass on, absent when the reader was opened without one.  A call that would take
  a remainder by zero in the filter has no result.
-/

import PassionProjects.Lib.Sorted
import PassionProjects.PebbleDB.Bloom.BloomFilter
import PassionProjects.PebbleDB.Cache.BlockCache
import PassionProjects.PebbleDB.Sstable.Format

namespace PassionProjects.PebbleDB.Sstable

open PassionProjects.LowerBound
open PassionProjects.PebbleDB.Cache

/-- A file open for reading: `Size`, and `ReadAt` with its `short_read` flag. -/
structure ReadableFile where
  size : Except Status UInt64
  readAt : UInt64 → UInt64 → Except Status (Bytes × Bool)

/-- A file with these bytes on which no call fails. -/
def ReadableFile.ofBytes (file : Bytes) : ReadableFile where
  size := .ok (UInt64.ofNat file.length)
  readAt offset n :=
    let got := (file.drop offset.toNat).take n.toNat
    .ok (got, got.length < n.toNat)

/-- `ToStatus`. -/
def toStatus (status : DecodeStatus) (what : String) : Status :=
  if status = .kUnsupportedVersion ∨ status = .kUnsupportedCompression then
    Status.NotSupported (what ++ ": " ++ status.name)
  else Status.Corruption (what ++ ": " ++ status.name)

/-- `ValidateHandleInBounds`. -/
def validateHandleInBounds (handle : BlockHandle) (fileSize : UInt64) (what : String) : Status :=
  if handle.size > fileSize ∨ handle.offset > fileSize - handle.size then
    Status.Corruption (what ++ ": block handle extends beyond file size")
  else Status.OK

structure Reader where
  file : ReadableFile
  footer : Footer
  index : List IndexEntry
  filter : Bytes
  fileSize : UInt64
  fileId : UInt64

namespace Reader

/-- `ReadBlock`: the contents of the block without the trailer. -/
def readBlock (file : ReadableFile) (fileSize : UInt64) (handle : BlockHandle) :
    Except Status Bytes :=
  let boundsStatus := validateHandleInBounds handle fileSize "sstable block"
  if boundsStatus.ok then
    match file.readAt handle.offset handle.size with
    | .error s => .error s
    | .ok (_, true) => .error (Status.Corruption "short read while reading sstable block")
    | .ok (rawBlock, false) =>
      match verifyAndStripBlockTrailer rawBlock with
      | .error ds => .error (toStatus ds "sstable block")
      | .ok entries => .ok entries
  else .error boundsStatus

/-- The index loop of `Open`.  Every turn consumes input, so its length bounds the
    turns. -/
def decodeIndex : Nat → Bytes → Except Status (List IndexEntry)
  | 0, _ => .ok []
  | turns + 1, remaining =>
    if remaining.isEmpty then .ok []
    else
      match decodeIndexEntry remaining with
      | .error ds => .error (toStatus ds "sstable index entry")
      | .ok (entry, rest) =>
        match decodeIndex turns rest with
        | .error s => .error s
        | .ok entries => .ok (entry :: entries)

/-- The index block of `Open`. -/
def openIndex (file : ReadableFile) (fileSize : UInt64) (handle : BlockHandle) :
    Except Status (List IndexEntry) :=
  if handle.size > 0 then
    match readBlock file fileSize handle with
    | .error s => .error s
    | .ok view => decodeIndex view.length view
  else .ok []

/-- The filter block of `Open`. -/
def openFilter (file : ReadableFile) (fileSize : UInt64) (handle : BlockHandle) :
    Except Status Bytes :=
  if handle.size > 0 then readBlock file fileSize handle else .ok []

/-- `Open` once the footer is decoded. -/
def openWith (file : ReadableFile) (fileSize fileId : UInt64) (footer : Footer) :
    Except Status Reader :=
  let indexStatus := validateHandleInBounds footer.indexHandle fileSize "sstable index handle"
  let filterStatus := validateHandleInBounds footer.filterHandle fileSize "sstable filter handle"
  if ¬ indexStatus.ok then .error indexStatus
  else if ¬ filterStatus.ok then .error filterStatus
  else
    match openIndex file fileSize footer.indexHandle with
    | .error s => .error s
    | .ok index =>
      match openFilter file fileSize footer.filterHandle with
      | .error s => .error s
      | .ok filter => .ok ⟨file, footer, index, filter, fileSize, fileId⟩

/-- `Open`, from what `PosixFile::OpenRead` returned. -/
def openReader (opened : Except Status ReadableFile) (fileId : UInt64) : Except Status Reader :=
  match opened with
  | .error s => .error s
  | .ok file =>
    match file.size with
    | .error s => .error s
    | .ok fileSize =>
      if fileSize < UInt64.ofNat kFooterSize then
        .error (Status.Corruption "sstable file is smaller than a footer")
      else
        match file.readAt (fileSize - UInt64.ofNat kFooterSize) (UInt64.ofNat kFooterSize) with
        | .error s => .error s
        | .ok (_, true) => .error (Status.Corruption "short read while reading sstable footer")
        | .ok (footerBuf, false) =>
          match decodeFooter footerBuf with
          | .error ds => .error (toStatus ds "sstable footer")
          | .ok footer => openWith file fileSize fileId footer

/-- `ReadDataBlock`. -/
def readDataBlock (r : Reader) (cache : Option BlockCache) (handle : BlockHandle) :
    Except Status Bytes × Option BlockCache :=
  match cache with
  | none => (readBlock r.file r.fileSize handle, none)
  | some c =>
    match c.lookup r.fileId handle.offset with
    | (some entries, c) => (.ok entries, some c)
    | (none, c) =>
      match readBlock r.file r.fileSize handle with
      | .error s => (.error s, some c)
      | .ok entries => (.ok entries, some (c.insert r.fileId handle.offset entries))

/-- The loop of `Get` over the entries of a block. -/
def searchBlock (key : Key) : Nat → Bytes → Except Status LookupResult
  | 0, _ => .ok .kNotFound
  | turns + 1, view =>
    if view.isEmpty then .ok .kNotFound
    else
      match decodeEntry view with
      | .error ds => .error (toStatus ds "sstable data entry")
      | .ok (entry, rest) =>
        if entry.key = key then .ok (.ofEntry entry.sequence entry.type entry.value)
        else if entry.key > key then .ok .kNotFound
        else searchBlock key turns rest

/-- The block of `Get`: the first whose last key is not before the key. -/
def blockFor (r : Reader) (key : Key) : Option IndexEntry :=
  r.index[lowerBound (fun entry => entry.lastKey < key) r.index]?

/-- `Get` behind the filter. -/
def getUnfiltered (r : Reader) (cache : Option BlockCache) (key : Key) :
    Except Status LookupResult × Option BlockCache :=
  match r.blockFor key with
  | none => (.ok .kNotFound, cache)
  | some it =>
    match r.readDataBlock cache it.handle with
    | (.error s, cache) => (.error s, cache)
    | (.ok view, cache) => (searchBlock key view.length view, cache)

/-- The filter check of `Get`: whether it lets the key through. -/
def passesFilter (r : Reader) (key : Key) : Option Bool :=
  if r.filter.isEmpty then some true else Bloom.keyMayMatch key r.filter

/-- `Get`. -/
def get (r : Reader) (cache : Option BlockCache) (key : Key) :
    Option (Except Status LookupResult × Option BlockCache) :=
  match r.passesFilter key with
  | none => none
  | some false => some (.ok .kNotFound, cache)
  | some true => some (r.getUnfiltered cache key)

/-- The inner loop of `ForEachEntry`: the entries it passes on, and its status. -/
def entriesOf : Nat → Bytes → List Entry × Status
  | 0, _ => ([], Status.OK)
  | turns + 1, view =>
    if view.isEmpty then ([], Status.OK)
    else
      match decodeEntry view with
      | .error ds => ([], toStatus ds "sstable data entry")
      | .ok (entry, rest) =>
        let (entries, s) := entriesOf turns rest
        (entry :: entries, s)

/-- The loop of `ForEachEntry` over the index. -/
def forEachBlock (r : Reader) : List IndexEntry → Option BlockCache →
    List Entry × Status × Option BlockCache
  | [], cache => ([], Status.OK, cache)
  | indexEntry :: rest, cache =>
    match r.readDataBlock cache indexEntry.handle with
    | (.error s, cache) => ([], s, cache)
    | (.ok view, cache) =>
      let (entries, s) := entriesOf view.length view
      if s.ok then
        let (others, s, cache) := forEachBlock r rest cache
        (entries ++ others, s, cache)
      else (entries, s, cache)

/-- `ForEachEntry`: what the callback gets, the status, and the cache. -/
def forEachEntry (r : Reader) (cache : Option BlockCache) :
    List Entry × Status × Option BlockCache := r.forEachBlock r.index cache

/-- `Get` of one key after the other: each answer, and the cache they leave. -/
def getAll (r : Reader) : List Key → Option BlockCache →
    Option (List (Except Status LookupResult) × Option BlockCache)
  | [], cache => some ([], cache)
  | key :: keys, cache =>
    match r.get cache key with
    | none => none
    | some (answer, cache) =>
      match getAll r keys cache with
      | none => none
      | some (answers, cache) => some (answer :: answers, cache)

end Reader

end PassionProjects.PebbleDB.Sstable
