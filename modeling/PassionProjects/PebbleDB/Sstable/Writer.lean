/-
  PassionProjects.PebbleDB.Sstable.Writer

  The table writer (`sstable/writer.cpp`) on the file it appends to.
-/

import PassionProjects.Lib.Faults
import PassionProjects.PebbleDB.Bloom.BloomFilter
import PassionProjects.PebbleDB.Sstable.Format

namespace PassionProjects.PebbleDB.Sstable

open PassionProjects.Faults

/-- The calls on the file that the environment can interfere with. -/
inductive TableOp where
  | append
  | fsync
  deriving DecidableEq, Repr

/-- A program on the bytes of one table file. -/
abbrev TableM := Prog TableOp Bytes

/-- `PosixFile::Append`. -/
def append (data : Bytes) : TableM Status :=
  Prog.step .append fun fault file =>
    match fault with
    | .none => (Status.OK, file ++ data)
    | .error n => (Status.IOError "write failed", file ++ data.take (min n (data.length - 1)))
    | .crash n => (Status.IOError "write failed", file ++ data.take n)

/-- `PosixFile::Sync`. -/
def sync : TableM Status :=
  Prog.step .fsync fun fault file =>
    match fault with
    | .none => (Status.OK, file)
    | _ => (Status.IOError "fsync failed", file)

/-- `Writer::Options`. -/
structure WriterOptions where
  targetBlockSizeBytes : UInt64 := 4096
  filterBitsPerKey : UInt64 := 10
  deriving DecidableEq, Repr

structure Writer where
  options : WriterOptions
  currentBlockEntries : Bytes
  lastKeyInCurrentBlock : Key
  currentBlockHasEntries : Bool
  indexBlock : Bytes
  fileOffset : UInt64
  keysForFilter : List Key
  lastKeyAdded : Key
  hasAddedAny : Bool
  entriesWritten : UInt64
  finished : Bool
  deriving DecidableEq, Repr

namespace Writer

/-- The writer that `Writer::Open` hands out, on an empty file. -/
def new (options : WriterOptions) : Writer where
  options := options
  currentBlockEntries := []
  lastKeyInCurrentBlock := []
  currentBlockHasEntries := false
  indexBlock := []
  fileOffset := 0
  keysForFilter := []
  lastKeyAdded := []
  hasAddedAny := false
  entriesWritten := 0
  finished := false

/-- `FlushCurrentBlock`. -/
def flushCurrentBlock (w : Writer) : TableM (Status × Writer) :=
  if w.currentBlockHasEntries then do
    let blockBytes := finishBlock w.currentBlockEntries
    let written := UInt64.ofNat blockBytes.length
    let s ← append blockBytes
    if s.ok then
      pure (Status.OK, { w with
        indexBlock := w.indexBlock ++
          encodeIndexEntry ⟨w.lastKeyInCurrentBlock, ⟨w.fileOffset, written⟩⟩
        fileOffset := w.fileOffset + written
        currentBlockEntries := []
        currentBlockHasEntries := false })
    else pure (s, w)
  else pure (Status.OK, w)

/-- The members after `Add` has taken an entry, before it looks at the block size. -/
def take (w : Writer) (key : Key) (value : Value) (sequence : UInt64) (type : EntryType) : Writer :=
  { w with
    currentBlockEntries := w.currentBlockEntries ++ encodeEntry key sequence type value
    lastKeyInCurrentBlock := key
    currentBlockHasEntries := true
    keysForFilter :=
      if w.options.filterBitsPerKey > 0 then w.keysForFilter ++ [key] else w.keysForFilter
    lastKeyAdded := key
    hasAddedAny := true
    entriesWritten := w.entriesWritten + 1 }

/-- `Add`. -/
def add (w : Writer) (key : Key) (value : Value) (sequence : UInt64) (type : EntryType) :
    TableM (Status × Writer) :=
  if w.finished then
    pure (Status.InvalidArgument "Writer::Add() called after Finish()", w)
  else if w.hasAddedAny ∧ key ≤ w.lastKeyAdded then
    pure (Status.InvalidArgument
      "sstable::Writer requires keys to be added in strictly increasing order", w)
  else
    let w := w.take key value sequence type
    if w.currentBlockEntries.length ≥ w.options.targetBlockSizeBytes.toNat then w.flushCurrentBlock
    else pure (Status.OK, w)

/-- The filter block of `Finish`: where it is, with size 0 when there is none. -/
def writeFilter (w : Writer) : TableM (Status × Writer × BlockHandle) :=
  if w.keysForFilter.isEmpty then pure (Status.OK, w, ⟨w.fileOffset, 0⟩)
  else
    match Bloom.buildFilter w.keysForFilter w.options.filterBitsPerKey with
    | none => Prog.halt
    | some filterContent =>
      if filterContent.isEmpty then pure (Status.OK, w, ⟨w.fileOffset, 0⟩)
      else do
        let filterBlockBytes := finishBlock filterContent
        let filterWritten := UInt64.ofNat filterBlockBytes.length
        let s ← append filterBlockBytes
        if s.ok then
          pure (Status.OK, { w with fileOffset := w.fileOffset + filterWritten },
            ⟨w.fileOffset, filterWritten⟩)
        else pure (s, w, ⟨w.fileOffset, 0⟩)

/-- The index block, the footer and the fsync of `Finish`. -/
def writeEnd (w : Writer) (filterHandle : BlockHandle) : TableM (Status × Writer) := do
  let indexBlockBytes := finishBlock w.indexBlock
  let indexWritten := UInt64.ofNat indexBlockBytes.length
  let indexHandle : BlockHandle := ⟨w.fileOffset, indexWritten⟩
  let s ← append indexBlockBytes
  if s.ok then do
    let w := { w with fileOffset := w.fileOffset + indexWritten }
    let footerBytes := encodeFooter
      { formatVersion := kFormatVersion
        indexHandle := indexHandle
        filterHandle := filterHandle
        numEntries := w.entriesWritten }
    let s ← append footerBytes
    if s.ok then do
      let w := { w with fileOffset := w.fileOffset + UInt64.ofNat footerBytes.length }
      let s ← sync
      pure (s, { w with finished := true })
    else pure (s, { w with finished := true })
  else pure (s, { w with finished := true })

/-- `Finish`. -/
def finish (w : Writer) : TableM (Status × Writer) :=
  if w.finished then
    pure (Status.InvalidArgument "Writer::Finish() called more than once", w)
  else do
    let (s, w) ← w.flushCurrentBlock
    if s.ok then do
      let (s, w, filterHandle) ← w.writeFilter
      if s.ok then w.writeEnd filterHandle else pure (s, { w with finished := true })
    else pure (s, { w with finished := true })

/-- `Add` of one entry after the other: the status of each. -/
def addAll : List Entry → Writer → TableM (List Status × Writer)
  | [], w => pure ([], w)
  | e :: es, w => do
    let (s, w) ← w.add e.key e.value e.sequence e.type
    let (rest, w) ← addAll es w
    pure (s :: rest, w)

/-- A new writer, `Add` of each entry, `Finish`: what each call returns. -/
def writeTable (options : WriterOptions) (entries : List Entry) :
    TableM (List Status × Status) := do
  let (added, w) ← addAll entries (new options)
  let (s, _) ← w.finish
  pure (added, s)

end Writer

end PassionProjects.PebbleDB.Sstable
