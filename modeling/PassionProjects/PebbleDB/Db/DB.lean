/-
  PassionProjects.PebbleDB.Db.DB

  The database (`db.cpp`): opening and recovery, writes, reads, and the flush
  path with its WAL rotation.

  A DB without a WAL writer is the in-memory mode.  Table readers are their
  behaviour: what `Get` answers for a key and what `ForEachEntry` passes to its
  callback before it ends.
-/

import PassionProjects.PebbleDB.Manifest.ManifestSpec
import PassionProjects.PebbleDB.Memtable.MemTable
import PassionProjects.PebbleDB.Wal.Reader
import PassionProjects.PebbleDB.Wal.WriterSpec

namespace PassionProjects.PebbleDB

open PassionProjects.Faults
open PassionProjects.PebbleDB.Util
open PassionProjects.PebbleDB.Memtable
open PassionProjects.PebbleDB.Manifest

/-- `sstable::Reader` as the DB uses it. -/
structure TableReader where
  get : Key → Except Status LookupResult
  forEachEntry : List Entry × Status

namespace TableReader

/-- What a table with these entries answers for a key. -/
def lookup (entries : List Entry) (key : Key) : LookupResult :=
  match entries.find? fun e => e.key == key with
  | none => .kNotFound
  | some e => .ofEntry e.sequence e.type e.value

/-- The reader of a table that is complete and undamaged. -/
def complete (entries : List Entry) : TableReader where
  get key := .ok (lookup entries key)
  forEachEntry := (entries, Status.OK)

/-- `sstable::Reader::Open`. -/
def openReader (fileNumber : UInt64) : M (Except Status TableReader) := do
  let contents ← readFile (.sst fileNumber)
  match contents with
  | .error s => pure (.error s)
  | .ok (.table entries) => pure (.ok (complete entries))
  | .ok _ => pure (.error (Status.Corruption "sstable file is smaller than a footer"))

end TableReader

/-- `DB::Options`, as far as the DB itself reads them. -/
structure Options where
  memtableSizeThresholdBytes : Nat := 4 * 1024 * 1024
  walSyncPolicy : Wal.SyncPolicy := .kEveryWrite
  walBatchSize : Nat := 1
  deriving DecidableEq, Repr

/-- The members of `DB`; `tables` is oldest first. -/
structure DB where
  options : Options
  memtables : MemTableList
  walWriter : Option Wal.Writer
  currentWalNumber : UInt64
  nextFileNumber : UInt64
  nextSequence : UInt64
  manifest : ManifestData
  tables : List TableReader
  liveKeyCount : UInt64

namespace DB

/-- `DB::DB(options)`: the in-memory mode. -/
def inMemory (options : Options) : DB :=
  { options, memtables := .new, walWriter := none, currentWalNumber := 0, nextFileNumber := 1,
    nextSequence := 1, manifest := {}, tables := [], liveKeyCount := 0 }

/-- `persistent()`. -/
def persistent (db : DB) : Bool := db.walWriter.isSome

-- ============================================================================
-- Reading
-- ============================================================================

/-- The table loop of `Get` and `IsKeyCurrentlyLiveLocked`, over the tables
    newest first: the first table with any record for the key wins. -/
def tablesGet : List TableReader → Key → Except Status LookupResult
  | [], _ => .ok .kNotFound
  | t :: rest, key =>
    match t.get key with
    | .error s => .error s
    | .ok .kNotFound => tablesGet rest key
    | .ok result => .ok result

/-- The merged read path: MemTables, then tables, newest first. -/
def resolve (db : DB) (key : Key) : Except Status LookupResult :=
  match db.memtables.get key with
  | .kNotFound => tablesGet db.tables.reverse key
  | result => .ok result

/-- `DB::Get`: the value, or the status it returns. -/
def get (db : DB) (key : Key) : Except Status Value :=
  match db.resolve key with
  | .error s => .error s
  | .ok (.kFound value _) => .ok value
  | .ok _ => .error (Status.NotFound "")

/-- `IsKeyCurrentlyLiveLocked`. -/
def isKeyCurrentlyLive (db : DB) (key : Key) : Bool :=
  match db.resolve key with
  | .ok (.kFound _ _) => true
  | _ => false

/-- The `record` lambda of `ComputeLiveKeyCount` over the entries of one layer. -/
def recordLive (resolved : Std.TreeMap Key Bool) (entries : List Entry) : Std.TreeMap Key Bool :=
  entries.foldl (fun r e => r.insertIfNew e.key (e.type == .kValue)) resolved

/-- `ComputeLiveKeyCount`. -/
def computeLiveKeyCount (memtables : MemTableList) (tables : List TableReader) : UInt64 :=
  let layers := (memtables.active :: memtables.immutables).map MemTable.entries ++
    tables.reverse.map fun t => t.forEachEntry.1
  let resolved := layers.foldl recordLive ∅
  UInt64.ofNat (resolved.toList.filter fun p => p.2).length

-- ============================================================================
-- Flush
-- ============================================================================

/-- `sstable::Writer`: `Open`, `Add` of every entry, `Finish`. -/
def writeTable (tableNumber : UInt64) (entries : List Entry) : M Status := do
  let opened ← openNew (.sst tableNumber)
  match opened with
  | .error s => pure s
  | .ok file => do
    let written ← sysWriteTable file entries
    if written then sync file else pure (Status.IOError "write failed")

/-- One turn of the loop of `FlushLocked`: the oldest frozen MemTable becomes a
    table and is published. -/
def publishOldest (frozen : MemTable) (db : DB) : M (Status × DB) := do
  let tableNumber := db.nextFileNumber
  let db := { db with nextFileNumber := db.nextFileNumber + 1 }
  let s ← writeTable tableNumber frozen.entries
  if s.ok then do
    let opened ← TableReader.openReader tableNumber
    match opened with
    | .error s => pure (s, db)
    | .ok reader => do
      let newManifest : ManifestData :=
        { nextFileNumber := db.nextFileNumber
          walFileNumber := db.currentWalNumber
          lastSequence := db.nextSequence - 1
          tables := db.manifest.tables ++ [⟨tableNumber, 0⟩] }
      let (s, published) ← saveManifest newManifest
      -- a failed directory fsync after the rename still adopts the manifest
      if !s.ok && !published then pure (s, db)
      else pure (s, { db with
        manifest := newManifest
        tables := db.tables ++ [reader]
        memtables := db.memtables.removeOldest })
  else pure (s, db)

/-- The loop of `FlushLocked`; the number bounds the frozen MemTables left. -/
def flushImmutables : Nat → DB → M (Status × DB)
  | 0, db => pure (Status.OK, db)
  | n + 1, db =>
    match db.memtables.immutables.getLast? with
    | none => pure (Status.OK, db)
    | some frozen => do
      let (s, db) ← publishOldest frozen db
      if s.ok then flushImmutables n db else pure (s, db)

/-- The rotation at the end of `FlushLocked`. -/
def rotateWal (db : DB) : M (Status × DB) := do
  let newWalNumber := db.nextFileNumber
  let db := { db with nextFileNumber := db.nextFileNumber + 1 }
  let opened ← Wal.Writer.openWriter (.wal newWalNumber) db.options.walSyncPolicy
    db.options.walBatchSize
  match opened with
  | .error s => pure (s, db)
  | .ok newWalWriter => do
    let rotatedManifest : ManifestData := { db.manifest with walFileNumber := newWalNumber }
    let (s, published) ← saveManifest rotatedManifest
    if !s.ok && !published then pure (s, db)
    else do
      -- the old segment is deleted whether or not the publish was degraded
      let _ ← atomically (.unlink (.wal db.currentWalNumber))
        (onFs fun fs => fs.unlink (.wal db.currentWalNumber))
      pure (s, { db with
        manifest := rotatedManifest
        walWriter := some newWalWriter
        currentWalNumber := newWalNumber })

/-- The freeze at the start of `FlushLocked`. -/
def freezeActive (db : DB) : DB :=
  if db.memtables.active.empty then db else { db with memtables := db.memtables.freeze }

/-- `FlushLocked`. -/
def flushLocked (db : DB) : M (Status × DB) :=
  if db.persistent then
    let db := db.freezeActive
    if db.memtables.immutables.isEmpty then pure (Status.OK, db)
    else do
      let (s, db) ← flushImmutables db.memtables.immutables.length db
      if s.ok then rotateWal db else pure (s, db)
  else pure (Status.OK, db)

/-- `DB::Flush`. -/
def flush (db : DB) : M (Status × DB) := flushLocked db

-- ============================================================================
-- Writing
-- ============================================================================

/-- The WAL record of a write. -/
def addToWal (db : DB) (record : Wal.Record) : M (Status × DB) :=
  match db.walWriter with
  | none => pure (Status.OK, db)
  | some writer => do
    let (s, writer) ← writer.addRecord record
    pure (s, { db with walWriter := some writer })

/-- The end of `Put` and `Delete`. -/
def flushIfDue (db : DB) : M (Status × DB) :=
  if db.persistent && db.memtables.activeShouldFlush db.options.memtableSizeThresholdBytes then
    flushLocked db
  else pure (Status.OK, db)

/-- The effect of an acknowledged `Put` on the members. -/
def applyPut (db : DB) (key : Key) (value : Value) (sequence : UInt64) : DB :=
  let wasLive := db.isKeyCurrentlyLive key
  { db with
    nextSequence := db.nextSequence + 1
    memtables := db.memtables.put key value sequence
    liveKeyCount := if wasLive then db.liveKeyCount else db.liveKeyCount + 1 }

/-- The effect of an acknowledged `Delete` on the members. -/
def applyDelete (db : DB) (key : Key) (sequence : UInt64) : DB :=
  let wasLive := db.isKeyCurrentlyLive key
  { db with
    nextSequence := db.nextSequence + 1
    memtables := db.memtables.delete key sequence
    liveKeyCount := if wasLive then db.liveKeyCount - 1 else db.liveKeyCount }

/-- `DB::Put`. -/
def put (db : DB) (key : Key) (value : Value) : M (Status × DB) := do
  let sequence := db.nextSequence
  let (s, db) ← db.addToWal ⟨sequence, .kPut, key, value⟩
  if s.ok then (db.applyPut key value sequence).flushIfDue else pure (s, db)

/-- `DB::Delete`. -/
def delete (db : DB) (key : Key) : M (Status × DB) := do
  let sequence := db.nextSequence
  let (s, db) ← db.addToWal ⟨sequence, .kDelete, key, []⟩
  if s.ok then (db.applyDelete key sequence).flushIfDue else pure (s, db)

-- ============================================================================
-- Opening
-- ============================================================================

/-- The table loop of `Recover`. -/
def openTables : List TableFileInfo → M (Except Status (List TableReader))
  | [] => pure (.ok [])
  | table :: rest => do
    let opened ← TableReader.openReader table.fileNumber
    match opened with
    | .error s => pure (.error s)
    | .ok reader => do
      let others ← openTables rest
      match others with
      | .error s => pure (.error s)
      | .ok readers => pure (.ok (reader :: readers))

/-- The replay callback of `Recover`: one record put into the active MemTable. -/
def applyRecord (m : MemTable) (record : Wal.Record) : MemTable :=
  match record.type with
  | .kPut => m.put record.key record.value record.sequence
  | .kDelete => m.delete record.key record.sequence

/-- `max_sequence_seen` after the replay. -/
def maxSequenceSeen (lastSequence : UInt64) (records : List Wal.Record) : UInt64 :=
  records.foldl (fun seen r => if r.sequence > seen then r.sequence else seen) lastSequence

/-- The end of `Recover`. -/
def recovered (options : Options) (manifest : ManifestData) (tables : List TableReader)
    (active : MemTable) (writer : Wal.Writer)
    (walNumber nextFileNumber maxSequence : UInt64) : DB :=
  { options
    memtables := ⟨active, []⟩
    walWriter := some writer
    currentWalNumber := walNumber
    nextFileNumber := nextFileNumber
    nextSequence := maxSequence + 1
    manifest := manifest
    tables := tables
    liveKeyCount := computeLiveKeyCount ⟨active, []⟩ tables }

/-- A torn trailing record is cut off before the segment is opened for append. -/
def discardTorn (name : FileName) (terminal : Wal.ReadResult) (validPrefixLength : Nat) :
    M Status :=
  if terminal = .kTruncated then truncateFile name validPrefixLength else pure Status.OK

/-- `Recover` when the manifest names a WAL to replay. -/
def recoverWal (options : Options) (manifest : ManifestData) (tables : List TableReader) :
    M (Except Status DB) := do
  let name := FileName.wal manifest.walFileNumber
  let contents ← readFile name
  match contents with
  | .error s => pure (.error s)
  | .ok (.bytes b) =>
    let replay := Wal.Reader.replay (Wal.Reader.start b)
    if replay.terminal = .kCorruption ∨ replay.terminal = .kUnsupportedVersion then
      pure (.error (Status.Corruption "WAL corrupted during replay"))
    else do
      let s ← discardTorn name replay.terminal replay.reader.validPrefixLength
      if s.ok then do
        let opened ← Wal.Writer.openWriter name options.walSyncPolicy options.walBatchSize
        match opened with
        | .error s => pure (.error s)
        | .ok writer => pure (.ok (recovered options manifest tables
            (replay.records.foldl applyRecord .new) writer manifest.walFileNumber
            manifest.nextFileNumber (maxSequenceSeen manifest.lastSequence replay.records)))
      else pure (.error s)
  | .ok _ => pure (.error (Status.Corruption "WAL corrupted during replay"))

/-- `Recover` of a fresh DB: a new WAL, recorded at once. -/
def recoverFresh (options : Options) (manifest : ManifestData) (tables : List TableReader) :
    M (Except Status DB) := do
  let walNumber := manifest.nextFileNumber
  let nextFileNumber := manifest.nextFileNumber + 1
  let opened ← Wal.Writer.openWriter (.wal walNumber) options.walSyncPolicy options.walBatchSize
  match opened with
  | .error s => pure (.error s)
  | .ok writer => do
    let manifest := { manifest with nextFileNumber := nextFileNumber, walFileNumber := walNumber }
    let (s, _) ← saveManifest manifest
    if s.ok then
      pure (.ok (recovered options manifest tables .new writer walNumber nextFileNumber
        manifest.lastSequence))
    else pure (.error s)

/-- `Recover` once it is known what the manifest says. -/
def recoverFrom (options : Options) (manifest : ManifestData) : M (Except Status DB) := do
  let opened ← openTables manifest.tables
  match opened with
  | .error s => pure (.error s)
  | .ok tables =>
    if manifest.walFileNumber ≠ 0 then recoverWal options manifest tables
    else recoverFresh options manifest tables

/-- `DB::Open` of a directory that exists: `Recover`. -/
def openDb (options : Options) : M (Except Status DB) := do
  let loaded ← loadManifest
  match loaded with
  | .ok manifest => recoverFrom options manifest
  | .error s => if s.isNotFound then recoverFrom options {} else pure (.error s)

end DB

end PassionProjects.PebbleDB
