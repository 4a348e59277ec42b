/-
  PassionProjects.PebbleDB.Util.PosixFile

  The directory of a persistent DB and the calls of `util/posix_file.cpp`.

  Each system call is one step that the environment may let fail or stop at.  A
  failing `write(2)` may have written any proper part of its bytes; a process
  that stops in one leaves any part.  The other calls happen or do not happen.

  A table file is kept as the entries it holds, or as `unfinished` while
  `sstable::Writer` has written a part of it only.
-/

import PassionProjects.Lib.Faults
import PassionProjects.Lib.FileSystem
import PassionProjects.PebbleDB.Manifest.Format
import PassionProjects.PebbleDB.Wal.Record

namespace PassionProjects.PebbleDB

open PassionProjects.Faults
open PassionProjects.FileSystem

/-- The files of a DB directory (`util/filenames.cpp`, `kManifestFileName`). -/
inductive FileName where
  | manifest
  | manifestTmp
  | wal (number : UInt64)
  | sst (number : UInt64)
  deriving DecidableEq, Repr

/-- What a file holds. -/
inductive FileData where
  | bytes (b : Bytes)
  | table (entries : List Entry)
  | unfinished
  deriving DecidableEq, Repr

/-- `st_size == 0`. -/
def FileData.isEmpty : FileData → Bool
  | .bytes b => b.isEmpty
  | _ => false

/-- `Append` to a byte file. -/
def FileData.append : FileData → Bytes → FileData
  | .bytes b, data => .bytes (b ++ data)
  | other, _ => other

/-- What a power loss may leave between durable contents `d` and visible contents
    `x` of a file that was not fsynced since. -/
def FileData.TornTo : FileData → FileData → FileData → Prop
  | .bytes d, .bytes x, y => ∃ b, y = .bytes b ∧ (d <+: b ∧ b <+: x ∨ x <+: b ∧ b <+: d)
  | _, _, y => y = .bytes [] ∨ y = .unfinished

instance : Contents FileData where
  empty := .bytes []
  survives d x y := y = x ∨ y = d ∨ (d ≠ x ∧ FileData.TornTo d x y)
  survives_data _ _ := Or.inl rfl
  survives_durable _ _ := Or.inr (Or.inl rfl)
  survives_synced x y h := by
    rcases h with h | h | ⟨h, -⟩
    · exact h
    · exact h
    · exact absurd rfl h

abbrev DbFs := Fs FileName FileData
abbrev DbView := View FileName FileData

/-- The directory, and two records of what has happened in it: the WAL records
    whose `AddRecord` returned OK, and the manifests that were renamed into place. -/
structure World where
  fs : DbFs
  logged : List Wal.Record
  published : List Manifest.ManifestData

def World.init : World := ⟨Fs.init, [], []⟩

/-- What a directory fsync is there for. -/
inductive DirSync where
  | created
  | renamed
  deriving DecidableEq, Repr

/-- The system calls that the environment can interfere with. -/
inductive FsOp where
  | openFile (n : FileName)
  | openRead (n : FileName)
  | append (n : FileName)
  | fsync (n : FileName)
  | fsyncDir (why : DirSync)
  | rename
  | unlink (n : FileName)
  | truncate (n : FileName)
  deriving DecidableEq, Repr

/-- A program on the directory. -/
abbrev M := Prog FsOp World

/-- An open file descriptor and the name it was opened under. -/
structure PosixFile where
  fd : FileId FileName
  path : FileName
  deriving DecidableEq, Repr

namespace Util

-- ============================================================================
-- System calls
-- ============================================================================

/-- A call that happens or does not; it reports whether it did. -/
def atomically (o : FsOp) (effect : World → World) : M Bool :=
  Prog.step o fun fault w =>
    match fault with
    | .none => (true, effect w)
    | .error _ => (false, w)
    | .crash 0 => (false, w)
    | .crash (_ + 1) => (false, effect w)

/-- The effect of a call on the files. -/
def onFs (f : DbFs → DbFs) (w : World) : World := { w with fs := f w.fs }

/-- `stat(path) == 0`, and the size it reports. -/
def stat (n : FileName) : M (Option FileData) := Prog.read fun w => w.fs.view n

/-- `open(path, O_CREAT [| O_TRUNC])`. -/
def openCreate (n : FileName) (trunc : Bool) (fs : DbFs) : DbFs :=
  match fs.dir n with
  | none => fs.create n
  | some i => if trunc then fs.write i (.bytes []) else fs

/-- `open(path, O_CREAT [| O_TRUNC])` as a call: the descriptor, if it worked. -/
def sysOpen (n : FileName) (trunc : Bool) : M (Option (FileId FileName)) := do
  let opened ← atomically (.openFile n) (onFs (openCreate n trunc))
  if opened then Prog.read fun w => w.fs.dir n else pure none

/-- `write(2)` until all of `data` is written. -/
def sysWrite (f : PosixFile) (data : Bytes) : M Bool :=
  Prog.step (.append f.path) fun fault w =>
    let put (part : Bytes) : World :=
      onFs (fun fs => fs.write f.fd ((fs.inodes f.fd).data.append part)) w
    match fault with
    | .none => (true, put data)
    | .error n => (false, put (data.take (min n (data.length - 1))))
    | .crash n => (false, put (data.take n))

/-- The appends of `sstable::Writer::Add` and `Finish`. -/
def sysWriteTable (f : PosixFile) (entries : List Entry) : M Bool :=
  Prog.step (.append f.path) fun fault w =>
    let put (data : FileData) : World := onFs (fun fs => fs.write f.fd data) w
    match fault with
    | .none => (true, put (.table entries))
    | .error 0 => (false, w)
    | .error (_ + 1) => (false, put .unfinished)
    | .crash 0 => (false, w)
    | .crash 1 => (false, put .unfinished)
    | .crash (_ + 2) => (false, put (.table entries))

-- ============================================================================
-- posix_file.cpp
-- ============================================================================

/-- `SyncDirectory`. -/
def syncDirectory (why : DirSync) : M Status := do
  let ok ← atomically (.fsyncDir why) (onFs Fs.syncDir)
  if ok then pure Status.OK else pure (Status.IOError "fsync (directory) failed")

/-- `ftruncate`. -/
def cutFile (i : FileId FileName) (length : Nat) (fs : DbFs) : DbFs :=
  match (fs.inodes i).data with
  | .bytes b => fs.write i (.bytes (b.take length))
  | _ => fs

/-- `TruncateFile`: `ftruncate` and `fsync`. -/
def truncateFile (n : FileName) (length : Nat) : M Status := do
  let r ← Prog.read fun w => w.fs.dir n
  match r with
  | none => pure (Status.IOError "open (truncate-to-length) failed")
  | some i => do
    let cut ← atomically (.truncate n) (onFs (cutFile i length))
    if cut then do
      let synced ← atomically (.fsync n) (onFs fun fs => fs.sync i)
      if synced then pure Status.OK else pure (Status.IOError "fsync failed")
    else pure (Status.IOError "ftruncate failed")

/-- What the three `Open*` factories share once the file is open: a new directory
    entry is made durable before the file is handed out. -/
def finishOpen (n : FileName) (what : String) (existedBefore : Bool)
    (fd : Option (FileId FileName)) : M (Except Status PosixFile) :=
  match fd with
  | none => pure (.error (Status.IOError what))
  | some fd =>
    if existedBefore then pure (.ok ⟨fd, n⟩)
    else do
      let dirStatus ← syncDirectory .created
      if dirStatus.ok then pure (.ok ⟨fd, n⟩) else pure (.error dirStatus)

/-- `PosixFile::OpenAppend`. -/
def openAppend (n : FileName) : M (Except Status PosixFile) := do
  let existing ← stat n
  let fd ← sysOpen n false
  finishOpen n "open (append) failed" existing.isSome fd

/-- `PosixFile::OpenNew`: refuses a path that has contents. -/
def openNew (n : FileName) : M (Except Status PosixFile) := do
  let existing ← stat n
  if existing.any (fun data => !data.isEmpty) then
    pure (.error (Status.IOError "OpenNew: refusing to open: path already has content"))
  else do
    let fd ← sysOpen n true
    finishOpen n "open (new) failed" existing.isSome fd

/-- `PosixFile::OpenTruncate`. -/
def openTruncate (n : FileName) : M (Except Status PosixFile) := do
  let existing ← stat n
  let fd ← sysOpen n true
  finishOpen n "open (truncate) failed" existing.isSome fd

/-- `PosixFile::OpenRead` and the reads that follow it: the contents of the file. -/
def readFile (n : FileName) : M (Except Status FileData) := do
  let opened ← atomically (.openRead n) id
  let data ← stat n
  match opened, data with
  | true, some data => pure (.ok data)
  | _, _ => pure (.error (Status.IOError "open (read) failed"))

/-- `PosixFile::Append`. -/
def append (f : PosixFile) (data : Bytes) : M Status := do
  let ok ← sysWrite f data
  if ok then pure Status.OK else pure (Status.IOError "write failed")

/-- `PosixFile::Sync`. -/
def sync (f : PosixFile) : M Status := do
  let ok ← atomically (.fsync f.path) (onFs fun fs => fs.sync f.fd)
  if ok then pure Status.OK else pure (Status.IOError "fsync failed")

end Util

end PassionProjects.PebbleDB
