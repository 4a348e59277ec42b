/-
  PassionProjects.PebbleDB.Db.AnyFaults

  What holds of the database in every environment, whatever fails and wherever
  the process stops, appends to the WAL and power losses included.

  `Tidy` directories are all a run can meet.  In a tidy directory a table that
  was written can be read back, so the flush path moves entries from MemTables to
  tables without changing what the database reads (`Moved`).
-/

import PassionProjects.PebbleDB.Db.Run

namespace PassionProjects.PebbleDB

open PassionProjects.Faults
open PassionProjects.Faults.Prog
open PassionProjects.FileSystem
open PassionProjects.FileSystem.Fs
open PassionProjects.Layers
open PassionProjects.Refinement
open PassionProjects.PebbleDB.Util
open PassionProjects.PebbleDB.Memtable
open PassionProjects.PebbleDB.Manifest

/-- No file is linked twice, and only MANIFEST has files born under another name. -/
structure Tidy (w : World) : Prop where
  wf : w.fs.WF
  homed : ∀ n, n ≠ .manifest → Homed w.fs n

variable {pol : Policy FsOp World} {w w' : World} {db db' : DB} {n : FileName}

theorem tidy_init : Tidy World.init := ⟨wf_init, fun n _ => homed_init n⟩

theorem Tidy.after {mode : CrashMode} {fs : DbFs} (h : Tidy w) (ha : After mode w.fs fs) :
    Tidy { w with fs } :=
  ⟨(ha.spec h.wf).1, fun n hn => ha.homed (h.homed n hn)⟩

theorem Tidy.create (h : Tidy w) (n : FileName) : Tidy { w with fs := w.fs.create n } :=
  ⟨h.wf.create n, fun m hm => (h.homed m hm).create n⟩

theorem Tidy.write (h : Tidy w) (i : FileId FileName) (data : FileData) :
    Tidy { w with fs := w.fs.write i data } := ⟨h.wf.write i data, h.homed⟩

theorem Tidy.sync (h : Tidy w) (i : FileId FileName) : Tidy (onFs (fun fs => fs.sync i) w) :=
  ⟨h.wf.sync i, h.homed⟩

theorem Tidy.syncDir (h : Tidy w) : Tidy (onFs Fs.syncDir w) :=
  ⟨h.wf.syncDir, fun n hn => (h.homed n hn).syncDir⟩

theorem Tidy.unlink (h : Tidy w) (n : FileName) : Tidy (onFs (fun fs => fs.unlink n) w) :=
  ⟨h.wf.unlink n, fun m hm => (h.homed m hm).unlink n⟩

theorem Tidy.openCreate (h : Tidy w) (n : FileName) (trunc : Bool) :
    Tidy (onFs (Util.openCreate n trunc) w) := by
  unfold onFs Util.openCreate
  cases w.fs.dir n with
  | none => exact h.create n
  | some i =>
      cases trunc with
      | false => exact h
      | true => exact h.write i _

theorem Tidy.cutFile (h : Tidy w) (i : FileId FileName) (length : Nat) :
    Tidy (onFs (Util.cutFile i length) w) := by
  unfold onFs Util.cutFile
  cases (w.fs.inodes i).data with
  | bytes b => exact h.write i _
  | table entries => exact h
  | unfinished => exact h

theorem Tidy.rename (h : Tidy w) (data : ManifestData) : Tidy { w with
    fs := w.fs.rename .manifestTmp .manifest, published := w.published ++ [data] } := by
  refine ⟨?_, fun n hn => (h.homed n hn).rename .manifestTmp hn⟩
  show (w.fs.rename .manifestTmp .manifest).WF
  cases hdir : w.fs.dir .manifestTmp with
  | none =>
      have heq : w.fs.rename .manifestTmp .manifest = w.fs := by simp [Fs.rename, hdir]
      rw [heq]
      exact h.wf
  | some i => exact h.wf.rename (by simp) hdir (h.homed _ (by simp) _ (Or.inl rfl) i hdir)

-- ============================================================================
-- The calls
-- ============================================================================

theorem preserves_atomically {o : FsOp} {effect : World → World}
    (h : ∀ w, Tidy w → Tidy (effect w)) : Preserves Tidy (atomically o effect) := by
  refine preserves_step fun fault w hw => ?_
  match fault with
  | .none => exact h w hw
  | .error _ => exact hw
  | .crash 0 => exact hw
  | .crash (_ + 1) => exact h w hw

theorem preserves_stat (n : FileName) : Preserves Tidy (stat n) := preserves_read _

theorem preserves_sysOpen (n : FileName) (trunc : Bool) : Preserves Tidy (sysOpen n trunc) := by
  refine preserves_bind (preserves_atomically fun w hw => hw.openCreate n trunc) fun opened => ?_
  cases opened with
  | true => exact preserves_read _
  | false => exact preserves_pure _

theorem preserves_syncDirectory (why : DirSync) : Preserves Tidy (syncDirectory why) := by
  refine preserves_bind (preserves_atomically fun w => Tidy.syncDir) fun ok => ?_
  cases ok <;> exact preserves_pure _

theorem preserves_finishOpen (n : FileName) (what : String) (existedBefore : Bool)
    (fd : Option (FileId FileName)) : Preserves Tidy (finishOpen n what existedBefore fd) := by
  cases fd with
  | none => exact preserves_pure _
  | some fd =>
      cases existedBefore with
      | true => exact preserves_pure _
      | false =>
          refine preserves_bind (preserves_syncDirectory _) fun s => ?_
          show Preserves Tidy (if s.ok then _ else _)
          split <;> exact preserves_pure _

theorem preserves_openAppend (n : FileName) : Preserves Tidy (openAppend n) :=
  preserves_bind (preserves_stat n) fun _ =>
    preserves_bind (preserves_sysOpen n false) fun _ => preserves_finishOpen _ _ _ _

theorem preserves_openTruncate (n : FileName) : Preserves Tidy (openTruncate n) :=
  preserves_bind (preserves_stat n) fun _ =>
    preserves_bind (preserves_sysOpen n true) fun _ => preserves_finishOpen _ _ _ _

theorem preserves_readFile (n : FileName) : Preserves Tidy (readFile n) := by
  refine preserves_bind (preserves_atomically fun w hw => hw) fun opened => ?_
  refine preserves_bind (preserves_stat n) fun data => ?_
  cases opened with
  | true => cases data <;> exact preserves_pure _
  | false => exact preserves_pure _

theorem preserves_append (f : PosixFile) (data : Bytes) : Preserves Tidy (append f data) := by
  refine preserves_bind (preserves_step fun fault w hw => ?_) fun ok => ?_
  · cases fault <;> exact hw.write f.fd _
  · cases ok <;> exact preserves_pure _

theorem preserves_sync (f : PosixFile) : Preserves Tidy (sync f) := by
  refine preserves_bind (preserves_atomically fun w hw => hw.sync f.fd) fun ok => ?_
  cases ok <;> exact preserves_pure _

theorem preserves_truncateFile (n : FileName) (length : Nat) :
    Preserves Tidy (truncateFile n length) := by
  refine preserves_bind (preserves_read _) fun r => ?_
  cases r with
  | none => exact preserves_pure _
  | some i =>
      refine preserves_bind (preserves_atomically fun w hw => hw.cutFile i length) fun cut => ?_
      cases cut with
      | false => exact preserves_pure _
      | true =>
          refine preserves_bind (preserves_atomically fun w hw => hw.sync i) fun synced => ?_
          cases synced <;> exact preserves_pure _

theorem preserves_openReader (n : UInt64) : Preserves Tidy (TableReader.openReader n) := by
  refine preserves_bind (preserves_readFile _) fun contents => ?_
  match contents with
  | .error s => exact preserves_pure _
  | .ok (.table entries) => exact preserves_pure _
  | .ok (.bytes b) => exact preserves_pure _
  | .ok .unfinished => exact preserves_pure _

theorem preserves_saveManifest (data : ManifestData) : Preserves Tidy (saveManifest data) := by
  refine preserves_bind (preserves_openTruncate _) fun opened => ?_
  cases opened with
  | error s => exact preserves_pure _
  | ok file =>
      refine preserves_bind (preserves_append file _) fun s => ?_
      show Preserves Tidy (if s.ok then _ else _)
      split
      · refine preserves_bind (preserves_sync file) fun s => ?_
        show Preserves Tidy (if s.ok then _ else _)
        split
        · refine preserves_bind (preserves_atomically fun w hw => hw.rename data) fun renamed => ?_
          cases renamed with
          | true => exact preserves_bind (preserves_syncDirectory _) fun _ => preserves_pure _
          | false => exact preserves_pure _
        · exact preserves_pure _
      · exact preserves_pure _

theorem preserves_openWriter (n : FileName) (policy : Wal.SyncPolicy) (batchSize : Nat) :
    Preserves Tidy (Wal.Writer.openWriter n policy batchSize) := by
  show Preserves Tidy (if _ then _ else _)
  split
  · exact preserves_pure _
  · refine preserves_bind (preserves_openAppend n) fun opened => ?_
    cases opened <;> exact preserves_pure _

theorem preserves_addRecord (writer : Wal.Writer) (record : Wal.Record) :
    Preserves Tidy (writer.addRecord record) := by
  have hwrite : Preserves Tidy (writer.writeRecord record) := by
    unfold Wal.Writer.writeRecord
    split
    · exact preserves_pure _
    · split
      · exact preserves_pure _
      · refine preserves_bind (preserves_append _ _) fun s => ?_
        show Preserves Tidy (if s.ok then _ else _)
        split
        · show Preserves Tidy (if _ then Wal.Writer.syncWriter _ else _)
          split
          · refine preserves_bind (preserves_sync _) fun s => ?_
            show Preserves Tidy (if s.ok then _ else _)
            split <;> exact preserves_pure _
          · exact preserves_pure _
        · exact preserves_pure _
  refine preserves_bind hwrite fun r => ?_
  obtain ⟨s, writer⟩ := r
  show Preserves Tidy (if s.ok then _ else _)
  split
  · exact preserves_bind (preserves_modify fun w hw => ⟨hw.wf, hw.homed⟩) fun _ => preserves_pure _
  · exact preserves_pure _

-- ============================================================================
-- The flush path
-- ============================================================================

theorem Touches.tidy {mode : CrashMode} (ht : Touches mode n w w') (h : Tidy w) : Tidy w' :=
  ⟨ht.fs.wf, fun m hm => ht.fs.homed m (h.homed m hm)⟩

theorem Tidy.renamed {mode : CrashMode} {data : ManifestData} {P : DbView → Prop} (h : Tidy w)
    (hr : Renamed mode data P w w') : Tidy w' :=
  ⟨hr.wf, fun m hm => hr.homed m hm (h.homed m hm)⟩

/-- `SaveManifest` in a tidy directory. -/
theorem saveManifest_tidy {data : ManifestData} (h : Tidy w) :
    wp pol (saveManifest data)
      (fun r w' => Tidy w' ∧ (∀ m, w'.fs.view (.wal m) = w.fs.view (.wal m)) ∧
        ((r.2 = true ∧ w'.fs.view .manifest = some (.bytes (encodeManifest data))) ∨
          (r.2 = false ∧ r.1.ok = false))) Tidy w := by
  refine wp_mono (saveManifest_spec .process h.wf (h.homed _ (by simp)) (P := fun _ => True)
    (fun _ _ _ _ => trivial) fun _ _ => trivial) ?_ ?_
  · rintro r w' (⟨hr, hsaved⟩ | ⟨hr, hs, ht, -⟩)
    · exact ⟨h.renamed hsaved.renamed, fun m => hsaved.renamed.view _ (by simp) (by simp),
        Or.inl ⟨hr, hsaved.renamed.manifest⟩⟩
    · exact ⟨ht.tidy h, fun m => ht.fs.view _ (by simp), Or.inr ⟨hr, hs⟩⟩
  · rintro w' (ht | hr)
    · exact ht.tidy h
    · exact h.renamed hr

/-- Every table can be read to its end. -/
def DB.Complete (db : DB) : Prop := ∃ ts : List (List Entry), db.tables = ts.map .complete

/-- The database reads the same and counts the same; its new tables, if any, were
    written from MemTables. -/
structure SameReads (db db' : DB) : Prop where
  map : firstHit db'.layers = firstHit db.layers
  resolve : ∀ key, db'.resolve key = db.resolve key
  count : db'.liveKeyCount = db.liveKeyCount
  flushed : ∃ ms : List MemTable,
    db'.tables = db.tables ++ ms.map fun m => TableReader.complete m.entries

/-- Members that no read looks at do not matter. -/
theorem sameReads_of_eq (hmem : db'.memtables = db.memtables) (htables : db'.tables = db.tables)
    (hcount : db'.liveKeyCount = db.liveKeyCount) : SameReads db db' where
  map := by rw [DB.layers, DB.layers, hmem, htables]
  resolve key := by rw [DB.resolve, DB.resolve, hmem, htables]
  count := hcount
  flushed := ⟨[], by simp [htables]⟩

theorem SameReads.refl : SameReads db db := sameReads_of_eq rfl rfl rfl

theorem SameReads.trans {db'' : DB} (h₁ : SameReads db db') (h₂ : SameReads db' db'') :
    SameReads db db'' where
  map := h₂.map.trans h₁.map
  resolve key := (h₂.resolve key).trans (h₁.resolve key)
  count := h₂.count.trans h₁.count
  flushed := by
    obtain ⟨ms₁, h₁⟩ := h₁.flushed
    obtain ⟨ms₂, h₂⟩ := h₂.flushed
    exact ⟨ms₁ ++ ms₂, by rw [h₂, h₁, List.map_append, List.append_assoc]⟩

theorem SameReads.complete (h : SameReads db db') (hdb : db.Complete) : db'.Complete := by
  obtain ⟨ts, hts⟩ := hdb
  obtain ⟨ms, hms⟩ := h.flushed
  refine ⟨ts ++ ms.map MemTable.entries, ?_⟩
  rw [hms, hts, List.map_append, List.map_map]
  rfl

theorem sameReads_freezeActive (db : DB) : SameReads db db.freezeActive := by
  unfold DB.freezeActive
  split
  · exact .refl
  · exact ⟨freeze_layers db, fun _ => rfl, rfl, [], by simp⟩

/-- The oldest MemTable is asked last. -/
theorem getFrom_append (ms : List MemTable) (m : MemTable) (key : Key) :
    MemTableList.getFrom (ms ++ [m]) key =
      match MemTableList.getFrom ms key with
      | .kNotFound => m.get key
      | result => result := by
  induction ms with
  | nil =>
      show MemTableList.getFrom [m] key = m.get key
      unfold MemTableList.getFrom
      cases m.get key <;> rfl
  | cons m' ms ih =>
      rw [List.cons_append, MemTableList.getFrom, MemTableList.getFrom, ih]
      cases m'.get key <;> rfl

theorem resolve_publish {frozen : MemTable}
    (hfrozen : db.memtables.immutables.getLast? = some frozen)
    (htables : db'.tables = db.tables ++ [.complete frozen.entries])
    (hmem : db'.memtables = db.memtables.removeOldest) (key : Key) :
    db'.resolve key = db.resolve key := by
  obtain ⟨init, hinit⟩ := List.getLast?_eq_some_iff.mp hfrozen
  have hold : db.memtables.get key =
      match db'.memtables.get key with
      | .kNotFound => frozen.get key
      | result => result := by
    have hremoved : db'.memtables.get key =
        MemTableList.getFrom (db.memtables.active :: init) key := by
      rw [hmem, MemTableList.get, MemTableList.removeOldest, hinit, List.dropLast_concat]
    rw [hremoved, MemTableList.get, hinit, ← List.cons_append, getFrom_append]
  have hget : (TableReader.complete frozen.entries).get key = .ok (frozen.get key) := by
    show Except.ok (TableReader.lookup frozen.entries key) = _
    rw [lookup_eq_answer, entriesLayer_entries, get_eq_answer]
  unfold DB.resolve
  rw [hold, htables, List.reverse_append, List.reverse_singleton, List.singleton_append,
    DB.tablesGet, hget]
  cases db'.memtables.get key with
  | kNotFound => cases frozen.get key <;> rfl
  | kFound value sequence => rfl
  | kDeleted sequence => rfl

/-- A table written from the oldest frozen MemTable takes its place. -/
theorem sameReads_publish {frozen : MemTable} {next : UInt64} {md : ManifestData}
    (hfrozen : db.memtables.immutables.getLast? = some frozen) :
    SameReads db { db with
      nextFileNumber := next, manifest := md
      tables := db.tables ++ [.complete frozen.entries]
      memtables := db.memtables.removeOldest } where
  map := by
    have hreader : TableReader.layer (.complete frozen.entries) = frozen.layer :=
      entriesLayer_entries frozen
    have hmem := removeOldest_layers hfrozen
    simp [DB.layers, hmem, hreader]
  resolve := resolve_publish hfrozen rfl rfl
  count := rfl
  flushed := ⟨[frozen], rfl⟩

/-- How the publishing of `n` MemTables ends. -/
structure Moved (n : Nat) (db : DB) (w : World) (s : Status) (db' : DB) (w' : World) : Prop where
  tidy : Tidy w'
  reads : SameReads db db'
  wal : ∀ m, w'.fs.view (.wal m) = w.fs.view (.wal m)
  ok : s.ok = true → db'.nextFileNumber = db.nextFileNumber + UInt64.ofNat n ∧
    db'.memtables.immutables.length = db.memtables.immutables.length - n

theorem publishOldest_moved {frozen : MemTable} (h : Tidy w)
    (hfrozen : db.memtables.immutables.getLast? = some frozen) :
    wp pol (db.publishOldest frozen) (fun r w' => Moved 1 db w r.1 r.2 w') Tidy w := by
  have hkept {s : Status} {w₁ : World} (ht : Tidy w₁)
      (hwal : ∀ m, w₁.fs.view (.wal m) = w.fs.view (.wal m)) (hs : s.ok = false) :
      Moved 1 db w s { db with nextFileNumber := db.nextFileNumber + 1 } w₁ :=
    ⟨ht, sameReads_of_eq rfl rfl rfl, hwal, fun hok => absurd hok (by simp [hs])⟩
  refine wp_bind (wp_mono (writeTable_spec .process h.wf (h.homed _ (by simp))
    (settled_process _).link) ?_ fun _ ht => ht.tidy h)
  rintro s w₁ ⟨ht₁, ⟨hok, -, hview, -⟩ | ⟨herr, -⟩⟩
  · have h₁ := ht₁.tidy h
    have hwal₁ (m : UInt64) : w₁.fs.view (.wal m) = w.fs.view (.wal m) := ht₁.fs.view _ (by simp)
    rw [if_pos hok]
    refine wp_bind (wp_mono (openReader_spec h₁ hview) ?_ fun _ => id)
    rintro r w₁' ⟨rfl, rfl | ⟨s, rfl, herr, -⟩⟩
    · refine wp_bind (wp_mono (saveManifest_tidy h₁) ?_ fun _ => id)
      rintro ⟨s, published⟩ w₂ ⟨h₂, hwal₂, ⟨rfl, -⟩ | ⟨rfl, herr⟩⟩
      · have hcond : (!s.ok && !true) = false := by simp
        simp only [hcond]
        exact wp_pure.mpr ⟨h₂, sameReads_publish hfrozen, fun m => (hwal₂ m).trans (hwal₁ m),
          fun _ => ⟨rfl, List.length_dropLast⟩⟩
      · have hcond : (!s.ok && !false) = true := by
          have hs : s.ok = false := herr
          simp [hs]
        simp only [hcond, if_true]
        exact wp_pure.mpr (hkept h₂ (fun m => (hwal₂ m).trans (hwal₁ m)) herr)
    · exact wp_pure.mpr (hkept h₁ hwal₁ herr)
  · rw [if_neg (by rw [herr]; simp)]
    exact wp_pure.mpr (hkept (ht₁.tidy h) (fun m => ht₁.fs.view _ (by simp)) herr)

theorem flushImmutables_moved {n : Nat} (h : Tidy w) (hn : db.memtables.immutables.length = n) :
    wp pol (DB.flushImmutables n db) (fun r w' => Moved n db w r.1 r.2 w') Tidy w := by
  induction n generalizing db w with
  | zero => exact wp_pure.mpr ⟨h, .refl, fun _ => rfl, fun _ => ⟨by simp, rfl⟩⟩
  | succ n ih =>
      obtain ⟨frozen, hfrozen⟩ : ∃ frozen, db.memtables.immutables.getLast? = some frozen :=
        Option.ne_none_iff_exists'.mp fun hnone => by
          rw [List.getLast?_eq_none_iff.mp hnone] at hn
          exact absurd hn (by simp)
      unfold DB.flushImmutables
      rw [hfrozen]
      refine wp_bind (wp_mono (publishOldest_moved h hfrozen) ?_ fun _ => id)
      rintro ⟨s, db₁⟩ w₁ hm₁
      have htidy : Tidy w₁ := hm₁.tidy
      have hreads : SameReads db db₁ := hm₁.reads
      show wp pol (if s.ok then _ else _) _ _ w₁
      by_cases hok : s.ok = true
      · obtain ⟨hnext, hlen⟩ : db₁.nextFileNumber = db.nextFileNumber + UInt64.ofNat 1 ∧
          db₁.memtables.immutables.length = db.memtables.immutables.length - 1 := hm₁.ok hok
        rw [if_pos hok]
        refine wp_mono (ih htidy (by omega)) ?_ fun _ => id
        rintro ⟨s', db'⟩ w' hm
        refine ⟨hm.tidy, hreads.trans hm.reads, fun m => (hm.wal m).trans (hm₁.wal m), fun hs => ?_⟩
        obtain ⟨hnext', hlen'⟩ := hm.ok hs
        refine ⟨?_, by omega⟩
        rw [hnext', hnext, UInt64.add_assoc, ← UInt64.ofNat_add, Nat.add_comm 1 n]
      · rw [if_neg hok]
        exact wp_pure.mpr ⟨htidy, hreads, hm₁.wal, fun hs => absurd hs hok⟩

/-- `wal::Writer::Open` in a tidy directory. -/
theorem openWriter_tidy {number : UInt64} {policy : Wal.SyncPolicy} {batchSize : Nat} (h : Tidy w) :
    wp pol (Wal.Writer.openWriter (.wal number) policy batchSize)
      (fun r w' => Tidy w' ∧
        match r with
        | .error s => s.ok = false
        | .ok _ =>
            w'.fs.view (.wal number) =
              some ((w.fs.view (.wal number)).getD (.bytes []))) Tidy w := by
  by_cases hbatch : policy = .kBatched ∧ batchSize = 0
  · unfold Wal.Writer.openWriter
    rw [if_pos hbatch]
    exact wp_pure.mpr ⟨h, rfl⟩
  · have hpolicy : CrashMode.process = .power → policy = .kEveryWrite := by simp
    refine wp_mono (Wal.openWriter_spec policy batchSize h.wf (h.homed _ (by simp)) hpolicy
      fun hp hz => hbatch ⟨hp, hz⟩) ?_ fun _ ht => ht.1.tidy h
    rintro (s | writer) w' ⟨ht, -, hr⟩
    · exact ⟨ht.tidy h, hr.1⟩
    · exact ⟨ht.tidy h, hr.2.1⟩

/-- How a rotation ends. -/
structure Turned (db : DB) (w : World) (s : Status) (db' : DB) (w' : World) : Prop where
  tidy : Tidy w'
  reads : SameReads db db'
  ok : s.ok = true → (∃ md : ManifestData, md.walFileNumber = db.nextFileNumber ∧
      w'.fs.view .manifest = some (.bytes (encodeManifest md))) ∧
    (w'.fs.view (.wal db.nextFileNumber) = none ∨ w'.fs.view (.wal db.nextFileNumber) =
      some ((w.fs.view (.wal db.nextFileNumber)).getD (.bytes [])))

theorem rotateWal_turned (h : Tidy w) :
    wp pol db.rotateWal (fun r w' => Turned db w r.1 r.2 w') Tidy w := by
  have hkept {s : Status} {w₁ : World} (ht : Tidy w₁) (hs : s.ok = false) :
      Turned db w s { db with nextFileNumber := db.nextFileNumber + 1 } w₁ :=
    ⟨ht, sameReads_of_eq rfl rfl rfl, fun hok => absurd hok (by simp [hs])⟩
  refine wp_bind (wp_mono (openWriter_tidy h) ?_ fun _ => id)
  rintro (s | writer) w₁ ⟨h₁, hview₁⟩
  · exact wp_pure.mpr (hkept h₁ hview₁)
  refine wp_bind (wp_mono (saveManifest_tidy h₁) ?_ fun _ => id)
  rintro ⟨s, published⟩ w₂ ⟨h₂, hwal₂, ⟨rfl, hmanifest⟩ | ⟨rfl, herr⟩⟩
  · have hcond : (!s.ok && !true) = false := by simp
    simp only [hcond]
    have hend {w₃ : World} (h₃ : Tidy w₃)
        (hmanifest₃ : w₃.fs.view .manifest = w₂.fs.view .manifest)
        (hwal₃ : w₃.fs.view (.wal db.nextFileNumber) = none ∨
          w₃.fs.view (.wal db.nextFileNumber) = w₂.fs.view (.wal db.nextFileNumber)) :
        Turned db w s { db with
          nextFileNumber := db.nextFileNumber + 1
          manifest := { db.manifest with walFileNumber := db.nextFileNumber }
          walWriter := some writer
          currentWalNumber := db.nextFileNumber } w₃ :=
      ⟨h₃, sameReads_of_eq rfl rfl rfl, fun _ => ⟨⟨_, rfl, hmanifest₃.trans hmanifest⟩,
        hwal₃.imp_right fun heq => (heq.trans (hwal₂ _)).trans hview₁⟩⟩
    refine wp_bind (wp_atomically ?_ (fun k hk => ?_) h₂ (h₂.unlink _))
    · refine wp_pure.mpr (hend (h₂.unlink _) ?_ ?_)
      · show (w₂.fs.unlink _).view _ = _
        rw [view_unlink, Function.update_of_ne (by simp)]
      · show (w₂.fs.unlink _).view _ = none ∨ (w₂.fs.unlink _).view _ = _
        rw [view_unlink]
        by_cases hself : FileName.wal db.nextFileNumber = .wal db.currentWalNumber
        · exact Or.inl (by rw [hself, Function.update_self])
        · exact Or.inr (Function.update_of_ne hself _ _)
    · exact wp_pure.mpr (hend h₂ rfl (Or.inr rfl))
  · have hcond : (!s.ok && !false) = true := by
      have hs : s.ok = false := herr
      simp [hs]
    simp only [hcond, if_true]
    exact wp_pure.mpr (hkept h₂ herr)

/-- How `FlushLocked` ends. -/
structure FlushEnd (db : DB) (w : World) (s : Status) (db' : DB) (w' : World) : Prop where
  tidy : Tidy w'
  reads : SameReads db db'
  idle : db.pending = 0 → w' = w ∧ db' = db
  ok : s.ok = true → db.persistent = true → 0 < db.pending →
    ∃ number, number = db.nextFileNumber + UInt64.ofNat db.pending ∧
      (∃ md : ManifestData, md.walFileNumber = number ∧
        w'.fs.view .manifest = some (.bytes (encodeManifest md))) ∧
      (w'.fs.view (.wal number) = none ∨
        w'.fs.view (.wal number) = some ((w.fs.view (.wal number)).getD (.bytes [])))

theorem freezeActive_of_pending (h : db.pending = 0) :
    db.freezeActive = db ∧ db.memtables.immutables = [] := by
  have himm := List.eq_nil_of_length_eq_zero h
  unfold DB.freezeActive at himm ⊢
  by_cases hempty : db.memtables.active.empty = true
  · rw [if_pos hempty] at himm ⊢
    exact ⟨rfl, himm⟩
  · rw [if_neg hempty] at himm
    exact absurd himm (by simp [MemTableList.freeze])

theorem flushLocked_end (h : Tidy w) :
    wp pol db.flushLocked (fun r w' => FlushEnd db w r.1 r.2 w') Tidy w := by
  have hsame := sameReads_freezeActive db
  have hlen : db.freezeActive.memtables.immutables.length = db.pending := rfl
  unfold DB.flushLocked
  by_cases hp : db.persistent = true
  · rw [if_pos hp]
    by_cases hnil : db.freezeActive.memtables.immutables.isEmpty = true
    · have hzero : db.pending = 0 := by rw [← hlen, List.isEmpty_iff.mp hnil, List.length_nil]
      simp only [hnil, if_true]
      exact wp_pure.mpr ⟨h, hsame, fun _ => ⟨rfl, (freezeActive_of_pending hzero).1⟩,
        fun _ _ hpos => absurd hpos (by omega)⟩
    · have hpos : 0 < db.pending := by
        rw [← hlen]
        exact List.length_pos_of_ne_nil fun heq => hnil (by rw [heq]; rfl)
      simp only [hnil]
      refine wp_bind (wp_mono (flushImmutables_moved h hlen) ?_ fun _ => id)
      rintro ⟨s, db₁⟩ w₁ hm
      have hm : Moved db.pending db.freezeActive w s db₁ w₁ := hm
      have hreads := hsame.trans hm.reads
      show wp pol (if s.ok then _ else _) _ _ w₁
      by_cases hok : s.ok = true
      · rw [if_pos hok]
        refine wp_mono (rotateWal_turned hm.tidy) ?_ fun _ => id
        rintro ⟨s', db'⟩ w' ht
        have hnext := (hm.ok hok).1
        rw [freezeActive_nextFileNumber] at hnext
        refine ⟨ht.tidy, hreads.trans ht.reads, fun hz => absurd hpos (by omega),
          fun hs _ _ => ⟨_, hnext, (ht.ok hs).1, ?_⟩⟩
        rw [← hm.wal]
        exact (ht.ok hs).2
      · rw [if_neg hok]
        exact wp_pure.mpr ⟨hm.tidy, hreads, fun hz => absurd hpos (by omega),
          fun hs => absurd hs hok⟩
  · rw [if_neg hp]
    exact wp_pure.mpr ⟨h, .refl, fun _ => ⟨rfl, rfl⟩, fun _ hp' => absurd hp' hp⟩

-- ============================================================================
-- Calls and opens
-- ============================================================================

/-- The effect of an acknowledged call on the members, before any flush. -/
def Op.write : Op → DB → UInt64 → DB
  | .put key value, db, sequence => db.applyPut key value sequence
  | .delete key, db, sequence => db.applyDelete key sequence
  | .flush, db, _ => db

/-- How a call ends: it changed nothing that is read, or it was applied to what
    was read before. -/
structure CallEnd (op : Op) (db : DB) (db' : DB) (w' : World) : Prop where
  tidy : Tidy w'
  reads : SameReads db db' ∨
    ∃ db₁, SameReads db db₁ ∧ SameReads (op.write db₁ db.nextSequence) db'

theorem flushIfDue_reads (h : Tidy w) :
    wp pol db.flushIfDue (fun r w' => Tidy w' ∧ SameReads db r.2) Tidy w := by
  unfold DB.flushIfDue
  split
  · exact wp_mono (flushLocked_end h) (fun _ _ he => ⟨he.tidy, he.reads⟩) fun _ => id
  · exact wp_pure.mpr ⟨h, .refl⟩

theorem addToWal_reads {record : Wal.Record} (h : Tidy w) :
    wp pol (db.addToWal record) (fun r w' => Tidy w' ∧ SameReads db r.2) Tidy w := by
  unfold DB.addToWal
  cases db.walWriter with
  | none => exact wp_pure.mpr ⟨h, .refl⟩
  | some writer =>
      refine wp_bind (wp_mono (preserves_addRecord writer record pol w h) ?_ fun _ => id)
      exact fun r w' h' => wp_pure.mpr ⟨h', sameReads_of_eq rfl rfl rfl⟩

theorem writeWith_end (record : Wal.Record) (apply : DB → DB) (h : Tidy w) :
    wp pol (db.writeWith record apply)
      (fun r w' => Tidy w' ∧ (SameReads db r.2 ∨
        ∃ db₁, SameReads db db₁ ∧ SameReads (apply db₁) r.2)) Tidy w := by
  refine wp_bind (wp_mono (addToWal_reads h) ?_ fun _ => id)
  rintro ⟨s, db₁⟩ w₁ ⟨h₁, hreads⟩
  show wp pol (if s.ok then _ else _) _ _ w₁
  split
  · exact wp_mono (flushIfDue_reads h₁) (fun _ _ he => ⟨he.1, Or.inr ⟨db₁, hreads, he.2⟩⟩)
      fun _ => id
  · exact wp_pure.mpr ⟨h₁, Or.inl hreads⟩

theorem run_end {op : Op} (h : Tidy w) :
    wp pol (op.run db) (fun r w' => CallEnd op db r.2 w') Tidy w := by
  cases op with
  | put key value =>
      show wp pol (db.put key value) _ _ _
      rw [put_eq_writeWith]
      refine wp_mono (writeWith_end ⟨db.nextSequence, .kPut, key, value⟩
        (fun db' => db'.applyPut key value db.nextSequence) h) ?_ fun _ => id
      exact fun r w' he => ⟨he.1, he.2⟩
  | delete key =>
      show wp pol (db.delete key) _ _ _
      rw [delete_eq_writeWith]
      refine wp_mono (writeWith_end ⟨db.nextSequence, .kDelete, key, []⟩
        (fun db' => db'.applyDelete key db.nextSequence) h) ?_ fun _ => id
      exact fun r w' he => ⟨he.1, he.2⟩
  | flush =>
      exact wp_mono (flushLocked_end h) (fun _ _ he => ⟨he.tidy, Or.inl he.reads⟩) fun _ => id

theorem preserves_loadManifest : Preserves Tidy loadManifest := by
  refine preserves_bind (preserves_stat _) fun existing => ?_
  show Preserves Tidy (if _ then _ else _)
  split
  · exact preserves_pure _
  · refine preserves_bind (preserves_readFile _) fun contents => ?_
    rcases contents with s | (b | entries | _)
    · exact preserves_pure _
    · dsimp only
      cases decodeManifest b <;> exact preserves_pure _
    · exact preserves_pure _
    · exact preserves_pure _

theorem preserves_openTables (tables : List TableFileInfo) :
    Preserves Tidy (DB.openTables tables) := by
  induction tables with
  | nil => exact preserves_pure _
  | cons table rest ih =>
      refine preserves_bind (preserves_openReader _) fun opened => ?_
      cases opened with
      | error s => exact preserves_pure _
      | ok reader =>
          refine preserves_bind ih fun others => ?_
          cases others <;> exact preserves_pure _

theorem preserves_discardTorn (name : FileName) (terminal : Wal.ReadResult) (length : Nat) :
    Preserves Tidy (DB.discardTorn name terminal length) := by
  unfold DB.discardTorn
  split
  · exact preserves_truncateFile name length
  · exact preserves_pure _

theorem preserves_recoverFrom (options : Options) (md : ManifestData) :
    Preserves Tidy (DB.recoverFrom options md) := by
  refine preserves_bind (preserves_openTables md.tables) fun opened => ?_
  cases opened with
  | error s => exact preserves_pure _
  | ok tables =>
      show Preserves Tidy (if _ then DB.recoverWal options md tables else _)
      split
      · refine preserves_bind (preserves_readFile _) fun contents => ?_
        match contents with
        | .error s => exact preserves_pure _
        | .ok (.table entries) => exact preserves_pure _
        | .ok .unfinished => exact preserves_pure _
        | .ok (.bytes b) =>
            show Preserves Tidy (if _ then _ else _)
            split
            · exact preserves_pure _
            · refine preserves_bind (preserves_discardTorn _ _ _) fun s => ?_
              show Preserves Tidy (if s.ok then _ else _)
              split
              · refine preserves_bind (preserves_openWriter _ _ _) fun opened => ?_
                cases opened <;> exact preserves_pure _
              · exact preserves_pure _
      · refine preserves_bind (preserves_openWriter _ _ _) fun opened => ?_
        cases opened with
        | error s => exact preserves_pure _
        | ok writer =>
            refine preserves_bind (preserves_saveManifest _) fun r => ?_
            show Preserves Tidy (if r.1.ok then _ else _)
            split <;> exact preserves_pure _

theorem preserves_openDb (options : Options) : Preserves Tidy (DB.openDb options) := by
  refine preserves_bind preserves_loadManifest fun loaded => ?_
  cases loaded with
  | ok md => exact preserves_recoverFrom options md
  | error s =>
      show Preserves Tidy (if s.isNotFound then _ else _)
      split
      · exact preserves_recoverFrom options {}
      · exact preserves_pure _

-- ============================================================================
-- Reached states
-- ============================================================================

/-- The states that a directory and a process on it can be in: either mode, any
    options, any faults, any crash. -/
inductive Reached : Sys → Prop where
  | init : Reached .init
  | inMemory {w : World} (options : Options) : Reached ⟨w, none⟩ →
      Reached ⟨w, some (.inMemory options)⟩
  | opened {w w' : World} {options : Options} {pol : Policy FsOp World} {env env' : List Fault}
      {db : DB} : Reached ⟨w, none⟩ → DB.openDb options pol env w = .done (.ok db) w' env' →
      Reached ⟨w', some db⟩
  | openFailed {w w' : World} {options : Options} {pol : Policy FsOp World} {env env' : List Fault}
      {s : Status} {mode : CrashMode} {fs : DbFs} : Reached ⟨w, none⟩ →
      DB.openDb options pol env w = .done (.error s) w' env' → After mode w'.fs fs →
      Reached ⟨{ w' with fs }, none⟩
  | openCrashed {w w' : World} {options : Options} {pol : Policy FsOp World} {env : List Fault}
      {mode : CrashMode} {fs : DbFs} : Reached ⟨w, none⟩ →
      DB.openDb options pol env w = .crashed w' → After mode w'.fs fs →
      Reached ⟨{ w' with fs }, none⟩
  | returned {w w' : World} {db db' : DB} {op : Op} {pol : Policy FsOp World}
      {env env' : List Fault} {s : Status} : Reached ⟨w, some db⟩ →
      op.run db pol env w = .done (s, db') w' env' → Reached ⟨w', some db'⟩
  | crashed {w w' : World} {db : DB} {op : Op} {pol : Policy FsOp World} {env : List Fault}
      {mode : CrashMode} {fs : DbFs} : Reached ⟨w, some db⟩ →
      op.run db pol env w = .crashed w' → After mode w'.fs fs → Reached ⟨{ w' with fs }, none⟩
  | stopped {w : World} {db : DB} {mode : CrashMode} {fs : DbFs} : Reached ⟨w, some db⟩ →
      After mode w.fs fs → Reached ⟨{ w with fs }, none⟩

theorem Reached.tidy {s : Sys} (h : Reached s) : Tidy s.world := by
  induction h with
  | init => exact tidy_init
  | inMemory options _ ih => exact ih
  | opened _ hrun ih => exact wp_done (preserves_openDb _ _ _ ih) hrun
  | openFailed _ hrun ha ih => exact (wp_done (preserves_openDb _ _ _ ih) hrun).after ha
  | openCrashed _ hrun ha ih => exact (wp_crashed (preserves_openDb _ _ _ ih) hrun).after ha
  | returned _ hrun ih => exact (wp_done (run_end ih) hrun).tidy
  | crashed _ hrun ha ih => exact (wp_crashed (run_end ih) hrun).after ha
  | stopped _ ha ih => exact ih.after ha

/-- A process that ends leaves what one of the two kinds of crash does. -/
theorem Env.Leaves.after {E : Env} {fs fs' : DbFs} (h : E.Leaves fs fs') :
    ∃ mode, After mode fs fs' := h.elim (fun heq => ⟨.process, heq⟩) fun ha => ⟨E.mode, ha⟩

/-- A step of the system in some environment is among them. -/
theorem Reached.step {E : Env} {s s' : Sys} {e : Event} (h : Reached s) (hstep : Step E s e s') :
    Reached s' := by
  cases hstep with
  | opened _ _ _ hrun => exact h.opened hrun
  | openFailed _ _ _ hrun ha =>
      obtain ⟨_, ha⟩ := ha.after
      exact h.openFailed hrun ha
  | openCrashed _ _ _ hrun ha =>
      obtain ⟨_, ha⟩ := ha.after
      exact h.openCrashed hrun ha
  | returned _ _ hrun => exact h.returned hrun
  | crashed _ _ hrun ha =>
      obtain ⟨_, ha⟩ := ha.after
      exact h.crashed hrun ha
  | stopped ha =>
      obtain ⟨_, ha⟩ := ha.after
      exact h.stopped ha

theorem Reached.runs {E : Env} {s : Sys} {run : List (Event × Sys)} (h : Reached s)
    (hrun : Runs (Step E) s run) : Reached (lastState s run) := by
  induction hrun with
  | nil s => exact h
  | cons hstep _ ih =>
      rw [lastState_cons]
      exact ih (h.step hstep)

end PassionProjects.PebbleDB
