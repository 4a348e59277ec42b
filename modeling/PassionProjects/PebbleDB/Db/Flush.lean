/-
  PassionProjects.PebbleDB.Db.Flush

  The flush path keeps the invariant, whatever fails in it and wherever the
  process stops.

  `Live` is the invariant of an open DB in its directory, `CrashOk` what is left
  when the process stops.  Each part of `FlushLocked` has one specification:
  started in a `Live` state it returns in one, with the layers standing for the
  same map, and a crash inside leaves `CrashOk` for that map.
-/

import PassionProjects.PebbleDB.Db.Invariant

namespace PassionProjects.PebbleDB

open PassionProjects.Faults
open PassionProjects.Faults.Prog
open PassionProjects.FileSystem
open PassionProjects.FileSystem.Fs
open PassionProjects.Layers
open PassionProjects.PebbleDB.Util
open PassionProjects.PebbleDB.Memtable
open PassionProjects.PebbleDB.Manifest

/-- The last manifest that was published names another WAL segment than the one
    published before it. -/
def Rotated (published : List ManifestData) : Bool :=
  match published.reverse with
  | b :: a :: _ => a.walFileNumber != b.walFileNumber
  | _ => false

/-- MANIFEST is the manifest that was published last.  Its next file number is
    beyond its tables, and beyond its WAL unless the last publish was a rotation. -/
def OnDisk (w : World) : Prop :=
  (w.published = [] ∧ w.fs.view .manifest = none) ∨
    ∃ md, w.published.getLast? = some md ∧
      w.fs.view .manifest = some (.bytes (encodeManifest md)) ∧
      (md.walFileNumber.toNat < md.nextFileNumber.toNat ↔ ¬ Rotated w.published) ∧
      ∀ t ∈ md.tables, t.fileNumber.toNat < md.nextFileNumber.toNat

/-- MANIFEST, if it is there, is one of the manifests that were published. -/
def Listed (published : List ManifestData) (v : DbView) : Prop :=
  v .manifest = none ∨ ∃ md ∈ published, v .manifest = some (.bytes (encodeManifest md))

/-- Two views that agree on whether there is a MANIFEST and on the segment it names. -/
def SameSegment (u v : DbView) : Prop :=
  (u .manifest = none ↔ v .manifest = none) ∧
    ∀ md md', u .manifest = some (.bytes (encodeManifest md)) →
      v .manifest = some (.bytes (encodeManifest md')) → md.walFileNumber = md'.walFileNumber

/-- No crash changes what a process that opens the directory builds on: the segment
    that MANIFEST names, and the names that it will create files under. -/
structure Grounded (mode : CrashMode) (fs : DbFs) : Prop where
  segment : ∀ v, Possible mode fs v → SameSegment fs.view v
  wal : ∀ md, fs.view .manifest = some (.bytes (encodeManifest md)) →
    Settled mode fs (.wal md.walFileNumber)
  fresh : ∀ n : UInt64, 0 < n.toNat →
    (∀ md, fs.view .manifest = some (.bytes (encodeManifest md)) →
      md.nextFileNumber.toNat ≤ n.toNat) →
    LinkSettled mode fs (.wal n) ∧ LinkSettled mode fs (.sst n)

/-- MANIFEST is `md`, and every directory that a crash can leave is one of the log
    state `g`. -/
structure Shown (mode : CrashMode) (fs : DbFs) (g : LogState) (md : ManifestData) : Prop where
  views : ∀ v, Possible mode fs v → ViewOk md.walFileNumber md.nextFileNumber g v
  log : LogOk g
  manifest : fs.view .manifest = some (.bytes (encodeManifest md))
  counters : ManifestOk md.walFileNumber md.nextFileNumber (g.old ++ g.new) md

/-- Every directory that a crash can leave was never opened to the end, or all of
    them are of one log state that stands for `m`. -/
def Held (mode : CrashMode) (m : EntryLayer) (fs : DbFs) : Prop :=
  ((∀ v, Possible mode fs v → DiskFresh v) ∧ m = fun _ => none) ∨
    ∃ g md, Shown mode fs g md ∧ g.map = m

/-- An open DB in its directory. -/
structure Live (mode : CrashMode) (db : DB) (w : World) (g : LogState) : Prop where
  wf : w.fs.WF
  homed : ∀ n, n ≠ .manifest → Homed w.fs n
  ok : DbOk db g
  views : ∀ v, Possible mode w.fs v →
    ViewOk db.currentWalNumber db.manifest.nextFileNumber g v
  current : w.fs.view .manifest = some (.bytes (encodeManifest db.manifest))
  listed : ∀ v, Possible mode w.fs v → Listed w.published v
  writer : ∃ writer, db.walWriter = some writer ∧ writer.Open mode w db.currentWalNumber
  walSettled : Settled mode w.fs (.wal db.currentWalNumber)
  freshWal : ∀ n : UInt64, db.nextFileNumber.toNat ≤ n.toNat → LinkSettled mode w.fs (.wal n)
  freshSst : ∀ n : UInt64, db.nextFileNumber.toNat ≤ n.toNat → LinkSettled mode w.fs (.sst n)
  policy : mode = .power → db.options.walSyncPolicy = .kEveryWrite
  batch : db.options.walSyncPolicy = .kBatched → db.options.walBatchSize ≠ 0
  onDisk : mode = .process → OnDisk w ∧ w.published.getLast? = some db.manifest

/-- What a process that stops leaves: every directory possible now can be opened
    and stands for `m`, and so does all that is built on a directory that no crash
    takes away. -/
structure CrashOk (mode : CrashMode) (m : EntryLayer) (w : World) : Prop where
  wf : w.fs.WF
  homed : ∀ n, n ≠ .manifest → Homed w.fs n
  views : ∀ v, Possible mode w.fs v → DiskOk v m
  held : Grounded mode w.fs → Held mode m w.fs
  listed : ∀ v, Possible mode w.fs v → Listed w.published v
  onDisk : mode = .process → OnDisk w

/-- A WAL rotation is published only together with its directory fsync, as far as
    power losses are concerned. -/
def RotationsSynced (mode : CrashMode) (pol : Policy FsOp World) : Prop :=
  mode = .power → ∀ w k, pol w (.fsyncDir .renamed) (.error k) = true → ¬ Rotated w.published

/-- A table file with contents is in the way of file number `n`. -/
def Blocked (w : World) (n : UInt64) : Prop :=
  (w.fs.view (.sst n)).any (fun data => !data.isEmpty) = true

variable {mode : CrashMode} {pol : Policy FsOp World} {db : DB} {w w' : World} {g : LogState}

-- ============================================================================
-- The invariant under small changes
-- ============================================================================

theorem ManifestOk.self {cur next : UInt64} {tables : List PubTable} {md : ManifestData}
    (h : ManifestOk cur next tables md) :
    ManifestOk md.walFileNumber md.nextFileNumber tables md where
  wal := rfl
  walPos := by rw [h.wal]; exact h.walPos
  infos := h.infos
  nextLe := Nat.le_refl _
  walLe := by rw [h.wal]; exact h.walLe
  numbers := h.numbers
  seqs := h.seqs
  last := h.last

theorem Live.shown (h : Live mode db w g) : Shown mode w.fs g db.manifest where
  views v hv := by
    rw [h.ok.manifest.wal]
    exact h.views v hv
  log := h.ok.logOk
  manifest := h.current
  counters := h.ok.manifest.self

theorem Live.crash (h : Live mode db w g) : CrashOk mode (firstHit db.layers) w where
  wf := h.wf
  homed := h.homed
  views v hv := by
    rw [← h.ok.map]
    exact (h.views v hv).disk h.ok.logOk
  held _ := Or.inr ⟨g, db.manifest, h.shown, h.ok.map⟩
  listed := h.listed
  onDisk hmode := (h.onDisk hmode).1

theorem Listed.ignores {n : FileName} {published : List ManifestData} (hn : FileName.manifest ≠ n)
    (u v : DbView) (heq : ∀ m, m ≠ n → v m = u m) (h : Listed published u) :
    Listed published v := by
  unfold Listed at h ⊢
  rwa [heq _ hn]

theorem Listed.touch {n : FileName} (h : ∀ v, Possible mode w.fs v → Listed w.published v)
    (ht : Touches mode n w w') (hn : FileName.manifest ≠ n) :
    ∀ v, Possible mode w'.fs v → Listed w'.published v := by
  rw [ht.published]
  exact ht.fs.forall_possible (Listed.ignores hn) h

theorem Listed.renamed {data : ManifestData} {P : DbView → Prop}
    (hP : ∀ v, P v → Listed w.published v) (hr : Renamed mode data P w w') :
    ∀ v, Possible mode w'.fs v → Listed w'.published v := by
  intro v hv
  rw [hr.published]
  rcases hr.possible v hv with hv | ⟨u, -, rfl⟩
  · rcases hP v hv with hnone | ⟨md, hmem, hmd⟩
    · exact Or.inl hnone
    · exact Or.inr ⟨md, List.mem_append_left _ hmem, hmd⟩
  · exact Or.inr ⟨data, by simp, by simp [withManifest]⟩

theorem OnDisk.touch {n : FileName} (h : OnDisk w) (ht : Touches mode n w w')
    (hn : n ≠ .manifest) : OnDisk w' := by
  unfold OnDisk at h ⊢
  rwa [ht.published, ht.fs.view _ (Ne.symm hn)]

theorem CrashOk.touch {n : FileName} {m : EntryLayer} (h : CrashOk mode m w)
    (ht : Touches mode n w w') (hn : n ≠ .manifest)
    (hviews : ∀ v, Possible mode w'.fs v → DiskOk v m)
    (hheld : Grounded mode w'.fs → Held mode m w'.fs) : CrashOk mode m w' where
  wf := ht.fs.wf
  homed m hm := ht.fs.homed m (h.homed m hm)
  views := hviews
  held := hheld
  listed := Listed.touch h.listed ht (Ne.symm hn)
  onDisk hmode := (h.onDisk hmode).touch ht hn

/-- Work on a file that neither the DB nor its next file numbers use. -/
theorem Live.touch {n : FileName} (h : Live mode db w g) (ht : Touches mode n w w')
    (hn : Unused db.currentWalNumber g n)
    (hfresh : ∀ m : UInt64, db.nextFileNumber.toNat ≤ m.toNat → .sst m ≠ n ∧ .wal m ≠ n) :
    Live mode db w' g := by
  have hmanifest : FileName.manifest ≠ n := by rintro rfl; exact hn
  have hwal : FileName.wal db.currentWalNumber ≠ n := by
    rintro rfl
    exact Nat.lt_irrefl _ hn
  obtain ⟨writer, hw, hopen⟩ := h.writer
  exact {
    wf := ht.fs.wf
    homed := fun m hm => ht.fs.homed m (h.homed m hm)
    ok := h.ok
    views := ht.fs.forall_possible (ViewOk.ignores hn) h.views
    current := (ht.fs.view _ hmanifest).trans h.current
    listed := Listed.touch h.listed ht hmanifest
    writer := ⟨writer, hw, hopen.path, (ht.fs.dir _ hwal).trans hopen.dir, hopen.policy⟩
    walSettled := ht.fs.settled _ hwal h.walSettled
    freshWal := fun m hm => ht.fs.link _ (hfresh m hm).2 (h.freshWal m hm)
    freshSst := fun m hm => ht.fs.link _ (hfresh m hm).1 (h.freshSst m hm)
    policy := h.policy
    batch := h.batch
    onDisk := fun hmode => ⟨(h.onDisk hmode).1.touch ht (Ne.symm hmanifest), by
      rw [ht.published]
      exact (h.onDisk hmode).2⟩ }

theorem Live.touchTmp (h : Live mode db w g) (ht : Touches mode .manifestTmp w w') :
    Live mode db w' g := h.touch ht trivial fun _ _ => ⟨by simp, by simp⟩

/-- Allocating a file number. -/
theorem Live.allocate (h : Live mode db w g) {next : UInt64}
    (hle : db.nextFileNumber.toNat ≤ next.toNat) :
    Live mode { db with nextFileNumber := next } w g where
  wf := h.wf
  homed := h.homed
  ok := h.ok.allocate hle
  views := h.views
  current := h.current
  listed := h.listed
  writer := h.writer
  walSettled := h.walSettled
  freshWal n hn := h.freshWal n (Nat.le_trans hle hn)
  freshSst n hn := h.freshSst n (Nat.le_trans hle hn)
  policy := h.policy
  batch := h.batch
  onDisk := h.onDisk

theorem Live.freeze (h : Live mode db w g) :
    Live mode { db with memtables := db.memtables.freeze } w g where
  wf := h.wf
  homed := h.homed
  ok := h.ok.freeze
  views := h.views
  current := h.current
  listed := h.listed
  writer := h.writer
  walSettled := h.walSettled
  freshWal := h.freshWal
  freshSst := h.freshSst
  policy := h.policy
  batch := h.batch
  onDisk := h.onDisk

/-- An empty segment with an allocated number appears. -/
theorem Live.createWal {n : UInt64} (h : Live mode db w g) (ht : Touches mode (.wal n) w w')
    (hc : OnlyCreates mode (.wal n) w.fs w'.fs) (hcur : db.currentWalNumber.toNat < n.toNat)
    (hnext : n.toNat < db.nextFileNumber.toNat) : Live mode db w' g := by
  have hwal : FileName.wal db.currentWalNumber ≠ .wal n := by
    intro heq
    rw [FileName.wal.inj heq] at hcur
    omega
  obtain ⟨writer, hw, hopen⟩ := h.writer
  exact {
    wf := ht.fs.wf
    homed := fun m hm => ht.fs.homed m (h.homed m hm)
    ok := h.ok
    views := fun v hv => by
      obtain ⟨u, hu, rfl | rfl⟩ := hc v hv
      · exact h.views v hu
      · exact (h.views u hu).createWal hcur
    current := (ht.fs.view _ (by simp)).trans h.current
    listed := Listed.touch h.listed ht (by simp)
    writer := ⟨writer, hw, hopen.path, (ht.fs.dir _ hwal).trans hopen.dir, hopen.policy⟩
    walSettled := ht.fs.settled _ hwal h.walSettled
    freshWal := fun m hm => by
      refine ht.fs.link _ (fun heq => ?_) (h.freshWal m hm)
      rw [FileName.wal.inj heq] at hm
      omega
    freshSst := fun m hm => ht.fs.link _ (by simp) (h.freshSst m hm)
    policy := h.policy
    batch := h.batch
    onDisk := fun hmode => ⟨(h.onDisk hmode).1.touch ht (by simp), by
      rw [ht.published]
      exact (h.onDisk hmode).2⟩ }

-- ============================================================================
-- The manifest that is published
-- ============================================================================

theorem rotated_append {published : List ManifestData} {a b : ManifestData}
    (h : published.getLast? = some a) :
    Rotated (published ++ [b]) = true ↔ a.walFileNumber ≠ b.walFileNumber := by
  obtain ⟨pre, rfl⟩ := List.getLast?_eq_some_iff.mp h
  simp [Rotated]

/-- MANIFEST after a manifest was renamed into place. -/
theorem onDisk_renamed {P : DbView → Prop} {data last : ManifestData}
    (hr : Renamed mode data P w w') (hlast : w.published.getLast? = some last)
    (hwal : data.walFileNumber.toNat < data.nextFileNumber.toNat ↔
      last.walFileNumber = data.walFileNumber)
    (htables : ∀ t ∈ data.tables, t.fileNumber.toNat < data.nextFileNumber.toNat) : OnDisk w' := by
  refine Or.inr ⟨data, ?_, hr.manifest, ?_, htables⟩
  · rw [hr.published]
    exact List.getLast?_concat
  · rw [hr.published, rotated_append hlast, hwal, not_ne_iff]

-- ============================================================================
-- Writing a table
-- ============================================================================

theorem writeTable_spec (mode : CrashMode) {n : UInt64} {entries : List Entry} (hwf : w.fs.WF)
    (hh : Homed w.fs (.sst n)) (hs : LinkSettled mode w.fs (.sst n)) :
    wp pol (DB.writeTable n entries)
      (fun s w' => Touches mode (.sst n) w w' ∧
        ((s.ok = true ∧ ¬ Blocked w n ∧ w'.fs.view (.sst n) = some (.table entries) ∧
            Settled mode w'.fs (.sst n)) ∨
          (s.ok = false ∧ (Blocked w n ∨ ∃ o, MayFail pol o))))
      (fun w' => Touches mode (.sst n) w w') w := by
  refine wp_bind (wp_mono (openNew_spec mode hwf hh) ?_ fun _ => id)
  rintro (s | file) w₁ ⟨ht₁, hr⟩
  · refine wp_pure.mpr ⟨ht₁, Or.inr ⟨hr.1, hr.2.imp id ?_⟩⟩
    exact fun h => h.elim (fun h => ⟨_, h⟩) fun h => ⟨_, h⟩
  · obtain ⟨hblocked, hpath, hdir₁, -, hlink, -⟩ := hr
    have hlink₁ := hlink (Or.inr hs)
    have hnot : ¬ Blocked w n := by simp [Blocked, hblocked]
    refine wp_bind (wp_mono (sysWriteTable_spec mode ht₁.fs.wf (ht₁.fs.homed _ hh) hpath hdir₁)
      ?_ fun _ h => ht₁.trans h)
    rintro ok w₂ ⟨ht₂, hdir₂, hlink₂, ⟨rfl, hview₂⟩ | ⟨rfl, hfail⟩⟩
    · have ht₂ := ht₁.trans ht₂
      have hdir₂' : w₂.fs.dir (.sst n) = some file.fd := by rw [hdir₂]; exact hdir₁
      rw [if_pos rfl]
      refine wp_mono (sync_spec mode ht₂.fs.wf hpath hdir₂') ?_ fun _ h => ht₂.trans h.1
      rintro s w₃ ⟨ht₃, hview₃, -, -, -, ⟨hok, hsettled, -⟩ | ⟨hok, hfail⟩⟩
      · exact ⟨ht₂.trans ht₃, Or.inl ⟨hok, hnot, (congrFun hview₃ _).trans hview₂,
          hsettled (hlink₂ hlink₁)⟩⟩
      · exact ⟨ht₂.trans ht₃, Or.inr ⟨hok, Or.inr ⟨_, hfail⟩⟩⟩
    · exact wp_pure.mpr ⟨ht₁.trans ht₂, Or.inr ⟨rfl, Or.inr ⟨_, hfail⟩⟩⟩

/-- Opening a reader on a table that is there. -/
theorem openReader_spec {n : UInt64} {entries : List Entry} {C : World → Prop} (hC : C w)
    (h : w.fs.view (.sst n) = some (.table entries)) :
    wp pol (TableReader.openReader n)
      (fun r w' => w' = w ∧ (r = .ok (.complete entries) ∨
        ∃ s, r = .error s ∧ s.ok = false ∧ MayFail pol (.openRead (.sst n)))) C w := by
  refine wp_bind (wp_mono (readFile_spec hC) ?_ fun _ => id)
  rintro (s | contents) w' ⟨rfl, hr⟩
  · exact wp_pure.mpr ⟨rfl, Or.inr ⟨s, rfl, hr.1, hr.2.2.resolve_left (by rw [h]; simp)⟩⟩
  · obtain rfl : contents = .table entries := Option.some.inj (hr.symm.trans h)
    exact wp_pure.mpr ⟨rfl, Or.inl rfl⟩

-- ============================================================================
-- Publishing the oldest frozen MemTable
-- ============================================================================

/-- What every part of the flush path leaves as it was. -/
structure SameStore (db db' : DB) (w w' : World) : Prop where
  map : firstHit db'.layers = firstHit db.layers
  nextSequence : db'.nextSequence = db.nextSequence
  options : db'.options = db.options
  logged : w'.logged = w.logged
  nextLe : db.nextFileNumber.toNat ≤ db'.nextFileNumber.toNat

theorem SameStore.refl : SameStore db db w w := ⟨rfl, rfl, rfl, rfl, Nat.le_refl _⟩

theorem SameStore.trans {db' db'' : DB} {w'' : World} (h₁ : SameStore db db' w w')
    (h₂ : SameStore db' db'' w' w'') : SameStore db db'' w w'' :=
  ⟨h₂.map.trans h₁.map, h₂.nextSequence.trans h₁.nextSequence, h₂.options.trans h₁.options,
    h₂.logged.trans h₁.logged, Nat.le_trans h₁.nextLe h₂.nextLe⟩

/-- How one turn of the flush loop ends. -/
structure Published (mode : CrashMode) (pol : Policy FsOp World) (db : DB) (w : World)
    (g : LogState) (s : Status) (db' : DB) (w' : World) (g' : LogState) : Prop where
  live : Live mode db' w' g'
  same : SameStore db db' w w'
  torn : g'.torn = g.torn
  next : db'.nextFileNumber.toNat = db.nextFileNumber.toNat + 1
  current : db'.currentWalNumber = db.currentWalNumber
  active : db'.memtables.active = db.memtables.active
  sst : ∀ m, m ≠ db.nextFileNumber → w'.fs.view (.sst m) = w.fs.view (.sst m)
  ok : s.ok = true → db'.memtables.immutables = db.memtables.immutables.dropLast ∧
    db'.manifest.nextFileNumber = db'.nextFileNumber ∧
    w'.published.getLast? = some db'.manifest ∧ ¬ Blocked w db.nextFileNumber
  err : s.ok = false → Blocked w db.nextFileNumber ∨ ∃ o, MayFail pol o

/-- Once the manifest of a publish is in place the DB that adopts it is live. -/
theorem live_publish {frozen : MemTable} {number next : UInt64} {P : DbView → Prop}
    (h : Live mode { db with nextFileNumber := next } w g)
    (hok : DbOk { db with nextFileNumber := number } g)
    (hfrozen : db.memtables.immutables.getLast? = some frozen)
    (hnext : next.toNat = number.toNat + 1)
    (hP : ∀ v, P v → (ViewOk db.currentWalNumber db.manifest.nextFileNumber g v ∧
      v (.sst number) = some (.table frozen.entries)) ∧ Listed w.published v)
    (hr : Renamed mode
      ⟨next, db.currentWalNumber, db.nextSequence - 1,
        db.manifest.tables ++ [⟨number, 0⟩]⟩ P w w') :
    Live mode { db with
      nextFileNumber := next
      manifest :=
        ⟨next, db.currentWalNumber, db.nextSequence - 1, db.manifest.tables ++ [⟨number, 0⟩]⟩
      tables := db.tables ++ [.complete frozen.entries]
      memtables := db.memtables.removeOldest } w'
      { g with new := g.new ++ [⟨⟨number, 0⟩, frozen.entries⟩] } := by
  have hpub := (hok.publish hfrozen hnext).1
  obtain ⟨writer, hw, hopen⟩ := h.writer
  have hdata := hpub.manifest
  have hle : db.manifest.nextFileNumber.toNat ≤ next.toNat := h.ok.manifest.nextLe
  exact {
    wf := hr.wf
    homed := fun m hm => hr.homed m hm (h.homed m hm)
    ok := hpub
    views := fun v hv => by
      rcases hr.possible v hv with hv | ⟨u, hu, rfl⟩
      · exact ((hP v hv).1.1.mono hle).addTable (hP v hv).1.2
      · exact (((hP u hu).1.1.mono hle).addTable (hP u hu).1.2).withManifest hdata
    current := hr.manifest
    listed := Listed.renamed (fun v hv => (hP v hv).2) hr
    writer := ⟨writer, hw, hopen.path, (hr.dir _ (by simp) (by simp)).trans hopen.dir, hopen.policy⟩
    walSettled := hr.settled _ (by simp) (by simp) h.walSettled
    freshWal := fun m hm => hr.link _ (by simp) (by simp) (h.freshWal m hm)
    freshSst := fun m hm => hr.link _ (by simp) (by simp) (h.freshSst m hm)
    policy := h.policy
    batch := h.batch
    onDisk := fun hmode => by
      have hcur : db.manifest.walFileNumber = db.currentWalNumber := hok.manifest.wal
      have hlt : db.currentWalNumber.toNat < next.toNat := by
        have h1 : db.currentWalNumber.toNat ≤ db.manifest.nextFileNumber.toNat :=
          hok.manifest.walLe
        have h2 : db.manifest.nextFileNumber.toNat ≤ number.toNat := hok.manifest.nextLe
        omega
      refine ⟨onDisk_renamed hr (h.onDisk hmode).2 ⟨fun _ => hcur, fun _ => hlt⟩ ?_, ?_⟩
      · intro t ht
        have hinfos := hdata.infos
        rw [hinfos] at ht
        obtain ⟨t', ht', rfl⟩ := List.mem_map.mp ht
        exact hdata.numbers t' ht'
      · rw [hr.published]
        exact List.getLast?_concat }

theorem toNat_add_one {n : UInt64} (h : n.toNat + 1 < 2 ^ 64) : (n + 1).toNat = n.toNat + 1 := by
  rw [UInt64.toNat_add]
  simp only [UInt64.reduceToNat]
  omega

theorem publishOldest_spec {frozen : MemTable} (h : Live mode db w g)
    (hfrozen : db.memtables.immutables.getLast? = some frozen)
    (hfit : db.nextFileNumber.toNat + 1 < 2 ^ 64) :
    wp pol (db.publishOldest frozen)
      (fun r w' => ∃ g', Published mode pol db w g r.1 r.2 w' g')
      (fun w' => CrashOk mode (firstHit db.layers) w') w := by
  have hnext := toNat_add_one hfit
  have hlive : Live mode { db with nextFileNumber := db.nextFileNumber + 1 } w g :=
    h.allocate (by omega)
  have hunused : Unused db.currentWalNumber g (.sst db.nextFileNumber) := fun t ht heq => by
    have hlt := h.ok.manifest.number_lt ht
    rw [heq] at hlt
    omega
  have hfresh : ∀ m : UInt64, (db.nextFileNumber + 1).toNat ≤ m.toNat →
      FileName.sst m ≠ .sst db.nextFileNumber ∧ FileName.wal m ≠ .sst db.nextFileNumber := by
    refine fun m hm => ⟨fun heq => ?_, by simp⟩
    rw [FileName.sst.inj heq] at hm
    omega
  -- the DB after the number was allocated, in any directory that differs under that name only
  have htouch {w₁ : World} (ht : Touches mode (.sst db.nextFileNumber) w w₁) :
      Live mode { db with nextFileNumber := db.nextFileNumber + 1 } w₁ g :=
    hlive.touch ht hunused hfresh
  have hfailed {s : Status} {w₁ : World} (hs : s.ok = false)
      (hwhy : Blocked w db.nextFileNumber ∨ ∃ o, MayFail pol o)
      (hl : Live mode { db with nextFileNumber := db.nextFileNumber + 1 } w₁ g)
      (hlogged : w₁.logged = w.logged)
      (hsst : ∀ m, m ≠ db.nextFileNumber → w₁.fs.view (.sst m) = w.fs.view (.sst m)) :
      Published mode pol db w g s { db with nextFileNumber := db.nextFileNumber + 1 } w₁ g := {
    live := hl
    same := ⟨rfl, rfl, rfl, hlogged, by simp only; omega⟩
    torn := rfl
    next := hnext
    current := rfl
    active := rfl
    sst := hsst
    ok := fun hok => absurd hok (by rw [hs]; simp)
    err := fun _ => hwhy }
  have hsst₁ {w₁ : World} (ht : Touches mode (.sst db.nextFileNumber) w w₁) :
      ∀ m, m ≠ db.nextFileNumber → w₁.fs.view (.sst m) = w.fs.view (.sst m) :=
    fun m hm => ht.fs.view _ fun heq => hm (FileName.sst.inj heq)
  unfold DB.publishOldest
  refine wp_bind (wp_mono (writeTable_spec mode h.wf (h.homed _ (by simp))
    (h.freshSst _ (Nat.le_refl _))) ?_ fun w₁ ht => (htouch ht).crash)
  rintro s w₁ ⟨ht₁, ⟨hok, hnot, hview₁, hset₁⟩ | ⟨herr, hwhy⟩⟩
  · have hl₁ := htouch ht₁
    rw [if_pos hok]
    refine wp_bind (wp_mono (openReader_spec (C := CrashOk mode (firstHit db.layers)) hl₁.crash
      hview₁) ?_ fun _ => id)
    rintro r w₁' ⟨rfl, rfl | ⟨s, rfl, herr, hfail⟩⟩
    · have hP : ∀ v, Possible mode w₁'.fs v →
          (ViewOk db.currentWalNumber db.manifest.nextFileNumber g v ∧
            v (.sst db.nextFileNumber) = some (.table frozen.entries)) ∧
          Listed w₁'.published v := fun v hv =>
        ⟨⟨hl₁.views v hv, (hset₁.view hv).trans hview₁⟩, hl₁.listed v hv⟩
      refine wp_bind (wp_mono (saveManifest_spec mode hl₁.wf (hl₁.homed _ (by simp))
        (P := fun v => (ViewOk db.currentWalNumber db.manifest.nextFileNumber g v ∧
          v (.sst db.nextFileNumber) = some (.table frozen.entries)) ∧
          Listed w₁'.published v) ?_ hP) ?_ ?_)
      · rintro u v heq ⟨⟨hu, hsst⟩, hlisted⟩
        exact ⟨⟨ViewOk.ignores (n := .manifestTmp) trivial u v heq hu,
          (heq _ (by simp)).trans hsst⟩, Listed.ignores (by simp) u v heq hlisted⟩
      · rintro ⟨s, published⟩ w₂ (⟨rfl, hsaved⟩ | ⟨rfl, herr, ht₂, hfail⟩)
        · have hl₂ := live_publish hl₁ h.ok hfrozen hnext (fun v hv => hv) hsaved.renamed
          have hlayers := (h.ok.publish hfrozen hnext).2
          have hcond : (!s.ok && !true) = false := by simp
          simp only [hcond]
          refine wp_pure.mpr ⟨_, hl₂, ⟨?_, rfl, rfl, ?_, ?_⟩, rfl, hnext, rfl, rfl, fun m hm => ?_,
            fun _ => ⟨rfl, rfl, ?_, hnot⟩, fun hs => ?_⟩
          · exact congrArg firstHit hlayers
          · exact hsaved.renamed.logged.trans ht₁.logged
          · show db.nextFileNumber.toNat ≤ (db.nextFileNumber + 1).toNat
            omega
          · exact (hsaved.renamed.view _ (by simp) (by simp)).trans (hsst₁ ht₁ m hm)
          · rw [hsaved.renamed.published]
            exact List.getLast?_concat
          · obtain ⟨w₃, k, -, hk⟩ := hsaved.degraded hs
            exact Or.inr ⟨_, w₃, k, hk⟩
        · have hcond : (!s.ok && !false) = true := by
            have hs : s.ok = false := herr
            simp [hs]
          simp only [hcond, if_true]
          refine wp_pure.mpr ⟨g, hfailed herr (Or.inr hfail) (hl₁.touchTmp ht₂)
            (ht₂.logged.trans ht₁.logged) fun m hm => ?_⟩
          exact (ht₂.fs.view _ (by simp)).trans (hsst₁ ht₁ m hm)
      · rintro w₂ (ht₂ | hren)
        · exact (hl₁.touchTmp ht₂).crash
        · have hl₂ := live_publish hl₁ h.ok hfrozen hnext (fun v hv => hv) hren
          have hlayers := (h.ok.publish hfrozen hnext).2
          have hcrash := hl₂.crash
          rwa [hlayers] at hcrash
    · exact wp_pure.mpr ⟨g, hfailed herr (Or.inr ⟨_, hfail⟩) hl₁ ht₁.logged (hsst₁ ht₁)⟩
  · rw [if_neg (by rw [herr]; simp)]
    exact wp_pure.mpr ⟨g, hfailed herr hwhy (htouch ht₁) ht₁.logged (hsst₁ ht₁)⟩

-- ============================================================================
-- The loop
-- ============================================================================

/-- One of the file numbers that a flush of `n` MemTables hands out is taken. -/
def Obstructed (w : World) (next : UInt64) (n : Nat) : Prop :=
  ∃ m : UInt64, next.toNat ≤ m.toNat ∧ m.toNat < next.toNat + n ∧ Blocked w m

/-- Nothing was allocated or published since the manifest in memory was. -/
def JustPublished (db : DB) (w : World) : Prop :=
  db.manifest.nextFileNumber = db.nextFileNumber ∧ w.published.getLast? = some db.manifest

/-- How the flush loop over `n` frozen MemTables ends. -/
structure Drained (mode : CrashMode) (pol : Policy FsOp World) (n : Nat) (db : DB) (w : World)
    (g : LogState) (s : Status) (db' : DB) (w' : World) (g' : LogState) : Prop where
  live : Live mode db' w' g'
  same : SameStore db db' w w'
  torn : g'.torn = g.torn
  current : db'.currentWalNumber = db.currentWalNumber
  active : db'.memtables.active = db.memtables.active
  nextLe : db'.nextFileNumber.toNat ≤ db.nextFileNumber.toNat + n
  sst : ∀ m : UInt64, db'.nextFileNumber.toNat ≤ m.toNat → w'.fs.view (.sst m) = w.fs.view (.sst m)
  ok : s.ok = true → db'.memtables.immutables = [] ∧
    db'.nextFileNumber.toNat = db.nextFileNumber.toNat + n ∧
    (0 < n ∨ JustPublished db w → JustPublished db' w') ∧ ¬ Obstructed w db.nextFileNumber n
  err : s.ok = false → Obstructed w db.nextFileNumber n ∨ ∃ o, MayFail pol o

theorem Published.later {s : Status} {db' : DB} {g' : LogState}
    (h : Published mode pol db w g s db' w' g') {m : UInt64}
    (hm : db'.nextFileNumber.toNat ≤ m.toNat) : w'.fs.view (.sst m) = w.fs.view (.sst m) := by
  refine h.sst m ?_
  rintro rfl
  have := h.next
  omega

theorem Published.blocked {s : Status} {db' : DB} {g' : LogState}
    (h : Published mode pol db w g s db' w' g') {m : UInt64}
    (hm : db'.nextFileNumber.toNat ≤ m.toNat) : Blocked w' m ↔ Blocked w m := by
  rw [Blocked, Blocked, h.later hm]

theorem obstructed_succ {s : Status} {db' : DB} {g' : LogState} {n : Nat}
    (h : Published mode pol db w g s db' w' g') :
    Obstructed w db.nextFileNumber (n + 1) ↔
      Blocked w db.nextFileNumber ∨ Obstructed w' db'.nextFileNumber n := by
  have hnext := h.next
  constructor
  · rintro ⟨m, hle, hlt, hb⟩
    by_cases hm : m = db.nextFileNumber
    · exact Or.inl (hm ▸ hb)
    · have hne : m.toNat ≠ db.nextFileNumber.toNat := fun heq => hm (UInt64.toNat_inj.mp heq)
      exact Or.inr ⟨m, by omega, by omega, (h.blocked (by omega)).mpr hb⟩
  · rintro (hb | ⟨m, hle, hlt, hb⟩)
    · exact ⟨_, Nat.le_refl _, by omega, hb⟩
    · exact ⟨m, by omega, by omega, (h.blocked hle).mp hb⟩

theorem flushImmutables_spec {n : Nat} (h : Live mode db w g)
    (hn : db.memtables.immutables.length = n) (hfit : db.nextFileNumber.toNat + n < 2 ^ 64) :
    wp pol (DB.flushImmutables n db)
      (fun r w' => ∃ g', Drained mode pol n db w g r.1 r.2 w' g')
      (fun w' => CrashOk mode (firstHit db.layers) w') w := by
  induction n generalizing db w g with
  | zero =>
      have hnil := List.eq_nil_of_length_eq_zero hn
      refine wp_pure.mpr ⟨g, h, .refl, rfl, rfl, rfl, Nat.le_refl _, fun _ _ => rfl,
        fun _ => ⟨hnil, rfl, ?_, ?_⟩, fun hs => absurd hs (by simp)⟩
      · rintro (hlt | hpub)
        · exact absurd hlt (Nat.lt_irrefl 0)
        · exact hpub
      · rintro ⟨m, hle, hlt, -⟩
        omega
  | succ n ih =>
      obtain ⟨frozen, hfrozen⟩ : ∃ frozen, db.memtables.immutables.getLast? = some frozen := by
        cases hlast : db.memtables.immutables.getLast? with
        | none =>
            rw [List.getLast?_eq_none_iff.mp hlast] at hn
            exact absurd hn (by simp)
        | some frozen => exact ⟨frozen, rfl⟩
      unfold DB.flushImmutables
      rw [hfrozen]
      refine wp_bind (wp_mono (publishOldest_spec h hfrozen (by omega)) ?_ fun _ => id)
      rintro ⟨s, db₁⟩ w₁ ⟨g₁, hpub⟩
      have hmap : firstHit db₁.layers = firstHit db.layers := hpub.same.map
      have hnext : db₁.nextFileNumber.toNat = db.nextFileNumber.toNat + 1 := hpub.next
      show wp pol (if s.ok then _ else _) _ _ w₁
      by_cases hok : s.ok = true
      · obtain ⟨himm, hmnext, hlast, hnot⟩ := hpub.ok hok
        have hn₁ : db₁.memtables.immutables.length = n := by
          rw [himm, List.length_dropLast, hn]
          rfl
        have hpublished : JustPublished db₁ w₁ := ⟨hmnext, hlast⟩
        rw [if_pos hok]
        refine wp_mono (ih hpub.live hn₁ (by omega)) ?_ fun w' hc => by rwa [hmap] at hc
        rintro ⟨s', db'⟩ w' ⟨g', hd⟩
        have hle := hd.nextLe
        refine ⟨g', hd.live, hpub.same.trans hd.same, hd.torn.trans hpub.torn,
          hd.current.trans hpub.current, hd.active.trans hpub.active, by omega,
          fun m hm => (hd.sst m hm).trans (hpub.later (Nat.le_trans hd.same.nextLe hm)),
          fun hs => ?_, fun hs => ?_⟩
        · obtain ⟨hnil, hnext', hjust, hclear⟩ := hd.ok hs
          refine ⟨hnil, by omega, fun _ => hjust (Or.inr hpublished), ?_⟩
          rw [obstructed_succ hpub]
          exact fun h => h.elim hnot hclear
        · rw [obstructed_succ hpub]
          exact (hd.err hs).imp_left Or.inr
      · have herr : s.ok = false := by simpa using hok
        rw [if_neg hok]
        refine wp_pure.mpr ⟨g₁, hpub.live, hpub.same, hpub.torn, hpub.current, hpub.active,
          by simp only; omega, fun m hm => hpub.later hm, fun hs => absurd hs hok, fun _ => ?_⟩
        rw [obstructed_succ hpub]
        exact (hpub.err herr).imp_left Or.inl

-- ============================================================================
-- Rotating the WAL
-- ============================================================================

/-- Everything is published, and `number` was allocated for the new segment. -/
structure RotationDue (mode : CrashMode) (db : DB) (w : World) (g : LogState)
    (number next : UInt64) : Prop where
  live : Live mode { db with nextFileNumber := next } w g
  ok : DbOk { db with nextFileNumber := number } g
  active : db.memtables.active.empty = true
  immutables : db.memtables.immutables = []
  next : number.toNat ≤ next.toNat
  manifest : db.manifest.nextFileNumber = number
  current : db.currentWalNumber.toNat < number.toNat
  published : w.published.getLast? = some db.manifest

/-- The DB that writes to segment `number`. -/
def rotatedDb (db : DB) (number next : UInt64) (writer : Wal.Writer) : DB := { db with
  nextFileNumber := next
  manifest := { db.manifest with walFileNumber := number }
  walWriter := some writer
  currentWalNumber := number }

/-- A view that shows the new segment and the manifest before the rotation. -/
structure SegmentReady (db : DB) (w : World) (g : LogState) (number : UInt64) (v : DbView) :
    Prop where
  view : ViewOk db.currentWalNumber db.manifest.nextFileNumber g v
  segment : v (.wal number) = some (.bytes [])
  listed : Listed w.published v

theorem SegmentReady.ignoresTmp {number : UInt64} :
    IgnoresTmp (SegmentReady db w g number) := fun u v heq h =>
  ⟨ViewOk.ignores (n := .manifestTmp) trivial u v heq h.view, (heq _ (by simp)).trans h.segment,
    Listed.ignores (by simp) u v heq h.listed⟩

namespace RotationDue

variable {number next : UInt64} {P : DbView → Prop}

theorem dbOk (h : RotationDue mode db w g number next) (writer : Wal.Writer) :
    DbOk (rotatedDb db number next writer) g.rotate :=
  (h.ok.rotate h.active h.immutables h.next h.manifest).1

theorem manifestOk (h : RotationDue mode db w g number next) :
    ManifestOk number db.manifest.nextFileNumber (g.old ++ g.new)
      { db.manifest with walFileNumber := number } := by
  obtain ⟨writer, -, -⟩ := h.live.writer
  have hok := (h.dbOk writer).manifest.self
  have htables : g.rotate.old ++ g.rotate.new = g.old ++ g.new := by simp [LogState.rotate]
  rw [htables] at hok
  exact hok

/-- A view that shows the new manifest. -/
theorem viewOk (h : RotationDue mode db w g number next)
    (hP : ∀ v, P v → SegmentReady db w g number v)
    {u : DbView} (hu : P u) : ViewOk number db.manifest.nextFileNumber g.rotate
      (withManifest { db.manifest with walFileNumber := number } u) :=
  (hP u hu).view.rotate h.current (hP u hu).segment h.manifestOk

theorem onDisk (h : RotationDue mode db w g number next)
    (hr : Renamed mode { db.manifest with walFileNumber := number } P w w') : OnDisk w' := by
  have hcur : db.manifest.walFileNumber = db.currentWalNumber := h.ok.manifest.wal
  refine onDisk_renamed hr h.published ⟨fun hlt => ?_, fun heq => ?_⟩ fun t ht => ?_
  · rw [h.manifest] at hlt
    exact absurd hlt (Nat.lt_irrefl _)
  · have heq' : db.manifest.walFileNumber = number := heq
    have hlt := h.current
    rw [← hcur, heq'] at hlt
    exact absurd hlt (Nat.lt_irrefl _)
  · have hinfos : db.manifest.tables = (g.old ++ g.new).map PubTable.info := h.ok.manifest.infos
    have ht' : t ∈ db.manifest.tables := ht
    rw [hinfos] at ht'
    obtain ⟨t', hmem, rfl⟩ := List.mem_map.mp ht'
    exact h.ok.manifest.numbers t' hmem

/-- A process that stops once the manifest is renamed leaves the old segment named,
    or the new one. -/
theorem crash (h : RotationDue mode db w g number next)
    (hP : ∀ v, P v → SegmentReady db w g number v)
    (hr : Renamed mode { db.manifest with walFileNumber := number } P w w') :
    CrashOk mode (firstHit db.layers) w' where
  wf := hr.wf
  homed m hm := hr.homed m hm (h.live.homed m hm)
  views v hv := by
    obtain ⟨writer, -, -⟩ := h.live.writer
    rcases hr.possible v hv with hv | ⟨u, hu, rfl⟩
    · have hmap : g.map = firstHit db.layers := h.live.ok.map
      rw [← hmap]
      exact (hP v hv).view.disk h.live.ok.logOk
    · have hmap : g.rotate.map = firstHit db.layers := (h.dbOk writer).map
      rw [← hmap]
      exact (h.viewOk hP hu).disk (h.dbOk writer).logOk
  held hground := by
    obtain ⟨writer, -, -⟩ := h.live.writer
    refine Or.inr ⟨g.rotate, _, ⟨fun v hv => ?_, (h.dbOk writer).logOk, hr.manifest,
      (h.dbOk writer).manifest.self⟩, (h.dbOk writer).map⟩
    rcases hr.possible v hv with hPv | ⟨u, hu, rfl⟩
    · -- the manifest before the rotation names another segment
      exfalso
      obtain ⟨p, md, -, hmanifest, hmd⟩ := (hP v hPv).view.manifest
      have heq : number = md.walFileNumber :=
        (hground.segment v hv).2 _ _ hr.manifest hmanifest
      have hlt := h.current
      rw [← hmd.wal, ← heq] at hlt
      exact Nat.lt_irrefl _ hlt
    · exact h.viewOk hP hu
  listed := Listed.renamed (fun v hv => (hP v hv).listed) hr
  onDisk _ := h.onDisk hr

/-- Once every possible view shows the new manifest the DB that adopts it is live. -/
theorem adopt (h : RotationDue mode db w g number next) {writer : Wal.Writer}
    (hP : ∀ v, P v → SegmentReady db w g number v)
    (hr : Renamed mode { db.manifest with walFileNumber := number } P w w')
    (hopen : writer.Open mode w number) (hset : Settled mode w.fs (.wal number))
    (hdurable : ∀ v, Possible mode w'.fs v → v .manifest =
      some (.bytes (encodeManifest { db.manifest with walFileNumber := number }))) :
    Live mode (rotatedDb db number next writer) w' g.rotate where
  wf := hr.wf
  homed m hm := hr.homed m hm (h.live.homed m hm)
  ok := h.dbOk writer
  views v hv := by
    rcases hr.possible v hv with hPv | ⟨u, hu, rfl⟩
    · -- a view that still shows an older manifest is ruled out by the fsync
      exfalso
      obtain ⟨p, md, -, hmanifest, hmd⟩ := (hP v hPv).view.manifest
      have heq := hmanifest.symm.trans (hdurable v hv)
      have hwal : md.walFileNumber = number :=
        congrArg _ (encodeManifest_inj (FileData.bytes.inj (Option.some.inj heq)))
      have hlt := h.current
      rw [← hmd.wal, hwal] at hlt
      exact Nat.lt_irrefl _ hlt
    · exact h.viewOk hP hu
  current := hr.manifest
  listed := Listed.renamed (fun v hv => (hP v hv).listed) hr
  writer := ⟨writer, rfl, hopen.path, (hr.dir _ (by simp) (by simp)).trans hopen.dir, hopen.policy⟩
  walSettled := hr.settled _ (by simp) (by simp) hset
  freshWal m hm := hr.link _ (by simp) (by simp) (h.live.freshWal m hm)
  freshSst m hm := hr.link _ (by simp) (by simp) (h.live.freshSst m hm)
  policy := h.live.policy
  batch := h.live.batch
  onDisk _ := ⟨h.onDisk hr, by
    rw [hr.published]
    exact List.getLast?_concat⟩

end RotationDue

/-- How a rotation ends. -/
structure RotationEnd (mode : CrashMode) (pol : Policy FsOp World) (db : DB) (w : World)
    (g : LogState) (s : Status) (db' : DB) (w' : World) (g' : LogState) : Prop where
  live : Live mode db' w' g'
  same : SameStore db db' w w'
  torn : g'.torn = g.torn ∨ g'.torn = []
  sst : ∀ m, w'.fs.view (.sst m) = w.fs.view (.sst m)
  err : s.ok = false → ∃ o, MayFail pol o

/-- A file that is linked for good, and empty in every directory that has it, is
    settled. -/
theorem settled_of_empty {fs : DbFs} {n : FileName} (hwf : fs.WF) (hlink : LinkSettled mode fs n)
    (h : ∀ v, Possible mode fs v → v n = none ∨ v n = some (.bytes [])) :
    fs.view n = none ∨ Settled mode fs n := by
  by_cases hnone : fs.view n = none
  · exact Or.inl hnone
  · refine Or.inr (hlink.settled hwf fun v hv => ?_)
    have hv' : v n ≠ none := by
      obtain ⟨d, c, hd, -, rfl⟩ := hv
      simpa [hlink d hd, Fs.view] using hnone
    rw [(h v hv).resolve_left hv', (h _ (possible_view hwf mode)).resolve_left hnone]

theorem rotateWal_spec (h : Live mode db w g) (hactive : db.memtables.active.empty = true)
    (himm : db.memtables.immutables = []) (hjust : JustPublished db w)
    (hcur : db.currentWalNumber.toNat < db.nextFileNumber.toNat)
    (hfit : db.nextFileNumber.toNat + 1 < 2 ^ 64) (hsync : RotationsSynced mode pol) :
    wp pol db.rotateWal
      (fun r w' => ∃ g', RotationEnd mode pol db w g r.1 r.2 w' g')
      (fun w' => CrashOk mode (firstHit db.layers) w') w := by
  obtain ⟨number, hnumber⟩ : ∃ number, number = db.nextFileNumber := ⟨_, rfl⟩
  have hnext := toNat_add_one hfit
  rw [← hnumber] at hnext hcur
  have hlive : Live mode { db with nextFileNumber := number + 1 } w g := by
    refine h.allocate ?_
    rw [← hnumber]
    omega
  have hempty : (w.fs.view (.wal number)).getD (.bytes []) = .bytes [] := by
    rcases (h.views _ (possible_view h.wf mode)).later number hcur with hv | hv <;> rw [hv] <;> rfl
  have hkept {s : Status} {w₁ : World}
    (hl : Live mode { db with nextFileNumber := number + 1 } w₁ g)
      (hlogged : w₁.logged = w.logged) (hsst : ∀ m, w₁.fs.view (.sst m) = w.fs.view (.sst m))
      (herr : ∃ o, MayFail pol o) :
      RotationEnd mode pol db w g s { db with nextFileNumber := number + 1 } w₁ g := {
    live := hl
    same := ⟨rfl, rfl, rfl, hlogged, by simp only [← hnumber]; omega⟩
    torn := Or.inl rfl
    sst := hsst
    err := fun _ => herr }
  unfold DB.rotateWal
  rw [← hnumber]
  refine wp_bind (wp_mono (Wal.openWriter_spec db.options.walSyncPolicy db.options.walBatchSize h.wf
    (h.homed _ (by simp)) h.policy h.batch) ?_ fun w₁ ⟨ht, hc⟩ =>
      (hlive.createWal ht hc hcur (by simp only; omega)).crash)
  rintro (s | writer) w₁ ⟨ht₁, hc₁, hr⟩
  · have hl₁ := hlive.createWal ht₁ hc₁ hcur (by simp only; omega)
    exact wp_pure.mpr ⟨g, hkept hl₁ ht₁.logged (fun m => ht₁.fs.view _ (by simp)) hr.2.2⟩
  obtain ⟨hopen, hview₁, hset₁⟩ := hr
  have hset₁ := hset₁ (settled_of_empty h.wf (h.freshWal _ (by rw [hnumber]))
    fun v hv => (h.views v hv).later number hcur)
  rw [hempty] at hview₁
  have hl₁ := hlive.createWal ht₁ hc₁ hcur (by simp only; omega)
  have hdue : RotationDue mode db w₁ g number (number + 1) := {
    live := hl₁
    ok := by rw [hnumber]; exact h.ok
    active := hactive
    immutables := himm
    next := by omega
    manifest := by rw [hnumber]; exact hjust.1
    current := hcur
    published := by rw [ht₁.published]; exact hjust.2 }
  have hP : ∀ v, Possible mode w₁.fs v → SegmentReady db w₁ g number v := fun v hv =>
    ⟨hl₁.views v hv, (hset₁.view hv).trans hview₁, hl₁.listed v hv⟩
  refine wp_bind (wp_mono (saveManifest_spec mode hl₁.wf (hl₁.homed _ (by simp))
    SegmentReady.ignoresTmp hP) ?_ ?_)
  · rintro ⟨s, published⟩ w₂ (⟨rfl, hsaved⟩ | ⟨rfl, herr, ht₂, hfail⟩)
    · -- The manifest is in place: a degraded publish of a rotation counts under process
      -- crashes only.
      have hdurable : s.ok = true ∨ mode = .process := by
        by_cases hs : s.ok = true
        · exact Or.inl hs
        · cases mode with
          | process => exact Or.inr rfl
          | power =>
              obtain ⟨w₃, k, hpub, hk⟩ := hsaved.degraded (by simpa using hs)
              refine absurd ?_ (hsync rfl w₃ k hk)
              rw [hpub, rotated_append hdue.published]
              intro heq
              have hlt := hcur
              rw [← show db.manifest.walFileNumber = db.currentWalNumber from h.ok.manifest.wal,
                show db.manifest.walFileNumber = number from heq] at hlt
              exact Nat.lt_irrefl _ hlt
      have hl₂ := hdue.adopt (fun v hv => hv) hsaved.renamed hopen hset₁ (hsaved.durable hdurable)
      have ht₃ : Touches mode (.wal db.currentWalNumber) w₂
          (onFs (fun fs => fs.unlink (.wal db.currentWalNumber)) w₂) :=
        .onFs (.unlink hl₂.wf)
      have hl₃ := hl₂.touch ht₃ (show db.currentWalNumber.toNat < number.toNat from hcur)
        (fun m hm => ⟨by simp, fun heq => by
          have hle : (number + 1).toNat ≤ m.toNat := hm
          rw [FileName.wal.inj heq] at hle
          omega⟩)
      have hend {w₃ : World} (hl : Live mode (rotatedDb db number (number + 1) writer) w₃ g.rotate)
          (hlogged : w₃.logged = w₂.logged)
          (hsst : ∀ m, w₃.fs.view (.sst m) = w₂.fs.view (.sst m)) :
          RotationEnd mode pol db w g s (rotatedDb db number (number + 1) writer) w₃ g.rotate := {
        live := hl
        same := ⟨rfl, rfl, rfl, (hlogged.trans hsaved.renamed.logged).trans ht₁.logged, by
          show db.nextFileNumber.toNat ≤ (number + 1).toNat
          rw [← hnumber]
          omega⟩
        torn := Or.inr rfl
        sst := fun m => ((hsst m).trans (hsaved.renamed.view _ (by simp) (by simp))).trans
          (ht₁.fs.view _ (by simp))
        err := fun hs => by
          obtain ⟨w₄, k, -, hk⟩ := hsaved.degraded hs
          exact ⟨_, w₄, k, hk⟩ }
      have hcond : (!s.ok && !true) = false := by simp
      simp only [hcond]
      refine wp_bind (wp_atomically ?_ (fun k hk => ?_) hl₂.crash hl₃.crash)
      · exact wp_pure.mpr ⟨_, hend hl₃ rfl fun m => ht₃.fs.view _ (by simp)⟩
      · exact wp_pure.mpr ⟨_, hend hl₂ rfl fun m => rfl⟩
    · have hcond : (!s.ok && !false) = true := by
        have hs : s.ok = false := herr
        simp [hs]
      simp only [hcond, if_true]
      exact wp_pure.mpr ⟨g, hkept (hl₁.touchTmp ht₂) (ht₂.logged.trans ht₁.logged)
        (fun m => (ht₂.fs.view _ (by simp)).trans (ht₁.fs.view _ (by simp))) hfail⟩
  · rintro w₂ (ht₂ | hren)
    · exact (hl₁.touchTmp ht₂).crash
    · exact hdue.crash (fun v hv => hv) hren

-- ============================================================================
-- FlushLocked
-- ============================================================================

/-- How many MemTables a flush has to write. -/
def DB.pending (db : DB) : Nat := db.freezeActive.memtables.immutables.length

/-- How a flush of `n` MemTables ends. -/
structure Flushed (mode : CrashMode) (pol : Policy FsOp World) (n : Nat) (db : DB) (w : World)
    (g : LogState) (s : Status) (db' : DB) (w' : World) (g' : LogState) : Prop where
  live : Live mode db' w' g'
  same : SameStore db db' w w'
  torn : g'.torn = g.torn ∨ g'.torn = []
  sst : ∀ m : UInt64, db'.nextFileNumber.toNat ≤ m.toNat → w'.fs.view (.sst m) = w.fs.view (.sst m)
  ok : s.ok = true → ¬ Obstructed w db.nextFileNumber n
  err : s.ok = false → Obstructed w db.nextFileNumber n ∨ ∃ o, MayFail pol o

theorem Live.persistent (h : Live mode db w g) : db.persistent = true := by
  obtain ⟨writer, hw, -⟩ := h.writer
  simp [DB.persistent, hw]

theorem Live.freezeActive (h : Live mode db w g) : Live mode db.freezeActive w g := by
  unfold DB.freezeActive
  split
  · exact h
  · exact h.freeze

theorem freezeActive_empty (db : DB) : db.freezeActive.memtables.active.empty = true := by
  unfold DB.freezeActive
  split
  · assumption
  · rfl

theorem freezeActive_same (db : DB) (w : World) : SameStore db db.freezeActive w w := by
  unfold DB.freezeActive
  split
  · exact .refl
  · exact ⟨freeze_layers db, rfl, rfl, rfl, Nat.le_refl _⟩

@[simp] theorem freezeActive_nextFileNumber (db : DB) :
    db.freezeActive.nextFileNumber = db.nextFileNumber := by
  unfold DB.freezeActive
  split <;> rfl

theorem not_obstructed_zero (w : World) (next : UInt64) : ¬ Obstructed w next 0 := by
  rintro ⟨m, hle, hlt, -⟩
  omega

theorem flushLocked_spec (h : Live mode db w g) (hsync : RotationsSynced mode pol)
    (hfit : db.nextFileNumber.toNat + db.pending + 1 < 2 ^ 64) :
    wp pol db.flushLocked
      (fun r w' => ∃ g', Flushed mode pol db.pending db w g r.1 r.2 w' g')
      (fun w' => CrashOk mode (firstHit db.layers) w') w := by
  have hfrozen := h.freezeActive
  have hsame := freezeActive_same db w
  have hpending : db.freezeActive.memtables.immutables.length = db.pending := rfl
  unfold DB.flushLocked
  rw [if_pos h.persistent]
  by_cases hnil : db.freezeActive.memtables.immutables.isEmpty = true
  · have hzero : db.pending = 0 := by
      rw [← hpending, List.isEmpty_iff.mp hnil]
      rfl
    simp only [hnil, if_true]
    exact wp_pure.mpr ⟨g, hfrozen, hsame, Or.inl rfl, fun _ _ => rfl,
      fun _ => hzero ▸ not_obstructed_zero _ _, fun hs => absurd hs (by simp)⟩
  · simp only [hnil]
    have hpos : 0 < db.pending := by
      rw [← hpending]
      exact List.length_pos_of_ne_nil fun heq => hnil (by rw [heq]; rfl)
    refine wp_bind (wp_mono (flushImmutables_spec hfrozen hpending
      (by rw [freezeActive_nextFileNumber]; omega)) ?_ fun w' hc => by rwa [hsame.map] at hc)
    rintro ⟨s, db₁⟩ w₁ ⟨g₁, hd⟩
    have hlive₁ : Live mode db₁ w₁ g₁ := hd.live
    have hmap : firstHit db₁.layers = firstHit db.layers := hd.same.map.trans hsame.map
    have hobs : Obstructed w db.freezeActive.nextFileNumber db.pending ↔
        Obstructed w db.nextFileNumber db.pending := by rw [freezeActive_nextFileNumber]
    show wp pol (if s.ok then _ else _) _ _ w₁
    by_cases hok : s.ok = true
    · obtain ⟨himm, hnext, hjust, hclear⟩ := hd.ok hok
      have hactive : db₁.memtables.active.empty = true := by
        have heq : db₁.memtables.active = db.freezeActive.memtables.active := hd.active
        rw [heq]
        exact freezeActive_empty db
      have hnext' : db₁.nextFileNumber.toNat = db.nextFileNumber.toNat + db.pending := by
        rw [← freezeActive_nextFileNumber db]
        exact hnext
      have hcur : db₁.currentWalNumber.toNat < db₁.nextFileNumber.toNat := by
        have hcur₁ : db₁.currentWalNumber = db.freezeActive.currentWalNumber := hd.current
        have hle := hfrozen.ok.manifest.walLe
        have hle' := hfrozen.ok.manifest.nextLe
        rw [freezeActive_nextFileNumber] at hle'
        rw [hcur₁]
        omega
      have hfit₁ : db₁.nextFileNumber.toNat + 1 < 2 ^ 64 := by omega
      rw [if_pos hok]
      refine wp_mono (rotateWal_spec hlive₁ hactive himm (hjust (Or.inl hpos)) hcur hfit₁
        hsync) ?_ fun w' hc => by rwa [hmap] at hc
      rintro ⟨s', db'⟩ w' ⟨g', hr⟩
      refine ⟨g', hr.live, (hsame.trans hd.same).trans hr.same, ?_,
        fun m hm => (hr.sst m).trans (hd.sst m (Nat.le_trans hr.same.nextLe hm)),
        fun _ => hobs.not.mp hclear, fun hs => Or.inr (hr.err hs)⟩
      rw [← hd.torn]
      exact hr.torn
    · have herr : s.ok = false := by simpa using hok
      rw [if_neg hok]
      exact wp_pure.mpr ⟨g₁, hd.live, hsame.trans hd.same, Or.inl hd.torn, hd.sst,
        fun hs => absurd hs hok, fun _ => (hd.err herr).imp_left hobs.mp⟩

end PassionProjects.PebbleDB
