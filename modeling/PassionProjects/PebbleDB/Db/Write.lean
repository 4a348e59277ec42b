/-
  PassionProjects.PebbleDB.Db.Write

  Put and Delete keep the invariant as long as they are called with the WAL on a
  record boundary.

  A write first grows the current segment by one record.  If that returns OK the
  record is in the log for good and is applied to the active MemTable; if the
  append fails a part of the record stays behind and nothing else changes.  A
  process that stops in between leaves a segment with the record or without it.
-/

import PassionProjects.PebbleDB.Db.Flush

namespace PassionProjects.PebbleDB

open PassionProjects.Faults
open PassionProjects.Faults.Prog
open PassionProjects.FileSystem
open PassionProjects.FileSystem.Fs
open PassionProjects.Layers
open PassionProjects.PebbleDB.Memtable
open PassionProjects.PebbleDB.Wal

/-- Faults under which writes keep the invariant: fsyncs of the WAL do not fail,
    and where power may be lost neither do its appends and the directory fsync of
    a rotation. -/
structure Tolerable (mode : CrashMode) (pol : Policy FsOp World) : Prop where
  fsync : ∀ n, ¬ MayFail pol (.fsync (.wal n))
  append : mode = .power → ∀ n, ¬ MayFail pol (.append (.wal n))
  rotation : RotationsSynced mode pol

/-- What a process that stops inside a write leaves: every directory possible now
    stands for the map before the write or for the map after it. -/
structure CrashEither (mode : CrashMode) (m m' : EntryLayer) (w : World) : Prop where
  wf : w.fs.WF
  homed : ∀ n, n ≠ .manifest → Homed w.fs n
  views : ∀ v, Possible mode w.fs v → DiskOk v m ∨ DiskOk v m'
  held : Grounded mode w.fs → Held mode m w.fs ∨ Held mode m' w.fs
  listed : ∀ v, Possible mode w.fs v → Listed w.published v
  onDisk : mode = .process → OnDisk w

theorem CrashOk.before {mode : CrashMode} {m : EntryLayer} {w : World} (h : CrashOk mode m w)
    (m' : EntryLayer) : CrashEither mode m m' w :=
  ⟨h.wf, h.homed, fun v hv => Or.inl (h.views v hv), fun hg => Or.inl (h.held hg), h.listed,
    h.onDisk⟩

theorem CrashOk.after {mode : CrashMode} {m' : EntryLayer} {w : World} (h : CrashOk mode m' w)
    (m : EntryLayer) : CrashEither mode m m' w :=
  ⟨h.wf, h.homed, fun v hv => Or.inr (h.views v hv), fun hg => Or.inr (h.held hg), h.listed,
    h.onDisk⟩

variable {mode : CrashMode} {pol : Policy FsOp World} {db db' : DB} {w w' : World} {g : LogState}
  {r : Record}

-- ============================================================================
-- The segment grows
-- ============================================================================

/-- The members that say which files an open DB uses are as before. -/
structure SameFiles (db db' : DB) : Prop where
  currentWal : db'.currentWalNumber = db.currentWalNumber
  nextFile : db'.nextFileNumber = db.nextFileNumber
  options : db'.options = db.options
  manifest : db'.manifest = db.manifest
  writer : ∀ writer, db.walWriter = some writer → ∃ writer', db'.walWriter = some writer' ∧
    writer'.file = writer.file ∧ writer'.policy = writer.policy

theorem sameFiles_withWriter {writer writer' : Writer} (hw : db.walWriter = some writer)
    (hfile : writer'.file = writer.file) (hpolicy : writer'.policy = writer.policy) :
    SameFiles db { db with walWriter := some writer' } where
  currentWal := rfl
  nextFile := rfl
  options := rfl
  manifest := rfl
  writer x hx := by
    obtain rfl := Option.some.inj (hw.symm.trans hx)
    exact ⟨writer', rfl, hfile, hpolicy⟩

theorem SameFiles.wrote {db₁ : DB} {key : Key} {e : MemEntry} (h : SameFiles db db₁)
    (hw : Wrote db₁ db' key e) : SameFiles db db' where
  currentWal := hw.currentWal.trans h.currentWal
  nextFile := hw.nextFile.trans h.nextFile
  options := hw.options.trans h.options
  manifest := hw.manifest.trans h.manifest
  writer x hx := by
    obtain ⟨writer', hw', hfile, hpolicy⟩ := h.writer x hx
    exact ⟨writer', hw.walWriter.trans hw', hfile, hpolicy⟩

/-- A DB whose segment has grown for good. -/
theorem Live.grow (h : Live mode db w g) {b data torn : Bytes} {records : List Record}
    (hgrown : Grown mode db.currentWalNumber b data w w')
    (hbytes : encodeRecords records ++ torn = b ++ data)
    (hok : DbOk db' { g with records, torn }) (hsame : SameFiles db db') :
    Live mode db' w' { g with records, torn } := by
  have ht := hgrown.touches
  obtain ⟨writer, hw, hopen⟩ := h.writer
  obtain ⟨writer', hw', hfile, hpolicy⟩ := hsame.writer writer hw
  have hcur := hsame.currentWal
  have hnext := hsame.nextFile
  exact {
    wf := ht.fs.wf
    homed := fun m hm => ht.fs.homed m (h.homed m hm)
    ok := hok
    views := fun v hv => by
      obtain ⟨u, hu, rfl⟩ := hgrown.possible v hv
      rw [hcur, hsame.manifest, ← hbytes]
      exact (h.views u hu).updateWal records torn
    current := by
      rw [hsame.manifest]
      exact (ht.fs.view _ (by simp)).trans h.current
    listed := Listed.touch h.listed ht (by simp)
    writer := ⟨writer', hw', by rw [hfile, hopen.path, hcur], by
      rw [hcur, hfile, hgrown.dir]
      exact hopen.dir, fun hmode => hpolicy.trans (hopen.policy hmode)⟩
    walSettled := by rw [hcur]; exact hgrown.settled
    freshWal := fun m hm => by
      have hle := h.ok.manifest.walLe
      have hle' := h.ok.manifest.nextLe
      rw [hnext] at hm
      by_cases hm' : m = db.currentWalNumber
      · rw [hm']
        exact hgrown.settled.link
      · exact ht.fs.link _ (fun heq => hm' (FileName.wal.inj heq)) (h.freshWal m hm)
    freshSst := fun m hm => ht.fs.link _ (by simp) (h.freshSst m (by rwa [hnext] at hm))
    policy := fun hmode => by rw [hsame.options]; exact h.policy hmode
    batch := fun hpol => by
      rw [hsame.options] at hpol ⊢
      exact h.batch hpol
    onDisk := fun hmode => ⟨(h.onDisk hmode).1.touch ht (by simp), by
      rw [ht.published, hsame.manifest]
      exact (h.onDisk hmode).2⟩ }

/-- The acknowledged records are not part of the invariant. -/
theorem Live.withLogged (h : Live mode db w g) (logged : List Record) :
    Live mode db { w with logged } g := by
  obtain ⟨writer, hw, hopen⟩ := h.writer
  exact ⟨h.wf, h.homed, h.ok, h.views, h.current, h.listed,
    ⟨writer, hw, hopen.path, hopen.dir, hopen.policy⟩,
    h.walSettled, h.freshWal, h.freshSst, h.policy, h.batch, h.onDisk⟩

/-- The segment holds a whole new record. -/
theorem Live.withRecord (h : Live mode db w g) (r : Record) {u : DbView}
    (hu : Possible mode w.fs u) :
    ViewOk db.currentWalNumber db.manifest.nextFileNumber
      { g with records := g.records ++ [r], torn := [] }
      (Function.update u (.wal db.currentWalNumber)
        (some (.bytes (encodeRecords g.records ++ encodeRecord r)))) := by
  have hview := (h.views u hu).updateWal (g.records ++ [r]) []
  have hbytes : encodeRecords (g.records ++ [r]) ++ [] =
      encodeRecords g.records ++ encodeRecord r := by simp
  rwa [hbytes] at hview

/-- A part of a record that is not all of it is torn. -/
theorem torn_of_part {part : Bytes} (hfits : r.Fits) (hpart : part <+: encodeRecord r)
    (hne : part ≠ encodeRecord r) : part = [] ∨ Reader.Torn part := by
  refine Or.inr ⟨r, hfits, hpart, Nat.lt_of_le_of_ne hpart.length_le fun heq => hne ?_⟩
  exact hpart.eq_of_length heq

/-- Once the segment is settled the same part of the record is in every directory. -/
theorem PartlyGrown.settled {number : UInt64} {b data : Bytes}
    (hgrown : PartlyGrown mode number b data w w') (hwal : Settled mode w'.fs (.wal number)) :
    ∃ part, part <+: data ∧ ∀ v, Possible mode w'.fs v → ∃ u, Possible mode w.fs u ∧
      v = Function.update u (.wal number) (some (.bytes (b ++ part))) := by
  obtain ⟨u₀, part, -, hpart, heq₀⟩ :=
    hgrown.possible _ (possible_view hgrown.touches.fs.wf mode)
  refine ⟨part, hpart, fun v hv => ?_⟩
  obtain ⟨u, part', hu, -, rfl⟩ := hgrown.possible v hv
  have hbytes := hwal.view hv
  rw [heq₀, Function.update_self, Function.update_self] at hbytes
  exact ⟨u, hu, by rw [hbytes]⟩

/-- A process that stops inside `AddRecord` leaves the record in the log, or a part
    of it that the next replay cuts off. -/
theorem Live.crashInWrite (h : Live mode db w g) (hw : Wrote db db' r.key (recordEntry r))
    (hseq : r.sequence = db.nextSequence) (hfit : db.nextSequence.toNat + 1 < 2 ^ 64)
    (hfits : r.Fits) (hstored : r.stored = r)
    (hgrown : PartlyGrown mode db.currentWalNumber (encodeRecords g.records)
      (encodeRecord r) w w') :
    CrashEither mode (firstHit db.layers)
      (setLayer (firstHit db.layers) r.key (recordEntry r)) w' := by
  have hwritten := h.ok.write hw hseq hfit hfits hstored
  have hmap' := hwritten.map.trans hw.layers
  have hcurrent := (hgrown.touches.fs.view _ (by simp)).trans h.current
  have hcur := h.ok.manifest.wal
  exact {
    wf := hgrown.touches.fs.wf
    homed := fun m hm => hgrown.touches.fs.homed m (h.homed m hm)
    views := fun v hv => by
      obtain ⟨u, part, hu, hpart, rfl⟩ := hgrown.possible v hv
      by_cases hwhole : part = encodeRecord r
      · rw [hwhole, ← hmap']
        exact Or.inr ((h.withRecord r hu).disk hwritten.logOk)
      · rw [← h.ok.map]
        exact Or.inl (((h.views u hu).updateWal g.records part).disk
          (h.ok.tear (torn_of_part hfits hpart hwhole)).logOk)
    held := fun hground => by
      have hwal := hground.wal _ hcurrent
      rw [hcur] at hwal
      obtain ⟨part, hpart, hall⟩ := PartlyGrown.settled hgrown hwal
      by_cases hwhole : part = encodeRecord r
      · refine Or.inr (Or.inr ⟨_, db.manifest, ⟨fun v hv => ?_, hwritten.logOk, hcurrent,
          h.ok.manifest.self⟩, hmap'⟩)
        obtain ⟨u, hu, rfl⟩ := hall v hv
        rw [hwhole, hcur]
        exact h.withRecord r hu
      · have htorn := h.ok.tear (torn_of_part hfits hpart hwhole)
        refine Or.inl (Or.inr ⟨_, db.manifest, ⟨fun v hv => ?_, htorn.logOk, hcurrent,
          h.ok.manifest.self⟩, htorn.map⟩)
        obtain ⟨u, hu, rfl⟩ := hall v hv
        rw [hcur]
        exact (h.views u hu).updateWal g.records part
    listed := Listed.touch h.listed hgrown.touches (by simp)
    onDisk := fun hmode => (h.onDisk hmode).1.touch hgrown.touches (by simp) }

-- ============================================================================
-- AddRecord in an open DB
-- ============================================================================

/-- A refused write: the operation was not applied. -/
structure Refused (mode : CrashMode) (pol : Policy FsOp World) (db : DB) (w : World)
    (r : Record) (s : Status) (db' : DB) (w' : World) (g' : LogState) : Prop where
  status : s.ok = false
  live : Live mode db' w' g'
  same : SameStore db db' w w'
  sst : ∀ m, w'.fs.view (.sst m) = w.fs.view (.sst m)
  why : ¬ r.Fits ∨ MayFail pol (.append (.wal db.currentWalNumber))
  torn : g'.torn = [] ∨ MayFail pol (.append (.wal db.currentWalNumber))

/-- A logged write: the record is in the log for good, and nothing else happened. -/
structure LoggedBy (mode : CrashMode) (db : DB) (w : World) (g : LogState) (r : Record)
    (db' : DB) (w' : World) : Prop where
  fits : r.Fits
  same : ∃ writer, db' = { db with walWriter := some writer }
  live : ∀ {db''}, Wrote db' db'' r.key (recordEntry r) →
    Live mode db'' w' { g with records := g.records ++ [r], torn := [] }
  logged : w'.logged = w.logged ++ [r]
  sst : ∀ m, w'.fs.view (.sst m) = w.fs.view (.sst m)

theorem addToWal_spec (h : Live mode db w g) (htol : Tolerable mode pol) (htorn : g.torn = [])
    (hseq : r.sequence = db.nextSequence) (hfit : db.nextSequence.toNat + 1 < 2 ^ 64)
    (hstored : r.stored = r) :
    wp pol (db.addToWal r)
      (fun x w' => (x.1.ok = true ∧ LoggedBy mode db w g r x.2 w') ∨
        ∃ g', Refused mode pol db w r x.1 x.2 w' g')
      (fun w' => r.Fits ∧
        PartlyGrown mode db.currentWalNumber (encodeRecords g.records)
          (encodeRecord r) w w') w := by
  obtain ⟨writer, hw, hopen⟩ := h.writer
  have hb : w.fs.view (.wal db.currentWalNumber) = some (.bytes (encodeRecords g.records)) := by
    have hwal := (h.views _ (possible_view h.wf mode)).wal
    rwa [htorn, List.append_nil] at hwal
  unfold DB.addToWal
  rw [hw]
  refine wp_bind (wp_mono (addRecord_spec h.wf (h.homed _ (by simp)) hopen h.walSettled hb
    (htol.fsync _)) ?_ fun _ => id)
  rintro ⟨s, writer'⟩ w' ⟨hfile, hpolicy, w₁, hadded, rfl⟩
  have hfiles := sameFiles_withWriter hw hfile hpolicy
  refine wp_pure.mpr ?_
  cases hadded with
  | logged hok hfits hgrown =>
      refine Or.inl ⟨hok, hfits, ⟨writer', rfl⟩, fun {db''} hw' => ?_, ?_, fun m => ?_⟩
      · refine Live.withLogged (h.grow hgrown (by simp) ?_ (hfiles.wrote hw')) _
        exact (h.ok.withWriter (some writer')).write hw' hseq hfit hfits hstored
      · simp [show s.ok = true from hok]
      · exact hgrown.touches.fs.view _ (by simp)
  | rejected hs hfits hsame =>
      subst hsame
      have hs : s.ok = false := hs
      have hgrow : Live mode { db with walWriter := some writer' } w₁ g := {
        wf := h.wf
        homed := h.homed
        ok := h.ok.withWriter _
        views := h.views
        current := h.current
        listed := h.listed
        writer := ⟨writer', rfl, by rw [hfile]; exact hopen.path, by rw [hfile]; exact hopen.dir,
          fun hmode => hpolicy.trans (hopen.policy hmode)⟩
        walSettled := h.walSettled
        freshWal := h.freshWal
        freshSst := h.freshSst
        policy := h.policy
        batch := h.batch
        onDisk := h.onDisk }
      refine Or.inr ⟨g, hs, Live.withLogged hgrow _, ?_, fun _ => rfl, Or.inl hfits, Or.inl htorn⟩
      exact ⟨rfl, rfl, rfl, by simp [hs], Nat.le_refl _⟩
  | failed hs hfits hfail part hpart hlt happ =>
      have hs : s.ok = false := hs
      have hmode : mode = .process := by
        cases mode with
        | process => rfl
        | power => exact absurd hfail (htol.append rfl _)
      have hgrown := grown_of_appended happ (happ.process hmode)
      have ht : part = [] ∨ Reader.Torn part := Or.inr ⟨r, hfits, hpart, hlt⟩
      have hgrow : Live mode { db with walWriter := some writer' } w₁ { g with torn := part } :=
        h.grow hgrown (by rfl) ((h.ok.withWriter _).tear ht) hfiles
      refine Or.inr ⟨_, hs, Live.withLogged hgrow _, ?_, fun m => ?_, Or.inr hfail, Or.inr hfail⟩
      · exact ⟨rfl, rfl, rfl, by simp [hs], Nat.le_refl _⟩
      · exact happ.touches.fs.view _ (by simp)

-- ============================================================================
-- Put and Delete
-- ============================================================================

/-- How many MemTables the flush at the end of a write has to write. -/
def DB.due (db : DB) : Nat :=
  if db.persistent && db.memtables.activeShouldFlush db.options.memtableSizeThresholdBytes then
    db.pending
  else 0

theorem pending_congr (h : db'.memtables = db.memtables) : db'.pending = db.pending := by
  unfold DB.pending DB.freezeActive
  rw [h]
  split
  · rw [h]
  · rfl

theorem due_congr (h : db'.memtables = db.memtables) (hopt : db'.options = db.options)
    (hp : db'.persistent = db.persistent) : db'.due = db.due := by
  unfold DB.due
  rw [h, hopt, hp, pending_congr h]

theorem flushIfDue_spec (h : Live mode db w g) (hsync : RotationsSynced mode pol)
    (hfit : db.nextFileNumber.toNat + db.due + 1 < 2 ^ 64) :
    wp pol db.flushIfDue
      (fun x w' => ∃ g', Flushed mode pol db.due db w g x.1 x.2 w' g')
      (fun w' => CrashOk mode (firstHit db.layers) w') w := by
  unfold DB.flushIfDue
  by_cases hdue : (db.persistent &&
      db.memtables.activeShouldFlush db.options.memtableSizeThresholdBytes) = true
  · have heq : db.due = db.pending := if_pos hdue
    rw [heq] at hfit ⊢
    rw [if_pos hdue]
    exact flushLocked_spec h hsync hfit
  · have heq : db.due = 0 := if_neg hdue
    rw [heq, if_neg hdue]
    exact wp_pure.mpr ⟨g, h, .refl, Or.inl rfl, fun _ _ => rfl, fun _ => not_obstructed_zero _ _,
      fun hs => absurd hs (by simp)⟩

/-- What `Put` and `Delete` share. -/
def DB.writeWith (db : DB) (r : Record) (apply : DB → DB) : M (Status × DB) := do
  let (s, db) ← db.addToWal r
  if s.ok then (apply db).flushIfDue else pure (s, db)

theorem put_eq_writeWith (db : DB) (key : Key) (value : Value) :
    db.put key value = db.writeWith ⟨db.nextSequence, .kPut, key, value⟩
      fun db' => db'.applyPut key value db.nextSequence := rfl

theorem delete_eq_writeWith (db : DB) (key : Key) :
    db.delete key = db.writeWith ⟨db.nextSequence, .kDelete, key, []⟩
      fun db' => db'.applyDelete key db.nextSequence := rfl

/-- An acknowledged write, with the flush of `n` MemTables that it performed. -/
structure Acked (mode : CrashMode) (pol : Policy FsOp World) (n : Nat) (db : DB) (w : World)
    (r : Record) (s : Status) (db' : DB) (w' : World) (g' : LogState) : Prop where
  fits : r.Fits
  live : Live mode db' w' g'
  map : firstHit db'.layers = setLayer (firstHit db.layers) r.key (recordEntry r)
  logged : w'.logged = w.logged ++ [r]
  torn : g'.torn = []
  nextLe : db.nextFileNumber.toNat ≤ db'.nextFileNumber.toNat
  sst : ∀ m : UInt64, db'.nextFileNumber.toNat ≤ m.toNat → w'.fs.view (.sst m) = w.fs.view (.sst m)
  ok : s.ok = true → ¬ Obstructed w db.nextFileNumber n
  err : s.ok = false → Obstructed w db.nextFileNumber n ∨ ∃ o, MayFail pol o

theorem writeWith_spec {apply : DB → DB} {n : Nat} (h : Live mode db w g)
    (htol : Tolerable mode pol) (htorn : g.torn = []) (hseq : r.sequence = db.nextSequence)
    (hfit : db.nextSequence.toNat + 1 < 2 ^ 64) (hfit' : db.nextFileNumber.toNat + n + 1 < 2 ^ 64)
    (hstored : r.stored = r) (happly : ∀ db₁, Wrote db₁ (apply db₁) r.key (recordEntry r))
    (hdue : ∀ writer, (apply { db with walWriter := some writer }).due = n) :
    wp pol (db.writeWith r apply)
      (fun x w' => ∃ g', Acked mode pol n db w r x.1 x.2 w' g' ∨
        Refused mode pol db w r x.1 x.2 w' g')
      (fun w' => CrashEither mode (firstHit db.layers)
        (setLayer (firstHit db.layers) r.key (recordEntry r)) w') w := by
  refine wp_bind (wp_mono (addToWal_spec h htol htorn hseq hfit hstored) ?_ fun w' hc =>
    h.crashInWrite (happly db) hseq hfit hc.1 hstored hc.2)
  rintro ⟨s, db₁⟩ w₁ (⟨hok, hlog⟩ | ⟨g₁, href⟩)
  · have hok : s.ok = true := hok
    obtain ⟨writer, hdb₁⟩ := hlog.same
    have hdb₁ : db₁ = { db with walWriter := some writer } := hdb₁
    subst hdb₁
    have hlive := hlog.live (happly _)
    have hmap : firstHit (apply { db with walWriter := some writer }).layers =
        setLayer (firstHit db.layers) r.key (recordEntry r) := (happly _).layers
    have hnext : (apply { db with walWriter := some writer }).nextFileNumber = db.nextFileNumber :=
      (happly _).nextFile
    have hblocked : Obstructed w₁ db.nextFileNumber n ↔ Obstructed w db.nextFileNumber n := by
      simp only [Obstructed, Blocked, hlog.sst]
    show wp pol (if s.ok then _ else _) _ _ w₁
    rw [if_pos hok]
    refine wp_mono (flushIfDue_spec hlive htol.rotation (by rw [hdue, hnext]; exact hfit')) ?_
      fun w' hc => (hmap ▸ hc).after _
    rintro ⟨s', db'⟩ w' ⟨g', hf⟩
    rw [hdue] at hf
    refine ⟨g', Or.inl ⟨hlog.fits, hf.live, hf.same.map.trans hmap,
      hf.same.logged.trans hlog.logged, ?_, ?_, fun m hm => (hf.sst m hm).trans (hlog.sst m),
      fun hs => ?_, fun hs => ?_⟩⟩
    · exact hf.torn.elim id id
    · rw [← hnext]
      exact hf.same.nextLe
    · have hclear := hf.ok hs
      rwa [hnext, hblocked] at hclear
    · have hwhy := hf.err hs
      rwa [hnext, hblocked] at hwhy
  · have hs : s.ok = false := href.status
    show wp pol (if s.ok then _ else _) _ _ w₁
    rw [if_neg (by rw [hs]; simp)]
    exact wp_pure.mpr ⟨g₁, Or.inr href⟩

end PassionProjects.PebbleDB
