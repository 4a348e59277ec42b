/-
  PassionProjects.PebbleDB.Db.Recover

  Opening a directory that any crash has left.

  `Down` is the state between two processes, where changes of the directory may
  still wait for an fsync.  A process that opens a directory whose segment and
  fresh names no crash can take away finds it `Openable`: it shows a database that
  stands for a map, or nothing yet.  `Recover` turns it into an open DB that stands
  for the same map, and a process that stops inside it leaves a directory that
  still does.
-/

import PassionProjects.PebbleDB.Db.Flush

namespace PassionProjects.PebbleDB

open PassionProjects.Faults
open PassionProjects.Faults.Prog
open PassionProjects.FileSystem
open PassionProjects.FileSystem.Fs
open PassionProjects.Layers
open PassionProjects.PebbleDB.Util
open PassionProjects.PebbleDB.Memtable
open PassionProjects.PebbleDB.Manifest

/-- The directory between two processes. -/
structure Down (mode : CrashMode) (m : EntryLayer) (w : World) : Prop where
  wf : w.fs.WF
  homed : ∀ n, n ≠ .manifest → Homed w.fs n
  views : ∀ v, Possible mode w.fs v → ∃ m', DiskOk v m'
  held : Grounded mode w.fs → Held mode m w.fs
  listed : ∀ v, Possible mode w.fs v → Listed w.published v
  onDisk : mode = .process → OnDisk w

/-- A directory between two processes that no crash changes under the next one. -/
structure Openable (mode : CrashMode) (m : EntryLayer) (w : World) : Prop where
  wf : w.fs.WF
  homed : ∀ n, n ≠ .manifest → Homed w.fs n
  grounded : Grounded mode w.fs
  held : Held mode m w.fs
  listed : ∀ v, Possible mode w.fs v → Listed w.published v
  onDisk : mode = .process → OnDisk w

/-- Every manifest that was published has a table count that `DecodeManifest`
    accepts. -/
def Bounded (published : List ManifestData) : Prop :=
  ∀ md ∈ published, md.tables.length ≤ kMaxTableCount.toNat

/-- Options that `Writer::Open` accepts, with an fsync for every write where power
    may be lost. -/
structure OptionsOk (mode : CrashMode) (options : Options) : Prop where
  policy : mode = .power → options.walSyncPolicy = .kEveryWrite
  batch : options.walSyncPolicy = .kBatched → options.walBatchSize ≠ 0

variable {mode : CrashMode} {pol : Policy FsOp World} {w w' : World} {m : EntryLayer}
  {md : ManifestData} {tables : List PubTable} {records : List Wal.Record} {torn : Bytes}
  {options : Options}

theorem Down.openable (h : Down mode m w) (hground : Grounded mode w.fs) : Openable mode m w :=
  ⟨h.wf, h.homed, hground, h.held hground, h.listed, h.onDisk⟩

theorem Held.disk (h : Held mode m w.fs) : ∀ v, Possible mode w.fs v → DiskOk v m := by
  rcases h with ⟨hfresh, rfl⟩ | ⟨g, md, hshown, rfl⟩
  · exact fun v hv => Or.inl ⟨hfresh v hv, rfl⟩
  · exact fun v hv => (hshown.views v hv).disk hshown.log

theorem Openable.crash (h : Openable mode m w) : CrashOk mode m w :=
  ⟨h.wf, h.homed, h.held.disk, fun _ => h.held, h.listed, h.onDisk⟩

/-- Where everything is settled, nothing is taken away. -/
theorem grounded_of_settled {fs : DbFs} (h : ∀ n, Settled mode fs n) : Grounded mode fs where
  segment v hv := by
    have heq : v = fs.view := funext fun n => (h n).view hv
    rw [heq]
    refine ⟨Iff.rfl, fun md md' hmd hmd' => ?_⟩
    rw [encodeManifest_inj (FileData.bytes.inj (Option.some.inj (hmd.symm.trans hmd')))]
  wal _ _ := h _
  fresh _ _ _ := ⟨(h _).link, (h _).link⟩

theorem grounded_process (fs : DbFs) : Grounded .process fs := grounded_of_settled settled_process

-- ============================================================================
-- The manifest
-- ============================================================================

/-- MANIFEST on disk is a manifest that was published. -/
theorem listed_mem {v : DbView} {published : List ManifestData} (h : Listed published v)
    (hmd : v .manifest = some (.bytes (encodeManifest md))) :
    md ∈ published := by
  rcases h with hnone | ⟨md', hmem, hmd'⟩
  · rw [hmd] at hnone
    exact absurd hnone (by simp)
  · have heq : encodeManifest md = encodeManifest md' :=
      FileData.bytes.inj (Option.some.inj (hmd.symm.trans hmd'))
    rwa [encodeManifest_inj heq]

/-- The manifest that was published last is the one on disk. -/
theorem onDisk_last (h : OnDisk w)
    (hmd : w.fs.view .manifest = some (.bytes (encodeManifest md))) :
    w.published.getLast? = some md := by
  rcases h with ⟨-, hnone⟩ | ⟨md', hlast, hmd', -⟩
  · rw [hmd] at hnone
    exact absurd hnone (by simp)
  · have heq : encodeManifest md = encodeManifest md' :=
      FileData.bytes.inj (Option.some.inj (hmd.symm.trans hmd'))
    rw [encodeManifest_inj heq]
    exact hlast

-- ============================================================================
-- Replaying the log
-- ============================================================================

theorem le_maxSequenceSeen (last : UInt64) (records : List Wal.Record) :
    last.toNat ≤ (DB.maxSequenceSeen last records).toNat ∧
      (∀ r ∈ records, r.sequence.toNat ≤ (DB.maxSequenceSeen last records).toNat) ∧
      (DB.maxSequenceSeen last records = last ∨
        ∃ r ∈ records, DB.maxSequenceSeen last records = r.sequence) := by
  induction records generalizing last with
  | nil => exact ⟨Nat.le_refl _, by simp, Or.inl rfl⟩
  | cons x xs ih =>
      have hstep : DB.maxSequenceSeen last (x :: xs) =
          DB.maxSequenceSeen (if x.sequence > last then x.sequence else last) xs := rfl
      rw [hstep]
      by_cases hx : x.sequence > last
      · rw [if_pos hx]
        obtain ⟨hle, hall, hattained⟩ := ih x.sequence
        have hlt : last.toNat < x.sequence.toNat := UInt64.lt_iff_toNat_lt.mp hx
        refine ⟨by omega, ?_, Or.inr ?_⟩
        · intro r hr
          rcases List.mem_cons.mp hr with rfl | hr
          · exact hle
          · exact hall r hr
        · rcases hattained with heq | ⟨r, hr, heq⟩
          · exact ⟨x, List.mem_cons_self .., heq⟩
          · exact ⟨r, List.mem_cons_of_mem _ hr, heq⟩
      · rw [if_neg hx]
        obtain ⟨hle, hall, hattained⟩ := ih last
        have hge : x.sequence.toNat ≤ last.toNat := by
          rw [gt_iff_lt, UInt64.lt_iff_toNat_lt] at hx
          omega
        refine ⟨hle, ?_, hattained.imp_right fun ⟨r, hr, heq⟩ =>
          ⟨r, List.mem_cons_of_mem _ hr, heq⟩⟩
        intro r hr
        rcases List.mem_cons.mp hr with rfl | hr
        · omega
        · exact hall r hr

theorem map_stored (h : ∀ r ∈ records, r.Fits ∧ r.stored = r ∧ r.sequence.toNat + 1 < 2 ^ 64) :
    records.map Wal.Record.stored = records := by
  rw [List.map_congr_left fun r hr => (h r hr).2.1, List.map_id']

-- ============================================================================
-- The recovered DB
-- ============================================================================

/-- The DB that `Recover` builds from a directory that shows a database. -/
def recoveredDb (options : Options) (md : ManifestData) (tables : List PubTable)
    (records : List Wal.Record) (writer : Wal.Writer) : DB :=
  DB.recovered options md (tables.map PubTable.reader) (records.foldl DB.applyRecord .new) writer
    md.walFileNumber md.nextFileNumber (DB.maxSequenceSeen md.lastSequence records)

theorem recoveredDb_layers (writer : Wal.Writer) :
    (recoveredDb options md tables records writer).layers =
      replayLayer records :: tableLayers tables := by
  have htables : (tables.map PubTable.reader).reverse.map TableReader.layer =
      tableLayers tables := by
    rw [← List.map_reverse, List.map_map]
    rfl
  show [MemTable.layer _] ++ _ = _
  rw [show (recoveredDb options md tables records writer).tables =
    tables.map PubTable.reader from rfl,
    htables]
  rfl

/-- The members of a DB that was opened on a log state without a torn record. -/
theorem LogOk.dbOk {g : LogState} (h : LogOk g) (htorn : g.torn = [])
    (hmd : ManifestOk md.walFileNumber md.nextFileNumber (g.old ++ g.new) md)
    (writer : Wal.Writer) :
    DbOk (recoveredDb options md (g.old ++ g.new) g.records writer) g := by
  obtain ⟨hlast, hall, hattained⟩ := le_maxSequenceSeen md.lastSequence g.records
  have hfit : (DB.maxSequenceSeen md.lastSequence g.records).toNat + 1 < 2 ^ 64 := by
    rcases hattained with heq | ⟨r, hr, heq⟩
    · rw [heq]
      exact hmd.last
    · rw [heq]
      exact (h.logged r hr).2.2
  have hnext : (recoveredDb options md (g.old ++ g.new) g.records writer).nextSequence.toNat =
      (DB.maxSequenceSeen md.lastSequence g.records).toNat + 1 := toNat_add_one hfit
  exact {
    tables := rfl
    manifest := hmd
    covered := fun k => by
      show replayLayer g.records k = firstHit ([replayLayer g.records] ++ tableLayers g.new) k
      rw [firstHit_append, firstHit_cons]
      cases hk : replayLayer g.records k with
      | some e => rfl
      | none =>
          -- a table above the segment's start holds no key that the segment misses
          symm
          by_contra hsome
          obtain ⟨e, he⟩ := Option.ne_none_iff_exists'.mp hsome
          obtain ⟨l, hl, hle⟩ := firstHit_mem (by simpa using he)
          exact h.covered l hl k (by rw [hle]; simp) hk
    ordered := by rw [recoveredDb_layers]; exact h.ordered
    positive := by omega
    below := fun l hl k e he => by
      rw [recoveredDb_layers] at hl
      rw [hnext]
      rcases List.mem_cons.mp hl with rfl | hl
      · obtain ⟨r, hr, rfl⟩ := replayLayer_mem he
        have hle := hall r hr
        rw [seqRank, recordEntry_sequence]
        omega
      · obtain ⟨t, ht, rfl⟩ := List.mem_map.mp hl
        have hle := hmd.seqs t (List.mem_reverse.mp ht) k e he
        omega
    logged := fun r hr => by
      obtain ⟨hfits, hstored, -⟩ := h.logged r hr
      have hle := hall r hr
      exact ⟨hfits, hstored, by omega⟩
    torn := Or.inl htorn }

-- ============================================================================
-- Opening the tables and the segment
-- ============================================================================

theorem openTables_spec {C : World → Prop} (hC : C w) (tables : List PubTable)
    (h : ∀ t ∈ tables, w.fs.view (.sst t.info.fileNumber) = some (.table t.entries)) :
    wp pol (DB.openTables (tables.map PubTable.info))
      (fun r w' => w' = w ∧ (r = .ok (tables.map PubTable.reader) ∨
        ∃ s, r = .error s ∧ ∃ o, MayFail pol o)) C w := by
  induction tables with
  | nil => exact wp_pure.mpr ⟨rfl, Or.inl rfl⟩
  | cons t ts ih =>
      refine wp_bind (wp_mono (openReader_spec hC (h t (List.mem_cons_self ..))) ?_ fun _ => id)
      rintro r w' ⟨rfl, rfl | ⟨s, rfl, -, hfail⟩⟩
      · refine wp_bind (wp_mono (ih fun t' ht' => h t' (List.mem_cons_of_mem _ ht')) ?_ fun _ => id)
        rintro r w'' ⟨rfl, rfl | ⟨s, rfl, hfail⟩⟩
        · exact wp_pure.mpr ⟨rfl, Or.inl rfl⟩
        · exact wp_pure.mpr ⟨rfl, Or.inr ⟨s, rfl, hfail⟩⟩
      · exact wp_pure.mpr ⟨rfl, Or.inr ⟨s, rfl, _, hfail⟩⟩

/-- `Writer::Open` on a segment that exists changes nothing. -/
theorem openWriter_existing {n : UInt64} {i : FileId FileName} {C : World → Prop} (hC : C w)
    (hi : w.fs.dir (.wal n) = some i) (hopt : OptionsOk mode options) :
    wp pol (Wal.Writer.openWriter (.wal n) options.walSyncPolicy options.walBatchSize)
      (fun r w' => w' = w ∧ ((∃ writer, r = .ok writer ∧ writer.Open mode w n) ∨
        ∃ s, r = .error s ∧ ∃ o, MayFail pol o)) C w := by
  have hview : (w.fs.view (.wal n)).isSome = true := by simp [Fs.view, hi]
  have hsame : onFs (openCreate (.wal n) false) w = w := by simp [onFs, openCreate, hi]
  unfold Wal.Writer.openWriter
  rw [if_neg fun h => hopt.batch h.1 h.2]
  refine wp_bind (wp_bind (wp_stat ?_))
  rw [hview]
  refine wp_bind (wp_bind (wp_atomically ?_ (fun k hk => ?_) hC (by rw [hsame]; exact hC)))
  · rw [if_pos rfl, hsame]
    refine wp_read.mpr ?_
    rw [hi]
    exact wp_pure.mpr (wp_pure.mpr ⟨rfl, Or.inl ⟨_, rfl, rfl, hi, hopt.policy⟩⟩)
  · exact wp_pure.mpr (wp_pure.mpr (wp_pure.mpr ⟨rfl, Or.inr ⟨_, rfl, _, w, k, hk⟩⟩))

/-- The file number that a process which opens this directory counts from. -/
def nextOnDisk (v : DbView) : UInt64 :=
  match v .manifest with
  | some (.bytes b) => match decodeManifest b with
    | .ok md => md.nextFileNumber
    | .error _ => 1
  | _ => 1

/-- How `Recover` ends. -/
structure Recovered (mode : CrashMode) (options : Options) (m : EntryLayer) (w : World) (db : DB)
    (w' : World) (g : LogState) : Prop where
  live : Live mode db w' g
  map : firstHit db.layers = m
  torn : g.torn = []
  options : db.options = options
  logged : w'.logged = w.logged
  sst : ∀ n, w'.fs.view (.sst n) = w.fs.view (.sst n)
  next : (nextOnDisk w.fs.view).toNat ≤ db.nextFileNumber.toNat

/-- What a log state without a torn record and an open segment give. -/
theorem Shown.live {g : LogState} (h : Shown mode w.fs g md) (htorn : g.torn = [])
    (hcrash : CrashOk mode m w) {writer : Wal.Writer}
    (hwal : Settled mode w.fs (.wal md.walFileNumber))
    (hfresh : ∀ n : UInt64, md.nextFileNumber.toNat ≤ n.toNat →
      LinkSettled mode w.fs (.wal n) ∧ LinkSettled mode w.fs (.sst n))
    (hopen : writer.Open mode w md.walFileNumber) (hopt : OptionsOk mode options) :
    Live mode (recoveredDb options md (g.old ++ g.new) g.records writer) w g where
  wf := hcrash.wf
  homed := hcrash.homed
  ok := h.log.dbOk htorn h.counters writer
  views := h.views
  current := h.manifest
  listed := hcrash.listed
  writer := ⟨writer, rfl, hopen⟩
  walSettled := hwal
  freshWal n hn := (hfresh n hn).1
  freshSst n hn := (hfresh n hn).2
  policy := hopt.policy
  batch := hopt.batch
  onDisk hmode := ⟨hcrash.onDisk hmode, onDisk_last (hcrash.onDisk hmode) h.manifest⟩

-- ============================================================================
-- Recovery from a manifest
-- ============================================================================

/-- What `Recover` finds in a directory of a log state. -/
theorem Shown.shows {g : LogState} (h : Shown mode w.fs g md) (hwf : w.fs.WF) :
    DiskShows w.fs.view md (g.old ++ g.new) g.records g.torn where
  manifest := h.manifest
  counters := h.counters
  tableFiles := (h.views _ (possible_view hwf mode)).tables
  wal := (h.views _ (possible_view hwf mode)).wal
  later := (h.views _ (possible_view hwf mode)).later
  ordered := h.log.ordered
  logged := h.log.logged
  torn := h.log.torn

/-- The same log state with less of the torn record. -/
theorem LogOk.cut {g : LogState} (h : LogOk g) {torn' : Bytes} (hle : torn' <+: g.torn) :
    LogOk { g with torn := torn' } where
  covered := h.covered
  ordered := h.ordered
  logged := h.logged
  torn := by
    rcases h.torn with hnil | ⟨r, hfits, hprefix, hlt⟩
    · rw [hnil] at hle
      exact Or.inl (List.prefix_nil.mp hle)
    · exact Or.inr ⟨r, hfits, hle.trans hprefix, Nat.lt_of_le_of_lt hle.length_le hlt⟩

/-- The views of an open or half-open DB whose segment is `md`'s and of which a part
    of the torn record is left. -/
def CutTo (g : LogState) (md : ManifestData) (v : DbView) (torn' : Bytes) : Prop :=
  torn' <+: g.torn ∧ ViewOk md.walFileNumber md.nextFileNumber { g with torn := torn' } v

/-- Once the segment is settled the same part of the torn record is left in every
    directory. -/
theorem Shown.cut {g : LogState} {fs : DbFs} (h : Shown mode w.fs g md) (hwf : fs.WF)
    (hmanifest : fs.view .manifest = some (.bytes (encodeManifest md)))
    (hwal : Settled mode fs (.wal md.walFileNumber))
    (hall : ∀ v, Possible mode fs v → ∃ torn', CutTo g md v torn') :
    ∃ torn', CutTo g md fs.view torn' ∧ Shown mode fs { g with torn := torn' } md := by
  obtain ⟨torn', hle, hview⟩ := hall _ (possible_view hwf mode)
  refine ⟨torn', ⟨hle, hview⟩, fun v hv => ?_, h.log.cut hle, hmanifest, h.counters⟩
  obtain ⟨part, -, hpart⟩ := hall v hv
  have hsame : Wal.encodeRecords g.records ++ part = Wal.encodeRecords g.records ++ torn' :=
    FileData.bytes.inj (Option.some.inj
      (hpart.wal.symm.trans ((hwal.view hv).trans hview.wal)))
  obtain rfl := List.append_cancel_left hsame
  exact hpart

/-- The segment that the manifest names, after the torn record was cut off. -/
theorem truncate_spec {g : LogState} (h : Openable mode m w) (hs : Shown mode w.fs g md)
    (hm : g.map = m) :
    wp pol (truncateFile (.wal md.walFileNumber) (Wal.encodeRecords g.records).length)
      (fun s w' => CrashOk mode m w' ∧ ((s.ok = true ∧ Touches mode (.wal md.walFileNumber) w w' ∧
          Shown mode w'.fs { g with torn := [] } md ∧
          Settled mode w'.fs (.wal md.walFileNumber)) ∨
        (s.ok = false ∧ ∃ o, MayFail pol o)))
      (fun w' => CrashOk mode m w') w := by
  have hwal := h.grounded.wal md hs.manifest
  have htake : (Wal.encodeRecords g.records ++ g.torn).take (Wal.encodeRecords g.records).length =
      Wal.encodeRecords g.records := List.take_left
  -- every directory that a crash inside leaves shows a part of the torn record
  have hviews {w₁ : World} (hposs : ∀ v', Possible mode w₁.fs v' → ∃ v c, Possible mode w.fs v ∧
      (Wal.encodeRecords g.records ++ g.torn).take (Wal.encodeRecords g.records).length <+: c ∧
      c <+: Wal.encodeRecords g.records ++ g.torn ∧
      v' = Function.update v (.wal md.walFileNumber) (some (.bytes c))) (v' : DbView)
      (hv' : Possible mode w₁.fs v') : ∃ torn', CutTo g md v' torn' := by
    obtain ⟨v, c, hv, hle, hc, rfl⟩ := hposs v' hv'
    rw [htake] at hle
    obtain ⟨torn', rfl⟩ := hle
    exact ⟨torn', (List.prefix_append_right_inj _).mp hc,
      (hs.views v hv).updateWal g.records torn'⟩
  have hmanifest {w₁ : World} (ht : Touches mode (.wal md.walFileNumber) w w₁) :
      w₁.fs.view .manifest = some (.bytes (encodeManifest md)) :=
    (ht.fs.view _ (by simp)).trans hs.manifest
  have hcrash {w₁ : World} (ht : Touches mode (.wal md.walFileNumber) w w₁)
      (hall : ∀ v', Possible mode w₁.fs v' → ∃ torn', CutTo g md v' torn') :
      CrashOk mode m w₁ := by
    refine h.crash.touch ht (by simp) (fun v' hv' => ?_) fun hground => ?_
    · obtain ⟨torn', hle, hview⟩ := hall v' hv'
      exact hm ▸ hview.disk (hs.log.cut hle)
    · obtain ⟨torn', -, hshown⟩ := hs.cut ht.fs.wf (hmanifest ht)
        (hground.wal md (hmanifest ht)) hall
      exact Or.inr ⟨_, md, hshown, hm⟩
  refine wp_mono (truncateFile_spec mode h.wf (h.homed _ (by simp)) hwal (hs.shows h.wf).wal) ?_
    fun w₁ ⟨ht, hposs⟩ => hcrash ht (hviews hposs)
  rintro s w₁ ⟨ht, hposs, ⟨hok, hset, hview⟩ | ⟨herr, -, hfail⟩⟩
  · refine ⟨hcrash ht (hviews hposs), Or.inl ⟨hok, ht, ?_, hset⟩⟩
    obtain ⟨torn', ⟨-, hcut⟩, hshown⟩ := hs.cut ht.fs.wf (hmanifest ht) hset (hviews hposs)
    have hnil : torn' = [] := by
      have hwal := hcut.wal
      rw [hview, htake] at hwal
      have hbytes := FileData.bytes.inj (Option.some.inj hwal)
      simpa using hbytes.symm
    rwa [hnil] at hshown
  · exact ⟨hcrash ht (hviews hposs), Or.inr ⟨herr, hfail.elim (fun h => ⟨_, h⟩) fun h => ⟨_, h⟩⟩⟩

/-- The segment after a replay: nothing torn is left in it. -/
structure Repaired (mode : CrashMode) (m : EntryLayer) (md : ManifestData) (g : LogState)
    (w w' : World) : Prop where
  crash : CrashOk mode m w'
  shown : Shown mode w'.fs { g with torn := [] } md
  wal : Settled mode w'.fs (.wal md.walFileNumber)
  touches : Touches mode (.wal md.walFileNumber) w w'

/-- A name that MANIFEST does not use yet is linked for good. -/
theorem Openable.fresh (h : Openable mode m w)
    (hmd : w.fs.view .manifest = some (.bytes (encodeManifest md))) {n : UInt64}
    (hpos : 0 < md.nextFileNumber.toNat) (hn : md.nextFileNumber.toNat ≤ n.toNat) :
    LinkSettled mode w.fs (.wal n) ∧ LinkSettled mode w.fs (.sst n) := by
  refine h.grounded.fresh n (by omega) fun md' hmd' => ?_
  obtain rfl := encodeManifest_inj (FileData.bytes.inj (Option.some.inj (hmd.symm.trans hmd')))
  exact hn

/-- Opening the writer on a repaired segment. -/
theorem Repaired.openWriter {g : LogState} (h : Repaired mode m md g w w')
    (hopenable : Openable mode m w)
    (hmd : w.fs.view .manifest = some (.bytes (encodeManifest md)))
    (hopt : OptionsOk mode options) :
    wp pol (Wal.Writer.openWriter
      (.wal md.walFileNumber) options.walSyncPolicy options.walBatchSize)
      (fun r w'' => w'' = w' ∧ ((∃ writer, r = .ok writer ∧
          Live mode (recoveredDb options md (g.old ++ g.new) g.records writer) w'
            { g with torn := [] }) ∨
        ∃ s, r = .error s ∧ ∃ o, MayFail pol o)) (CrashOk mode m) w' := by
  obtain ⟨i, hi⟩ : ∃ i, w'.fs.dir (.wal md.walFileNumber) = some i := by
    have hwal := (h.shown.shows h.crash.wf).wal
    cases hdir : w'.fs.dir (.wal md.walFileNumber) with
    | none => simp [Fs.view, hdir] at hwal
    | some i => exact ⟨i, rfl⟩
  have hfresh (n : UInt64) (hn : md.nextFileNumber.toNat ≤ n.toNat) :
      LinkSettled mode w'.fs (.wal n) ∧ LinkSettled mode w'.fs (.sst n) := by
    have hle := h.shown.counters.walLe
    have hpos := h.shown.counters.walPos
    obtain ⟨hwal, hsst⟩ := hopenable.fresh hmd (by omega) hn
    by_cases heq : n = md.walFileNumber
    · rw [heq]
      exact ⟨h.wal.link, heq ▸ h.touches.fs.link _ (by simp) hsst⟩
    · exact ⟨h.touches.fs.link _ (fun hn => heq (FileName.wal.inj hn)) hwal,
        h.touches.fs.link _ (by simp) hsst⟩
  refine wp_mono (openWriter_existing h.crash hi hopt) ?_ fun _ => id
  rintro r w'' ⟨rfl, ⟨writer, rfl, hopen⟩ | hfail⟩
  · exact ⟨rfl, Or.inl ⟨writer, rfl, h.shown.live rfl h.crash h.wal hfresh hopen hopt⟩⟩
  · exact ⟨rfl, Or.inr hfail⟩

/-- How a part of `Recover` fails. -/
def Failed (mode : CrashMode) (pol : Policy FsOp World) (m : EntryLayer) (w' : World) : Prop :=
  (∃ o, MayFail pol o) ∧ CrashOk mode m w'

/-- Cutting off the torn record, if there is one. -/
theorem discardTorn_spec {g : LogState} (h : Openable mode m w) (hs : Shown mode w.fs g md)
    (hm : g.map = m) :
    wp pol (DB.discardTorn (.wal md.walFileNumber)
        (if g.torn = [] then .kEndOfLog else .kTruncated) (Wal.encodeRecords g.records).length)
      (fun s w' => (s.ok = true ∧ Repaired mode m md g w w') ∨
        (s.ok = false ∧ Failed mode pol m w'))
      (CrashOk mode m) w := by
  unfold DB.discardTorn
  by_cases hnil : g.torn = []
  · rw [if_pos hnil, if_neg (by simp)]
    have hsame : { g with torn := [] } = g := by rw [← hnil]
    exact wp_pure.mpr (Or.inl ⟨rfl, h.crash, by rw [hsame]; exact hs, h.grounded.wal md hs.manifest,
      .refl h.wf⟩)
  · rw [if_neg hnil, if_pos rfl]
    refine wp_mono (truncate_spec h hs hm) ?_ fun _ => id
    rintro s w' ⟨hcrash, ⟨hok, ht, hshown, hwal⟩ | ⟨herr, hfail⟩⟩
    · exact Or.inl ⟨hok, hcrash, hshown, hwal, ht⟩
    · exact Or.inr ⟨herr, hfail, hcrash⟩

/-- How `Recover` ends: an open DB for the same map, or an error of some call. -/
def RecoverEnd (mode : CrashMode) (pol : Policy FsOp World) (options : Options) (m : EntryLayer)
    (w : World) (r : Except Status DB) (w' : World) : Prop :=
  (∃ db g, r = .ok db ∧ Recovered mode options m w db w' g) ∨
    ∃ s, r = .error s ∧ Failed mode pol m w'

theorem recoverWal_spec {g : LogState} (h : Openable mode m w) (hs : Shown mode w.fs g md)
    (hm : g.map = m) (hcount : md.tables.length ≤ kMaxTableCount.toNat)
    (hopt : OptionsOk mode options) :
    wp pol (DB.recoverWal options md ((g.old ++ g.new).map PubTable.reader))
      (RecoverEnd mode pol options m w) (CrashOk mode m) w := by
  have hshow := hs.shows h.wf
  obtain ⟨hrecords, hterminal, hvalid⟩ :=
    Wal.Reader.replay_start g.records (fun r hr => (hshow.logged r hr).1) hshow.torn
  rw [map_stored hshow.logged] at hrecords
  refine wp_bind (wp_mono (readFile_spec h.crash) ?_ fun _ => id)
  rintro (s | contents) w₁ ⟨rfl, hr⟩
  · exact wp_pure.mpr (Or.inr ⟨s, rfl, ⟨_, hr.2.2.resolve_left (by rw [hshow.wal]; simp)⟩, h.crash⟩)
  obtain rfl : contents = .bytes (Wal.encodeRecords g.records ++ g.torn) :=
    Option.some.inj (hr.symm.trans hshow.wal)
  have hnot : ¬ ((if g.torn = [] then Wal.ReadResult.kEndOfLog else .kTruncated) = .kCorruption ∨
      (if g.torn = [] then Wal.ReadResult.kEndOfLog else .kTruncated) =
        .kUnsupportedVersion) := by
    split <;> simp
  simp only [hterminal, hvalid, hrecords, if_neg hnot]
  refine wp_bind (wp_mono (discardTorn_spec h hs hm) ?_ fun _ => id)
  rintro s w₂ (⟨hok, hrep⟩ | ⟨herr, hfail⟩)
  · rw [if_pos hok]
    refine wp_bind (wp_mono (hrep.openWriter h hs.manifest hopt) ?_ fun _ => id)
    rintro r w₃ ⟨rfl, ⟨writer, rfl, hlive⟩ | ⟨s, rfl, hfail⟩⟩
    · refine wp_pure.mpr (Or.inl ⟨_, _, rfl, hlive, ?_, rfl, rfl, hrep.touches.logged,
        fun n => hrep.touches.fs.view _ (by simp), ?_⟩)
      · show firstHit (recoveredDb options md (g.old ++ g.new) g.records writer).layers = m
        rw [recoveredDb_layers]
        exact hm
      · simp only [nextOnDisk, hs.manifest, decodeManifest_encodeManifest md hcount]
        exact Nat.le_refl _
    · exact wp_pure.mpr (Or.inr ⟨s, rfl, hfail, hrep.crash⟩)
  · rw [if_neg (by rw [herr]; simp)]
    exact wp_pure.mpr (Or.inr ⟨s, rfl, hfail⟩)

-- ============================================================================
-- A fresh directory
-- ============================================================================

/-- The manifest that a fresh open saves. -/
def freshManifest : ManifestData := { nextFileNumber := 2, walFileNumber := 1 }

/-- A fresh directory in which the first segment was created. -/
structure FreshSegment (v : DbView) : Prop where
  fresh : DiskFresh v
  segment : v (.wal 1) = some (.bytes [])

theorem FreshSegment.ignoresTmp : IgnoresTmp FreshSegment := fun u v heq h =>
  ⟨⟨(heq _ (by simp)).trans h.fresh.manifest, fun n => by
    rw [heq _ (by simp)]
    exact h.fresh.wals n⟩, (heq _ (by simp)).trans h.segment⟩

theorem FreshSegment.shows {u : DbView} (h : FreshSegment u) :
    DiskShows (withManifest freshManifest u) freshManifest [] [] [] where
  manifest := by simp [withManifest]
  counters := {
    wal := rfl
    walPos := by decide
    infos := rfl
    nextLe := Nat.le_refl _
    walLe := by decide
    numbers := by simp
    seqs := by simp
    last := by decide }
  tableFiles := by simp
  wal := by simpa [withManifest, freshManifest] using h.segment
  later n _ := by simpa [withManifest] using h.fresh.wals n
  ordered := Ordered.cons_iff.mpr ⟨by simp [tableLayers], by simp [tableLayers, Ordered]⟩
  logged := by simp
  torn := Or.inl rfl

theorem FreshSegment.disk {u : DbView} (h : FreshSegment u) :
    DiskOk (withManifest freshManifest u) (fun _ => none) :=
  Or.inr ⟨_, _, _, _, h.shows, by funext k; simp [tableLayers, firstHit_cons]⟩

theorem onDisk_fresh (hnone : w.fs.view .manifest = none) (h : OnDisk w) : w.published = [] := by
  rcases h with ⟨hnil, -⟩ | ⟨md, -, hmd, -⟩
  · exact hnil
  · rw [hnone] at hmd
    exact absurd hmd (by simp)

theorem OnDisk.fresh {P : DbView → Prop} (hnil : w.published = [])
    (hr : Renamed mode freshManifest P w w') : OnDisk w' := by
  have hpub : w'.published = [freshManifest] := by rw [hr.published, hnil]; rfl
  refine Or.inr ⟨freshManifest, by rw [hpub]; rfl, hr.manifest, ?_, by simp [freshManifest]⟩
  exact ⟨fun _ => by rw [hpub]; decide, fun _ => by decide⟩

theorem createSegment_fresh {v : DbView} (h : DiskFresh v) (n : UInt64) :
    DiskFresh (Function.update v (.wal n) (some (.bytes []))) where
  manifest := by simpa using h.manifest
  wals k := by
    by_cases hk : k = n
    · subst hk
      simp
    · have hne : FileName.wal k ≠ .wal n := fun heq => hk (FileName.wal.inj heq)
      rw [Function.update_of_ne hne]
      exact h.wals k

/-- A process that stops in a directory that no process opened to the end yet. -/
theorem CrashOk.fresh {n : FileName} (h : CrashOk mode (fun _ => none) w)
    (ht : Touches mode n w w') (hn : n ≠ .manifest)
    (hfresh : ∀ v, Possible mode w'.fs v → DiskFresh v) : CrashOk mode (fun _ => none) w' :=
  h.touch ht hn (fun v hv => Or.inl ⟨hfresh v hv, rfl⟩) fun _ => Or.inl ⟨hfresh, rfl⟩

/-- A directory in which the first manifest was renamed into place. -/
theorem FreshSegment.shown (hr : Renamed mode freshManifest FreshSegment w w')
    (hall : ∀ v, Possible mode w'.fs v → v .manifest ≠ none) :
    Shown mode w'.fs ⟨[], [], [], []⟩ freshManifest := by
  have hshows (v : DbView) (hv : Possible mode w'.fs v) :
      DiskShows v freshManifest [] [] [] := by
    rcases hr.possible v hv with hP | ⟨u, hu, rfl⟩
    · exact absurd hP.fresh.manifest (hall v hv)
    · exact hu.shows
  have hshow := hshows _ (possible_view hr.wf mode)
  exact ⟨fun v hv => (hshows v hv).viewOk, hshow.logOk, hr.manifest, hshow.counters⟩

theorem fresh_map : LogState.map ⟨[], [], [], []⟩ = fun _ => none := by
  funext k
  simp [LogState.map, tableLayers, firstHit_cons]

/-- A process that stops once the first manifest is renamed. -/
theorem freshRenamed_crash (h : CrashOk mode (fun _ => none) w)
    (hnil : mode = .process → w.published = [])
    (hr : Renamed mode freshManifest FreshSegment w w') : CrashOk mode (fun _ => none) w' where
  wf := hr.wf
  homed n hn := hr.homed n hn (h.homed n hn)
  views v hv := by
    rcases hr.possible v hv with hv | ⟨u, hu, rfl⟩
    · exact Or.inl ⟨hv.fresh, rfl⟩
    · exact hu.disk
  held hground := by
    refine Or.inr ⟨_, _, FreshSegment.shown hr fun v hv hnone => ?_, fresh_map⟩
    have hshown := (hground.segment v hv).1.mpr hnone
    rw [hr.manifest] at hshown
    exact absurd hshown (by simp)
  listed := Listed.renamed (fun v hv => Or.inl hv.fresh.manifest) hr
  onDisk hmode := .fresh (hnil hmode) hr

theorem recoverFresh_spec (h : Openable mode (fun _ => none) w)
    (hfresh : ∀ v, Possible mode w.fs v → DiskFresh v) (hopt : OptionsOk mode options) :
    wp pol (DB.recoverFresh options {} [])
      (RecoverEnd mode pol options (fun _ => none) w) (CrashOk mode fun _ => none) w := by
  have hfresh₀ := hfresh _ (possible_view h.wf mode)
  have hnil : mode = .process → w.published = [] := fun hmode =>
    onDisk_fresh hfresh₀.manifest (h.onDisk hmode)
  have hempty : (w.fs.view (.wal 1)).getD (.bytes []) = .bytes [] := by
    rcases hfresh₀.wals 1 with hv | hv <;> rw [hv] <;> rfl
  have hlinks (n : UInt64) (hn : 0 < n.toNat) :
      LinkSettled mode w.fs (.wal n) ∧ LinkSettled mode w.fs (.sst n) :=
    h.grounded.fresh n hn fun md hmd => absurd (hfresh₀.manifest.symm.trans hmd) (by simp)
  -- creating the segment keeps the directory fresh
  have hkept {w₁ : World} (hc : OnlyCreates mode (.wal 1) w.fs w₁.fs) (v : DbView)
      (hv : Possible mode w₁.fs v) : DiskFresh v := by
    obtain ⟨u, hu, rfl | rfl⟩ := hc v hv
    · exact hfresh _ hu
    · exact createSegment_fresh (hfresh _ hu) 1
  refine wp_bind (wp_mono (Wal.openWriter_spec options.walSyncPolicy options.walBatchSize h.wf
    (h.homed _ (by simp)) hopt.policy hopt.batch) ?_ fun w₁ ⟨ht, hc⟩ =>
      h.crash.fresh ht (by simp) (hkept hc))
  rintro (s | writer) w₁ ⟨ht₁, hc₁, hr⟩
  · exact wp_pure.mpr (Or.inr ⟨s, rfl, hr.2.2, h.crash.fresh ht₁ (by simp) (hkept hc₁)⟩)
  obtain ⟨hopen, hview₁, hset₁⟩ := hr
  have hopen : writer.Open mode w₁ 1 := hopen
  have hset₁ : Settled mode w₁.fs (.wal 1) :=
    hset₁ (settled_of_empty h.wf (hlinks 1 (by decide)).1 fun v hv => (hfresh v hv).wals 1)
  have hview₁ : w₁.fs.view (.wal 1) = some (.bytes []) := hview₁.trans (congrArg some hempty)
  have hcrash₁ := h.crash.fresh ht₁ (by simp) (hkept hc₁)
  have hnil₁ : mode = .process → w₁.published = [] := fun hmode => by
    rw [ht₁.published]
    exact hnil hmode
  have hP : ∀ v, Possible mode w₁.fs v → FreshSegment v := fun v hv =>
    ⟨hkept hc₁ v hv, (hset₁.view hv).trans hview₁⟩
  have htmp {w₂ : World} (ht₂ : Touches mode .manifestTmp w₁ w₂) :
      CrashOk mode (fun _ => none) w₂ :=
    hcrash₁.fresh ht₂ (by simp) fun v hv =>
      (ht₂.fs.forall_possible FreshSegment.ignoresTmp hP v hv).fresh
  refine wp_bind (wp_mono (saveManifest_spec mode hcrash₁.wf (hcrash₁.homed _ (by simp))
    FreshSegment.ignoresTmp hP) ?_ ?_)
  · rintro ⟨s, published⟩ w₂ (⟨rfl, hsaved⟩ | ⟨rfl, herr, ht₂, hfail⟩)
    · have hren : Renamed mode freshManifest FreshSegment w₁ w₂ := hsaved.renamed
      have hcrash₂ := freshRenamed_crash hcrash₁ hnil₁ hren
      by_cases hok : s.ok = true
      · have hothers (n : UInt64) (hn : freshManifest.nextFileNumber.toNat ≤ n.toNat) :
            LinkSettled mode w₂.fs (.wal n) ∧ LinkSettled mode w₂.fs (.sst n) := by
          have htwo : 2 ≤ n.toNat := hn
          obtain ⟨hwal, hsst⟩ := hlinks n (by omega)
          refine ⟨hren.link _ (by simp) (by simp) (ht₁.fs.link _ (fun heq => ?_) hwal),
            hren.link _ (by simp) (by simp) (ht₁.fs.link _ (by simp) hsst)⟩
          rw [FileName.wal.inj heq] at htwo
          exact absurd htwo (by decide)
        have hshown := FreshSegment.shown hren fun v hv => by
          rw [hsaved.durable (Or.inl hok) v hv]
          simp
        have hlive : Live mode (recoveredDb options freshManifest [] [] writer) w₂ _ :=
          hshown.live rfl hcrash₂ (hren.settled _ (by simp) (by simp) hset₁) hothers
            ⟨hopen.path, (hren.dir _ (by simp) (by simp)).trans hopen.dir, hopen.policy⟩ hopt
        simp only [hok, if_true]
        refine wp_pure.mpr (Or.inl ⟨_, _, rfl, hlive, ?_, rfl, rfl, ?_, fun n => ?_, ?_⟩)
        · show firstHit (recoveredDb options freshManifest [] [] writer).layers = _
          rw [recoveredDb_layers]
          exact fresh_map
        · exact hren.logged.trans ht₁.logged
        · exact (hren.view _ (by simp) (by simp)).trans (ht₁.fs.view _ (by simp))
        · simp only [nextOnDisk, hfresh₀.manifest]
          show UInt64.toNat 1 ≤ UInt64.toNat (1 + 1)
          decide
      · have herr : s.ok = false := by simpa using hok
        obtain ⟨w₃, k, -, hk⟩ := hsaved.degraded herr
        simp only [herr]
        exact wp_pure.mpr (Or.inr ⟨s, rfl, ⟨_, w₃, k, hk⟩, hcrash₂⟩)
    · have herr : s.ok = false := herr
      simp only [herr]
      exact wp_pure.mpr (Or.inr ⟨s, rfl, hfail, htmp ht₂⟩)
  · rintro w₂ (ht₂ | hren)
    · exact htmp ht₂
    · exact freshRenamed_crash hcrash₁ hnil₁ hren

-- ============================================================================
-- DB::Open
-- ============================================================================

/-- `DB::Open` of a directory that any crash has left, once no crash can take away
    what it builds on. -/
theorem openDb_spec (h : Openable mode m w) (hb : Bounded w.published)
    (hopt : OptionsOk mode options) :
    wp pol (DB.openDb options) (RecoverEnd mode pol options m w) (CrashOk mode m) w := by
  rcases h.held with ⟨hfresh, rfl⟩ | ⟨g, md, hs, hm⟩
  · refine wp_bind (wp_mono (loadManifest_none (hfresh _ (possible_view h.wf mode)).manifest) ?_
      fun _ => id)
    rintro r w' ⟨rfl, s, rfl, hnf⟩
    simp only [hnf, if_true]
    exact wp_bind (wp_pure.mpr (recoverFresh_spec h hfresh hopt))
  · have hshow := hs.shows h.wf
    have hcount := hb md (listed_mem (h.listed _ (possible_view h.wf mode)) hs.manifest)
    refine wp_bind (wp_mono (loadManifest_some h.crash hs.manifest hcount) ?_ fun _ => id)
    rintro r w' ⟨rfl, rfl | ⟨s, rfl, hnf, hfail⟩⟩
    · have hne : md.walFileNumber ≠ 0 := by
        intro hzero
        have hpos := hshow.counters.walPos
        rw [hzero] at hpos
        exact Nat.lt_irrefl _ hpos
      show wp pol (DB.recoverFrom options md) _ _ w'
      unfold DB.recoverFrom
      rw [hshow.counters.infos]
      refine wp_bind (wp_mono (openTables_spec h.crash _ hshow.tableFiles) ?_ fun _ => id)
      rintro r w' ⟨rfl, rfl | ⟨s, rfl, hfail⟩⟩
      · simp only [ne_eq, hne, not_false_eq_true, if_true]
        exact recoverWal_spec h hs hm hcount hopt
      · exact wp_pure.mpr (Or.inr ⟨s, rfl, hfail, h.crash⟩)
    · simp only [hnf]
      exact wp_pure.mpr (Or.inr ⟨s, rfl, ⟨_, hfail⟩, h.crash⟩)

end PassionProjects.PebbleDB
