/-
  PassionProjects.PebbleDB.Db.LogRotation

  What a flush that returned OK leaves in the WAL segment that MANIFEST names.

  The rotation at the end of `FlushLocked` leaves an empty segment.  It is only
  reached from a flush that had a MemTable to publish: a flush that follows one
  whose rotation failed finds nothing pending, returns early, and leaves the
  records of published tables in the log.
-/

import PassionProjects.PebbleDB.Db.AnyFaults
import PassionProjects.PebbleDB.Db.CrashSafety

namespace PassionProjects.PebbleDB

open PassionProjects.Faults
open PassionProjects.Faults.Prog
open PassionProjects.FileSystem
open PassionProjects.FileSystem.Fs
open PassionProjects.Layers
open PassionProjects.Refinement
open PassionProjects.PebbleDB.Util
open PassionProjects.PebbleDB.Memtable
open PassionProjects.PebbleDB.Manifest

/-- What `LoadManifest` would read. -/
def currentManifest (w : World) : Option ManifestData :=
  match w.fs.view .manifest with
  | some (.bytes b) =>
    match decodeManifest b with
    | .ok md => some md
    | .error _ => none
  | _ => none

/-- The records that a replay of the segment MANIFEST names would read. -/
def loggedRecords (w : World) : List Wal.Record :=
  match currentManifest w with
  | some md =>
    match w.fs.view (.wal md.walFileNumber) with
    | some (.bytes b) => (Wal.Reader.replay (.start b)).records
    | _ => []
  | none => []

/-- The entries of the tables that MANIFEST lists. -/
def publishedEntries (w : World) : List Entry :=
  match currentManifest w with
  | some md => md.tables.flatMap fun t =>
    match w.fs.view (.sst t.fileNumber) with
    | some (.table entries) => entries
    | _ => []
  | none => []

/-- The entry that a table holds for a record. -/
def tableEntry (r : Wal.Record) : Entry :=
  ⟨r.key, (recordEntry r).sequence, (recordEntry r).type, (recordEntry r).value⟩

/-- A record of the segment is already held by a published table. -/
def LogStale (w : World) : Prop := ∃ r ∈ loggedRecords w, tableEntry r ∈ publishedEntries w

instance (w : World) : Decidable (LogStale w) :=
  inferInstanceAs (Decidable (∃ r ∈ loggedRecords w, tableEntry r ∈ publishedEntries w))

/-- A flush that has something to publish rotates to a segment whose file is new
    or empty; one that has not finds the segment without a complete record. -/
def LogDropped (db : DB) (w : World) : Prop :=
  if db.pending = 0 then loggedRecords w = []
  else (w.fs.view (.wal (db.nextFileNumber + UInt64.ofNat db.pending))).getD (.bytes []) = .bytes []

instance (db : DB) (w : World) : Decidable (LogDropped db w) := by
  unfold LogDropped
  infer_instance

variable {pol : Policy FsOp World} {w w' : World} {db : DB} {g : LogState}

theorem currentManifest_encode {data md : ManifestData}
    (h : w.fs.view .manifest = some (.bytes (encodeManifest data)))
    (hmd : currentManifest w = some md) : md = data := by
  unfold currentManifest at hmd
  rw [h] at hmd
  cases hdecode : decodeManifest (encodeManifest data) with
  | error ds => simp [hdecode] at hmd
  | ok md' =>
      obtain rfl : md' = md := by simpa [hdecode] using hmd
      exact eq_of_decodeManifest_encodeManifest hdecode

/-- A segment that is gone or empty has no record. -/
theorem loggedRecords_of_empty {data : ManifestData}
    (hmanifest : w.fs.view .manifest = some (.bytes (encodeManifest data)))
    (hwal : w.fs.view (.wal data.walFileNumber) = none ∨
      w.fs.view (.wal data.walFileNumber) = some (.bytes [])) : loggedRecords w = [] := by
  unfold loggedRecords
  cases hmd : currentManifest w with
  | none => rfl
  | some md =>
      obtain rfl := currentManifest_encode hmanifest hmd
      rcases hwal with hnone | hempty
      · simp only [hnone]
      · simp only [hempty]
        exact (Wal.Reader.replay_start [] (fun x hx => absurd hx List.not_mem_nil) (Or.inl rfl)).1

/-- Where the log is dropped a flush that returns OK leaves no record in it. -/
theorem FlushEnd.loggedRecords {s : Status} {db' : DB} (h : FlushEnd db w s db' w')
    (hok : s.ok = true) (hp : db.persistent = true) (hdrop : LogDropped db w) :
    loggedRecords w' = [] := by
  unfold LogDropped at hdrop
  by_cases hzero : db.pending = 0
  · rw [if_pos hzero] at hdrop
    rw [(h.idle hzero).1]
    exact hdrop
  · rw [if_neg hzero] at hdrop
    obtain ⟨number, hnext, ⟨md, rfl, hmanifest⟩, hwal⟩ := h.ok hok hp (Nat.pos_of_ne_zero hzero)
    rw [hnext, hdrop, ← hnext] at hwal
    exact loggedRecords_of_empty hmanifest hwal

-- ============================================================================
-- Sound environments
-- ============================================================================

/-- The file that the rotation will take is new or empty. -/
theorem Live.logDropped {mode : CrashMode} (h : Live mode db w g) (hpos : 0 < db.pending)
    (hfit : CountersFit .flush db) : LogDropped db w := by
  have hfit' : db.nextFileNumber.toNat + db.pending + 1 < 2 ^ 64 := hfit.2
  have hnumber : (db.nextFileNumber + UInt64.ofNat db.pending).toNat =
      db.nextFileNumber.toNat + db.pending := by
    rw [UInt64.toNat_add, UInt64.toNat_ofNat']
    omega
  have hle := h.ok.manifest.walLe
  have hle' := h.ok.manifest.nextLe
  unfold LogDropped
  rw [if_neg (by omega)]
  rcases (h.views _ (possible_view h.wf mode)).later (db.nextFileNumber + UInt64.ofNat db.pending)
    (by omega) with hv | hv <;> rw [hv] <;> rfl

/-- With nothing pending, the newest record of the log is in a table published
    since the segment was started. -/
theorem Live.newest_published {mode : CrashMode} (h : Live mode db w g) (hzero : db.pending = 0)
    {records : List Wal.Record} {r : Wal.Record} (hg : g.records = records ++ [r]) :
    ∃ t ∈ g.new, tableEntry r ∈ t.entries := by
  obtain ⟨hfreeze, himm⟩ := freezeActive_of_pending hzero
  have hactive := freezeActive_empty db
  rw [hfreeze] at hactive
  have hmem : db.memtables.layers = [fun _ => none] := by
    simp [MemTableList.layers, himm, MemTable.layer_of_empty hactive]
  have hcovered := h.ok.covered r.key
  rw [hg, replayLayer_append, setLayer, if_pos rfl, hmem, List.singleton_append, firstHit_cons,
    Option.none_or] at hcovered
  obtain ⟨l, hl, hentry⟩ := firstHit_mem hcovered.symm
  obtain ⟨t, ht, rfl⟩ := List.mem_map.mp hl
  refine ⟨t, List.mem_reverse.mp ht, ?_⟩
  obtain ⟨e, he, hentry⟩ := Option.map_eq_some_iff.mp hentry
  have hkey : e.key = r.key := by simpa using List.find?_some he
  have heq : e = tableEntry r := by
    rw [tableEntry, ← hentry, ← hkey]
  exact heq ▸ List.mem_of_find?_eq_some he

/-- With nothing pending, a log that has a record has one of a published table. -/
theorem Live.logStale (h : Live .process db w g) (hzero : db.pending = 0)
    (hrecords : loggedRecords w ≠ []) : LogStale w := by
  obtain ⟨hdisk, hlast⟩ := h.onDisk rfl
  have hmanifest : w.fs.view .manifest = some (.bytes (encodeManifest db.manifest)) := by
    rcases hdisk with ⟨hnil, -⟩ | ⟨md, hmd, hview, -⟩
    · rw [hnil] at hlast
      exact absurd hlast (by simp)
    · rw [hview, Option.some.inj (hmd.symm.trans hlast)]
  have hview := h.views _ (possible_view h.wf .process)
  have hok := h.ok
  cases hmd : currentManifest w with
  | none => exact absurd (by simp [PebbleDB.loggedRecords, hmd]) hrecords
  | some md =>
      obtain rfl := currentManifest_encode hmanifest hmd
      have hlogged : loggedRecords w = g.records := by
        have hreplay := Wal.Reader.replay_start g.records (fun r hr => (hok.logged r hr).1) hok.torn
        have hstored : g.records.map Wal.Record.stored = g.records :=
          List.map_congr_left (g := id) (fun r hr => (hok.logged r hr).2.1) |>.trans (List.map_id _)
        simp only [PebbleDB.loggedRecords, hmd, hok.manifest.wal, hview.wal, hreplay.1, hstored]
      obtain ⟨records, r, hg⟩ : ∃ records r, g.records = records ++ [r] :=
        (List.eq_nil_or_concat' g.records).resolve_left (hlogged ▸ hrecords)
      obtain ⟨t, ht, hentry⟩ := h.newest_published hzero hg
      refine ⟨r, by simp [hlogged, hg], ?_⟩
      have hmem : t ∈ g.old ++ g.new := List.mem_append_right _ ht
      simp only [publishedEntries, hmd, List.mem_flatMap]
      refine ⟨t.info, ?_, ?_⟩
      · rw [hok.manifest.infos]
        exact List.mem_map_of_mem hmem
      · rw [hview.tables t hmem]
        exact hentry

/-- A flush that returns OK leaves no record of a published table in the log if
    the log is dropped.  Where appends to the WAL do not fail and crashes stop
    processes only, the log is dropped by every flush that has something to
    publish, and a flush that has nothing to publish leaves such a record exactly
    when the log has any. -/
theorem flush_log_fresh_iff {E : Env} {run : List (Event × Sys)} (h : Runs (Step E) .init run)
    (hlast : lastState .init run = ⟨w, some db⟩) (hp : db.persistent = true)
    {env env' : List Fault} {s : Status} {db' : DB}
    (hrun : db.flush E.callFaults env w = .done (s, db') w' env') (hok : s.ok = true) :
    (LogDropped db w → ¬ LogStale w') ∧
      (E.Sound → E.mode = .process → CountersFit .flush db →
        (¬ LogStale w' ↔ 0 < db.pending ∨ loggedRecords w = [])) := by
  have htidy : Tidy w := by
    have hreached := Reached.init.runs h
    rw [hlast] at hreached
    exact hreached.tidy
  have hend := wp_done (flushLocked_end htidy) hrun
  have hfresh : LogDropped db w → ¬ LogStale w' := by
    rintro hdrop ⟨r, hr, -⟩
    rw [hend.loggedRecords hok hp hdrop] at hr
    exact absurd hr List.not_mem_nil
  refine ⟨hfresh, fun hE hmode hfit => ⟨fun hnot => ?_, fun hcond => hfresh ?_⟩⟩
  · by_contra hcond
    obtain ⟨hzero, hrecords⟩ := not_or.mp hcond
    have hzero : db.pending = 0 := by omega
    obtain ⟨m, hrel⟩ := (simulation hE).reaches (related_init _) h
    rw [hlast] at hrel
    obtain ⟨g, hlive, -⟩ := hrel
    rw [hmode] at hlive
    rw [(hend.idle hzero).1] at hnot
    exact hnot (hlive.logStale hzero hrecords)
  · by_cases hzero : db.pending = 0
    · rw [LogDropped, if_pos hzero]
      exact hcond.resolve_left (by omega)
    · obtain ⟨m, hrel⟩ := (simulation hE).reaches (related_init _) h
      rw [hlast] at hrel
      obtain ⟨g, hlive, -⟩ := hrel
      exact hlive.logDropped (Nat.pos_of_ne_zero hzero) hfit

/-- A Put. -/
def putScript : List Action := [.start {} [] [], .call (.put [97] [1]) [] []]

/-- A Put, and a flush that publishes its table and then cannot open the new segment. -/
def retryScript : List Action :=
  putScript ++ [.call .flush (List.replicate 11 .none ++ [.error 0]) []]

/-- How a flush without faults ends in the last state of a run: its status, and
    whether the log is stale after it. -/
def lastFlushLog (run : List (Event × Sys)) : Option (Status × Bool) :=
  match lastState Sys.init run with
  | ⟨w, some db⟩ =>
    match db.flush faultyEnv.callFaults [] w with
    | .done (s, _) w' _ => if db.persistent then some (s, LogStale w') else none
    | .crashed _ => none
  | ⟨_, none⟩ => none

theorem lastFlushLog_some {run : List (Event × Sys)} {s : Status} {stale : Bool}
    (h : lastFlushLog run = some (s, stale)) : ∃ w db db' w' env',
      lastState Sys.init run = ⟨w, some db⟩ ∧ db.persistent = true ∧
      db.flush faultyEnv.callFaults [] w = .done (s, db') w' env' ∧
      (LogStale w' ↔ stale = true) := by
  unfold lastFlushLog at h
  split at h
  · split at h
    · split at h
      · obtain ⟨rfl, rfl⟩ := Prod.mk.inj (Option.some.inj h)
        exact ⟨_, _, _, _, _, ‹_›, ‹_›, ‹_›, by simp⟩
      · exact absurd h (by simp)
    · exact absurd h (by simp)
  · exact absurd h (by simp)

/-- A Put, then a flush. -/
theorem flush_log_fresh_iff_put : ∃ run w db db' w' env',
    Runs (Step faultyEnv) .init run ∧ lastState .init run = ⟨w, some db⟩ ∧
    db.flush faultyEnv.callFaults [] w = .done (Status.OK, db') w' env' ∧
    (LogDropped db w → ¬ LogStale w') ∧
      (faultyEnv.Sound → faultyEnv.mode = .process → CountersFit .flush db →
        (¬ LogStale w' ↔ 0 < db.pending ∨ loggedRecords w = [])) := by
  have hcalc : (runScript faultyEnv putScript .init).bind lastFlushLog =
      some (Status.OK, false) := by decide +kernel
  obtain ⟨run, hrun, hflush⟩ := Option.bind_eq_some_iff.mp hcalc
  obtain ⟨w, db, db', w', env', hlast, hp, hflush, -⟩ := lastFlushLog_some hflush
  have h := runScript_runs hrun
  exact ⟨run, w, db, db', w', env', h, hlast, hflush,
    flush_log_fresh_iff h hlast hp hflush rfl⟩

/-- A Put, a flush that publishes its table and then cannot open the new segment,
    and a second flush, which returns OK. -/
theorem retried_flush_leaves_log : ∃ run w db db' w' env',
    Runs (Step faultyEnv) .init run ∧ lastState .init run = ⟨w, some db⟩ ∧
    db.persistent = true ∧ db.flush faultyEnv.callFaults [] w = .done (Status.OK, db') w' env' ∧
    LogStale w' := by
  have hcalc : (runScript faultyEnv retryScript .init).bind lastFlushLog =
      some (Status.OK, true) := by decide +kernel
  obtain ⟨run, hrun, hflush⟩ := Option.bind_eq_some_iff.mp hcalc
  obtain ⟨w, db, db', w', env', hlast, hp, hflush, hstale⟩ := lastFlushLog_some hflush
  exact ⟨run, w, db, db', w', env', runScript_runs hrun, hlast, hp, hflush, hstale.mpr rfl⟩

end PassionProjects.PebbleDB
