/-
  PassionProjects.PebbleDB.Db.LiveKeyCount

  `live_key_count_` against what the database reads.

  `ComputeLiveKeyCount` merges the layers into one map, first sighting wins, and
  counts the keys it maps to a value.  `Put` and `Delete` instead look the key up
  and adjust the counter.  Both count the live keys of the layers.
-/

import Mathlib.Data.Set.Card
import PassionProjects.PebbleDB.Db.AnyFaults
import PassionProjects.PebbleDB.Db.CrashSafety

namespace PassionProjects.PebbleDB

open PassionProjects.Faults
open PassionProjects.Faults.Prog
open PassionProjects.Layers
open PassionProjects.Refinement
open PassionProjects.PebbleDB.Util
open PassionProjects.PebbleDB.Memtable
open PassionProjects.PebbleDB.Manifest

/-- The entry is a value and no tombstone. -/
def MemEntry.isLive (e : MemEntry) : Bool := e.type == .kValue

/-- The keys that a layer holds a value for. -/
def liveKeys (m : EntryLayer) : Set Key := {k | (m k).map MemEntry.isLive = some true}

variable {m : EntryLayer} {db db' : DB} {key : Key}

-- ============================================================================
-- ComputeLiveKeyCount
-- ============================================================================

/-- The merged map keeps what it has and takes the rest from the next layer. -/
theorem getElem?_recordLive (resolved : Std.TreeMap Key Bool) (entries : List Entry) (k : Key) :
    (DB.recordLive resolved entries)[k]? =
      (resolved[k]?).or ((entriesLayer entries k).map MemEntry.isLive) := by
  induction entries generalizing resolved with
  | nil => simp [DB.recordLive, entriesLayer]
  | cons e entries ih =>
      have hcons : DB.recordLive resolved (e :: entries) =
          DB.recordLive (resolved.insertIfNew e.key (e.type == .kValue)) entries := rfl
      rw [hcons, ih, Std.TreeMap.getElem?_insertIfNew]
      by_cases hk : e.key = k
      · subst hk
        have hlayer : entriesLayer (e :: entries) e.key = some ⟨e.sequence, e.type, e.value⟩ := by
          simp [entriesLayer]
        rw [hlayer]
        by_cases hmem : e.key ∈ resolved
        · simp [hmem]
        · simp [hmem, MemEntry.isLive]
      · have hlayer : entriesLayer (e :: entries) k = entriesLayer entries k := by
          simp [entriesLayer, hk]
        have hcmp : ¬ (compare e.key k = .eq ∧ ¬ e.key ∈ resolved) := fun h =>
          hk (Std.compare_eq_iff_eq.mp h.1)
        rw [hlayer, if_neg hcmp]

theorem getElem?_foldl_recordLive (layers : List (List Entry)) (resolved : Std.TreeMap Key Bool)
    (k : Key) : (layers.foldl DB.recordLive resolved)[k]? =
      (resolved[k]?).or ((firstHit (layers.map entriesLayer) k).map MemEntry.isLive) := by
  induction layers generalizing resolved with
  | nil => simp
  | cons entries layers ih =>
      rw [List.foldl_cons, ih, getElem?_recordLive, List.map_cons, firstHit_cons, Option.or_assoc]
      cases entriesLayer entries k <;> rfl

/-- Counting the live keys of a map. -/
theorem length_filter_toList (resolved : Std.TreeMap Key Bool) :
    {k : Key | resolved[k]? = some true}.Finite ∧
      (resolved.toList.filter fun p => p.2).length =
      {k : Key | resolved[k]? = some true}.ncard := by
  let keys := (resolved.toList.filter fun p => p.2).map Prod.fst
  have hnodup : keys.Nodup := by
    refine List.Pairwise.map _ (fun a b h => ?_)
      (resolved.distinct_keys_toList.filter fun p => p.2)
    exact fun heq => h (Std.compare_eq_iff_eq.mpr heq)
  have hmem : {k : Key | resolved[k]? = some true} = (keys.toFinset : Set Key) := by
    ext k
    simp [keys, Std.TreeMap.mem_toList_iff_getElem?_eq_some]
  rw [hmem]
  refine ⟨keys.toFinset.finite_toSet, ?_⟩
  rw [Set.ncard_coe_finset, List.toFinset_card_of_nodup hnodup, List.length_map]

/-- What `ComputeLiveKeyCount` merges its layers into. -/
def DB.mergedLive (memtables : MemTableList) (tables : List TableReader) : Std.TreeMap Key Bool :=
  ((memtables.active :: memtables.immutables).map MemTable.entries ++
    tables.reverse.map fun t => t.forEachEntry.1).foldl DB.recordLive ∅

theorem length_filter_mergedLive (memtables : MemTableList) (tables : List TableReader) :
    (liveKeys (firstHit (memtables.layers ++ tables.reverse.map TableReader.layer))).Finite ∧
      ((DB.mergedLive memtables tables).toList.filter fun p => p.2).length =
        (liveKeys (firstHit (memtables.layers ++ tables.reverse.map TableReader.layer))).ncard := by
  let layers := (memtables.active :: memtables.immutables).map MemTable.entries ++
    tables.reverse.map fun t => t.forEachEntry.1
  have hlayers : layers.map entriesLayer =
      memtables.layers ++ tables.reverse.map TableReader.layer := by
    have hmem : entriesLayer ∘ MemTable.entries = MemTable.layer := funext entriesLayer_entries
    have htab : entriesLayer ∘ (fun t : TableReader => t.forEachEntry.1) = TableReader.layer := rfl
    rw [List.map_append, List.map_map, List.map_map, hmem, htab]
    rfl
  have hlive : {k : Key | (layers.foldl DB.recordLive ∅)[k]? = some true} =
      liveKeys (firstHit (memtables.layers ++ tables.reverse.map TableReader.layer)) := by
    ext k
    rw [Set.mem_ofPred_eq, getElem?_foldl_recordLive, hlayers, Std.TreeMap.getElem?_emptyc,
      Option.none_or]
    rfl
  rw [← hlive]
  exact length_filter_toList _

/-- `ComputeLiveKeyCount` counts the live keys of the layers it is given. -/
theorem computeLiveKeyCount_eq (memtables : MemTableList) (tables : List TableReader) :
    (liveKeys (firstHit (memtables.layers ++ tables.reverse.map TableReader.layer))).Finite ∧
      DB.computeLiveKeyCount memtables tables = UInt64.ofNat
        (liveKeys (firstHit (memtables.layers ++ tables.reverse.map TableReader.layer))).ncard := by
  obtain ⟨hfinite, hcount⟩ := length_filter_mergedLive memtables tables
  exact ⟨hfinite, congrArg UInt64.ofNat hcount⟩

theorem liveKeys_finite (db : DB) : (liveKeys (firstHit db.layers)).Finite :=
  (computeLiveKeyCount_eq db.memtables db.tables).1

-- ============================================================================
-- Put and Delete
-- ============================================================================

theorem mem_liveKeys_iff : key ∈ liveKeys m ↔ ∃ value, valueMap m key = some value := by
  unfold liveKeys valueMap
  rw [Set.mem_ofPred_eq]
  cases m key with
  | none => simp
  | some e =>
      obtain ⟨sequence, type, value⟩ := e
      cases type <;> simp [MemEntry.isLive, MemEntry.value?]

theorem liveKeys_setLayer (m : EntryLayer) (key : Key) (e : MemEntry) :
    liveKeys (setLayer m key e) =
      if MemEntry.isLive e then insert key (liveKeys m) else liveKeys m \ {key} := by
  ext k
  by_cases hk : k = key
  · subst hk
    by_cases hlive : MemEntry.isLive e = true
    · simp [liveKeys, setLayer, hlive]
    · simp [liveKeys, setLayer, hlive]
  · by_cases hlive : MemEntry.isLive e = true
    · simp [liveKeys, setLayer, hlive, hk]
    · simp [liveKeys, setLayer, hlive, hk]

/-- With complete tables a key is live when the lookup says so. -/
theorem isKeyCurrentlyLive_iff (h : db.Complete) :
    db.isKeyCurrentlyLive key = true ↔ key ∈ liveKeys (firstHit db.layers) := by
  obtain ⟨ts, hts⟩ := h
  rw [DB.isKeyCurrentlyLive, resolve_eq_answer hts, liveKeys, Set.mem_ofPred_eq]
  cases firstHit db.layers key with
  | none => simp [answer]
  | some e =>
      obtain ⟨sequence, type, value⟩ := e
      cases type <;> simp [answer, LookupResult.ofEntry, MemEntry.isLive]

/-- The counter counts the live keys, modulo the width of `size_t`. -/
structure Counted (db : DB) : Prop where
  complete : db.Complete
  count : db.liveKeyCount = UInt64.ofNat (liveKeys (firstHit db.layers)).ncard

theorem Counted.congr (h : Counted db) (hr : SameReads db db') : Counted db' :=
  ⟨hr.complete h.complete, by rw [hr.count, hr.map, h.count]⟩

theorem Counted.applyPut (h : Counted db) (key : Key) (value : Value) (sequence : UInt64) :
    Counted (db.applyPut key value sequence) := by
  have hkeys : liveKeys (firstHit (db.applyPut key value sequence).layers) =
      insert key (liveKeys (firstHit db.layers)) := by
    rw [(wrote_applyPut db key value sequence).layers, liveKeys_setLayer]
    rfl
  refine ⟨h.complete, ?_⟩
  rw [hkeys]
  show (if db.isKeyCurrentlyLive key then db.liveKeyCount else db.liveKeyCount + 1) = _
  by_cases hlive : db.isKeyCurrentlyLive key = true
  · rw [if_pos hlive, Set.insert_eq_of_mem ((isKeyCurrentlyLive_iff h.complete).mp hlive), h.count]
  · rw [if_neg hlive, Set.ncard_insert_of_notMem
      (fun hmem => hlive ((isKeyCurrentlyLive_iff h.complete).mpr hmem)) (liveKeys_finite db),
      h.count, UInt64.ofNat_add]
    rfl

theorem Counted.applyDelete (h : Counted db) (key : Key) (sequence : UInt64) :
    Counted (db.applyDelete key sequence) := by
  have hkeys : liveKeys (firstHit (db.applyDelete key sequence).layers) =
      liveKeys (firstHit db.layers) \ {key} := by
    rw [(wrote_applyDelete db key sequence).layers, liveKeys_setLayer]
    rfl
  refine ⟨h.complete, ?_⟩
  rw [hkeys]
  show (if db.isKeyCurrentlyLive key then db.liveKeyCount - 1 else db.liveKeyCount) = _
  by_cases hlive : db.isKeyCurrentlyLive key = true
  · -- the key counts once among the live keys, so the counter is not taken below zero
    have hmem := (isKeyCurrentlyLive_iff h.complete).mp hlive
    have hcard := Set.ncard_sdiff_singleton_add_one hmem (liveKeys_finite db)
    rw [if_pos hlive, h.count, ← hcard, UInt64.ofNat_add]
    exact UInt64.add_sub_cancel _ _
  · have hmem : key ∉ liveKeys (firstHit db.layers) := fun hmem =>
      hlive ((isKeyCurrentlyLive_iff h.complete).mpr hmem)
    rw [if_neg hlive, Set.sdiff_singleton_eq_self hmem, h.count]

theorem Counted.write (h : Counted db) (op : Op) (sequence : UInt64) :
    Counted (op.write db sequence) := by
  cases op with
  | put key value => exact h.applyPut key value sequence
  | delete key => exact h.applyDelete key sequence
  | flush => exact h

theorem CallEnd.counted {op : Op} {w' : World} (h : CallEnd op db db' w') (hdb : Counted db) :
    Counted db' := by
  rcases h.reads with hr | ⟨db₁, hr₁, hr⟩
  · exact hdb.congr hr
  · exact ((hdb.congr hr₁).write op _).congr hr

-- ============================================================================
-- Opening
-- ============================================================================

/-- An open that returned a DB has complete tables and has counted their keys. -/
def Seeded (r : Except Status DB) : Prop := ∀ db, r = .ok db → Counted db

theorem returns_openReader (n : UInt64) : Returns
    (fun r => ∀ reader, r = .ok reader → ∃ entries, reader = TableReader.complete entries)
    (TableReader.openReader n) := by
  refine returns_bind (returns_any _) fun contents _ => ?_
  match contents with
  | .error s => exact returns_pure fun reader hr => absurd hr (by simp)
  | .ok (.bytes b) => exact returns_pure fun reader hr => absurd hr (by simp)
  | .ok .unfinished => exact returns_pure fun reader hr => absurd hr (by simp)
  | .ok (.table entries) => exact returns_pure fun reader hr => ⟨entries, (Except.ok.inj hr).symm⟩

theorem returns_openTables (tables : List TableFileInfo) : Returns
    (fun r => ∀ readers, r = .ok readers →
      ∃ ts : List (List Entry), readers = ts.map TableReader.complete)
    (DB.openTables tables) := by
  induction tables with
  | nil => exact returns_pure fun readers hr => ⟨[], (Except.ok.inj hr).symm⟩
  | cons table rest ih =>
      refine returns_bind (returns_openReader _) fun opened hopened => ?_
      cases opened with
      | error s => exact returns_pure fun readers hr => absurd hr (by simp)
      | ok reader =>
          obtain ⟨entries, rfl⟩ := hopened reader rfl
          refine returns_bind ih fun others hothers => ?_
          cases others with
          | error s => exact returns_pure fun readers hr => absurd hr (by simp)
          | ok readers =>
              obtain ⟨ts, rfl⟩ := hothers readers rfl
              exact returns_pure fun readers hr => ⟨entries :: ts, (Except.ok.inj hr).symm⟩

theorem counted_recovered {options : Options} {md : ManifestData} {ts : List (List Entry)}
    {active : MemTable} {writer : Wal.Writer} {walNumber next maxSequence : UInt64} :
    Counted (DB.recovered options md (ts.map TableReader.complete) active writer walNumber next
      maxSequence) :=
  ⟨⟨ts, rfl⟩, (computeLiveKeyCount_eq _ _).2⟩

theorem returns_recoverFrom (options : Options) (md : ManifestData) :
    Returns Seeded (DB.recoverFrom options md) := by
  have herror (s : Status) : Seeded (.error s) := fun db hr => absurd hr (by simp)
  have hok {db : DB} (h : Counted db) : Seeded (.ok db) := fun db' hr => Except.ok.inj hr ▸ h
  refine returns_bind (returns_openTables md.tables) fun opened hopened => ?_
  cases opened with
  | error s => exact returns_pure (herror s)
  | ok tables =>
      obtain ⟨ts, rfl⟩ := hopened tables rfl
      show Returns Seeded (if _ then DB.recoverWal options md _ else _)
      split
      · refine returns_bind (returns_any _) fun contents _ => ?_
        match contents with
        | .error s => exact returns_pure (herror s)
        | .ok (.table entries) => exact returns_pure (herror _)
        | .ok .unfinished => exact returns_pure (herror _)
        | .ok (.bytes b) =>
            show Returns Seeded (if _ then _ else _)
            split
            · exact returns_pure (herror _)
            · refine returns_bind (returns_any _) fun s _ => ?_
              show Returns Seeded (if s.ok then _ else _)
              split
              · refine returns_bind (returns_any _) fun opened _ => ?_
                cases opened with
                | error s => exact returns_pure (herror s)
                | ok writer => exact returns_pure (hok counted_recovered)
              · exact returns_pure (herror s)
      · refine returns_bind (returns_any _) fun opened _ => ?_
        cases opened with
        | error s => exact returns_pure (herror s)
        | ok writer =>
            refine returns_bind (returns_any _) fun r _ => ?_
            show Returns Seeded (if r.1.ok then _ else _)
            split
            · exact returns_pure (hok counted_recovered)
            · exact returns_pure (herror _)

theorem returns_openDb (options : Options) : Returns Seeded (DB.openDb options) := by
  refine returns_bind (returns_any _) fun loaded _ => ?_
  cases loaded with
  | ok md => exact returns_recoverFrom options md
  | error s =>
      show Returns Seeded (if s.isNotFound then _ else _)
      split
      · exact returns_recoverFrom options {}
      · exact returns_pure fun db hr => absurd hr (by simp)

theorem counted_inMemory (options : Options) : Counted (.inMemory options) := by
  refine ⟨⟨[], rfl⟩, ?_⟩
  have hlive : liveKeys (firstHit (DB.inMemory options).layers) = ∅ := by
    ext k
    simp [liveKeys, DB.layers, DB.inMemory, MemTableList.layers, MemTableList.new, firstHit_cons]
  rw [hlive, Set.ncard_empty]
  rfl

-- ============================================================================
-- Every reached state
-- ============================================================================

theorem Reached.counted {s : Sys} (h : Reached s) : ∀ db, s.proc = some db → Counted db := by
  induction h with
  | inMemory options _ _ => exact fun db hdb => Option.some.inj hdb ▸ counted_inMemory options
  | opened _ hrun _ =>
      exact fun db hdb => Option.some.inj hdb ▸ wp_done (returns_openDb _ _ _) hrun _ rfl
  | returned h hrun ih =>
      intro db hdb
      obtain rfl := Option.some.inj hdb
      exact (wp_done (run_end h.tidy) hrun).counted (ih _ rfl)
  | init => exact fun db hdb => absurd hdb (by simp [Sys.init])
  | openFailed => exact fun db hdb => absurd hdb (by simp)
  | openCrashed => exact fun db hdb => absurd hdb (by simp)
  | crashed => exact fun db hdb => absurd hdb (by simp)
  | stopped => exact fun db hdb => absurd hdb (by simp)

/-- The counter is the number of keys for which `Get` returns OK, and what
    `ComputeLiveKeyCount` would return. -/
theorem liveKeyCount_eq_count {w : World} (h : Reached ⟨w, some db⟩) :
    {key | ∃ value, db.get key = .ok value}.Finite ∧
      db.liveKeyCount = UInt64.ofNat {key | ∃ value, db.get key = .ok value}.ncard ∧
      db.liveKeyCount = DB.computeLiveKeyCount db.memtables db.tables := by
  have hcounted := h.counted db rfl
  obtain ⟨ts, hts⟩ := hcounted.complete
  have hget : {key | ∃ value, db.get key = .ok value} = liveKeys (firstHit db.layers) := by
    ext key
    rw [Set.mem_ofPred_eq, get_eq_valueMap hts, mem_liveKeys_iff]
    cases valueMap (firstHit db.layers) key with
    | none => simp
    | some value => simp
  obtain ⟨hfinite, hcompute⟩ := computeLiveKeyCount_eq db.memtables db.tables
  rw [hget]
  exact ⟨hfinite, hcounted.count, hcounted.count.trans hcompute.symm⟩

/-- Writes, a tombstone, a flush that fails before its manifest is renamed, and a
    second process. -/
def countScript : List Action :=
  [.start {} [] [], .call (.put [97] [1]) [] [], .call (.put [98] [2]) [] [],
    .call (.delete [97]) [] [],
    .call .flush [.none, .none, .none, .none, .none, .none, .none, .none, .error 0] [],
    .call (.put [99] [3]) [] [], .halt [], .start {} [] []]

theorem liveKeyCount_eq_count_countScript : ∃ w db, Reached ⟨w, some db⟩ ∧
    db.liveKeyCount = 2 ∧
    {key | ∃ value, db.get key = .ok value}.Finite ∧
    db.liveKeyCount = UInt64.ofNat {key | ∃ value, db.get key = .ok value}.ncard ∧
    db.liveKeyCount = DB.computeLiveKeyCount db.memtables db.tables := by
  have hcalc : ((runScript faultyEnv countScript .init).bind fun run =>
      (lastState Sys.init run).proc.map DB.liveKeyCount) = some 2 := by decide +kernel
  obtain ⟨run, hrun, hcalc⟩ := Option.bind_eq_some_iff.mp hcalc
  obtain ⟨db, hdb, hcount⟩ := Option.map_eq_some_iff.mp hcalc
  have hreached : Reached ⟨(lastState Sys.init run).world, some db⟩ :=
    hdb ▸ Reached.init.runs (runScript_runs hrun)
  exact ⟨_, db, hreached, hcount, liveKeyCount_eq_count hreached⟩

end PassionProjects.PebbleDB
