/-
  PassionProjects.PebbleDB.Db.CounterUnderflow

  `live_key_count_` when data blocks cannot be read.

  The counter is seeded by what `ForEachEntry` passes on and lowered for keys
  that a lookup finds.  It stays at or above the number of keys a lookup finds
  (`Covers`), provided that it starts there: no key that a lookup finds when the
  DB is opened may lie behind an unreadable block of its table.
-/

import PassionProjects.PebbleDB.Db.LiveKeyCount
import PassionProjects.PebbleDB.Db.UnreadableBlocks

namespace PassionProjects.PebbleDB

open PassionProjects.Faults
open PassionProjects.Faults.Prog
open PassionProjects.FileSystem
open PassionProjects.Layers
open PassionProjects.Refinement
open PassionProjects.PebbleDB.Memtable

/-- An open DB and the blocks of its tables. -/
structure BlockDb where
  world : World
  db : DB
  tables : List BlockTable
  agrees : db.tables = tables.map BlockTable.reader

/-- The DB that `Recover` hands out when its tables are these: it has read them only
    to count. -/
def DB.onTables (db : DB) (tables : List BlockTable) : DB := { db with
  tables := tables.map BlockTable.reader
  liveKeyCount := DB.computeLiveKeyCount db.memtables (tables.map BlockTable.reader) }

/-- A DB that was just opened, on tables some of whose blocks cannot be read.  Its
    directory is as earlier processes can leave it (`Reached.tidy`). -/
inductive JustOpened : BlockDb → Prop where
  | mk {w w' : World} {options : Options} {pol : Policy FsOp World} {env env' : List Fault}
      {db : DB} {tables : List BlockTable} (htidy : Tidy w)
      (hrun : DB.openDb options pol env w = .done (.ok db) w' env')
      (htables : db.tables = tables.map fun t => .complete t.entries) :
      JustOpened ⟨w', db.onTables tables, tables, rfl⟩

/-- A call that returns, whatever fails in it, and blocks that become unreadable. -/
inductive BlockStep : Steps BlockDb (Option Op) where
  | call {s : BlockDb} {op : Op} {pol : Policy FsOp World} {env env' : List Fault} {status : Status}
      {db' : DB} {w' : World} {new : List BlockTable}
      (hrun : op.run s.db pol env s.world = .done (status, db') w' env')
      (htables : db'.tables = (s.tables ++ new).map BlockTable.reader)
      (hintact : ∀ t ∈ new, t.Intact) :
      BlockStep s (some op) ⟨w', db', s.tables ++ new, htables⟩
  | damage {s : BlockDb} {tables : List BlockTable}
      (h : List.Forall₂ BlockTable.Damaged s.tables tables) :
      BlockStep s none ⟨s.world, { s.db with tables := tables.map BlockTable.reader }, tables, rfl⟩

/-- The keys that a lookup finds live. -/
def DB.foundLive (db : DB) : Set Key := {key | db.isKeyCurrentlyLive key = true}

/-- The keys that `ComputeLiveKeyCount` counts. -/
def DB.countedLive (db : DB) : Set Key := liveKeys (firstHit db.layers)

/-- A `Delete` of the key decrements the counter, and the counter is zero. -/
def DB.DecrementsAtZero (db : DB) (key : Key) : Prop :=
  db.isKeyCurrentlyLive key = true ∧ db.liveKeyCount = 0

variable {db db' : DB} {w : World} {key : Key} {s s' : BlockDb}

-- ============================================================================
-- Every call is a step
-- ============================================================================

theorem lt_of_compare {a b : Key} (h : compare a b = .lt) : a < b := by
  induction a generalizing b with
  | nil =>
      cases b with
      | nil => exact absurd h (by decide)
      | cons y ys => exact List.nil_lt_cons y ys
  | cons x xs ih =>
      cases b with
      | nil => exact absurd h (by rw [List.compare_cons_nil]; decide)
      | cons y ys =>
          rw [List.compare_cons_cons, Ordering.then_eq_lt] at h
          rcases h with hxy | ⟨hxy, hrest⟩
          · exact List.cons_lt_cons_iff.mpr (Or.inl (Std.compare_eq_lt.mp hxy))
          · exact List.cons_lt_cons_iff.mpr (Or.inr ⟨Std.compare_eq_iff_eq.mp hxy, ih hrest⟩)

theorem sorted_entries (m : MemTable) : Sstable.Sorted m.entries := by
  refine List.pairwise_map.mpr ?_
  exact m.table.ordered_keys_toList.imp fun h => lt_of_compare h

/-- A table with the entries of a MemTable, every entry in a block of its own. -/
def BlockTable.ofMemTable (m : MemTable) : BlockTable where
  blocks := m.entries.map fun e => ⟨[e], none⟩
  filter _ := true
  nonempty b hb := by
    obtain ⟨e, -, rfl⟩ := List.mem_map.mp hb
    exact List.cons_ne_nil _ _
  sorted := by simpa [List.flatMap_map] using sorted_entries m
  passes _ _ := rfl

theorem exists_blockStep {op : Op} {pol : Policy FsOp World} {env env' : List Fault}
    {status : Status} {w' : World} (hw : Tidy s.world)
    (hrun : op.run s.db pol env s.world = .done (status, db') w' env') :
    ∃ new h, BlockStep s (some op) ⟨w', db', s.tables ++ new, h⟩ := by
  obtain ⟨ms, hms⟩ : ∃ ms : List MemTable,
      db'.tables = s.db.tables ++ ms.map fun m => TableReader.complete m.entries := by
    rcases (wp_done (run_end hw) hrun).reads with hr | ⟨db₁, hr₁, hr⟩
    · exact hr.flushed
    · obtain ⟨ms₁, h₁⟩ := hr₁.flushed
      obtain ⟨ms, h⟩ := hr.flushed
      have hwrite : (op.write db₁ s.db.nextSequence).tables = db₁.tables := by cases op <;> rfl
      refine ⟨ms₁ ++ ms, ?_⟩
      show db'.tables = _
      rw [h, hwrite, h₁, List.map_append, List.append_assoc]
  have hintact (m : MemTable) : (BlockTable.ofMemTable m).Intact := fun b hb => by
    obtain ⟨e, -, rfl⟩ := List.mem_map.mp hb
    rfl
  have hreader (m : MemTable) :
      (BlockTable.ofMemTable m).reader = TableReader.complete m.entries := by
    rw [(hintact m).reader]
    simp [BlockTable.entries, BlockTable.ofMemTable, List.flatMap_map]
  have htables : db'.tables =
      (s.tables ++ ms.map BlockTable.ofMemTable).map BlockTable.reader := by
    rw [hms, s.agrees, List.map_append, List.map_map]
    exact congrArg _ (List.map_congr_left fun m _ => (hreader m).symm)
  refine ⟨ms.map BlockTable.ofMemTable, htables, .call hrun htables fun t ht => ?_⟩
  obtain ⟨m, -, rfl⟩ := List.mem_map.mp ht
  exact hintact m

-- ============================================================================
-- What a lookup finds
-- ============================================================================

theorem foundLive_eq (h : ∀ key, db'.resolve key = db.resolve key) :
    db'.foundLive = db.foundLive := by
  ext key
  show db'.isKeyCurrentlyLive key = true ↔ db.isKeyCurrentlyLive key = true
  rw [DB.isKeyCurrentlyLive, DB.isKeyCurrentlyLive, h]

/-- A write decides about its key, whatever the tables answer, and about no other. -/
theorem foundLive_wrote {e : MemEntry} (h : Wrote db db' key e) :
    db'.foundLive =
      if MemEntry.isLive e then insert key db.foundLive else db.foundLive \ {key} := by
  have hmem (k : Key) : db'.memtables.get k = answer (if k = key then some e else
      firstHit db.memtables.layers k) := by
    rw [MemTableList.get, getFrom_eq_answer, List.map_cons, firstHit_cons, h.active,
      h.immutables, setLayer]
    by_cases hk : k = key
    · simp [hk]
    · simp [hk, MemTableList.layers, firstHit_cons]
  have hkey : key ∈ db'.foundLive ↔ MemEntry.isLive e = true := by
    show db'.isKeyCurrentlyLive key = true ↔ _
    rw [DB.isKeyCurrentlyLive, DB.resolve, hmem, if_pos rfl]
    obtain ⟨sequence, type, value⟩ := e
    cases type <;> simp [answer, LookupResult.ofEntry, MemEntry.isLive]
  have hother (k : Key) (hk : k ≠ key) : k ∈ db'.foundLive ↔ k ∈ db.foundLive := by
    have hsame : db'.memtables.get k = db.memtables.get k := by
      rw [hmem, if_neg hk, MemTableList.get, getFrom_eq_answer]
      rfl
    show db'.isKeyCurrentlyLive k = true ↔ db.isKeyCurrentlyLive k = true
    rw [DB.isKeyCurrentlyLive, DB.isKeyCurrentlyLive, DB.resolve, DB.resolve, hsame, h.tables]
  ext k
  by_cases hk : k = key
  · subst hk
    rw [hkey]
    by_cases hlive : MemEntry.isLive e = true
    · simp [hlive]
    · simp [hlive]
  · rw [hother k hk]
    by_cases hlive : MemEntry.isLive e = true
    · simp [hlive, hk]
    · simp [hlive, hk]

/-- Tables that answer less let fewer keys be found. -/
theorem foundLive_subset (hmem : db'.memtables = db.memtables)
    (htables : List.Forall₂ (fun r r' : TableReader => ∀ key,
      r'.get key = r.get key ∨ ∃ s, r'.get key = .error s) db.tables db'.tables) :
    db'.foundLive ⊆ db.foundLive := by
  have htablesGet (k : Key) : DB.tablesGet db'.tables.reverse k = DB.tablesGet db.tables.reverse k ∨
      ∃ s, DB.tablesGet db'.tables.reverse k = .error s := by
    have hreverse := List.rel_reverse htables
    generalize db.tables.reverse = rs at hreverse
    generalize db'.tables.reverse = rs' at hreverse
    induction hreverse with
    | nil => exact Or.inl rfl
    | @cons r r' rs rs' hr _ ih =>
        unfold DB.tablesGet
        rcases hr k with hsame | ⟨s, herror⟩
        · rw [hsame]
          cases r.get k with
          | error s => exact Or.inl rfl
          | ok result =>
              cases result with
              | kNotFound => exact ih
              | kFound value sequence => exact Or.inl rfl
              | kDeleted sequence => exact Or.inl rfl
        · rw [herror]
          exact Or.inr ⟨s, rfl⟩
  intro k hk
  have hk : db'.isKeyCurrentlyLive k = true := hk
  show db.isKeyCurrentlyLive k = true
  unfold DB.isKeyCurrentlyLive DB.resolve at hk ⊢
  rw [hmem] at hk
  cases hget : db.memtables.get k with
  | kFound value sequence => rfl
  | kDeleted sequence => simp [hget] at hk
  | kNotFound =>
      rw [hget] at hk
      rcases htablesGet k with hsame | ⟨s, herror⟩
      · simpa [hsame] using hk
      · simp [herror] at hk

theorem foundLive_damaged {tables tables' : List BlockTable} {count count' : UInt64}
    (h : List.Forall₂ BlockTable.Damaged tables tables') :
    { db with tables := tables'.map BlockTable.reader, liveKeyCount := count' }.foundLive ⊆
      { db with tables := tables.map BlockTable.reader, liveKeyCount := count }.foundLive :=
  foundLive_subset rfl (List.forall₂_map_left_iff.mpr (List.forall₂_map_right_iff.mpr
    (h.imp fun _ _ hd => hd.get)))

/-- Only keys that the intact tables or the MemTables hold can be found. -/
theorem foundLive_finite (db : DB) (tables : List BlockTable) :
    (db.onTables tables).foundLive.Finite := by
  let full : DB := { db with tables := (tables.map BlockTable.repaired).map BlockTable.reader }
  have hcomplete : full.Complete := by
    refine ⟨tables.map BlockTable.entries, ?_⟩
    show (tables.map BlockTable.repaired).map BlockTable.reader = _
    rw [List.map_map, List.map_map]
    refine List.map_congr_left fun t _ => ?_
    show t.repaired.reader = .complete t.entries
    rw [t.intact_repaired.reader, t.entries_repaired]
  have hlive : full.foundLive = liveKeys (firstHit full.layers) := by
    ext k
    exact isKeyCurrentlyLive_iff hcomplete
  refine Set.Finite.subset (hlive ▸ liveKeys_finite full) (foundLive_damaged ?_)
  exact List.forall₂_map_left_iff.mpr (List.forall₂_same.mpr fun t _ => t.damaged_repaired)

-- ============================================================================
-- The counter covers what is found
-- ============================================================================

/-- The counter is at least the number of the keys that a lookup finds, and at most
    `n`. -/
structure Covers (n : Nat) (db : DB) : Prop where
  finite : db.foundLive.Finite
  covers : db.foundLive.ncard ≤ db.liveKeyCount.toNat
  bound : db.liveKeyCount.toNat ≤ n

variable {n : Nat}

theorem Covers.mono {m : Nat} (h : Covers n db) (hle : n ≤ m) : Covers m db :=
  ⟨h.finite, h.covers, h.bound.trans hle⟩

theorem Covers.congr (h : Covers n db) (hr : SameReads db db') : Covers n db' := by
  have hfound := foundLive_eq hr.resolve
  exact ⟨hfound ▸ h.finite, by rw [hfound, hr.count]; exact h.covers, hr.count ▸ h.bound⟩

/-- A key that is found is counted, so the counter is not zero. -/
theorem Covers.pos (h : Covers n db) (hkey : key ∈ db.foundLive) : 0 < db.liveKeyCount.toNat := by
  have hpos := (Set.ncard_pos h.finite).mpr ⟨key, hkey⟩
  exact lt_of_lt_of_le hpos h.covers

theorem Covers.not_decrementsAtZero (h : Covers n db) (key : Key) : ¬ db.DecrementsAtZero key := by
  rintro ⟨hkey, hzero⟩
  have hpos := h.pos hkey
  rw [hzero] at hpos
  exact absurd hpos (by decide)

theorem Covers.applyPut (h : Covers n db) (hn : n + 1 < 2 ^ 64) (key : Key) (value : Value)
    (sequence : UInt64) : Covers (n + 1) (db.applyPut key value sequence) := by
  have hfound : (db.applyPut key value sequence).foundLive = insert key db.foundLive :=
    foundLive_wrote (wrote_applyPut db key value sequence)
  have hcount : (db.applyPut key value sequence).liveKeyCount =
      if db.isKeyCurrentlyLive key then db.liveKeyCount else db.liveKeyCount + 1 := rfl
  have hbound := h.bound
  have hcovers := h.covers
  by_cases hlive : db.isKeyCurrentlyLive key = true
  · rw [if_pos hlive] at hcount
    rw [Set.insert_eq_of_mem (show key ∈ db.foundLive from hlive)] at hfound
    exact ⟨hfound ▸ h.finite, by rw [hfound, hcount]; exact hcovers, by rw [hcount]; omega⟩
  · rw [if_neg hlive] at hcount
    have hnext : (db.liveKeyCount + 1).toNat = db.liveKeyCount.toNat + 1 := by
      rw [UInt64.toNat_add, UInt64.toNat_one, Nat.mod_eq_of_lt (by omega)]
    refine ⟨hfound ▸ h.finite.insert key, ?_, ?_⟩
    · rw [hfound, hcount, hnext, Set.ncard_insert_of_notMem (show key ∉ db.foundLive from hlive)
        h.finite]
      omega
    · rw [hcount, hnext]
      omega

theorem Covers.applyDelete (h : Covers n db) (key : Key) (sequence : UInt64) :
    Covers n (db.applyDelete key sequence) := by
  have hfound : (db.applyDelete key sequence).foundLive = db.foundLive \ {key} :=
    foundLive_wrote (wrote_applyDelete db key sequence)
  have hcount : (db.applyDelete key sequence).liveKeyCount =
      if db.isKeyCurrentlyLive key then db.liveKeyCount - 1 else db.liveKeyCount := rfl
  have hbound := h.bound
  have hcovers := h.covers
  by_cases hlive : db.isKeyCurrentlyLive key = true
  · -- the key is one of those that the counter covers
    have hpos := h.pos (show key ∈ db.foundLive from hlive)
    have hone : (1 : UInt64) ≤ db.liveKeyCount := UInt64.le_iff_toNat_le.mpr hpos
    have hprev : (db.liveKeyCount - 1).toNat = db.liveKeyCount.toNat - 1 :=
      UInt64.toNat_sub_of_le _ _ hone
    have hcard := Set.ncard_sdiff_singleton_add_one (show key ∈ db.foundLive from hlive) h.finite
    rw [if_pos hlive] at hcount
    refine ⟨hfound ▸ h.finite.sdiff, ?_, ?_⟩
    · rw [hfound, hcount, hprev]
      omega
    · rw [hcount, hprev]
      omega
  · rw [if_neg hlive] at hcount
    rw [Set.sdiff_singleton_eq_self (show key ∉ db.foundLive from hlive)] at hfound
    exact ⟨hfound ▸ h.finite, by rw [hfound, hcount]; exact hcovers, by rw [hcount]; exact hbound⟩

theorem Covers.write (h : Covers n db) (hn : n + 1 < 2 ^ 64) (op : Op) (sequence : UInt64) :
    Covers (n + 1) (op.write db sequence) := by
  cases op with
  | put key value => exact h.applyPut hn key value sequence
  | delete key => exact (h.applyDelete key sequence).mono (Nat.le_succ n)
  | flush => exact h.mono (Nat.le_succ n)

/-- The directory is in order and the counter covers what is found. -/
structure Safe (n : Nat) (s : BlockDb) : Prop where
  tidy : Tidy s.world
  covers : Covers n s.db

theorem Safe.step {label : Option Op} (h : Safe n s) (hn : n + 1 < 2 ^ 64)
    (hstep : BlockStep s label s') : Safe (n + 1) s' := by
  cases hstep with
  | call hrun htables hintact =>
      have hend := wp_done (run_end h.tidy) hrun
      refine ⟨hend.tidy, ?_⟩
      rcases hend.reads with hr | ⟨db₁, hr₁, hr⟩
      · exact (h.covers.congr hr).mono (Nat.le_succ n)
      · exact ((h.covers.congr hr₁).write hn _ _).congr hr
  | @damage s tables hdamaged =>
      have hsub : { s.db with tables := tables.map BlockTable.reader }.foundLive ⊆
          s.db.foundLive := by
        refine foundLive_subset rfl ?_
        rw [s.agrees]
        exact List.forall₂_map_left_iff.mpr (List.forall₂_map_right_iff.mpr
          (hdamaged.imp fun _ _ hd => hd.get))
      have hcard := Set.ncard_le_ncard hsub h.covers.finite
      exact ⟨h.tidy, h.covers.finite.subset hsub, hcard.trans h.covers.covers,
        h.covers.bound.trans (Nat.le_succ n)⟩

theorem Safe.runs {run : List (Option Op × BlockDb)} (hrun : Runs BlockStep s run)
    (h : Safe n s) (hn : n + run.length < 2 ^ 64) :
    Safe (n + run.length) (lastState s run) := by
  induction hrun generalizing n with
  | nil => exact h
  | @cons s s' label rest hstep _ ih =>
      rw [List.length_cons] at hn ⊢
      have hnext := ih (h.step (by omega) hstep) (by omega)
      rw [lastState_cons]
      have hlen : n + 1 + rest.length = n + (rest.length + 1) := by omega
      rwa [hlen] at hnext

-- ============================================================================
-- Opening
-- ============================================================================

theorem finite_countedLive (db : DB) : db.countedLive.Finite := liveKeys_finite db

theorem JustOpened.tidy (h : JustOpened s) : Tidy s.world := by
  cases h with
  | mk htidy hrun _ => exact wp_done (preserves_openDb _ _ _ htidy) hrun

theorem JustOpened.safe (h : JustOpened s) (hseed : s.db.foundLive.ncard ≤ s.db.countedLive.ncard)
    (hfit : s.db.countedLive.ncard < 2 ^ 64) : Safe s.db.countedLive.ncard s := by
  refine ⟨h.tidy, ?_⟩
  cases h with
  | @mk w w' options pol env env' db tables htidy hrun htables =>
      have hcount : (db.onTables tables).liveKeyCount.toNat =
          (db.onTables tables).countedLive.ncard := by
        have hseeded : (db.onTables tables).liveKeyCount =
            UInt64.ofNat (db.onTables tables).countedLive.ncard :=
          (computeLiveKeyCount_eq db.memtables (tables.map BlockTable.reader)).2
        rw [hseeded]
        exact UInt64.toNat_ofNat_of_lt hfit
      refine ⟨foundLive_finite db tables, ?_, ?_⟩
      · exact hcount ▸ hseed
      · exact hcount.le

/-- A key that the tables answer and that no block hides is passed on to the count. -/
theorem firstHit_of_tablesGet {tables : List BlockTable} (h : ∀ t ∈ tables, ¬ t.Hides key)
    {value : Value} {sequence : UInt64}
    (hget : DB.tablesGet (tables.map BlockTable.reader) key = .ok (.kFound value sequence)) :
    answer (firstHit ((tables.map BlockTable.reader).map TableReader.layer) key) =
      .kFound value sequence := by
  induction tables with
  | nil => simp [DB.tablesGet] at hget
  | cons t tables ih =>
      have hhead := h t List.mem_cons_self
      have hrest := fun t' ht' => h t' (List.mem_cons_of_mem t ht')
      rw [List.map_cons, DB.tablesGet] at hget
      rw [List.map_cons, List.map_cons, firstHit_cons]
      have hreader : t.reader.get key = t.get key := rfl
      rw [hreader] at hget
      rcases hanswer : t.get key with s | (⟨_, _⟩ | _ | _)
      · simp [hanswer] at hget
      · obtain ⟨b, hblock, hfailure, hlookup⟩ := BlockTable.block_of_get_found hanswer
        have hread : b ∈ t.readFirst := by
          by_contra hmem
          exact hhead ⟨b, hblock, hfailure, hmem⟩
        rw [BlockTable.layer_of_readFirst hblock hread]
        have hlookup : answer (entriesLayer b.entries key) = .kFound _ _ :=
          (lookup_eq_answer b.entries key).symm.trans hlookup
        cases hentry : entriesLayer b.entries key with
        | none => simp [hentry, answer] at hlookup
        | some e =>
            rw [hentry] at hlookup
            rw [Option.some_or, hlookup]
            simpa [hanswer] using hget
      · simp [hanswer] at hget
      · rw [hanswer] at hget
        rw [BlockTable.layer_of_get_notFound hanswer, Option.none_or]
        exact ih hrest hget

theorem isLive_of_answer {o : Option MemEntry} {value : Value} {sequence : UInt64}
    (h : answer o = .kFound value sequence) : o.map MemEntry.isLive = some true := by
  match o with
  | none => simp [answer] at h
  | some ⟨_, .kValue, _⟩ => rfl
  | some ⟨_, .kTombstone, _⟩ => simp [answer, LookupResult.ofEntry] at h

/-- When no block hides a key that is found, every key that is found is counted. -/
theorem foundLive_subset_countedLive
    (h : ∀ key ∈ s.db.foundLive, ∀ t ∈ s.tables, ¬ t.Hides key) :
    s.db.foundLive ⊆ s.db.countedLive := by
  intro key hkey
  have hhides : ∀ t ∈ s.tables.reverse, ¬ t.Hides key := fun t ht =>
    h key hkey t (List.mem_reverse.mp ht)
  have hlive : s.db.isKeyCurrentlyLive key = true := hkey
  show (firstHit s.db.layers key).map MemEntry.isLive = some true
  have hlayers : s.db.layers = s.db.memtables.layers ++
      (s.tables.reverse.map BlockTable.reader).map TableReader.layer := by
    rw [DB.layers, s.agrees, List.map_reverse (f := BlockTable.reader)]
  have hmem : s.db.memtables.get key = answer (firstHit s.db.memtables.layers key) :=
    getFrom_eq_answer _ key
  rw [hlayers, firstHit_append]
  unfold DB.isKeyCurrentlyLive DB.resolve at hlive
  cases hfirst : firstHit s.db.memtables.layers key with
  | some e =>
      rw [Option.some_or]
      rw [hmem, hfirst] at hlive
      obtain ⟨sequence, type, value⟩ := e
      cases type with
      | kValue => rfl
      | kTombstone => simp [answer, LookupResult.ofEntry] at hlive
  | none =>
      rw [Option.none_or]
      rw [hmem, hfirst, s.agrees, ← List.map_reverse] at hlive
      cases hget : DB.tablesGet (s.tables.reverse.map BlockTable.reader) key with
      | error s => simp [answer, hget, -List.map_reverse] at hlive
      | ok result =>
          cases result with
          | kFound value sequence => exact isLive_of_answer (firstHit_of_tablesGet hhides hget)
          | kDeleted sequence => simp [answer, hget, -List.map_reverse] at hlive
          | kNotFound => simp [answer, hget, -List.map_reverse] at hlive

-- ============================================================================
-- No decrement at zero
-- ============================================================================

/-- When a lookup finds no more keys at `Open` than are counted, no `Delete`
    decrements a counter of zero, whichever blocks become unreadable later. -/
theorem delete_not_decrementsAtZero {run : List (Option Op × BlockDb)} (hopened : JustOpened s)
    (hseed : s.db.foundLive.ncard ≤ s.db.countedLive.ncard)
    (hfit : s.db.countedLive.ncard + run.length < 2 ^ 64) (hrun : Runs BlockStep s run)
    (key : Key) : ¬ (lastState s run).db.DecrementsAtZero key :=
  ((hopened.safe hseed (by omega)).runs hrun hfit).covers.not_decrementsAtZero key

/-- A value that fills a data block. -/
def largeValue : Value := List.replicate 4096 1

/-- Two keys in one table, the second in a block of its own. -/
def twoBlocksScript : List Action :=
  [.start {} [] [], .call (.put [97] largeValue) [] [], .call (.put [98] [2]) [] [],
    .call .flush [] [], .halt []]

/-- The table of the script, with the status of each block. -/
def twoBlocks (first second : Option Status) : BlockTable where
  blocks := [⟨[⟨[97], 1, .kValue, largeValue⟩], first⟩, ⟨[⟨[98], 2, .kValue, [2]⟩], second⟩]
  filter _ := true
  nonempty := by simp
  sorted := by simpa [Sstable.Sorted] using (show ([97] : Key) < [98] by decide)
  passes _ _ := rfl

/-- The status of a block whose trailer does not verify. -/
def blockDamaged : Status := Sstable.toStatus .kChecksumMismatch "sstable block"

/-- The DB that the next process opens after a script, on these tables. -/
def reopen (script : List Action) (tables : List BlockTable) : Option BlockDb :=
  (runScript faultyEnv script .init).bind fun run =>
    match DB.openDb {} faultyEnv.openFaults [] (lastState Sys.init run).world with
    | .done (.ok db) w _ =>
      if db.tables.map (fun t => t.forEachEntry.1) = tables.map BlockTable.entries then
        some ⟨w, db.onTables tables, tables, rfl⟩
      else none
    | _ => none

theorem reopen_tables {script : List Action} {tables : List BlockTable}
    (h : reopen script tables = some s) : s.tables = tables := by
  obtain ⟨run, -, hopen⟩ := Option.bind_eq_some_iff.mp h
  split at hopen
  · split at hopen
    · exact Option.some.inj hopen ▸ rfl
    · exact absurd hopen (by simp)
  · exact absurd hopen (by simp)

theorem reopen_some {script : List Action} {tables : List BlockTable}
    (h : reopen script tables = some s) : JustOpened s := by
  obtain ⟨run, hrun, hopen⟩ := Option.bind_eq_some_iff.mp h
  have htidy := (Reached.init.runs (runScript_runs hrun)).tidy
  split at hopen
  · rename_i db w env' hdb
    split at hopen
    · rename_i hsame
      obtain rfl := Option.some.inj hopen
      refine .mk htidy hdb ?_
      -- what `openDb` has read is all there is in its tables
      obtain ⟨ts, hts⟩ := (wp_done (returns_openDb _ _ _) hdb db rfl).complete
      have hentries : ts = tables.map BlockTable.entries := by
        rw [← hsame, hts, List.map_map]
        exact (List.map_id _).symm
      rw [hts, hentries, List.map_map]
      rfl
    · exact absurd hopen (by simp)
  · exact absurd hopen (by simp)

/-- The DB after a call in which nothing fails. -/
def BlockDb.after (s : BlockDb) (op : Op) : Option DB :=
  match op.run s.db faultyEnv.callFaults [] s.world with
  | .done (_, db') _ _ => some db'
  | .crashed _ => none

theorem after_some {op : Op} (hw : Tidy s.world) (h : s.after op = some db') :
    ∃ s', BlockStep s (some op) s' ∧ s'.db = db' := by
  unfold BlockDb.after at h
  split at h
  · rename_i hrun
    obtain rfl := Option.some.inj h
    obtain ⟨new, htables, hstep⟩ := exists_blockStep hw hrun
    exact ⟨_, hstep, rfl⟩
  · exact absurd h (by simp)

/-- The first block is damaged: the count is zero, and the key of the second block is
    found and deleted. -/
theorem delete_wraps_liveKeyCount : ∃ s s' : BlockDb, JustOpened s ∧
    BlockStep s (some (.delete [98])) s' ∧ s.db.DecrementsAtZero [98] ∧
    s'.db.liveKeyCount = 18446744073709551615 := by
  have hcalc : (reopen twoBlocksScript [twoBlocks (some blockDamaged) none]).bind (fun s =>
      (s.after (.delete [98])).map fun db =>
        (s.db.isKeyCurrentlyLive [98], s.db.liveKeyCount, db.liveKeyCount)) =
      some (true, 0, 18446744073709551615) := by
    set_option maxRecDepth 100000 in decide +kernel
  obtain ⟨s, hs, hcalc⟩ := Option.bind_eq_some_iff.mp hcalc
  obtain ⟨db, hafter, hcalc⟩ := Option.map_eq_some_iff.mp hcalc
  obtain ⟨hlive, hzero, hwrapped⟩ : _ ∧ _ ∧ _ := by simpa using hcalc
  have hopened := reopen_some hs
  obtain ⟨s', hstep, rfl⟩ := after_some hopened.tidy hafter
  exact ⟨s, s', hopened, hstep, ⟨hlive, hzero⟩, hwrapped⟩

theorem delete_not_decrementsAtZero_twoBlocks : ∃ (s : BlockDb) (run : List (Option Op × BlockDb)),
    JustOpened s ∧ s.tables = [twoBlocks none (some blockDamaged)] ∧ Runs BlockStep s run ∧
    s.db.liveKeyCount = 1 ∧ (lastState s run).db.liveKeyCount = 0 ∧
    ∀ key, ¬ (lastState s run).db.DecrementsAtZero key := by
  have hcalc : (reopen twoBlocksScript [twoBlocks none (some blockDamaged)]).bind (fun s =>
      (s.after (.delete [97])).map fun db =>
        (s.db.liveKeyCount, db.liveKeyCount,
          ((DB.mergedLive s.db.memtables s.db.tables).toList.filter fun p => p.2).length)) =
      some (1, 0, 1) := by
    set_option maxRecDepth 100000 in decide +kernel
  obtain ⟨s, hs, hcalc⟩ := Option.bind_eq_some_iff.mp hcalc
  obtain ⟨db, hafter, hcalc⟩ := Option.map_eq_some_iff.mp hcalc
  obtain ⟨hone, hzero, hmerged⟩ : _ ∧ _ ∧ _ := by simpa using hcalc
  have hopened := reopen_some hs
  have htables : s.tables = [twoBlocks none (some blockDamaged)] := reopen_tables hs
  obtain ⟨s', hstep, rfl⟩ := after_some hopened.tidy hafter
  have hcard : s.db.countedLive.ncard = 1 :=
    (length_filter_mergedLive s.db.memtables s.db.tables).2.symm.trans hmerged
  -- the readable block is the first, so it hides nothing
  have hsub : s.db.foundLive ⊆ s.db.countedLive := foundLive_subset_countedLive (by
    rw [htables]
    rintro key - t ht ⟨b, hblock, hfailure, hread⟩
    obtain rfl := List.mem_singleton.mp ht
    have hb : b ∈ (twoBlocks none (some blockDamaged)).blocks := List.mem_of_find?_eq_some hblock
    rcases List.mem_pair.mp hb with rfl | rfl
    · exact hread (List.mem_singleton.mpr rfl)
    · exact absurd hfailure (by simp))
  refine ⟨s, [(some (.delete [97]), s')], hopened, htables, .cons hstep (.nil _), hone, ?_, ?_⟩
  · simpa using hzero
  · exact delete_not_decrementsAtZero hopened
      (Set.ncard_le_ncard hsub (finite_countedLive s.db)) (by rw [hcard]; simp)
      (.cons hstep (.nil _))

end PassionProjects.PebbleDB
