/-
  PassionProjects.PebbleDB.Db.Invariant

  The invariant that relates an open DB, its directory and every directory that
  a crash can leave.

  A `LogState` says what the current WAL segment and the tables stand for: the
  tables that were there when the segment was started, those published since,
  and the records of the segment.  `DbOk` relates it to the members of the DB,
  `ViewOk` to one possible view of the directory.  Together they give `DiskOk`:
  the view can be opened again, and stands for the same map.

  The lemmas about `DbOk` and `ViewOk` are one for each thing that can happen to
  an open DB: a number is allocated, the active MemTable is frozen, the oldest
  frozen one is published, the WAL is rotated, a record is written.
-/

import PassionProjects.Lib.FileSystem
import PassionProjects.PebbleDB.Db.Layering
import PassionProjects.PebbleDB.Manifest.ManifestSpec
import PassionProjects.PebbleDB.Wal.WriterSpec

namespace PassionProjects.PebbleDB

open PassionProjects.Faults
open PassionProjects.FileSystem
open PassionProjects.FileSystem.Fs
open PassionProjects.Layers
open PassionProjects.PebbleDB.Memtable
open PassionProjects.PebbleDB.Manifest

/-- A published table. -/
structure PubTable where
  info : TableFileInfo
  entries : List Entry

namespace PubTable

def reader (t : PubTable) : TableReader := .complete t.entries

def layer (t : PubTable) : EntryLayer := entriesLayer t.entries

end PubTable

/-- The layers of tables listed oldest first. -/
def tableLayers (tables : List PubTable) : List EntryLayer := tables.reverse.map PubTable.layer

@[simp] theorem tableLayers_nil : tableLayers [] = [] := rfl

theorem tableLayers_append (xs ys : List PubTable) :
    tableLayers (xs ++ ys) = tableLayers ys ++ tableLayers xs := by
  simp [tableLayers]

theorem mem_tableLayers {tables : List PubTable} {t : PubTable} (h : t ∈ tables) :
    t.layer ∈ tableLayers tables := List.mem_map_of_mem (List.mem_reverse.mpr h)

/-- What the current WAL segment and the tables stand for. -/
structure LogState where
  old : List PubTable
  new : List PubTable
  records : List Wal.Record
  torn : Bytes

/-- A manifest that names segment `cur` and these tables, and whose counters are
    up to date for them. -/
structure ManifestOk (cur next : UInt64) (tables : List PubTable) (md : ManifestData) : Prop where
  wal : md.walFileNumber = cur
  walPos : 0 < cur.toNat
  infos : md.tables = tables.map PubTable.info
  nextLe : md.nextFileNumber.toNat ≤ next.toNat
  walLe : cur.toNat ≤ md.nextFileNumber.toNat
  numbers : ∀ t ∈ tables, t.info.fileNumber.toNat < md.nextFileNumber.toNat
  seqs : ∀ t ∈ tables, ∀ k e, t.layer k = some e → seqRank e ≤ md.lastSequence.toNat
  last : md.lastSequence.toNat + 1 < 2 ^ 64

/-- One possible view of the directory of an open DB. -/
structure ViewOk (cur next : UInt64) (g : LogState) (v : DbView) : Prop where
  manifest : ∃ p md, p <+: g.new ∧ v .manifest = some (.bytes (encodeManifest md)) ∧
    ManifestOk cur next (g.old ++ p) md
  tables : ∀ t ∈ g.old ++ g.new, v (.sst t.info.fileNumber) = some (.table t.entries)
  wal : v (.wal cur) = some (.bytes (Wal.encodeRecords g.records ++ g.torn))
  later : ∀ n : UInt64, cur.toNat < n.toNat →
    v (.wal n) = none ∨ v (.wal n) = some (.bytes [])

/-- The members of an open DB. -/
structure DbOk (db : DB) (g : LogState) : Prop where
  tables : db.tables = (g.old ++ g.new).map PubTable.reader
  manifest : ManifestOk db.currentWalNumber db.nextFileNumber (g.old ++ g.new) db.manifest
  covered : ∀ k, replayLayer g.records k = firstHit (db.memtables.layers ++ tableLayers g.new) k
  ordered : Ordered seqRank db.layers
  positive : 0 < db.nextSequence.toNat
  below : ∀ l ∈ db.layers, ∀ k e, l k = some e → seqRank e < db.nextSequence.toNat
  logged : ∀ r ∈ g.records, r.Fits ∧ r.stored = r ∧ r.sequence.toNat < db.nextSequence.toNat
  torn : g.torn = [] ∨ Wal.Reader.Torn g.torn

/-- A view that holds a database: what `Recover` needs to find. -/
structure DiskShows (v : DbView) (md : ManifestData) (tables : List PubTable)
    (records : List Wal.Record) (torn : Bytes) : Prop where
  manifest : v .manifest = some (.bytes (encodeManifest md))
  counters : ManifestOk md.walFileNumber md.nextFileNumber tables md
  tableFiles : ∀ t ∈ tables, v (.sst t.info.fileNumber) = some (.table t.entries)
  wal : v (.wal md.walFileNumber) = some (.bytes (Wal.encodeRecords records ++ torn))
  later : ∀ n : UInt64, md.walFileNumber.toNat < n.toNat →
    v (.wal n) = none ∨ v (.wal n) = some (.bytes [])
  ordered : Ordered seqRank (replayLayer records :: tableLayers tables)
  logged : ∀ r ∈ records, r.Fits ∧ r.stored = r ∧ r.sequence.toNat + 1 < 2 ^ 64
  torn : torn = [] ∨ Wal.Reader.Torn torn

/-- A view of a directory that was never opened to the end. -/
structure DiskFresh (v : DbView) : Prop where
  manifest : v .manifest = none
  wals : ∀ n : UInt64, v (.wal n) = none ∨ v (.wal n) = some (.bytes [])

/-- A view that stands for the map `m` when it is opened. -/
def DiskOk (v : DbView) (m : EntryLayer) : Prop :=
  (DiskFresh v ∧ m = fun _ => none) ∨
    ∃ md tables records torn, DiskShows v md tables records torn ∧
      m = firstHit (replayLayer records :: tableLayers tables)

-- ============================================================================
-- Log states
-- ============================================================================

/-- What a log state stands for. -/
def LogState.map (g : LogState) : EntryLayer :=
  firstHit (replayLayer g.records :: tableLayers (g.old ++ g.new))

/-- A log state whose segment holds every key of the tables published since it was
    started, above all tables. -/
structure LogOk (g : LogState) : Prop where
  covered : ∀ l ∈ tableLayers g.new, ∀ k, l k ≠ none → replayLayer g.records k ≠ none
  ordered : Ordered seqRank (replayLayer g.records :: tableLayers (g.old ++ g.new))
  logged : ∀ r ∈ g.records, r.Fits ∧ r.stored = r ∧ r.sequence.toNat + 1 < 2 ^ 64
  torn : g.torn = [] ∨ Wal.Reader.Torn g.torn

/-- Tables whose keys the segment holds do not matter. -/
theorem LogOk.covered_eq {g : LogState} (h : LogOk g) {p : List PubTable} (hp : p <+: g.new) :
    firstHit (replayLayer g.records :: tableLayers (g.old ++ p)) =
      firstHit (replayLayer g.records :: tableLayers g.old) := by
  obtain ⟨q, hq⟩ := hp
  have hcovered : ∀ l ∈ tableLayers p, ∀ k, l k ≠ none →
      firstHit [replayLayer g.records] k ≠ none := by
    intro l hl k hk
    have hmem : l ∈ tableLayers g.new := by
      rw [← hq, tableLayers_append]
      exact List.mem_append_right _ hl
    simpa [firstHit_cons] using h.covered l hmem k hk
  rw [tableLayers_append]
  exact firstHit_covered hcovered _

theorem LogOk.map_eq {g : LogState} (h : LogOk g) :
    g.map = firstHit (replayLayer g.records :: tableLayers g.old) := h.covered_eq List.prefix_rfl

/-- Every prefix of the tables published since the segment was started, with the
    segment replayed on top, is ordered and stands for the same map. -/
theorem LogOk.replay {g : LogState} (h : LogOk g) {p : List PubTable} (hp : p <+: g.new) :
    Ordered seqRank (replayLayer g.records :: tableLayers (g.old ++ p)) ∧
      g.map = firstHit (replayLayer g.records :: tableLayers (g.old ++ p)) := by
  refine ⟨?_, h.map_eq.trans (h.covered_eq hp).symm⟩
  obtain ⟨q, hq⟩ := hp
  refine List.Pairwise.sublist ?_ h.ordered
  rw [← hq, ← List.append_assoc, tableLayers_append (g.old ++ p)]
  exact (List.sublist_append_right _ _).cons_cons _

/-- Every view that shows a part of the tables published since the segment was
    started can be opened, and stands for what the log state does. -/
theorem ViewOk.disk {cur next : UInt64} {g : LogState} {v : DbView} (hv : ViewOk cur next g v)
    (h : LogOk g) : DiskOk v g.map := by
  obtain ⟨p, md, hp, hmanifest, hok⟩ := hv.manifest
  obtain ⟨hordered, hmap⟩ := h.replay hp
  have hwal := hok.wal
  refine Or.inr ⟨md, g.old ++ p, g.records, g.torn, ?_, hmap⟩
  exact {
    manifest := hmanifest
    counters := {
      wal := rfl
      walPos := by rw [hwal]; exact hok.walPos
      infos := hok.infos
      nextLe := Nat.le_refl _
      walLe := by rw [hwal]; exact hok.walLe
      numbers := hok.numbers
      seqs := hok.seqs
      last := hok.last }
    tableFiles := fun t ht => hv.tables t (by
      rcases List.mem_append.mp ht with ht | ht
      · exact List.mem_append_left _ ht
      · exact List.mem_append_right _ (hp.subset ht))
    wal := by rw [hwal]; exact hv.wal
    later := fun n hn => hv.later n (by rwa [hwal] at hn)
    ordered := hordered
    logged := h.logged
    torn := h.torn }

/-- A view that shows a database is one of a log state with no newer tables. -/
theorem DiskShows.viewOk {v : DbView} {md : ManifestData} {tables : List PubTable}
    {records : List Wal.Record} {torn : Bytes} (h : DiskShows v md tables records torn) :
    ViewOk md.walFileNumber md.nextFileNumber ⟨tables, [], records, torn⟩ v where
  manifest := ⟨[], md, List.prefix_rfl, h.manifest, by simpa using h.counters⟩
  tables t ht := h.tableFiles t (by simpa using ht)
  wal := h.wal
  later := h.later

theorem DiskShows.logOk {v : DbView} {md : ManifestData} {tables : List PubTable}
    {records : List Wal.Record} {torn : Bytes} (h : DiskShows v md tables records torn) :
    LogOk ⟨tables, [], records, torn⟩ where
  covered l hl := absurd hl (by simp)
  ordered := by simpa using h.ordered
  logged := h.logged
  torn := h.torn

-- ============================================================================
-- Layers of an open DB
-- ============================================================================

theorem DbOk.layers_eq {db : DB} {g : LogState} (h : DbOk db g) :
    db.layers = db.memtables.layers ++ tableLayers g.new ++ tableLayers g.old := by
  have hmap : db.tables.reverse.map TableReader.layer = tableLayers (g.old ++ g.new) := by
    rw [h.tables, tableLayers, ← List.map_reverse, List.map_map]
    rfl
  rw [DB.layers, hmap, tableLayers_append, List.append_assoc]

/-- The segment holds every key of the tables published since it was started, and
    the layers of an open DB stand for what the log state does. -/
theorem DbOk.logOk {db : DB} {g : LogState} (h : DbOk db g) : LogOk g where
  covered l hl k hk := by
    rw [h.covered k]
    exact firstHit_ne_none (List.mem_append_right _ hl) hk
  ordered := by
    have hsuffix : tableLayers (g.old ++ g.new) <:+ db.layers := by
      rw [h.layers_eq, tableLayers_append]
      exact ⟨db.memtables.layers, by simp⟩
    refine h.ordered.collapse hsuffix fun k e he => ?_
    rw [h.layers_eq, firstHit_append, ← h.covered k, he]
    rfl
  logged r hr := by
    obtain ⟨hfits, hstored, hlt⟩ := h.logged r hr
    exact ⟨hfits, hstored, Nat.lt_of_le_of_lt hlt db.nextSequence.toNat_lt⟩
  torn := h.torn

theorem DbOk.map {db : DB} {g : LogState} (h : DbOk db g) : g.map = firstHit db.layers := by
  rw [h.logOk.map_eq, h.layers_eq]
  exact firstHit_collapse _ h.covered

-- ============================================================================
-- Views
-- ============================================================================

theorem ManifestOk.mono {cur next next' : UInt64} {tables : List PubTable} {md : ManifestData}
    (h : ManifestOk cur next tables md) (hle : next.toNat ≤ next'.toNat) :
    ManifestOk cur next' tables md :=
  ⟨h.wal, h.walPos, h.infos, Nat.le_trans h.nextLe hle, h.walLe, h.numbers, h.seqs, h.last⟩

theorem ManifestOk.number_lt {cur next : UInt64} {tables : List PubTable} {md : ManifestData}
    (h : ManifestOk cur next tables md) {t : PubTable} (ht : t ∈ tables) :
    t.info.fileNumber.toNat < next.toNat := Nat.lt_of_lt_of_le (h.numbers t ht) h.nextLe

theorem ViewOk.mono {cur next next' : UInt64} {g : LogState} {v : DbView}
    (h : ViewOk cur next g v) (hle : next.toNat ≤ next'.toNat) : ViewOk cur next' g v := by
  obtain ⟨p, md, hp, hmanifest, hok⟩ := h.manifest
  exact ⟨⟨p, md, hp, hmanifest, hok.mono hle⟩, h.tables, h.wal, h.later⟩

/-- Files that the DB does not use yet, or not any more, do not matter. -/
theorem ViewOk.congr {cur next : UInt64} {g : LogState} {u v : DbView} (h : ViewOk cur next g u)
    (hmanifest : v .manifest = u .manifest)
    (hsst : ∀ t ∈ g.old ++ g.new, v (.sst t.info.fileNumber) = u (.sst t.info.fileNumber))
    (hwal : ∀ n : UInt64, cur.toNat ≤ n.toNat → v (.wal n) = u (.wal n)) :
    ViewOk cur next g v where
  manifest := by rw [hmanifest]; exact h.manifest
  tables t ht := by rw [hsst t ht]; exact h.tables t ht
  wal := by rw [hwal cur (Nat.le_refl _)]; exact h.wal
  later n hn := by rw [hwal n (Nat.le_of_lt hn)]; exact h.later n hn

/-- A name whose contents `ViewOk` does not look at. -/
def Unused (cur : UInt64) (g : LogState) : FileName → Prop
  | .manifest => False
  | .manifestTmp => True
  | .sst n => ∀ t ∈ g.old ++ g.new, t.info.fileNumber ≠ n
  | .wal n => n.toNat < cur.toNat

theorem ViewOk.ignores {cur next : UInt64} {g : LogState} {n : FileName} (hn : Unused cur g n)
    (u v : DbView) (heq : ∀ m, m ≠ n → v m = u m) (h : ViewOk cur next g u) :
    ViewOk cur next g v := by
  refine h.congr (heq _ ?_) (fun t ht => heq _ ?_) (fun m hm => heq _ ?_)
  · rintro rfl; exact hn
  · rintro rfl; exact hn t ht rfl
  · rintro rfl
    have hlt : m.toNat < cur.toNat := hn
    omega

/-- An empty segment with a later number may appear. -/
theorem ViewOk.createWal {cur next n : UInt64} {g : LogState} {v : DbView}
    (h : ViewOk cur next g v) (hn : cur.toNat < n.toNat) :
    ViewOk cur next g (Function.update v (.wal n) (some (.bytes []))) where
  manifest := by simpa using h.manifest
  tables t ht := by simpa using h.tables t ht
  wal := by
    have hne : FileName.wal cur ≠ .wal n := by
      intro heq
      rw [FileName.wal.inj heq] at hn
      omega
    rw [Function.update_of_ne hne]
    exact h.wal
  later m hm := by
    by_cases hmn : m = n
    · subst hmn; simp
    · have hne : FileName.wal m ≠ .wal n := fun heq => hmn (FileName.wal.inj heq)
      rw [Function.update_of_ne hne]
      exact h.later m hm

/-- The segment holds other records. -/
theorem ViewOk.updateWal {cur next : UInt64} {g : LogState} {v : DbView}
    (h : ViewOk cur next g v) (records : List Wal.Record) (torn : Bytes) :
    ViewOk cur next { g with records, torn }
      (Function.update v (.wal cur) (some (.bytes (Wal.encodeRecords records ++ torn)))) where
  manifest := by simpa using h.manifest
  tables t ht := by simpa using h.tables t ht
  wal := by simp
  later m hm := by
    have hne : FileName.wal m ≠ .wal cur := by
      intro heq
      rw [FileName.wal.inj heq] at hm
      omega
    rw [Function.update_of_ne hne]
    exact h.later m hm

/-- A table that is there may count as published whether or not the manifest
    names it yet. -/
theorem ViewOk.addTable {cur next : UInt64} {g : LogState} {v : DbView} {t : PubTable}
    (h : ViewOk cur next g v) (ht : v (.sst t.info.fileNumber) = some (.table t.entries)) :
    ViewOk cur next { g with new := g.new ++ [t] } v where
  manifest := by
    obtain ⟨p, md, hp, hmanifest, hok⟩ := h.manifest
    exact ⟨p, md, hp.trans (List.prefix_append _ _), hmanifest, hok⟩
  tables t' ht' := by
    rw [← List.append_assoc] at ht'
    rcases List.mem_append.mp ht' with ht' | ht'
    · exact h.tables t' ht'
    · rw [List.mem_singleton.mp ht']
      exact ht
  wal := h.wal
  later := h.later

/-- The manifest that names all the tables replaces the one before it. -/
theorem ViewOk.withManifest {cur next : UInt64} {g : LogState} {v : DbView} {md : ManifestData}
    (h : ViewOk cur next g v) (hmd : ManifestOk cur next (g.old ++ g.new) md) :
    ViewOk cur next g (withManifest md v) where
  manifest := ⟨g.new, md, List.prefix_rfl, by simp [Manifest.withManifest], hmd⟩
  tables t ht := by simpa [Manifest.withManifest] using h.tables t ht
  wal := by simpa [Manifest.withManifest] using h.wal
  later n hn := by simpa [Manifest.withManifest] using h.later n hn

/-- The log state after a rotation. -/
def LogState.rotate (g : LogState) : LogState := ⟨g.old ++ g.new, [], [], []⟩

/-- The manifest that names a later, empty segment replaces the one before it. -/
theorem ViewOk.rotate {cur next n : UInt64} {g : LogState} {v : DbView} {md : ManifestData}
    (h : ViewOk cur next g v) (hn : cur.toNat < n.toNat) (hwal : v (.wal n) = some (.bytes []))
    (hmd : ManifestOk n next (g.old ++ g.new) md) :
    ViewOk n next g.rotate (Manifest.withManifest md v) where
  manifest := ⟨[], md, List.nil_prefix, by simp [Manifest.withManifest], by
    simpa [LogState.rotate] using hmd⟩
  tables t ht := by
    have ht' : t ∈ g.old ++ g.new := by simpa [LogState.rotate] using ht
    simpa [Manifest.withManifest] using h.tables t ht'
  wal := by simpa [Manifest.withManifest, LogState.rotate] using hwal
  later m hm := by
    simpa [Manifest.withManifest] using h.later m (Nat.lt_trans hn hm)

-- ============================================================================
-- Members
-- ============================================================================

/-- Allocating a file number. -/
theorem DbOk.allocate {db : DB} {g : LogState} (h : DbOk db g) {next : UInt64}
    (hle : db.nextFileNumber.toNat ≤ next.toNat) : DbOk { db with nextFileNumber := next } g where
  tables := h.tables
  manifest := h.manifest.mono hle
  covered := h.covered
  ordered := h.ordered
  positive := h.positive
  below := h.below
  logged := h.logged
  torn := h.torn

/-- Freezing the active MemTable. -/
theorem DbOk.freeze {db : DB} {g : LogState} (h : DbOk db g) :
    DbOk { db with memtables := db.memtables.freeze } g where
  tables := h.tables
  manifest := h.manifest
  covered k := by
    have hlayers : db.memtables.freeze.layers = (fun _ => none) :: db.memtables.layers := by
      simp [MemTableList.layers, MemTableList.freeze]
    rw [h.covered k, hlayers, List.cons_append, firstHit_cons]
    rfl
  ordered := by
    have hlayers : DB.layers { db with memtables := db.memtables.freeze } =
        (fun _ => none) :: db.layers := by
      simp [DB.layers, MemTableList.layers, MemTableList.freeze]
    rw [hlayers]
    exact h.ordered.cons_empty
  positive := h.positive
  below l hl k e he := by
    have hl' : l = (fun _ => none) ∨ l ∈ db.layers := by
      simpa [DB.layers, MemTableList.layers, MemTableList.freeze, or_assoc] using hl
    rcases hl' with rfl | hl'
    · exact absurd he (by simp)
    · exact h.below l hl' k e he
  logged := h.logged
  torn := h.torn

theorem freeze_layers (db : DB) :
    firstHit (DB.layers { db with memtables := db.memtables.freeze }) = firstHit db.layers := by
  funext k
  have hlayers : DB.layers { db with memtables := db.memtables.freeze } =
      (fun _ => none) :: db.layers := by
    simp [DB.layers, MemTableList.layers, MemTableList.freeze]
  rw [hlayers, firstHit_cons]
  rfl

theorem removeOldest_layers {l : MemTableList} {frozen : MemTable}
    (h : l.immutables.getLast? = some frozen) :
    l.layers = l.removeOldest.layers ++ [frozen.layer] := by
  obtain ⟨init, hinit⟩ := List.getLast?_eq_some_iff.mp h
  simp [MemTableList.layers, MemTableList.removeOldest, hinit]

/-- The manifest of a publish: the tables before it and the new one. -/
theorem ManifestOk.publish {cur number next lastSequence : UInt64} {tables : List PubTable}
    {md : ManifestData} {entries : List Entry} (h : ManifestOk cur number tables md)
    (hnext : next.toNat = number.toNat + 1)
    (hseqs : ∀ t ∈ tables ++ [⟨⟨number, 0⟩, entries⟩], ∀ k e,
      PubTable.layer t k = some e → seqRank e ≤ lastSequence.toNat)
    (hlast : lastSequence.toNat + 1 < 2 ^ 64) :
    ManifestOk cur next (tables ++ [⟨⟨number, 0⟩, entries⟩])
      { nextFileNumber := next, walFileNumber := cur, lastSequence := lastSequence,
        tables := md.tables ++ [⟨number, 0⟩] } where
  wal := rfl
  walPos := h.walPos
  infos := by simp [h.infos]
  nextLe := Nat.le_refl _
  walLe := by
    have hw := h.walLe
    have hn := h.nextLe
    show cur.toNat ≤ next.toNat
    omega
  numbers t ht := by
    show t.info.fileNumber.toNat < next.toNat
    rcases List.mem_append.mp ht with ht | ht
    · have hlt := h.number_lt ht
      omega
    · rw [List.mem_singleton.mp ht]
      show number.toNat < next.toNat
      omega
  seqs := hseqs
  last := hlast

/-- Publishing the oldest frozen MemTable moves a layer from the MemTables to the
    tables. -/
theorem DbOk.publish {db : DB} {g : LogState} {frozen : MemTable} {number next : UInt64}
    (h : DbOk { db with nextFileNumber := number } g)
    (hfrozen : db.memtables.immutables.getLast? = some frozen)
    (hnext : next.toNat = number.toNat + 1) :
    let md : ManifestData :=
      { nextFileNumber := next, walFileNumber := db.currentWalNumber,
        lastSequence := db.nextSequence - 1, tables := db.manifest.tables ++ [⟨number, 0⟩] }
    let db' : DB := { db with
      nextFileNumber := next, manifest := md,
      tables := db.tables ++ [.complete frozen.entries],
      memtables := db.memtables.removeOldest }
    DbOk db' { g with new := g.new ++ [⟨⟨number, 0⟩, frozen.entries⟩] } ∧
      db'.layers = db.layers := by
  intro md db'
  have hmem := removeOldest_layers hfrozen
  have hreader : TableReader.layer (.complete frozen.entries) = frozen.layer :=
    entriesLayer_entries frozen
  have hlayers : db'.layers = db.layers := by
    simp [DB.layers, db', hmem, hreader]
  have hpos : 0 < db.nextSequence.toNat := h.positive
  have hsub : (db.nextSequence - 1).toNat = db.nextSequence.toNat - 1 := by
    have h1 : (1 : UInt64) ≤ db.nextSequence := by
      rw [UInt64.le_iff_toNat_le]
      exact hpos
    exact UInt64.toNat_sub_of_le _ _ h1
  have hbelow : ∀ t ∈ (g.old ++ g.new) ++ [⟨⟨number, 0⟩, frozen.entries⟩], ∀ k e,
      PubTable.layer t k = some e → seqRank e ≤ (db.nextSequence - 1).toNat := by
    intro t ht k e he
    have hl : PubTable.layer t ∈ db.layers := by
      have hall : tableLayers ((g.old ++ g.new) ++ [⟨⟨number, 0⟩, frozen.entries⟩]) =
          db'.tables.reverse.map TableReader.layer := by
        have ht' : db'.tables = List.map PubTable.reader
            ((g.old ++ g.new) ++ [⟨⟨number, 0⟩, frozen.entries⟩]) := by
          have ht : db.tables = (g.old ++ g.new).map PubTable.reader := h.tables
          simp [db', ht, PubTable.reader]
        rw [ht', tableLayers, ← List.map_reverse, List.map_map]
        rfl
      rw [← hlayers]
      exact List.mem_append_right _ (hall ▸ mem_tableLayers ht)
    have hlt := h.below _ hl k e he
    have hlt' : seqRank e < db.nextSequence.toNat := hlt
    omega
  refine ⟨?_, hlayers⟩
  have hmanifest := ManifestOk.publish h.manifest hnext hbelow (by
    have hlt := db.nextSequence.toNat_lt
    omega)
  exact {
    tables := by
      have ht : db.tables = (g.old ++ g.new).map PubTable.reader := h.tables
      simp [db', ht, PubTable.reader]
    manifest := by
      rw [List.append_assoc] at hmanifest
      exact hmanifest
    covered := fun k => by
      have hpub : PubTable.layer ⟨⟨number, 0⟩, frozen.entries⟩ = frozen.layer :=
        entriesLayer_entries frozen
      have hcovered := h.covered k
      simp only [hmem, List.append_assoc, List.singleton_append] at hcovered
      rw [tableLayers_append]
      simpa [tableLayers, hpub, db'] using hcovered
    ordered := by rw [hlayers]; exact h.ordered
    positive := h.positive
    below := by rw [hlayers]; exact h.below
    logged := h.logged
    torn := h.torn }

/-- Rotating to an empty segment once everything is published. -/
theorem DbOk.rotate {db : DB} {g : LogState} {number next : UInt64} {writer : Wal.Writer}
    (h : DbOk { db with nextFileNumber := number } g) (hactive : db.memtables.active.empty = true)
    (himm : db.memtables.immutables = []) (hnext : number.toNat ≤ next.toNat)
    (hnumber : db.manifest.nextFileNumber = number) :
    let db' : DB := { db with
      nextFileNumber := next
      manifest := { db.manifest with walFileNumber := number }
      walWriter := some writer
      currentWalNumber := number }
    DbOk db' g.rotate ∧ db'.layers = db.layers := by
  intro db'
  have hmem : db.memtables.layers = [fun _ => none] := by
    simp [MemTableList.layers, himm, MemTable.layer_of_empty hactive]
  have hm := h.manifest
  refine ⟨?_, rfl⟩
  exact {
    tables := by simpa [LogState.rotate] using h.tables
    manifest := {
      wal := rfl
      walPos := by
        have h1 := hm.walPos
        have h2 := hm.walLe
        have h3 : db.manifest.nextFileNumber.toNat = number.toNat := by rw [hnumber]
        show 0 < number.toNat
        simp only at h1 h2
        omega
      infos := by simpa [LogState.rotate] using hm.infos
      nextLe := by
        show db.manifest.nextFileNumber.toNat ≤ next.toNat
        rw [hnumber]
        exact hnext
      walLe := by
        show number.toNat ≤ db.manifest.nextFileNumber.toNat
        rw [hnumber]
      numbers := by simpa [LogState.rotate] using hm.numbers
      seqs := by simpa [LogState.rotate] using hm.seqs
      last := hm.last }
    covered := fun k => by
      show replayLayer [] k = firstHit (db.memtables.layers ++ []) k
      rw [hmem]
      simp [firstHit_cons]
    ordered := h.ordered
    positive := h.positive
    below := h.below
    logged := fun r hr => absurd hr List.not_mem_nil
    torn := Or.inl rfl }

/-- What an acknowledged write changes. -/
structure Wrote (db db' : DB) (key : Key) (e : MemEntry) : Prop where
  active : db'.memtables.active.layer = setLayer db.memtables.active.layer key e
  activeNonempty : db'.memtables.active.empty = false
  immutables : db'.memtables.immutables = db.memtables.immutables
  tables : db'.tables = db.tables
  manifest : db'.manifest = db.manifest
  walWriter : db'.walWriter = db.walWriter
  currentWal : db'.currentWalNumber = db.currentWalNumber
  nextFile : db'.nextFileNumber = db.nextFileNumber
  nextSequence : db'.nextSequence = db.nextSequence + 1
  options : db'.options = db.options

theorem wrote_applyPut (db : DB) (key : Key) (value : Value) (sequence : UInt64) :
    Wrote db (db.applyPut key value sequence) key ⟨sequence, .kValue, value⟩ where
  active := MemTable.layer_set _ _ _
  activeNonempty := MemTable.empty_set _ _ _
  immutables := rfl
  tables := rfl
  manifest := rfl
  walWriter := rfl
  currentWal := rfl
  nextFile := rfl
  nextSequence := rfl
  options := rfl

theorem wrote_applyDelete (db : DB) (key : Key) (sequence : UInt64) :
    Wrote db (db.applyDelete key sequence) key ⟨sequence, .kTombstone, []⟩ where
  active := MemTable.layer_set _ _ _
  activeNonempty := MemTable.empty_set _ _ _
  immutables := rfl
  tables := rfl
  manifest := rfl
  walWriter := rfl
  currentWal := rfl
  nextFile := rfl
  nextSequence := rfl
  options := rfl

theorem Wrote.layers {db db' : DB} {key : Key} {e : MemEntry} (h : Wrote db db' key e) :
    firstHit db'.layers = setLayer (firstHit db.layers) key e := by
  funext k
  simp only [DB.layers, MemTableList.layers, List.map_cons, List.cons_append, firstHit_cons,
    h.active, h.immutables, h.tables, setLayer]
  by_cases hk : k = key
  · simp [hk]
  · simp [hk]

/-- Writing a record to the log and applying it. -/
theorem DbOk.write {db db' : DB} {g : LogState} {r : Wal.Record} (h : DbOk db g)
    (hw : Wrote db db' r.key (recordEntry r)) (hseq : r.sequence = db.nextSequence)
    (hfit : db.nextSequence.toNat + 1 < 2 ^ 64) (hfits : r.Fits) (hstored : r.stored = r) :
    DbOk db' { g with records := g.records ++ [r], torn := [] } := by
  have hnext : db'.nextSequence.toNat = db.nextSequence.toNat + 1 := by
    rw [hw.nextSequence, UInt64.toNat_add]
    simp only [UInt64.reduceToNat]
    omega
  have hrank : seqRank (recordEntry r) = db.nextSequence.toNat := by
    rw [seqRank, recordEntry_sequence, hseq]
  have hlayers : db.layers = db.memtables.active.layer ::
      (db.memtables.immutables.map MemTable.layer ++ db.tables.reverse.map TableReader.layer) := by
    simp [DB.layers, MemTableList.layers]
  have hlayers' : db'.layers = setLayer db.memtables.active.layer r.key (recordEntry r) ::
      (db.memtables.immutables.map MemTable.layer ++ db.tables.reverse.map TableReader.layer) := by
    simp [DB.layers, MemTableList.layers, hw.active, hw.immutables, hw.tables]
  exact {
    tables := by rw [hw.tables]; exact h.tables
    manifest := by rw [hw.manifest, hw.currentWal, hw.nextFile]; exact h.manifest
    covered := fun k => by
      show replayLayer (g.records ++ [r]) k = _
      have hcovered := h.covered k
      simp only [MemTableList.layers, List.map_cons, List.cons_append, firstHit_cons] at hcovered ⊢
      rw [replayLayer_append, hw.active, hw.immutables, setLayer, setLayer]
      by_cases hk : k = r.key
      · simp [hk]
      · simpa [hk] using hcovered
    ordered := by
      rw [hlayers']
      refine Ordered.insert (hlayers ▸ h.ordered) fun l hl b hb => ?_
      rw [hrank]
      exact h.below l (by rw [hlayers]; exact List.mem_cons_of_mem _ hl) _ b hb
    positive := by omega
    below := fun l hl k e he => by
      rw [hnext]
      rw [hlayers'] at hl
      rcases List.mem_cons.mp hl with rfl | hl
      · rw [setLayer] at he
        by_cases hk : k = r.key
        · rw [if_pos hk] at he
          rw [← Option.some.inj he, hrank]
          omega
        · rw [if_neg hk] at he
          have := h.below _ (by rw [hlayers]; exact List.mem_cons_self ..) k e he
          omega
      · have := h.below l (by rw [hlayers]; exact List.mem_cons_of_mem _ hl) k e he
        omega
    logged := fun x hx => by
      rw [hnext]
      rcases List.mem_append.mp hx with hx | hx
      · obtain ⟨h1, h2, h3⟩ := h.logged x hx
        exact ⟨h1, h2, by omega⟩
      · rw [List.mem_singleton.mp hx]
        exact ⟨hfits, hstored, by rw [hseq]; omega⟩
    torn := Or.inl rfl }

/-- A failed append leaves a torn tail and nothing else. -/
theorem DbOk.tear {db : DB} {g : LogState} (h : DbOk db g) {torn : Bytes}
    (ht : torn = [] ∨ Wal.Reader.Torn torn) : DbOk db { g with torn } where
  tables := h.tables
  manifest := h.manifest
  covered := h.covered
  ordered := h.ordered
  positive := h.positive
  below := h.below
  logged := h.logged
  torn := ht

/-- The writer object does not matter to the layers. -/
theorem DbOk.withWriter {db : DB} {g : LogState} (h : DbOk db g) (writer : Option Wal.Writer) :
    DbOk { db with walWriter := writer } g where
  tables := h.tables
  manifest := h.manifest
  covered := h.covered
  ordered := h.ordered
  positive := h.positive
  below := h.below
  logged := h.logged
  torn := h.torn

end PassionProjects.PebbleDB
