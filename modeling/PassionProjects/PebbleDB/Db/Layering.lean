/-
  PassionProjects.PebbleDB.Db.Layering

  The merged read path as a stack of layers: MemTables and tables, newest first.

  Reading, the WAL replay, a MemTable turned into a table and a write are each
  given by what they do to the layers, so that the flush and recovery proofs
  speak about stacks and never look inside a MemTable.
-/

import Mathlib.Data.List.Induction
import PassionProjects.PebbleDB.Db.DB

namespace PassionProjects.PebbleDB

open PassionProjects.Layers
open PassionProjects.PebbleDB.Memtable

abbrev EntryLayer := Layer Key MemEntry

/-- The sequence number that orders entries. -/
def seqRank (e : MemEntry) : Nat := e.sequence.toNat

/-- What a list of table entries holds for each key. -/
def entriesLayer (entries : List Entry) : EntryLayer := fun k =>
  (entries.find? fun e => e.key == k).map fun e => ⟨e.sequence, e.type, e.value⟩

namespace TableReader

/-- The layer a table is in the merged read path. -/
def layer (t : TableReader) : EntryLayer := entriesLayer t.forEachEntry.1

@[simp] theorem layer_complete (entries : List Entry) :
    (complete entries).layer = entriesLayer entries := rfl

end TableReader

namespace DB

/-- The layers `Get` resolves a key in, newest first. -/
def layers (db : DB) : List EntryLayer :=
  db.memtables.layers ++ db.tables.reverse.map TableReader.layer

end DB

/-- The value an entry stands for. -/
def MemEntry.value? : MemEntry → Option Value
  | ⟨_, .kValue, value⟩ => some value
  | ⟨_, .kTombstone, _⟩ => none

/-- The map that a stack of layers stands for. -/
def valueMap (m : EntryLayer) : Key → Option Value := fun k => (m k).bind MemEntry.value?

/-- The entry that a WAL record stands for. -/
def recordEntry (r : Wal.Record) : MemEntry :=
  match r.type with
  | .kPut => ⟨r.sequence, .kValue, r.value⟩
  | .kDelete => ⟨r.sequence, .kTombstone, []⟩

/-- The layer that replaying records into an empty MemTable gives. -/
def replayLayer (records : List Wal.Record) : EntryLayer :=
  (records.foldl DB.applyRecord MemTable.new).layer

/-- A layer with one entry replaced. -/
def setLayer (m : EntryLayer) (key : Key) (e : MemEntry) : EntryLayer :=
  fun k => if k = key then some e else m k

-- ============================================================================
-- MemTables
-- ============================================================================

theorem layer_applyRecord (m : MemTable) (r : Wal.Record) :
    (DB.applyRecord m r).layer = setLayer m.layer r.key (recordEntry r) := by
  unfold DB.applyRecord recordEntry
  cases r.type with
  | kPut => exact MemTable.layer_set m r.key _
  | kDelete => exact MemTable.layer_set m r.key _

@[simp] theorem replayLayer_nil : replayLayer [] = fun _ => none := MemTable.layer_new

theorem replayLayer_append (records : List Wal.Record) (r : Wal.Record) :
    replayLayer (records ++ [r]) = setLayer (replayLayer records) r.key (recordEntry r) := by
  unfold replayLayer
  rw [List.foldl_append]
  exact layer_applyRecord _ r

/-- Every entry a replay leaves is that of some record. -/
theorem replayLayer_mem {records : List Wal.Record} {k : Key} {e : MemEntry}
    (h : replayLayer records k = some e) : ∃ r ∈ records, e = recordEntry r := by
  induction records using List.reverseRecOn with
  | nil => simp at h
  | append_singleton rs r ih =>
      rw [replayLayer_append, setLayer] at h
      by_cases hk : k = r.key
      · rw [if_pos hk] at h
        exact ⟨r, by simp, (Option.some.inj h).symm⟩
      · rw [if_neg hk] at h
        obtain ⟨r', hr', he⟩ := ih h
        exact ⟨r', by simp [hr'], he⟩

@[simp] theorem recordEntry_sequence (r : Wal.Record) : (recordEntry r).sequence = r.sequence := by
  unfold recordEntry
  cases r.type <;> rfl

/-- A table written from a MemTable holds what the MemTable held. -/
theorem entriesLayer_entries (m : MemTable) : entriesLayer m.entries = m.layer := by
  funext k
  have hfind : (m.table.toList.find? fun p => p.1 == k) =
      (m.table[k]?).map fun e => (k, e) := by
    cases hk : m.table[k]? with
    | none =>
        rw [Option.map_none, List.find?_eq_none]
        intro p hp
        have hmem := Std.TreeMap.mem_toList_iff_getElem?_eq_some.mp hp
        simp only [beq_iff_eq]
        rintro rfl
        rw [hk] at hmem
        exact absurd hmem (by simp)
    | some e =>
        have hmem : (k, e) ∈ m.table.toList := Std.TreeMap.mem_toList_iff_getElem?_eq_some.mpr hk
        cases hf : m.table.toList.find? fun p => p.1 == k with
        | none =>
            rw [List.find?_eq_none] at hf
            exact absurd (beq_self_eq_true k) (hf _ hmem)
        | some p =>
            have hp := List.mem_of_find?_eq_some hf
            have hpk : p.1 = k := by simpa using List.find?_some hf
            have hpe := Std.TreeMap.mem_toList_iff_getElem?_eq_some.mp hp
            rw [hpk, hk] at hpe
            rw [Option.map_some, Option.some.inj hpe, ← hpk]
  unfold entriesLayer MemTable.entries MemTable.layer
  rw [List.find?_map]
  show Option.map _ (Option.map _ (m.table.toList.find? fun p => p.1 == k)) = _
  rw [hfind]
  cases m.table[k]? <;> rfl

-- ============================================================================
-- Reading
-- ============================================================================

/-- What a layer answers from what it holds. -/
def answer : Option MemEntry → LookupResult
  | none => .kNotFound
  | some e => .ofEntry e.sequence e.type e.value

theorem answer_eq_notFound {o : Option MemEntry} : answer o = .kNotFound ↔ o = none := by
  cases o with
  | none => simp [answer]
  | some e =>
      obtain ⟨seq, type, value⟩ := e
      cases type <;> simp [answer, LookupResult.ofEntry]

theorem get_eq_answer (m : MemTable) (k : Key) : m.get k = answer (m.layer k) := by
  unfold MemTable.get MemTable.layer answer
  cases m.table[k]? <;> rfl

theorem lookup_eq_answer (entries : List Entry) (k : Key) :
    TableReader.lookup entries k = answer (entriesLayer entries k) := by
  unfold TableReader.lookup entriesLayer answer
  cases entries.find? fun e => e.key == k <;> rfl

theorem getFrom_eq_answer (ms : List MemTable) (k : Key) :
    MemTableList.getFrom ms k = answer (firstHit (ms.map MemTable.layer) k) := by
  induction ms with
  | nil => rfl
  | cons m ms ih =>
      rw [MemTableList.getFrom, List.map_cons, firstHit_cons, get_eq_answer]
      cases hm : m.layer k with
      | none => simpa [answer] using ih
      | some e =>
          have hne : answer (some e) ≠ .kNotFound := fun h => by simp [answer_eq_notFound] at h
          simp only [Option.some_or]

theorem tablesGet_complete (ts : List (List Entry)) (k : Key) :
    DB.tablesGet (ts.map TableReader.complete) k =
      .ok (answer (firstHit (ts.map entriesLayer) k)) := by
  induction ts with
  | nil => rfl
  | cons t ts ih =>
      rw [List.map_cons, List.map_cons, firstHit_cons]
      have hget : (TableReader.complete t).get k = .ok (answer (entriesLayer t k)) :=
        congrArg Except.ok (lookup_eq_answer t k)
      unfold DB.tablesGet
      rw [hget]
      cases ht : entriesLayer t k with
      | none => simpa [answer] using ih
      | some e =>
          have hne : answer (some e) ≠ .kNotFound := fun h => by simp [answer_eq_notFound] at h
          simp only [Option.some_or]

/-- With complete tables the merged read path answers from the first layer that
    mentions the key. -/
theorem resolve_eq_answer {db : DB} {ts : List (List Entry)}
    (h : db.tables = ts.map TableReader.complete) (k : Key) :
    db.resolve k = .ok (answer (firstHit db.layers k)) := by
  have hlayers : db.layers = (db.memtables.active :: db.memtables.immutables).map MemTable.layer ++
      ts.reverse.map entriesLayer := by
    rw [DB.layers, h, ← List.map_reverse, List.map_map]
    rfl
  have htables : DB.tablesGet db.tables.reverse k =
      .ok (answer (firstHit (ts.reverse.map entriesLayer) k)) := by
    rw [h, ← List.map_reverse, tablesGet_complete]
  rw [DB.resolve, MemTableList.get, getFrom_eq_answer, hlayers, firstHit_append, htables]
  cases firstHit ((db.memtables.active :: db.memtables.immutables).map MemTable.layer) k with
  | none => simp [answer]
  | some e =>
      have hne : answer (some e) ≠ .kNotFound := fun h => by simp [answer_eq_notFound] at h
      simp only [Option.some_or]

/-- `Get` returns what the map that the layers stand for holds. -/
theorem get_eq_valueMap {db : DB} {ts : List (List Entry)}
    (h : db.tables = ts.map TableReader.complete) (k : Key) :
    db.get k = match valueMap (firstHit db.layers) k with
      | some value => .ok value
      | none => .error (Status.NotFound "") := by
  rw [DB.get, resolve_eq_answer h, valueMap]
  cases firstHit db.layers k with
  | none => rfl
  | some e =>
      obtain ⟨seq, type, value⟩ := e
      cases type <;> rfl

end PassionProjects.PebbleDB
