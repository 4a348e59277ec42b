/-
  PassionProjects.PebbleDB.Memtable.MemTable

  The MemTable (`memtable/memtable.cpp`) and the list of one active and several
  frozen MemTables (`memtable/memtable_list.cpp`).

  `std::map<std::string, Entry>` is `Std.TreeMap` over byte strings in
  lexicographic order.
-/

import Mathlib.Data.List.Basic
import Std.Data.TreeMap.Lemmas
import PassionProjects.Lib.Layers
import PassionProjects.PebbleDB.Util.Coding

namespace PassionProjects.PebbleDB.Memtable

open PassionProjects.Layers

/-- `MemTable::Entry`. -/
structure MemEntry where
  sequence : UInt64
  type : EntryType
  value : Value
  deriving DecidableEq, Repr

/-- `kPerEntryOverheadBytes`. -/
def kPerEntryOverheadBytes : Nat := 32

def entryCost (keySize valueSize : Nat) : Nat := keySize + valueSize + kPerEntryOverheadBytes

structure MemTable where
  table : Std.TreeMap Key MemEntry
  approximateMemoryUsage : Nat

namespace MemTable

def new : MemTable := ⟨∅, 0⟩

/-- What `Put` and `Delete` share: replace or add the entry, and account for it. -/
def set (m : MemTable) (key : Key) (entry : MemEntry) : MemTable :=
  let newCost := entryCost key.length entry.value.length
  match m.table[key]? with
  | some old =>
    { table := m.table.insert key entry
      approximateMemoryUsage :=
        m.approximateMemoryUsage - entryCost key.length old.value.length + newCost }
  | none =>
    { table := m.table.insert key entry
      approximateMemoryUsage := m.approximateMemoryUsage + newCost }

/-- `MemTable::Put`. -/
def put (m : MemTable) (key : Key) (value : Value) (sequence : UInt64) : MemTable :=
  m.set key ⟨sequence, .kValue, value⟩

/-- `MemTable::Delete`. -/
def delete (m : MemTable) (key : Key) (sequence : UInt64) : MemTable :=
  m.set key ⟨sequence, .kTombstone, []⟩

/-- `MemTable::Get`. -/
def get (m : MemTable) (key : Key) : LookupResult :=
  match m.table[key]? with
  | none => .kNotFound
  | some e => .ofEntry e.sequence e.type e.value

/-- `empty()`. -/
def empty (m : MemTable) : Bool := m.table.isEmpty

/-- `entries()`, as the flush passes them to `sstable::Writer::Add`. -/
def entries (m : MemTable) : List Entry :=
  m.table.toList.map fun p => ⟨p.1, p.2.sequence, p.2.type, p.2.value⟩

/-- The layer a MemTable is in the merged read path. -/
def layer (m : MemTable) : Layer Key MemEntry := fun k => m.table[k]?

@[simp] theorem layer_new : new.layer = fun _ => none := by
  funext k
  simp [layer, new]

theorem layer_set (m : MemTable) (key : Key) (entry : MemEntry) :
    (m.set key entry).layer = fun k => if k = key then some entry else m.layer k := by
  funext k
  have htable : (m.set key entry).table = m.table.insert key entry := by
    unfold set
    cases m.table[key]? <;> rfl
  simp only [layer, htable, Std.TreeMap.getElem?_insert, Std.compare_eq_iff_eq]
  by_cases hk : k = key
  · simp [hk]
  · simp [hk, Ne.symm hk]

theorem layer_of_empty {m : MemTable} (h : m.empty = true) : m.layer = fun _ => none := by
  funext k
  exact Std.TreeMap.getElem?_of_isEmpty h

theorem empty_set (m : MemTable) (key : Key) (entry : MemEntry) :
    (m.set key entry).empty = false := by
  have htable : (m.set key entry).table = m.table.insert key entry := by
    unfold set
    cases m.table[key]? <;> rfl
  rw [empty, htable]
  exact Std.TreeMap.isEmpty_insert

end MemTable

/-- `MemTableList`: frozen MemTables are newest first. -/
structure MemTableList where
  active : MemTable
  immutables : List MemTable

namespace MemTableList

def new : MemTableList := ⟨.new, []⟩

/-- `MemTableList::Put`. -/
def put (l : MemTableList) (key : Key) (value : Value) (sequence : UInt64) : MemTableList :=
  { l with active := l.active.put key value sequence }

/-- `MemTableList::Delete`. -/
def delete (l : MemTableList) (key : Key) (sequence : UInt64) : MemTableList :=
  { l with active := l.active.delete key sequence }

/-- The loop of `MemTableList::Get`: the first table that knows the key answers. -/
def getFrom : List MemTable → Key → LookupResult
  | [], _ => .kNotFound
  | m :: rest, key =>
    match m.get key with
    | .kNotFound => getFrom rest key
    | result => result

/-- `MemTableList::Get`. -/
def get (l : MemTableList) (key : Key) : LookupResult := getFrom (l.active :: l.immutables) key

/-- `Freeze`. -/
def freeze (l : MemTableList) : MemTableList := ⟨.new, l.active :: l.immutables⟩

/-- `RemoveImmutable` of the oldest frozen MemTable, the only one it is called
    with (`immutables().back()`). -/
def removeOldest (l : MemTableList) : MemTableList := { l with immutables := l.immutables.dropLast }

/-- `ActiveShouldFlush`. -/
def activeShouldFlush (l : MemTableList) (sizeThresholdBytes : Nat) : Bool :=
  l.active.approximateMemoryUsage ≥ sizeThresholdBytes

/-- The layers of the list, newest first. -/
def layers (l : MemTableList) : List (Layer Key MemEntry) :=
  (l.active :: l.immutables).map MemTable.layer

end MemTableList

end PassionProjects.PebbleDB.Memtable
