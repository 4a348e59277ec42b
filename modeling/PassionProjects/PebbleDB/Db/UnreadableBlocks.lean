/-
  PassionProjects.PebbleDB.Db.UnreadableBlocks

  Tables some of whose data blocks cannot be read.

  `Get` of a table reads the one block that may hold the key, `ForEachEntry` all
  blocks in order up to the first that cannot be read.  So a key behind such a
  block is found by the one and missed by the other.
-/

import PassionProjects.PebbleDB.Db.BlockReads

namespace PassionProjects.PebbleDB

open PassionProjects.Layers
open PassionProjects.LowerBound
open PassionProjects.PebbleDB.Memtable
open PassionProjects.PebbleDB.Sstable

/-- A data block and the status with which `ReadDataBlock` fails on it, if it does. -/
structure DataBlock where
  entries : List Entry
  failure : Option Status
  deriving DecidableEq

/-- A table by its data blocks; `filter` says which keys its filter block lets through. -/
structure BlockTable where
  blocks : List DataBlock
  filter : Key → Bool
  nonempty : ∀ b ∈ blocks, b.entries ≠ []
  sorted : Sorted (blocks.flatMap DataBlock.entries)
  passes : ∀ e ∈ blocks.flatMap DataBlock.entries, filter e.key = true

namespace BlockTable

/-- What the table holds, readable or not. -/
def entries (t : BlockTable) : List Entry := t.blocks.flatMap DataBlock.entries

/-- The block of `Get`: the first whose last key is not before the key. -/
def blockFor (t : BlockTable) (key : Key) : Option DataBlock :=
  t.blocks.find? fun b => !decide (lastKey b.entries < key)

/-- `Get`. -/
def get (t : BlockTable) (key : Key) : Except Status LookupResult :=
  if t.filter key then
    match t.blockFor key with
    | none => .ok .kNotFound
    | some b =>
      match b.failure with
      | some s => .error s
      | none => .ok (lookup b.entries key)
  else .ok .kNotFound

/-- The loop of `ForEachEntry`. -/
def forEachBlock : List DataBlock → List Entry × Status
  | [] => ([], Status.OK)
  | b :: rest =>
    match b.failure with
    | some s => ([], s)
    | none =>
      let (others, s) := forEachBlock rest
      (b.entries ++ others, s)

/-- The reader that the DB has on the table. -/
def reader (t : BlockTable) : TableReader := ⟨t.get, forEachBlock t.blocks⟩

/-- The blocks in front of the first that cannot be read. -/
def readFirst (t : BlockTable) : List DataBlock := t.blocks.takeWhile fun b => b.failure.isNone

/-- The block of the key can be read, and one in front of it cannot. -/
def Hides (t : BlockTable) (key : Key) : Prop :=
  ∃ b, t.blockFor key = some b ∧ b.failure = none ∧ b ∉ t.readFirst

/-- Every block can be read. -/
def Intact (t : BlockTable) : Prop := ∀ b ∈ t.blocks, b.failure = none

/-- The table as it was written. -/
def repaired (t : BlockTable) : BlockTable where
  blocks := t.blocks.map fun b => ⟨b.entries, none⟩
  filter := t.filter
  nonempty b hb := by
    obtain ⟨b', hb', rfl⟩ := List.mem_map.mp hb
    exact t.nonempty b' hb'
  sorted := by
    rw [List.flatMap_map]
    exact t.sorted
  passes := by
    rw [List.flatMap_map]
    exact t.passes

/-- The table with more blocks that cannot be read. -/
structure Damaged (t t' : BlockTable) : Prop where
  filter : t'.filter = t.filter
  blocks : List.Forall₂
    (fun b b' => b'.entries = b.entries ∧ (b.failure ≠ none → b'.failure ≠ none))
    t.blocks t'.blocks

variable {t t' : BlockTable} {key : Key}

-- ============================================================================
-- Looking up
-- ============================================================================

/-- In blocks that are in order, only the block of the key can hold it. -/
theorem find?_blocks {blocks : List DataBlock} (hne : ∀ b ∈ blocks, b.entries ≠ [])
    (hsorted : Sorted (blocks.flatMap DataBlock.entries)) (key : Key) :
    (blocks.flatMap DataBlock.entries).find? (fun e => e.key == key) =
      (blocks.find? fun b => !decide (lastKey b.entries < key)).bind fun b =>
        b.entries.find? fun e => e.key == key := by
  have hflat : blocks.flatMap DataBlock.entries = (blocks.map DataBlock.entries).flatten :=
    List.flatMap_def
  have hne' : ∀ s ∈ blocks.map DataBlock.entries, s ≠ [] := fun s hs => by
    obtain ⟨b, hb, rfl⟩ := List.mem_map.mp hs
    exact hne b hb
  rw [hflat] at hsorted ⊢
  have hsegments : (blocks.map DataBlock.entries).flatten.find? (fun e => e.key == key) =
      ((blocks.map DataBlock.entries).find? fun s => !decide (lastKey s < key)).bind fun s =>
        s.find? fun e => e.key == key :=
    find?_segments (fun a b : Key => a < b) List.lt_irrefl (fun _ _ _ => List.lt_trans)
      (fun s e hlast => by simp [lastKey, hlast]) hne' hsorted
  rw [hsegments, List.find?_map, Option.bind_map]
  rfl

theorem find?_entries (t : BlockTable) (key : Key) :
    t.entries.find? (fun e => e.key == key) =
      (t.blockFor key).bind fun b => b.entries.find? fun e => e.key == key :=
  find?_blocks t.nonempty t.sorted key

theorem entriesLayer_eq_none {entries : List Entry}
    (h : entries.find? (fun e => e.key == key) = none) :
    entriesLayer entries key = none := by rw [entriesLayer, h, Option.map_none]

theorem entriesLayer_entries_eq (t : BlockTable) (key : Key) :
    entriesLayer t.entries key = (t.blockFor key).bind fun b => entriesLayer b.entries key := by
  unfold entriesLayer
  rw [find?_entries, Option.map_bind]
  rfl

/-- The filter lets every key of the table through. -/
theorem find?_of_filtered (h : ¬ t.filter key = true) :
    t.entries.find? (fun e => e.key == key) = none := by
  rw [List.find?_eq_none]
  intro e he heq
  have heq : e.key = key := by simpa using heq
  exact h (heq ▸ t.passes e he)

/-- A key that `Get` does not find is not in the table. -/
theorem find?_of_get_notFound (h : t.get key = .ok .kNotFound) :
    t.entries.find? (fun e => e.key == key) = none := by
  unfold get at h
  by_cases hfilter : t.filter key = true
  · rw [find?_entries]
    rw [if_pos hfilter] at h
    cases hblock : t.blockFor key with
    | none => rfl
    | some b =>
        rw [hblock] at h
        cases hfailure : b.failure with
        | some s => simp [hfailure] at h
        | none =>
            have hlookup : lookup b.entries key = .kNotFound := by simpa [hfailure] using h
            have hlayer : entriesLayer b.entries key = none :=
              answer_eq_notFound.mp ((lookup_eq_answer b.entries key).symm.trans hlookup)
            exact Option.map_eq_none_iff.mp hlayer
  · exact find?_of_filtered hfilter

/-- What `Get` finds is in the block of the key. -/
theorem block_of_get_found {value : Value} {sequence : UInt64}
    (h : t.get key = .ok (.kFound value sequence)) :
    ∃ b, t.blockFor key = some b ∧ b.failure = none ∧
      lookup b.entries key = .kFound value sequence := by
  unfold get at h
  split at h
  · cases hblock : t.blockFor key with
    | none => simp [hblock] at h
    | some b =>
        cases hfailure : b.failure with
        | some s => simp [hblock, hfailure] at h
        | none => exact ⟨b, rfl, hfailure, by simpa [hblock, hfailure] using h⟩
  · exact absurd h (by simp)

-- ============================================================================
-- Passing entries on
-- ============================================================================

/-- `ForEachEntry` passes on the entries of the blocks in front of the first that
    cannot be read. -/
theorem forEachBlock_entries (blocks : List DataBlock) :
    (forEachBlock blocks).1 =
      (blocks.takeWhile fun b => b.failure.isNone).flatMap DataBlock.entries := by
  induction blocks with
  | nil => rfl
  | cons b blocks ih =>
      unfold forEachBlock
      cases hfailure : b.failure with
      | some s => simp [hfailure]
      | none => simp [hfailure, ih]

theorem forEachBlock_intact {blocks : List DataBlock} (h : ∀ b ∈ blocks, b.failure = none) :
    forEachBlock blocks = (blocks.flatMap DataBlock.entries, Status.OK) := by
  induction blocks with
  | nil => rfl
  | cons b blocks ih =>
      unfold forEachBlock
      simp [h b List.mem_cons_self, ih fun b' hb' => h b' (List.mem_cons_of_mem b hb')]

theorem readFirst_prefix (t : BlockTable) : t.readFirst <+: t.blocks := List.takeWhile_prefix _

/-- A key that is not in the table is not passed on. -/
theorem layer_of_get_notFound (h : t.get key = .ok .kNotFound) : t.reader.layer key = none := by
  refine entriesLayer_eq_none ?_
  have hnone := List.find?_eq_none.mp (find?_of_get_notFound h)
  show List.find? _ (forEachBlock t.blocks).1 = none
  rw [forEachBlock_entries, List.find?_eq_none]
  intro e he
  obtain ⟨b, hb, heb⟩ := List.mem_flatMap.mp he
  exact hnone e (List.mem_flatMap.mpr ⟨b, t.readFirst_prefix.subset hb, heb⟩)

/-- A key found in a block that `ForEachEntry` reads is passed on. -/
theorem layer_of_readFirst {b : DataBlock} (hblock : t.blockFor key = some b)
    (hread : b ∈ t.readFirst) : t.reader.layer key = entriesLayer b.entries key := by
  obtain ⟨rest, hrest⟩ := t.readFirst_prefix
  have hsub : (t.readFirst.flatMap DataBlock.entries).Sublist
      (t.blocks.flatMap DataBlock.entries) := by
    rw [← hrest, List.flatMap_append]
    exact List.sublist_append_left _ _
  have hfind : (t.readFirst.find? fun b => !decide (lastKey b.entries < key)) = some b := by
    have hb := hblock
    unfold blockFor at hb
    rw [← hrest, List.find?_append] at hb
    cases hfirst : t.readFirst.find? fun b => !decide (lastKey b.entries < key) with
    | some b' => simpa [hfirst] using hb
    | none =>
        have hp := List.find?_eq_none.mp hfirst b hread
        exact absurd (List.find?_some (hblock : List.find? _ _ = _)) hp
  have hkey := find?_blocks (fun b hb => t.nonempty b (t.readFirst_prefix.subset hb))
    (List.Pairwise.sublist hsub t.sorted) key
  show entriesLayer (forEachBlock t.blocks).1 key = _
  rw [forEachBlock_entries]
  show (List.find? _ (t.readFirst.flatMap DataBlock.entries)).map _ = _
  rw [hkey, hfind]
  rfl

-- ============================================================================
-- Damage
-- ============================================================================

/-- Further damage takes answers away and changes none. -/
theorem Damaged.get (h : Damaged t t') (key : Key) :
    t'.get key = t.get key ∨ ∃ s, t'.get key = .error s := by
  unfold BlockTable.get
  rw [h.filter]
  split
  · have hrel := find?_forall₂ (p := fun b : DataBlock => !decide (lastKey b.entries < key))
      (q := fun b : DataBlock => !decide (lastKey b.entries < key)) h.blocks
      fun b b' hb => by rw [hb.1]
    unfold blockFor
    cases hb : t.blocks.find? fun b => !decide (lastKey b.entries < key) with
    | none =>
        rw [hb] at hrel
        cases hb' : t'.blocks.find? fun b => !decide (lastKey b.entries < key) with
        | none => exact Or.inl rfl
        | some b' => rw [hb'] at hrel; cases hrel
    | some b =>
        rw [hb] at hrel
        cases hb' : t'.blocks.find? fun b => !decide (lastKey b.entries < key) with
        | none => rw [hb'] at hrel; cases hrel
        | some b' =>
            rw [hb'] at hrel
            cases hrel with
            | some hrel =>
                obtain ⟨hentries, hfailure⟩ := hrel
                cases hf' : b'.failure with
                | some s => exact Or.inr ⟨s, by simp [hf']⟩
                | none =>
                    have hf : b.failure = none := by
                      by_contra hne
                      exact hfailure hne hf'
                    exact Or.inl (by simp [hf, hf', hentries])
  · exact Or.inl rfl

/-- A table that can be read to its end answers as its entries do. -/
theorem Intact.reader (h : t.Intact) : t.reader = .complete t.entries := by
  have hget : t.get = fun key => .ok (TableReader.lookup t.entries key) := by
    funext key
    have hlookup : lookup t.entries key = answer ((t.blockFor key).bind fun b =>
        entriesLayer b.entries key) := by
      rw [← entriesLayer_entries_eq]
      exact lookup_eq_answer t.entries key
    show t.get key = .ok (lookup t.entries key)
    rw [hlookup]
    unfold get
    by_cases hfilter : t.filter key = true
    · rw [if_pos hfilter]
      cases hblock : t.blockFor key with
      | none => rfl
      | some b =>
          simp only [h b (List.mem_of_find?_eq_some hblock)]
          exact congrArg Except.ok (lookup_eq_answer b.entries key)
    · rw [if_neg hfilter, ← entriesLayer_entries_eq,
        entriesLayer_eq_none (find?_of_filtered hfilter)]
      rfl
  have heach : forEachBlock t.blocks = (t.entries, Status.OK) := forEachBlock_intact h
  unfold BlockTable.reader TableReader.complete
  rw [hget, heach]

theorem intact_repaired (t : BlockTable) : t.repaired.Intact := fun b hb => by
  obtain ⟨b', -, rfl⟩ := List.mem_map.mp hb
  rfl

theorem entries_repaired (t : BlockTable) : t.repaired.entries = t.entries := List.flatMap_map _ _ _

theorem damaged_repaired (t : BlockTable) : Damaged t.repaired t where
  filter := rfl
  blocks := List.forall₂_map_left_iff.mpr
    (List.forall₂_same.mpr fun _ _ => ⟨rfl, fun h => absurd rfl h⟩)

end BlockTable

-- ============================================================================
-- The table reader on a damaged file
-- ============================================================================

variable {r : Reader} {file : ReadableFile} {blocks : List (List Entry)}

/-- An index entry leads to a block, or to a failure. -/
structure LeadsToBlock (r : Reader) (file : ReadableFile) (entry : IndexEntry) (b : DataBlock) :
    Prop where
  lastKey : entry.lastKey = lastKey b.entries
  read : Reader.readBlock file r.fileSize entry.handle =
    match b.failure with
    | some s => .error s
    | none => .ok (blockBytes b.entries)

theorem exists_dataBlocks {index : List IndexEntry}
    (h : List.Forall₂ (LeadsTo r.file r.fileSize) index blocks)
    (hd : ∀ entry ∈ index, Unaltered r file entry.handle ∨ Rejected file entry.handle) :
    ∃ ds : List DataBlock, ds.map DataBlock.entries = blocks ∧
      List.Forall₂ (LeadsToBlock r file) index ds := by
  induction h with
  | nil => exact ⟨[], rfl, .nil⟩
  | @cons entry b index bs hhead _ ih =>
      obtain ⟨ds, hds, hleads⟩ := ih fun e he => hd e (List.mem_cons_of_mem entry he)
      rcases hd entry List.mem_cons_self with hsame | ⟨raw, ds', hread, hverify⟩
      · have hblock : Reader.readBlock file r.fileSize entry.handle = .ok (blockBytes b) := by
          rw [← hhead.2, Reader.readBlock, Reader.readBlock, hsame]
        exact ⟨⟨b, none⟩ :: ds, by simp [hds], .cons ⟨hhead.1, hblock⟩ hleads⟩
      · obtain ⟨s, hblock⟩ : ∃ s, Reader.readBlock file r.fileSize entry.handle = .error s := by
          unfold Reader.readBlock
          cases hok : (validateHandleInBounds entry.handle r.fileSize "sstable block").ok with
          | true => exact ⟨_, by simp only [hok, if_true, hread, hverify]; rfl⟩
          | false => exact ⟨_, by simp only [hok, Bool.false_eq_true, if_false]; rfl⟩
        exact ⟨⟨b, some s⟩ :: ds, by simp [hds], .cons ⟨hhead.1, hblock⟩ hleads⟩

theorem forEachBlock_onFile {index : List IndexEntry} {ds : List DataBlock}
    (h : List.Forall₂ (LeadsToBlock r file) index ds)
    (hfits : ∀ e ∈ ds.flatMap DataBlock.entries, e.Fits ∧ e.stored = e) :
    (Reader.onFile r file).forEachBlock index none =
      ((BlockTable.forEachBlock ds).1, (BlockTable.forEachBlock ds).2, none) := by
  induction h with
  | nil => rfl
  | @cons entry b index ds hhead _ ih =>
      have hrest := ih fun e he => hfits e (by
        rw [List.flatMap_cons]
        exact List.mem_append_right _ he)
      have hread : (Reader.onFile r file).readDataBlock none entry.handle =
          (Reader.readBlock file r.fileSize entry.handle, none) := rfl
      unfold Reader.forEachBlock BlockTable.forEachBlock
      rw [hread, hhead.read]
      cases b.failure with
      | some s => rfl
      | none =>
          have hmem : ∀ e ∈ b.entries, e.Fits ∧ e.stored = e := fun e he => hfits e (by
            rw [List.flatMap_cons]
            exact List.mem_append_left _ he)
          have hentries : Reader.entriesOf (blockBytes b.entries).length (blockBytes b.entries) =
              (b.entries.map Entry.stored, Status.OK) :=
            entriesOf_blockBytes (fun e he => (hmem e he).1) (Nat.le_refl _)
          have hstored : b.entries.map Entry.stored = b.entries :=
            (List.map_congr_left fun e he => (hmem e he).2).trans (List.map_id _)
          simp only [hentries, hstored, Status.ok_OK, if_true, hrest]

/-- The reader of a table, on a file in which some data blocks no longer verify, is
    the reader of a table with unreadable blocks. -/
theorem exists_blockTable (hs : Serves r blocks) (hfilter : FilterServes r blocks.flatten)
    (hstored : ∀ e ∈ blocks.flatten, e.stored = e) (hd : BlocksDamaged r file) :
    ∃ t : BlockTable, t.blocks.map DataBlock.entries = blocks ∧
      (∀ key, (Reader.onFile r file).get none key = some (t.reader.get key, none)) ∧
      (Reader.onFile r file).forEachEntry none =
        (t.reader.forEachEntry.1, t.reader.forEachEntry.2, none) := by
  obtain ⟨ds, hds, hleads⟩ := exists_dataBlocks hs.leads hd
  have hflat : ds.flatMap DataBlock.entries = blocks.flatten := by rw [List.flatMap_def, hds]
  have hne : ∀ b ∈ ds, b.entries ≠ [] := fun b hb =>
    hs.nonempty _ (hds ▸ List.mem_map_of_mem hb)
  let t : BlockTable := {
    blocks := ds
    filter := fun key => r.passesFilter key == some true
    nonempty := hne
    sorted := hflat ▸ hs.sorted
    passes := fun e he => by
      rw [hflat] at he
      simp [hfilter.2 e he] }
  have hmem {b : DataBlock} (hb : b ∈ ds) : ∀ e ∈ b.entries, e ∈ blocks.flatten := fun e he =>
    hflat ▸ List.mem_flatMap.mpr ⟨b, hb, he⟩
  refine ⟨t, hds, fun key => ?_, ?_⟩
  · have hfor : (Reader.onFile r file).blockFor key =
        r.index.find? fun entry => !decide (entry.lastKey < key) :=
      getElem?_lowerBound (hs.lastKeys.imp fun hab hb => by
        have hb := of_decide_eq_true hb
        exact decide_eq_true (List.lt_trans hab hb))
    have hrel := find?_forall₂ (p := fun entry => !decide (entry.lastKey < key))
      (q := fun b : DataBlock => !decide (lastKey b.entries < key)) hleads
      fun entry b hb => by rw [hb.lastKey]
    obtain ⟨passes, hpasses⟩ := hfilter.1 key
    show (Reader.onFile r file).get none key = some (t.get key, none)
    have hpass : (Reader.onFile r file).passesFilter key = some passes := hpasses
    unfold Reader.get BlockTable.get
    rw [hpass]
    cases passes with
    | false => simp [t, hpasses]
    | true =>
        have hthrough : t.filter key = true := by simp [t, hpasses]
        rw [if_pos hthrough]
        simp only [Reader.getUnfiltered, hfor]
        cases hblock : ds.find? fun b => !decide (lastKey b.entries < key) with
        | none =>
            rw [hblock] at hrel
            cases hindex : r.index.find? fun entry => !decide (entry.lastKey < key) with
            | some entry => rw [hindex] at hrel; cases hrel
            | none =>
                have hnone : t.blockFor key = none := hblock
                simp only [hnone]
        | some b =>
            rw [hblock] at hrel
            cases hindex : r.index.find? fun entry => !decide (entry.lastKey < key) with
            | none => rw [hindex] at hrel; cases hrel
            | some entry =>
                rw [hindex] at hrel
                cases hrel with
                | some hleads =>
                    have hb := List.mem_of_find?_eq_some hblock
                    have hsome : t.blockFor key = some b := hblock
                    have hread : (Reader.onFile r file).readDataBlock none entry.handle =
                        (Reader.readBlock file r.fileSize entry.handle, none) := rfl
                    have hsearch : Reader.searchBlock key (blockBytes b.entries).length
                        (blockBytes b.entries) = .ok (lookup b.entries key) :=
                      searchBlock_blockBytes (fun e he => hs.fits e (hmem hb e he))
                        ((List.pairwise_flatten.mp hs.sorted).1 _
                          (hds ▸ List.mem_map_of_mem hb)) key (Nat.le_refl _)
                    simp only [hsome, hread, hleads.read]
                    cases b.failure with
                    | some s => rfl
                    | none => simp only [hsearch]
  · exact forEachBlock_onFile hleads fun e he => by
      rw [hflat] at he
      exact ⟨hs.fits e he, hstored e he⟩

end PassionProjects.PebbleDB
