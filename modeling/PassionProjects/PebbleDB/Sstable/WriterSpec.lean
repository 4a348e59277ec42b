/-
  PassionProjects.PebbleDB.Sstable.WriterSpec

  What the writer leaves when every call on the file succeeds: the entries cut
  into non-empty data blocks, a filter block or none, the index block that names
  the last key and the place of each data block, and the footer.
-/

import PassionProjects.PebbleDB.Sstable.Writer

namespace PassionProjects.PebbleDB.Sstable

open PassionProjects.Faults
open PassionProjects.Faults.Prog

-- ============================================================================
-- The parts of a table
-- ============================================================================

/-- The contents of a data block. -/
def blockBytes (entries : List Entry) : Bytes :=
  entries.flatMap fun e => encodeEntry e.key e.sequence e.type e.value

/-- The data blocks one after the other. -/
def dataBytes (blocks : List (List Entry)) : Bytes :=
  blocks.flatMap fun b => finishBlock (blockBytes b)

/-- The last key of a block. -/
def lastKey (entries : List Entry) : Key :=
  match entries.getLast? with
  | none => []
  | some e => e.key

/-- The index entries of data blocks that start at an offset. -/
def indexFrom : Nat → List (List Entry) → List IndexEntry
  | _, [] => []
  | offset, b :: blocks =>
    let size := (finishBlock (blockBytes b)).length
    ⟨lastKey b, ⟨UInt64.ofNat offset, UInt64.ofNat size⟩⟩ :: indexFrom (offset + size) blocks

/-- The contents of the index block. -/
def indexBytes (blocks : List (List Entry)) : Bytes :=
  (indexFrom 0 blocks).flatMap encodeIndexEntry

/-- The filter block with this content; there is none without content. -/
def filterBytes (filter : Bytes) : Bytes := if filter.isEmpty then [] else finishBlock filter

/-- The footer of a table. -/
def footerOf (blocks : List (List Entry)) (filter : Bytes) : Footer where
  formatVersion := kFormatVersion
  filterHandle :=
    { offset := UInt64.ofNat (dataBytes blocks).length
      size := UInt64.ofNat (filterBytes filter).length }
  indexHandle :=
    { offset := UInt64.ofNat ((dataBytes blocks).length + (filterBytes filter).length)
      size := UInt64.ofNat (finishBlock (indexBytes blocks)).length }
  numEntries := UInt64.ofNat blocks.flatten.length

/-- The file of a table with these data blocks and this filter. -/
def tableBytes (blocks : List (List Entry)) (filter : Bytes) : Bytes :=
  dataBytes blocks ++ (filterBytes filter ++ (finishBlock (indexBytes blocks) ++
    encodeFooter (footerOf blocks filter)))

theorem indexFrom_append (offset : Nat) (blocks : List (List Entry)) (b : List Entry) :
    indexFrom offset (blocks ++ [b]) = indexFrom offset blocks ++
      [⟨lastKey b, ⟨UInt64.ofNat (offset + (dataBytes blocks).length),
        UInt64.ofNat (finishBlock (blockBytes b)).length⟩⟩] := by
  induction blocks generalizing offset with
  | nil => rfl
  | cons b' blocks ih =>
      rw [List.cons_append, indexFrom, indexFrom, ih]
      simp only [dataBytes, List.flatMap_cons, List.length_append, List.cons_append, Nat.add_assoc]

theorem dataBytes_append (blocks : List (List Entry)) (b : List Entry) :
    dataBytes (blocks ++ [b]) = dataBytes blocks ++ finishBlock (blockBytes b) := by
  simp [dataBytes]

theorem lastKey_concat (entries : List Entry) (e : Entry) : lastKey (entries ++ [e]) = e.key := by
  simp [lastKey]

-- ============================================================================
-- One call
-- ============================================================================

/-- No call on the file fails. -/
def allSucceed : Policy TableOp Bytes := fun _ _ _ => false

variable {C : Bytes → Prop} {file : Bytes}

theorem wp_append {data : Bytes} {Q : Status → Bytes → Prop} (h : Q Status.OK (file ++ data)) :
    wp allSucceed (append data) Q C file :=
  wp_step h (fun _ hk => absurd hk (by simp [allSucceed]))
    (fun _ hk => absurd hk (by simp [allSucceed]))

theorem wp_sync {Q : Status → Bytes → Prop} (h : Q Status.OK file) :
    wp allSucceed sync Q C file :=
  wp_step h (fun _ hk => absurd hk (by simp [allSucceed]))
    (fun _ hk => absurd hk (by simp [allSucceed]))

namespace Writer

/-- A writer that has put `blocks` into its file and holds `current` back. -/
structure Wrote (options : WriterOptions) (blocks : List (List Entry)) (current : List Entry)
    (w : Writer) (file : Bytes) : Prop where
  same : w.options = options
  file : file = dataBytes blocks
  offset : w.fileOffset = UInt64.ofNat (dataBytes blocks).length
  index : w.indexBlock = indexBytes blocks
  held : w.currentBlockEntries = blockBytes current
  hasEntries : w.currentBlockHasEntries = !current.isEmpty
  lastInBlock : current ≠ [] → w.lastKeyInCurrentBlock = lastKey current
  filterKeys : w.keysForFilter =
      if options.filterBitsPerKey > 0 then (blocks.flatten ++ current).map Entry.key else []
  added : w.hasAddedAny = !(blocks.flatten ++ current).isEmpty
  lastAdded : w.lastKeyAdded = lastKey (blocks.flatten ++ current)
  count : w.entriesWritten = UInt64.ofNat (blocks.flatten ++ current).length
  unfinished : w.finished = false
  nonempty : ∀ b ∈ blocks, b ≠ []

variable {options : WriterOptions} {blocks : List (List Entry)} {current : List Entry} {w : Writer}

theorem wrote_new (options : WriterOptions) : Wrote options [] [] (new options) [] where
  same := rfl
  file := rfl
  offset := rfl
  index := rfl
  held := rfl
  hasEntries := rfl
  lastInBlock h := absurd rfl h
  filterKeys := by simp [new]
  added := rfl
  lastAdded := rfl
  count := rfl
  unfinished := rfl
  nonempty b hb := absurd hb (List.not_mem_nil)

/-- `FlushCurrentBlock` moves what is held back into a block of its own. -/
theorem flushCurrentBlock_spec (h : Wrote options blocks current w file) :
    wp allSucceed w.flushCurrentBlock (fun r file' => r.1 = Status.OK ∧
      ∃ blocks', blocks'.flatten = blocks.flatten ++ current ∧ Wrote options blocks' [] r.2 file')
      C file := by
  by_cases hnil : current = []
  · subst hnil
    have hhas : w.currentBlockHasEntries = false := h.hasEntries
    simp only [flushCurrentBlock, hhas, Bool.false_eq_true, if_false]
    exact wp_pure.mpr ⟨rfl, blocks, by rw [List.append_nil], h⟩
  · have hhas : w.currentBlockHasEntries = true := by
      rw [h.hasEntries]
      simpa using hnil
    have hflat : (blocks ++ [current]).flatten ++ [] = blocks.flatten ++ current := by simp
    simp only [flushCurrentBlock, hhas, if_true]
    refine wp_bind (wp_append ?_)
    simp only [Status.ok_OK, if_true]
    refine wp_pure.mpr ⟨rfl, blocks ++ [current], by simp, ?_⟩
    exact {
      same := h.same
      file := by rw [h.file, h.held, dataBytes_append]
      offset := by
        rw [dataBytes_append, List.length_append, UInt64.ofNat_add, ← h.offset, ← h.held]
      index := by
        show w.indexBlock ++ _ = _
        rw [indexBytes, indexFrom_append, List.flatMap_append, ← indexBytes, ← h.index,
          List.flatMap_singleton, Nat.zero_add, ← h.offset, ← h.lastInBlock hnil, ← h.held]
      held := rfl
      hasEntries := rfl
      lastInBlock := fun hne => absurd rfl hne
      filterKeys := by rw [hflat]; exact h.filterKeys
      added := by rw [hflat]; exact h.added
      lastAdded := by rw [hflat]; exact h.lastAdded
      count := by rw [hflat]; exact h.count
      unfinished := h.unfinished
      nonempty := fun b hb => by
        rcases List.mem_append.mp hb with hb | hb
        · exact h.nonempty b hb
        · rw [List.mem_singleton.mp hb]
          exact hnil }

/-- Taking an entry holds it back at the end of the current block. -/
theorem Wrote.take (h : Wrote options blocks current w file) (e : Entry) :
    Wrote options blocks (current ++ [e]) (w.take e.key e.value e.sequence e.type) file where
  same := h.same
  file := h.file
  offset := h.offset
  index := h.index
  held := by
    show w.currentBlockEntries ++ _ = _
    rw [h.held]
    simp [blockBytes]
  hasEntries := by simp [Writer.take]
  lastInBlock _ := (lastKey_concat current e).symm
  filterKeys := by
    show (if w.options.filterBitsPerKey > 0 then _ else _) = _
    rw [h.same, h.filterKeys]
    split
    · simp
    · rfl
  added := by simp [Writer.take]
  lastAdded := by rw [← List.append_assoc]; exact (lastKey_concat _ e).symm
  count := by
    show w.entriesWritten + 1 = _
    rw [h.count, ← List.append_assoc, ← List.concat_eq_append, List.length_concat,
      UInt64.ofNat_add]
    rfl
  unfinished := h.unfinished
  nonempty := h.nonempty

/-- `Add` of a key after all keys so far returns OK and takes the entry. -/
theorem add_spec (h : Wrote options blocks current w file) {e : Entry}
    (horder : ∀ e' ∈ blocks.flatten ++ current, e'.key < e.key) :
    wp allSucceed (w.add e.key e.value e.sequence e.type) (fun r file' => r.1 = Status.OK ∧
      ∃ blocks' current', blocks'.flatten ++ current' = blocks.flatten ++ current ++ [e] ∧
        Wrote options blocks' current' r.2 file') C file := by
  have haccept : ¬ (w.hasAddedAny = true ∧ e.key ≤ w.lastKeyAdded) := by
    rintro ⟨hany, hle⟩
    have hne : blocks.flatten ++ current ≠ [] := by
      rw [h.added] at hany
      simpa using hany
    obtain ⟨init, last, hsplit⟩ : ∃ init last, blocks.flatten ++ current = init ++ [last] :=
      ⟨_, _, (List.dropLast_concat_getLast hne).symm⟩
    rw [h.lastAdded, hsplit, lastKey_concat] at hle
    exact List.not_lt.mpr hle (horder last (by rw [hsplit]; simp))
  have htake := h.take e
  have hassoc : blocks.flatten ++ (current ++ [e]) = blocks.flatten ++ current ++ [e] :=
    (List.append_assoc _ _ _).symm
  simp only [add, h.unfinished, Bool.false_eq_true, if_false, if_neg haccept]
  split
  · refine wp_mono (flushCurrentBlock_spec htake) ?_ (fun _ => id)
    rintro ⟨s, w'⟩ file' ⟨hs, blocks', hflat, hw⟩
    exact ⟨hs, blocks', [], by rw [List.append_nil, hflat, hassoc], hw⟩
  · exact wp_pure.mpr ⟨rfl, blocks, current ++ [e], hassoc, htake⟩

/-- Every `Add` of a strictly increasing list returns OK. -/
theorem addAll_spec (entries : List Entry) (h : Wrote options blocks current w file)
    (hsorted : (blocks.flatten ++ current ++ entries).Pairwise fun a b => a.key < b.key) :
    wp allSucceed (addAll entries w) (fun r file' => r.1 = entries.map (fun _ => Status.OK) ∧
      ∃ blocks' current', blocks'.flatten ++ current' = blocks.flatten ++ current ++ entries ∧
        Wrote options blocks' current' r.2 file') C file := by
  induction entries generalizing blocks current w file with
  | nil => exact wp_pure.mpr ⟨rfl, blocks, current, by rw [List.append_nil], h⟩
  | cons e entries ih =>
      have horder : ∀ e' ∈ blocks.flatten ++ current, e'.key < e.key := fun e' he' =>
        (List.pairwise_append.mp hsorted).2.2 e' he' e (by simp)
      refine wp_bind (wp_mono (add_spec h horder) ?_ (fun _ => id))
      rintro ⟨s, w'⟩ file' ⟨rfl, blocks', current', hflat, hw⟩
      have hmore : blocks'.flatten ++ current' ++ entries =
          blocks.flatten ++ current ++ e :: entries := by rw [hflat]; simp
      refine wp_bind (wp_mono (ih hw (by rw [hmore]; exact hsorted)) ?_ (fun _ => id))
      rintro ⟨ss, w''⟩ file'' ⟨rfl, blocks'', current'', hflat', hw'⟩
      exact wp_pure.mpr ⟨rfl, blocks'', current'', by rw [hflat', hmore], hw'⟩

-- ============================================================================
-- Finish
-- ============================================================================

/-- The filter that `Finish` writes for entries: empty when there is none. -/
def FilterFor (options : WriterOptions) (entries : List Entry) (filter : Bytes) : Prop :=
  filter ≠ [] → Bloom.buildFilter (entries.map Entry.key) options.filterBitsPerKey = some filter

/-- The writer with its offset at `n`. -/
def seek (w : Writer) (n : Nat) : Writer := { w with fileOffset := UInt64.ofNat n }

/-- The filter block comes after the data blocks. -/
theorem writeFilter_spec (h : Wrote options blocks [] w file)
    (hbits : Bloom.totalBits blocks.flatten.length options.filterBitsPerKey.toNat < 2 ^ 32) :
    wp allSucceed w.writeFilter (fun r file' => r.1 = Status.OK ∧ ∃ filter,
      FilterFor options blocks.flatten filter ∧ file' = dataBytes blocks ++ filterBytes filter ∧
      r.2.1 = w.seek ((dataBytes blocks).length + (filterBytes filter).length) ∧
      r.2.2 = (footerOf blocks filter).filterHandle) C file := by
  have habsent : Status.OK = Status.OK ∧ ∃ filter, FilterFor options blocks.flatten filter ∧
      file = dataBytes blocks ++ filterBytes filter ∧
      w = w.seek ((dataBytes blocks).length + (filterBytes filter).length) ∧
      (⟨w.fileOffset, 0⟩ : BlockHandle) = (footerOf blocks filter).filterHandle := by
    refine ⟨rfl, [], fun hne => absurd rfl hne, ?_, ?_, ?_⟩
    · simp [h.file, filterBytes]
    · rw [filterBytes, List.isEmpty_nil, if_pos rfl, List.length_nil, Nat.add_zero, seek,
        ← h.offset]
    · rw [h.offset]
      rfl
  unfold writeFilter
  split
  · exact wp_pure.mpr habsent
  · next hkeys =>
    have hfilterKeys := h.filterKeys
    rw [List.append_nil] at hfilterKeys
    by_cases hzero : options.filterBitsPerKey > 0
    · rw [if_pos hzero] at hfilterKeys
      have hne : blocks.flatten.map Entry.key ≠ [] := by
        rw [← hfilterKeys]
        simpa using hkeys
      have hbits0 : options.filterBitsPerKey ≠ 0 := by
        rintro heq
        rw [heq] at hzero
        exact absurd hzero (by decide)
      obtain ⟨filter, hbuild, hfilter, -, -⟩ :=
        Bloom.buildFilter_spec hne hbits0 (by rwa [List.length_map])
      have hisEmpty : filter.isEmpty = false := by simpa using hfilter
      have hbytes : filterBytes filter = finishBlock filter := by simp [filterBytes, hisEmpty]
      have hbuilt : Bloom.buildFilter w.keysForFilter w.options.filterBitsPerKey = some filter := by
        rw [h.same, hfilterKeys, hbuild]
      simp only [hbuilt, hisEmpty, Bool.false_eq_true, if_false]
      refine wp_bind (wp_append ?_)
      simp only [Status.ok_OK, if_true]
      refine wp_pure.mpr ⟨rfl, filter, fun _ => hbuild, ?_, ?_, ?_⟩
      · rw [h.file, hbytes]
      · rw [seek, hbytes, UInt64.ofNat_add, ← h.offset]
      · rw [h.offset, ← hbytes]
        rfl
    · rw [if_neg hzero] at hfilterKeys
      exact absurd (by rw [hfilterKeys]; rfl) hkeys

/-- The index block and the footer come last. -/
theorem writeEnd_spec {filter : Bytes}
    (hfile : file = dataBytes blocks ++ filterBytes filter)
    (hoffset : w.fileOffset =
      UInt64.ofNat ((dataBytes blocks).length + (filterBytes filter).length))
    (hindex : w.indexBlock = indexBytes blocks)
    (hcount : w.entriesWritten = UInt64.ofNat blocks.flatten.length) :
    wp allSucceed (w.writeEnd (footerOf blocks filter).filterHandle)
      (fun r file' => r.1 = Status.OK ∧ file' = tableBytes blocks filter) C file := by
  refine wp_bind (wp_append ?_)
  simp only [Status.ok_OK, if_true]
  refine wp_bind (wp_append ?_)
  simp only [Status.ok_OK, if_true]
  refine wp_bind (wp_sync (wp_pure.mpr ⟨rfl, ?_⟩))
  rw [hfile, hoffset, hindex, hcount, tableBytes, List.append_assoc, List.append_assoc]
  rfl

/-- `Finish` returns OK and completes the table. -/
theorem finish_spec (h : Wrote options blocks current w file)
    (hbits : Bloom.totalBits (blocks.flatten ++ current).length
      options.filterBitsPerKey.toNat < 2 ^ 32) :
    wp allSucceed w.finish (fun r file' => r.1 = Status.OK ∧ ∃ blocks' filter,
      blocks'.flatten = blocks.flatten ++ current ∧ (∀ b ∈ blocks', b ≠ []) ∧
      FilterFor options blocks'.flatten filter ∧ file' = tableBytes blocks' filter) C file := by
  simp only [finish, h.unfinished, Bool.false_eq_true, if_false]
  refine wp_bind (wp_mono (flushCurrentBlock_spec h) ?_ (fun _ => id))
  rintro ⟨s, w'⟩ file' ⟨rfl, blocks', hflat, hw⟩
  simp only [Status.ok_OK, if_true]
  refine wp_bind (wp_mono (writeFilter_spec hw (by rwa [hflat])) ?_ (fun _ => id))
  rintro ⟨s, w'', handle⟩ file'' ⟨rfl, filter, hfilter, hfile, rfl, rfl⟩
  simp only [Status.ok_OK, if_true]
  refine wp_mono (writeEnd_spec hfile rfl hw.index ?_) ?_ (fun _ => id)
  · show w'.entriesWritten = _
    rw [hw.count, List.append_nil]
  · rintro ⟨s, w₃⟩ file₃ ⟨rfl, rfl⟩
    exact ⟨rfl, blocks', filter, hflat, hw.nonempty, hfilter, rfl⟩

/-- A table of strictly increasing keys is written without an error. -/
theorem writeTable_spec (options : WriterOptions) {entries : List Entry}
    (hsorted : entries.Pairwise fun a b => a.key < b.key)
    (hbits : Bloom.totalBits entries.length options.filterBitsPerKey.toNat < 2 ^ 32) :
    wp allSucceed (writeTable options entries) (fun r file =>
      r = (entries.map fun _ => Status.OK, Status.OK) ∧ ∃ blocks filter,
        blocks.flatten = entries ∧ (∀ b ∈ blocks, b ≠ []) ∧ FilterFor options entries filter ∧
        file = tableBytes blocks filter) (fun _ => False) [] := by
  refine wp_bind (wp_mono (addAll_spec entries (wrote_new options)
    (by simpa using hsorted)) ?_ (fun _ => id))
  rintro ⟨added, w⟩ file ⟨rfl, blocks, current, hflat, hw⟩
  have hflat : blocks.flatten ++ current = entries := by simpa using hflat
  refine wp_bind (wp_mono (finish_spec hw (by rwa [hflat])) ?_ (fun _ => id))
  rintro ⟨s, w'⟩ file' ⟨rfl, blocks', filter, hflat', hne, hfilter, hfile⟩
  rw [hflat] at hflat'
  rw [hflat'] at hfilter
  exact wp_pure.mpr ⟨rfl, blocks', filter, hflat', hne, hfilter, hfile⟩

end Writer

end PassionProjects.PebbleDB.Sstable
