/-
  PassionProjects.PebbleDB.Sstable.ReaderSafety

  The table reader on any file.  `Open` and `ForEachEntry` never leave a buffer or
  the file and end, whatever the bytes are: the checked reader has a result, and
  it is the reader's.  `Get` does as well unless the filter has a number of bits
  that 32 bits cannot tell from zero.
-/

import PassionProjects.PebbleDB.Sstable.CheckedReader
import PassionProjects.PebbleDB.Sstable.RoundTrip

namespace PassionProjects.PebbleDB.Sstable

open PassionProjects.Checked
open PassionProjects.PebbleDB.Util
open PassionProjects.PebbleDB.Cache

namespace Checked

-- ============================================================================
-- Decoders
-- ============================================================================

theorem fixed32_eq {buf : Bytes} {offset : Nat} (h : offset + 4 ≤ buf.length) :
    fixed32 buf offset = some (decodeFixed32 (buf.drop offset)) := by
  rw [fixed32, slice_eq h, Option.map_some, decodeFixed32_take]

theorem fixed64_eq {buf : Bytes} {offset : Nat} (h : offset + 8 ≤ buf.length) :
    fixed64 buf offset = some (decodeFixed64 (buf.drop offset)) := by
  rw [fixed64, slice_eq h, Option.map_some, decodeFixed64_take]

theorem getElem?_eq {buf : Bytes} {i : Nat} (h : i < buf.length) :
    buf[i]? = some (buf.getD i 0) := by
  rw [List.getD_eq_getElem?_getD, List.getElem?_eq_getElem h, Option.getD_some]

/-- Two 32-bit lengths and a header stay far below the size of the address space. -/
theorem decodeEntry_eq (input : Bytes) : decodeEntry input = some (Sstable.decodeEntry input) := by
  unfold decodeEntry Sstable.decodeEntry
  by_cases hshort : input.length < kEntryHeaderSize
  · rw [if_pos hshort, if_pos hshort]
  have hheader : 17 ≤ input.length := Nat.not_lt.mp hshort
  have hkey := (decodeFixed32 (input.drop 9)).toNat_lt
  have hvalue := (decodeFixed32 (input.drop 13)).toNat_lt
  have hwithKey := @add_eq kEntryHeaderSize (decodeFixed32 (input.drop 9)).toNat
    (by simp only [kEntryHeaderSize]; omega)
  have htotal := @add_eq (kEntryHeaderSize + (decodeFixed32 (input.drop 9)).toNat)
    (decodeFixed32 (input.drop 13)).toNat (by simp only [kEntryHeaderSize]; omega)
  rw [if_neg hshort, if_neg hshort, getElem?_eq (by omega)]
  simp only [Option.bind_eq_bind, Option.bind_some]
  cases entryTypeOf (input.getD 0 0) with
  | none => rfl
  | some type =>
      simp only [fixed64_eq (show 1 + 8 ≤ input.length by omega),
        fixed32_eq (show 9 + 4 ≤ input.length by omega),
        fixed32_eq (show 13 + 4 ≤ input.length by omega), Option.bind_some, hwithKey, htotal]
      split
      · rfl
      · next hlong =>
        rw [slice_eq (by omega), slice_eq (by omega), removePrefix_eq (by omega)]
        rfl

theorem decodeIndexEntry_eq (input : Bytes) :
    decodeIndexEntry input = some (Sstable.decodeIndexEntry input) := by
  unfold decodeIndexEntry Sstable.decodeIndexEntry
  by_cases hshort : input.length < 4
  · rw [if_pos hshort, if_pos hshort]
  have hkey := (decodeFixed32 input).toNat_lt
  have htotal := @add_eq kFixedPart (decodeFixed32 input).toNat
    (by simp only [kFixedPart]; omega)
  rw [if_neg hshort, if_neg hshort]
  simp only [Option.bind_eq_bind, fixed32_eq (show 0 + 4 ≤ input.length by omega),
    Option.bind_some, List.drop_zero, htotal]
  split
  · rfl
  · next hlong =>
    simp only [kFixedPart] at hlong ⊢
    rw [slice_eq (by omega), fixed64_eq (by omega), fixed64_eq (by omega),
      removePrefix_eq (by omega)]
    rfl

theorem verifyAndStripBlockTrailer_eq (rawBlock : Bytes) :
    verifyAndStripBlockTrailer rawBlock = some (Sstable.verifyAndStripBlockTrailer rawBlock) := by
  unfold verifyAndStripBlockTrailer Sstable.verifyAndStripBlockTrailer
  by_cases hshort : rawBlock.length < kBlockTrailerSize
  · rw [if_pos hshort, if_pos hshort]
  have htrailer : kBlockTrailerSize ≤ rawBlock.length := Nat.not_lt.mp hshort
  have hentries : 0 + (rawBlock.length - kBlockTrailerSize) ≤ rawBlock.length := by omega
  have hcompression : rawBlock.length - kBlockTrailerSize < rawBlock.length := by
    simp only [kBlockTrailerSize] at htrailer ⊢
    omega
  have hchecksum : rawBlock.length - kBlockTrailerSize + 1 + 4 ≤ rawBlock.length := by
    simp only [kBlockTrailerSize] at htrailer ⊢
    omega
  rw [if_neg hshort, if_neg hshort]
  simp only [Option.bind_eq_bind, Option.bind_some, List.drop_zero, apply_ite some,
    sub_eq htrailer, slice_eq hentries, getElem?_eq hcompression, fixed32_eq hchecksum]

theorem decodeFooter_eq (footerBytes : Bytes) :
    decodeFooter footerBytes = some (Sstable.decodeFooter footerBytes) := by
  unfold decodeFooter Sstable.decodeFooter
  by_cases hshort : footerBytes.length < kFooterSize
  · rw [if_pos hshort, if_pos hshort]
  have hlen : kFooterSize ≤ footerBytes.length := Nat.not_lt.mp hshort
  -- every field ends inside the footer
  have hfield (offset size : Nat) (h : offset + size ≤ kFooterSize) :
      offset + size ≤ footerBytes.length := Nat.le_trans h hlen
  have hversion : kFooterFormatVersionOffset < footerBytes.length :=
    hfield kFooterFormatVersionOffset 1 (by decide)
  rw [if_neg hshort, if_neg hshort]
  simp only [Option.bind_eq_bind, Option.bind_some, List.drop_zero, apply_ite some,
    fixed32_eq (hfield kFooterMagicOffset 4 (by decide)), getElem?_eq hversion,
    fixed32_eq (hfield 0 4 (by decide)),
    slice_eq (hfield kFooterMagicOffset (kFooterSize - kFooterMagicOffset) (by decide)),
    fixed64_eq (hfield kFooterIndexOffsetOffset 8 (by decide)),
    fixed64_eq (hfield kFooterIndexSizeOffset 8 (by decide)),
    fixed64_eq (hfield kFooterFilterOffsetOffset 8 (by decide)),
    fixed64_eq (hfield kFooterFilterSizeOffset 8 (by decide)),
    fixed64_eq (hfield kFooterNumEntriesOffset 8 (by decide))]

-- ============================================================================
-- Blocks
-- ============================================================================

theorem validateHandleInBounds_eq (handle : BlockHandle) (fileSize : UInt64) (what : String) :
    validateHandleInBounds handle fileSize what =
      some (Sstable.validateHandleInBounds handle fileSize what) := by
  unfold validateHandleInBounds Sstable.validateHandleInBounds
  by_cases hsize : handle.size > fileSize
  · rw [if_pos hsize, if_pos (Or.inl hsize)]
  have hle : handle.size.toNat ≤ fileSize.toNat := by
    rw [gt_iff_lt, UInt64.lt_iff_toNat_lt] at hsize
    exact Nat.not_lt.mp hsize
  have hlimit : (fileSize - handle.size).toNat = fileSize.toNat - handle.size.toNat :=
    UInt64.toNat_sub_of_le _ _ (UInt64.le_iff_toNat_le.mpr hle)
  rw [if_neg hsize, sub_eq hle]
  simp only [Option.bind_eq_bind, Option.bind_some, hsize, false_or]
  rw [← hlimit]
  by_cases hoffset : handle.offset > fileSize - handle.size
  · rw [if_pos (UInt64.lt_iff_toNat_lt.mp hoffset), if_pos hoffset]
  · rw [if_neg (mt UInt64.lt_iff_toNat_lt.mpr hoffset), if_neg hoffset]

/-- A handle that passes the check lies inside the file. -/
theorem le_fileSize {handle : BlockHandle} {fileSize : UInt64} {what : String}
    (h : (Sstable.validateHandleInBounds handle fileSize what).ok = true) :
    handle.offset.toNat + handle.size.toNat ≤ fileSize.toNat := by
  unfold Sstable.validateHandleInBounds at h
  split at h
  · exact absurd h (by simp [Status.Corruption, Status.ok])
  · next hin =>
    obtain ⟨hsize, hoffset⟩ := not_or.mp hin
    rw [gt_iff_lt, UInt64.not_lt, UInt64.le_iff_toNat_le] at hsize hoffset
    rw [UInt64.toNat_sub_of_le _ _ (UInt64.le_iff_toNat_le.mpr hsize)] at hoffset
    omega

variable {file : ReadableFile} {length : Nat} {fileSize : UInt64}

theorem readBlock_eq (hsize : fileSize.toNat ≤ length) (handle : BlockHandle) :
    readBlock file length fileSize handle = some (Reader.readBlock file fileSize handle) := by
  unfold readBlock Reader.readBlock
  simp only [validateHandleInBounds_eq, Option.bind_eq_bind, Option.bind_some]
  by_cases hok : (Sstable.validateHandleInBounds handle fileSize "sstable block").ok = true
  · have hin : handle.offset.toNat + handle.size.toNat ≤ length :=
      Nat.le_trans (le_fileSize hok) hsize
    have hread : readAt file length handle.offset handle.size =
        some (file.readAt handle.offset handle.size) := if_pos hin
    rw [if_pos hok, if_pos hok, hread]
    simp only [Option.bind_some]
    cases file.readAt handle.offset handle.size with
    | error s => rfl
    | ok got =>
        obtain ⟨rawBlock, shortRead⟩ := got
        cases shortRead with
        | true => rfl
        | false =>
            simp only [verifyAndStripBlockTrailer_eq, Option.bind_some]
            cases Sstable.verifyAndStripBlockTrailer rawBlock <;> rfl
  · rw [if_neg hok, if_neg hok]

theorem decodeIndex_eq (turns : Nat) (remaining : Bytes) (h : remaining.length ≤ turns) :
    decodeIndex turns remaining = some (Reader.decodeIndex turns remaining) := by
  induction turns generalizing remaining with
  | zero =>
      obtain rfl := List.length_eq_zero_iff.mp (Nat.le_zero.mp h)
      rfl
  | succ turns ih =>
      unfold decodeIndex Reader.decodeIndex
      by_cases hempty : remaining.isEmpty = true
      · rw [if_pos hempty, if_pos hempty]
      rw [if_neg hempty, if_neg hempty]
      simp only [decodeIndexEntry_eq, Option.bind_eq_bind, Option.bind_some]
      cases hentry : Sstable.decodeIndexEntry remaining with
      | error ds => rfl
      | ok decoded =>
          obtain ⟨entry, rest⟩ := decoded
          have hshrinks := decodeIndexEntry_shrinks hentry
          simp only [kFixedPart] at hshrinks
          simp only [shrink_eq (show rest.length < remaining.length by omega), Option.bind_some,
            ih rest (by omega)]
          cases Reader.decodeIndex turns rest <;> rfl

-- ============================================================================
-- Open
-- ============================================================================

theorem openIndex_eq (hsize : fileSize.toNat ≤ length) (handle : BlockHandle) :
    openIndex file length fileSize handle = some (Reader.openIndex file fileSize handle) := by
  unfold openIndex Reader.openIndex
  split
  · simp only [readBlock_eq hsize, Option.bind_eq_bind, Option.bind_some]
    cases Reader.readBlock file fileSize handle with
    | error s => rfl
    | ok view => exact decodeIndex_eq _ view (Nat.le_refl _)
  · rfl

theorem openFilter_eq (hsize : fileSize.toNat ≤ length) (handle : BlockHandle) :
    openFilter file length fileSize handle = some (Reader.openFilter file fileSize handle) := by
  unfold openFilter Reader.openFilter
  split
  · exact readBlock_eq hsize handle
  · rfl

theorem openWith_eq (hsize : fileSize.toNat ≤ length) (fileId : UInt64) (footer : Footer) :
    openWith file length fileSize fileId footer =
      some (Reader.openWith file fileSize fileId footer) := by
  unfold openWith Reader.openWith
  simp only [validateHandleInBounds_eq, Option.bind_eq_bind, Option.bind_some]
  split
  · rfl
  split
  · rfl
  simp only [openIndex_eq hsize, Option.bind_some]
  cases Reader.openIndex file fileSize footer.indexHandle with
  | error s => rfl
  | ok index =>
      simp only [openFilter_eq hsize, Option.bind_some]
      cases Reader.openFilter file fileSize footer.filterHandle <;> rfl

/-- `Open` is safe on every file whose size is not reported as more than it is. -/
theorem openReader_eq {opened : Except Status ReadableFile}
    (hsize : ∀ file fileSize, opened = .ok file → file.size = .ok fileSize →
      fileSize.toNat ≤ length) (fileId : UInt64) :
    openReader opened length fileId = some (Reader.openReader opened fileId) := by
  unfold openReader Reader.openReader
  cases opened with
  | error s => rfl
  | ok file =>
      cases hfile : file.size with
      | error s => simp only [hfile]
      | ok fileSize =>
          have hle := hsize file fileSize rfl hfile
          simp only [hfile]
          split
          · rfl
          · next hlong =>
            have hfooter : kFooterSize ≤ fileSize.toNat := by
              rw [UInt64.not_lt, UInt64.le_iff_toNat_le] at hlong
              exact hlong
            have hoffset : UInt64.ofNat (fileSize.toNat - kFooterSize) =
                fileSize - UInt64.ofNat kFooterSize := by
              rw [← UInt64.toNat_inj, UInt64.toNat_sub_of_le _ _ (UInt64.not_lt.mp hlong)]
              exact Nat.mod_eq_of_lt (Nat.lt_of_le_of_lt (Nat.sub_le _ _) fileSize.toNat_lt)
            have hin : (fileSize - UInt64.ofNat kFooterSize).toNat +
                (UInt64.ofNat kFooterSize).toNat ≤ length := by
              rw [UInt64.toNat_sub_of_le _ _ (UInt64.not_lt.mp hlong)]
              have : (UInt64.ofNat kFooterSize).toNat = kFooterSize := rfl
              omega
            have hread : readAt file length (fileSize - UInt64.ofNat kFooterSize)
                (UInt64.ofNat kFooterSize) = some (file.readAt (fileSize - UInt64.ofNat kFooterSize)
                  (UInt64.ofNat kFooterSize)) := if_pos hin
            simp only [sub_eq hfooter, Option.bind_eq_bind, Option.bind_some, hoffset, hread]
            cases file.readAt (fileSize - UInt64.ofNat kFooterSize) (UInt64.ofNat kFooterSize) with
            | error s => rfl
            | ok got =>
                obtain ⟨footerBuf, shortRead⟩ := got
                cases shortRead with
                | true => rfl
                | false =>
                    simp only [decodeFooter_eq, Option.bind_some]
                    cases Sstable.decodeFooter footerBuf with
                    | error ds => rfl
                    | ok footer => exact openWith_eq hle fileId footer

-- ============================================================================
-- Reading an open table
-- ============================================================================

theorem searchBlock_eq (key : Key) (turns : Nat) (view : Bytes) (h : view.length ≤ turns) :
    searchBlock key turns view = some (Reader.searchBlock key turns view) := by
  induction turns generalizing view with
  | zero =>
      obtain rfl := List.length_eq_zero_iff.mp (Nat.le_zero.mp h)
      rfl
  | succ turns ih =>
      unfold searchBlock Reader.searchBlock
      by_cases hempty : view.isEmpty = true
      · rw [if_pos hempty, if_pos hempty]
      rw [if_neg hempty, if_neg hempty]
      simp only [decodeEntry_eq, Option.bind_eq_bind, Option.bind_some]
      cases hentry : Sstable.decodeEntry view with
      | error ds => rfl
      | ok decoded =>
          obtain ⟨entry, rest⟩ := decoded
          have hshrinks := decodeEntry_shrinks hentry
          simp only [kEntryHeaderSize] at hshrinks
          simp only [shrink_eq (show rest.length < view.length by omega), Option.bind_some,
            ih rest (by omega), apply_ite some]

theorem entriesOf_eq (turns : Nat) (view : Bytes) (h : view.length ≤ turns) :
    entriesOf turns view = some (Reader.entriesOf turns view) := by
  induction turns generalizing view with
  | zero =>
      obtain rfl := List.length_eq_zero_iff.mp (Nat.le_zero.mp h)
      rfl
  | succ turns ih =>
      unfold entriesOf Reader.entriesOf
      by_cases hempty : view.isEmpty = true
      · rw [if_pos hempty, if_pos hempty]
      rw [if_neg hempty, if_neg hempty]
      simp only [decodeEntry_eq, Option.bind_eq_bind, Option.bind_some]
      cases hentry : Sstable.decodeEntry view with
      | error ds => rfl
      | ok decoded =>
          obtain ⟨entry, rest⟩ := decoded
          have hshrinks := decodeEntry_shrinks hentry
          simp only [kEntryHeaderSize] at hshrinks
          simp only [shrink_eq (show rest.length < view.length by omega), Option.bind_some,
            ih rest (by omega)]

variable {r : Reader}

theorem readDataBlock_eq (hsize : r.fileSize.toNat ≤ length) (cache : Option BlockCache)
    (handle : BlockHandle) :
    readDataBlock r length cache handle = some (r.readDataBlock cache handle) := by
  unfold readDataBlock Reader.readDataBlock
  cases cache with
  | none => simp only [readBlock_eq hsize, Option.bind_eq_bind, Option.bind_some]
  | some c =>
      simp only [readBlock_eq hsize, Option.bind_eq_bind, Option.bind_some]
      rcases c.lookup r.fileId handle.offset with ⟨_ | entries, c⟩
      · simp only
        cases Reader.readBlock r.file r.fileSize handle <;> rfl
      · rfl

theorem getUnfiltered_eq (hsize : r.fileSize.toNat ≤ length) (cache : Option BlockCache)
    (key : Key) : getUnfiltered r length cache key = some (r.getUnfiltered cache key) := by
  unfold getUnfiltered Reader.getUnfiltered
  cases r.blockFor key with
  | none => rfl
  | some it =>
      simp only [readDataBlock_eq hsize, Option.bind_eq_bind, Option.bind_some]
      rcases r.readDataBlock cache it.handle with ⟨_ | view, cache⟩
      · rfl
      · simp only [searchBlock_eq key view.length view (Nat.le_refl _), Option.bind_some]

theorem forEachBlock_eq (hsize : r.fileSize.toNat ≤ length) (index : List IndexEntry)
    (cache : Option BlockCache) :
    forEachBlock r length index cache = some (r.forEachBlock index cache) := by
  induction index generalizing cache with
  | nil => rfl
  | cons indexEntry rest ih =>
      unfold forEachBlock Reader.forEachBlock
      simp only [readDataBlock_eq hsize, Option.bind_eq_bind, Option.bind_some]
      rcases r.readDataBlock cache indexEntry.handle with ⟨_ | view, cache⟩
      · rfl
      · simp only [entriesOf_eq view.length view (Nat.le_refl _), Option.bind_some, ih,
          apply_ite some]

/-- `ForEachEntry` is safe on every open table, whatever the cache holds. -/
theorem forEachEntry_eq (hsize : r.fileSize.toNat ≤ length) (cache : Option BlockCache) :
    forEachEntry r length cache = some (r.forEachEntry cache) :=
  forEachBlock_eq hsize r.index cache

-- ============================================================================
-- The filter
-- ============================================================================

/-- A filter that `KeyMayMatch` can ask: too short to be asked, without probes, or
    with a number of bits that is not zero in 32 bits. -/
def Answers (filter : Bytes) : Prop :=
  filter.length < 2 ∨ filter.getD 0 0 = 0 ∨ (filter.length - 1) % 2 ^ 29 ≠ 0

theorem checkProbes_eq {numBits : UInt32} (hpos : numBits ≠ 0) {bits : Bytes}
    (hfits : numBits.toNat ≤ 8 * bits.length) (h2 : UInt32) (n : Nat) (g : UInt32) :
    checkProbes numBits h2 bits n g = Bloom.checkProbes numBits h2 bits n g := by
  induction n generalizing g with
  | zero => rfl
  | succ n ih =>
      have hbits : numBits.toNat ≠ 0 := fun h => hpos (UInt32.toNat_inj.mp h)
      have hbyte : (g % numBits / 8).toNat < bits.length := by
        have hdiv : (g % numBits / 8).toNat = g.toNat % numBits.toNat / 8 := by
          rw [UInt32.toNat_div, UInt32.toNat_mod]
          rfl
        have hlt := Nat.mod_lt g.toNat (Nat.pos_of_ne_zero hbits)
        omega
      rw [checkProbes, Bloom.checkProbes, if_neg hpos, if_neg hpos, Bloom.bitAt,
        getElem?_eq hbyte, ih]
      rfl

/-- The number of bits of a filter in 32 bits. -/
theorem narrowed_toNat (n : Nat) : (UInt64.ofNat n * 8).toUInt32.toNat = n * 8 % 2 ^ 32 := by
  have h8 : (8 : UInt64).toNat = 8 := rfl
  rw [UInt64.toNat_toUInt32, UInt64.toNat_mul, UInt64.toNat_ofNat', h8]
  omega

/-- `KeyMayMatch` has an answer exactly for the filters it can ask. -/
theorem keyMayMatch_isSome_iff (key : Key) (filter : Bytes) :
    (∃ passes, keyMayMatch key filter = some passes) ↔ Answers filter := by
  unfold keyMayMatch Answers
  by_cases hshort : filter.length < 2
  · simp [hshort]
  have hlen : 1 ≤ filter.length := by omega
  rw [if_neg hshort, getElem?_eq (show 0 < filter.length by omega), removePrefix_eq hlen]
  simp only [Option.bind_eq_bind, Option.bind_some, hshort, false_or]
  have hbits := narrowed_toNat (filter.drop 1).length
  rw [List.length_drop] at hbits
  have hzero : (UInt64.ofNat (filter.drop 1).length * 8).toUInt32 = 0 ↔
      (filter.length - 1) % 2 ^ 29 = 0 := by
    rw [← UInt32.toNat_inj, List.length_drop, hbits]
    show (filter.length - 1) * 8 % 2 ^ 32 = 0 ↔ _
    omega
  by_cases hnarrow : (UInt64.ofNat (filter.drop 1).length * 8).toUInt32 = 0
  · have hnot : ¬ (filter.length - 1) % 2 ^ 29 ≠ 0 := not_not.mpr (hzero.mp hnarrow)
    rw [hnarrow]
    cases hprobes : (filter.getD 0 0).toNat with
    | zero =>
        have hfirst : filter.getD 0 0 = 0 := UInt8.toNat_inj.mp hprobes
        exact ⟨fun _ => Or.inl hfirst, fun _ => ⟨true, rfl⟩⟩
    | succ n =>
        have hne : filter.getD 0 0 ≠ 0 := fun h => by
          rw [h] at hprobes
          cases hprobes
        simp only [checkProbes, if_true, hne, false_or]
        exact ⟨fun ⟨_, h⟩ => absurd h (by simp), fun h => absurd h hnot⟩
  · have hfits : (UInt64.ofNat (filter.drop 1).length * 8).toUInt32.toNat ≤
        8 * (filter.drop 1).length := by
      rw [List.length_drop, hbits]
      omega
    rw [checkProbes_eq hnarrow hfits]
    exact ⟨fun _ => Or.inr (mt hzero.mpr hnarrow), fun _ => Bloom.checkProbes_isSome hnarrow _ _ _⟩

/-- `Get` is safe on an open table exactly if its filter can be asked. -/
theorem get_isSome_iff (hsize : r.fileSize.toNat ≤ length) (cache : Option BlockCache) (key : Key) :
    (∃ answer, get r length cache key = some answer) ↔ Answers r.filter := by
  have hanswer := keyMayMatch_isSome_iff key r.filter
  unfold get
  by_cases hempty : r.filter.isEmpty = true
  · have hanswers : Answers r.filter := Or.inl (by simp [List.isEmpty_iff.mp hempty])
    simp only [if_pos hempty, Option.bind_eq_bind, Option.bind_some, if_true,
      getUnfiltered_eq hsize]
    exact ⟨fun _ => hanswers, fun _ => ⟨_, rfl⟩⟩
  · simp only [if_neg hempty, getUnfiltered_eq hsize]
    rw [← hanswer]
    cases keyMayMatch key r.filter with
    | none => exact ⟨fun ⟨_, h⟩ => absurd h (by simp), fun ⟨_, h⟩ => absurd h (by simp)⟩
    | some passes =>
        refine ⟨fun _ => ⟨_, rfl⟩, fun _ => ?_⟩
        cases passes <;> exact ⟨_, rfl⟩

end Checked

-- ============================================================================
-- Files
-- ============================================================================

/-- `Open`, `Get` of any key and `ForEachEntry` over a file, with any cache: no
    step without a meaning, and a result. -/
def MemorySafe (file : Bytes) : Prop :=
  ∀ fileId, ∃ opened,
    Checked.openReader (.ok (.ofBytes file)) file.length fileId = some opened ∧
      ∀ r, opened = .ok r → ∀ cache,
        (∀ key, ∃ answer, Checked.get r file.length cache key = some answer) ∧
        ∃ result, Checked.forEachEntry r file.length cache = some result

/-- `Open` does not accept the file. -/
def NotATable (file : Bytes) : Prop :=
  ∀ fileId r, Reader.openReader (.ok (.ofBytes file)) fileId ≠ .ok r

/-- The contents of the filter block that the last bytes of a file point at. -/
def filterBlock (file : Bytes) : Option Bytes :=
  match decodeFooter (file.drop (file.length - kFooterSize)) with
  | .error _ => none
  | .ok footer =>
    let handle := footer.filterHandle
    if handle.size = 0 then none
    else
      match verifyAndStripBlockTrailer ((file.drop handle.offset.toNat).take handle.size.toNat) with
      | .error _ => none
      | .ok contents => some contents

/-- What an accepted file has gone through. -/
theorem openReader_ok {file : ReadableFile} {fileId : UInt64} {r : Reader}
    (h : Reader.openReader (.ok file) fileId = .ok r) :
    file.size = .ok r.fileSize ∧ kFooterSize ≤ r.fileSize.toNat ∧
      (∃ footerBuf, file.readAt (r.fileSize - UInt64.ofNat kFooterSize)
        (UInt64.ofNat kFooterSize) = .ok (footerBuf, false) ∧
          decodeFooter footerBuf = .ok r.footer) ∧
      Reader.openFilter file r.fileSize r.footer.filterHandle = .ok r.filter := by
  unfold Reader.openReader at h
  cases hsize : file.size with
  | error s => simp [hsize] at h
  | ok fileSize =>
      simp only [hsize] at h
      split at h
      · cases h
      next hlong =>
      have hfooter : kFooterSize ≤ fileSize.toNat := by
        rw [UInt64.not_lt, UInt64.le_iff_toNat_le] at hlong
        exact hlong
      split at h
      · cases h
      · cases h
      next footerBuf hread =>
      split at h
      · cases h
      next footer hdecoded =>
      unfold Reader.openWith at h
      simp only at h
      split at h
      · cases h
      split at h
      · cases h
      split at h
      · cases h
      next index _ =>
      split at h
      · cases h
      next filter hfilter =>
      cases h
      exact ⟨rfl, hfooter, ⟨footerBuf, hread, hdecoded⟩, hfilter⟩

theorem size_ofBytes_le {file : Bytes} {fileSize : UInt64}
    (h : (ReadableFile.ofBytes file).size = .ok fileSize) : fileSize.toNat ≤ file.length := by
  cases h
  exact Nat.mod_le _ _

/-- The filter that `Open` keeps is the filter block of the file. -/
theorem filter_eq_filterBlock {file : Bytes} (hfile : file.length < 2 ^ 64) {fileId : UInt64}
    {r : Reader} (h : Reader.openReader (.ok (.ofBytes file)) fileId = .ok r) :
    r.filter = (filterBlock file).getD [] := by
  obtain ⟨hsize, hfooter, ⟨footerBuf, hread, hdecoded⟩, hfilter⟩ := openReader_ok h
  have hfileSize : r.fileSize.toNat = file.length := by
    rw [← Except.ok.inj hsize]
    exact Nat.mod_eq_of_lt hfile
  have hle : UInt64.ofNat kFooterSize ≤ r.fileSize := by
    rw [UInt64.le_iff_toNat_le]
    exact hfooter
  have hoffset : (r.fileSize - UInt64.ofNat kFooterSize).toNat = file.length - kFooterSize := by
    rw [UInt64.toNat_sub_of_le _ _ hle, hfileSize]
    rfl
  have hbuf : footerBuf = file.drop (file.length - kFooterSize) := by
    have hgot : ((file.drop (r.fileSize - UInt64.ofNat kFooterSize).toNat).take
        (UInt64.ofNat kFooterSize).toNat) = footerBuf := (Prod.mk.inj (Except.ok.inj hread)).1
    rw [← hgot, hoffset]
    apply List.take_of_length_le
    rw [List.length_drop]
    exact Nat.le_of_eq (Nat.sub_sub_self (hfileSize ▸ hfooter))
  rw [hbuf] at hdecoded
  unfold filterBlock
  simp only [hdecoded]
  unfold Reader.openFilter at hfilter
  by_cases hzero : r.footer.filterHandle.size = 0
  · have hnot : ¬ r.footer.filterHandle.size > 0 := by
      rw [hzero]
      decide
    rw [if_neg hnot] at hfilter
    rw [if_pos hzero]
    exact (Except.ok.inj hfilter).symm
  · have hpos : r.footer.filterHandle.size > 0 := UInt64.pos_iff_ne_zero.mpr hzero
    rw [if_pos hpos] at hfilter
    rw [if_neg hzero]
    unfold Reader.readBlock at hfilter
    simp only [ReadableFile.ofBytes] at hfilter
    split at hfilter
    · split at hfilter
      · cases hfilter
      · cases hfilter
      next rawBlock hraw =>
      have hbytes : (file.drop r.footer.filterHandle.offset.toNat).take
          r.footer.filterHandle.size.toNat = rawBlock := (Prod.mk.inj (Except.ok.inj hraw)).1
      rw [hbytes]
      cases hverified : verifyAndStripBlockTrailer rawBlock with
      | error ds =>
          rw [hverified] at hfilter
          cases hfilter
      | ok contents =>
          rw [hverified] at hfilter
          exact (Except.ok.inj hfilter).symm
    · cases hfilter

theorem checked_openReader (file : Bytes) (fileId : UInt64) :
    Checked.openReader (.ok (.ofBytes file)) file.length fileId =
      some (Reader.openReader (.ok (.ofBytes file)) fileId) := by
  apply Checked.openReader_eq
  rintro _ fileSize hopened hsize
  cases hopened
  exact size_ofBytes_le hsize

/-- An accepted file that is read safely has a filter that can be asked. -/
theorem answers_of_memorySafe {file contents : Bytes} (hfile : file.length < 2 ^ 64)
    (htable : ¬ NotATable file) (hblock : filterBlock file = some contents)
    (hsafe : MemorySafe file) : Checked.Answers contents := by
  obtain ⟨fileId, htable⟩ := not_forall.mp htable
  obtain ⟨r, hr⟩ := not_forall.mp htable
  have hr := not_not.mp hr
  obtain ⟨opened, hopened, hreads⟩ := hsafe fileId
  rw [checked_openReader file fileId] at hopened
  have hget := (hreads r ((Option.some.inj hopened).symm.trans hr) none).1 []
  have hsize := size_ofBytes_le (openReader_ok hr).1
  have hanswers := (Checked.get_isSome_iff hsize none []).mp hget
  rwa [filter_eq_filterBlock hfile hr, hblock] at hanswers

/-- A file is read safely exactly if `Open` refuses it or its filter can be asked. -/
theorem memorySafe_iff {file : Bytes} (hfile : file.length < 2 ^ 64) :
    MemorySafe file ↔
      NotATable file ∨ ∀ contents, filterBlock file = some contents → Checked.Answers contents := by
  constructor
  · intro hsafe
    by_cases hrefused : NotATable file
    · exact Or.inl hrefused
    · exact Or.inr fun contents hblock => answers_of_memorySafe hfile hrefused hblock hsafe
  · intro hcond fileId
    refine ⟨_, checked_openReader file fileId, fun r hr cache => ?_⟩
    have hsize := size_ofBytes_le (openReader_ok hr).1
    refine ⟨fun key => ?_, _, Checked.forEachEntry_eq hsize cache⟩
    apply (Checked.get_isSome_iff hsize cache key).mpr
    rw [filter_eq_filterBlock hfile hr]
    rcases hcond with hrefused | hanswers
    · exact absurd hr (hrefused fileId r)
    cases hblock : filterBlock file with
    | none => exact Or.inl (by decide)
    | some contents => exact hanswers contents hblock

section FilterOnly

variable {filter : Bytes} (hfilter : filter ≠ [])
include hfilter

/-- A table without entries is its filter block, an empty index and the footer. -/
theorem length_tableBytes_nil : (tableBytes [] filter).length = filter.length + 59 := by
  have hindex : (indexBytes []).length = 0 := rfl
  have hempty : ¬ filter.isEmpty = true := by simpa using hfilter
  rw [tableBytes, List.length_append, List.length_append, List.length_append, encodeFooter_length,
    finishBlock_length, hindex, filterBytes, if_neg hempty, finishBlock_length]
  simp only [dataBytes, List.flatMap_nil, List.length_nil, kBlockTrailerSize, kFooterSize]
  omega

theorem filterBlock_tableBytes_nil (hlen : filter.length < 2 ^ 62) :
    filterBlock (tableBytes [] filter) = some filter ∧ ¬ NotATable (tableBytes [] filter) := by
  have hsize := length_tableBytes_nil hfilter
  have hopen : Reader.openReader (.ok (.ofBytes (tableBytes [] filter))) 0 =
      .ok (tableReader [] filter 0) :=
    openReader_tableBytes (fun b hb => absurd hb List.not_mem_nil)
      (fun e he => absurd he List.not_mem_nil) (by omega)
  refine ⟨?_, fun h => h 0 _ hopen⟩
  have hkept : filter = (filterBlock (tableBytes [] filter)).getD [] :=
    filter_eq_filterBlock (by omega) hopen
  cases hblock : filterBlock (tableBytes [] filter) with
  | none =>
      rw [hblock] at hkept
      exact absurd hkept hfilter
  | some contents =>
      rw [hblock] at hkept
      rw [hkept]
      rfl

end FilterOnly

/-- Two data blocks, and a filter of one probe into one byte. -/
def sampleTable : Bytes :=
  tableBytes
    [[⟨[1], 1, .kValue, [6]⟩, ⟨[2], 2, .kTombstone, []⟩], [⟨[3], 3, .kValue, [8]⟩]] [1, 255]

theorem memorySafe_sampleTable :
    (Reader.openReader (.ok (.ofBytes sampleTable)) 0).isOk = true ∧ MemorySafe sampleTable := by
  have hblock : filterBlock sampleTable = some [1, 255] := by decide +kernel
  refine ⟨by decide +kernel, ?_⟩
  refine (memorySafe_iff (by decide +kernel)).mpr (Or.inr fun contents h => ?_)
  obtain rfl := Option.some.inj (hblock.symm.trans h)
  exact Or.inr (Or.inr (by decide))

/-- One probe into 2^29 bytes: 2^32 bits, which 32 bits do not tell from none. -/
def wideFilter : Bytes := 1 :: List.replicate (2 ^ 29) 0

/-- A filter block of 512 MiB and a byte. -/
theorem not_memorySafe_wideFilter : ¬ ∀ file : Bytes, file.length < 2 ^ 64 → MemorySafe file := by
  intro hall
  have hne : wideFilter ≠ [] := List.cons_ne_nil _ _
  have hwide : wideFilter.length = 2 ^ 29 + 1 := by
    rw [wideFilter, List.length_cons, List.length_replicate]
  have hlen := length_tableBytes_nil hne
  have hfile : (tableBytes [] wideFilter).length < 2 ^ 64 := by omega
  obtain ⟨hblock, htable⟩ := filterBlock_tableBytes_nil hne (by omega)
  rcases answers_of_memorySafe hfile htable hblock (hall _ hfile) with hshort | hprobes | hbits
  · rw [hwide] at hshort
    omega
  · exact absurd hprobes (by decide)
  · rw [hwide] at hbits
    exact hbits (by decide)

end PassionProjects.PebbleDB.Sstable
