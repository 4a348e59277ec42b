/-
  PassionProjects.PebbleDB.Sstable.RoundTrip

  Reading a table gives back what was written to it.

  `Serves` says what a reader needs to know of its file: each index entry leads
  to the contents of its data block.  `Faithful` is the invariant of the cache:
  whatever it holds for a block of this file is what the file holds there.  Under
  both, `Get` and `ForEachEntry` answer as the list of entries does, whatever the
  cache has kept or evicted.
-/

import PassionProjects.PebbleDB.Sstable.Reader
import PassionProjects.PebbleDB.Sstable.WriterSpec

namespace PassionProjects.PebbleDB.Sstable

open PassionProjects.Faults
open PassionProjects.Faults.Prog
open PassionProjects.LowerBound
open PassionProjects.PebbleDB.Cache
open PassionProjects.PebbleDB.Util

/-- What a list of entries holds for a key. -/
def lookup (entries : List Entry) (key : Key) : LookupResult :=
  match entries.find? fun e => e.key == key with
  | none => .kNotFound
  | some e => .ofEntry e.sequence e.type e.value

/-- The entries are in strictly increasing order of their keys. -/
def Sorted (entries : List Entry) : Prop := entries.Pairwise fun a b => a.key < b.key

theorem ofEntry_kept (sequence : UInt64) (type : EntryType) (value : Value) :
    LookupResult.ofEntry sequence type (type.kept value) = .ofEntry sequence type value := by
  cases type <;> rfl

-- ============================================================================
-- Inside a block
-- ============================================================================

theorem blockBytes_cons (e : Entry) (es : List Entry) :
    blockBytes (e :: es) = encodeEntry e.key e.sequence e.type e.value ++ blockBytes es := rfl

theorem encodeEntry_ne_nil (e : Entry) (rest : Bytes) :
    (encodeEntry e.key e.sequence e.type e.value ++ rest).isEmpty = false := rfl

/-- A turn of a loop over encoded entries leaves enough turns for the rest. -/
theorem turns_le {e : Entry} {es : List Entry} {turns : Nat}
    (h : (blockBytes (e :: es)).length ≤ turns + 1) : (blockBytes es).length ≤ turns := by
  rw [blockBytes_cons, List.length_append, encodeEntry_length] at h
  simp only [kEntryHeaderSize] at h
  omega

/-- The loop of `Get` finds what the entries of the block hold. -/
theorem searchBlock_blockBytes {entries : List Entry} (hfits : ∀ e ∈ entries, e.Fits)
    (hsorted : Sorted entries) (key : Key) {turns : Nat}
    (hturns : (blockBytes entries).length ≤ turns) :
    Reader.searchBlock key turns (blockBytes entries) = .ok (lookup entries key) := by
  induction entries generalizing turns with
  | nil => cases turns <;> rfl
  | cons e es ih =>
      obtain ⟨hhead, htail⟩ := List.pairwise_cons.mp hsorted
      cases turns with
      | zero =>
          rw [blockBytes_cons, List.length_append, encodeEntry_length] at hturns
          simp only [kEntryHeaderSize] at hturns
          omega
      | succ turns =>
          have ih :=
            ih (fun e' he' => hfits e' (List.mem_cons_of_mem e he')) htail (turns_le hturns)
          rw [blockBytes_cons, Reader.searchBlock, encodeEntry_ne_nil,
            decodeEntry_encodeEntry (hfits e List.mem_cons_self)]
          simp only [Bool.false_eq_true, if_false]
          by_cases hkey : e.stored.key = key
          · have hhit : (e.key == key) = true := beq_iff_eq.mpr hkey
            rw [if_pos hkey, lookup, List.find?_cons, hhit]
            exact congrArg Except.ok (ofEntry_kept _ _ _)
          · have hskip : lookup (e :: es) key = lookup es key := by
              have hmiss : (e.key == key) = false := beq_eq_false_iff_ne.mpr hkey
              rw [lookup, List.find?_cons, hmiss, lookup]
            rw [if_neg hkey, hskip]
            split
            · next hgt =>
              have hnone : es.find? (fun e' => e'.key == key) = none :=
                find?_eq_none_of_lt (fun a b : Key => a < b) List.lt_irrefl
                  fun e' he' => Or.inr (List.lt_trans hgt (hhead e' he'))
              rw [lookup, hnone]
            · exact ih

/-- The loop of `ForEachEntry` passes on every entry of the block. -/
theorem entriesOf_blockBytes {entries : List Entry} (hfits : ∀ e ∈ entries, e.Fits) {turns : Nat}
    (hturns : (blockBytes entries).length ≤ turns) :
    Reader.entriesOf turns (blockBytes entries) = (entries.map Entry.stored, Status.OK) := by
  induction entries generalizing turns with
  | nil => cases turns <;> rfl
  | cons e es ih =>
      cases turns with
      | zero =>
          rw [blockBytes_cons, List.length_append, encodeEntry_length] at hturns
          simp only [kEntryHeaderSize] at hturns
          omega
      | succ turns =>
          have ih := ih (fun e' he' => hfits e' (List.mem_cons_of_mem e he')) (turns_le hturns)
          rw [blockBytes_cons, Reader.entriesOf, encodeEntry_ne_nil,
            decodeEntry_encodeEntry (hfits e List.mem_cons_self)]
          simp only [Bool.false_eq_true, if_false, ih, List.map_cons]

/-- The loop of `Open` reads back the index. -/
theorem decodeIndex_encode {index : List IndexEntry}
    (hfits : ∀ entry ∈ index, entry.lastKey.length < 2 ^ 32) {turns : Nat}
    (hturns : (index.flatMap encodeIndexEntry).length ≤ turns) :
    Reader.decodeIndex turns (index.flatMap encodeIndexEntry) = .ok index := by
  induction index generalizing turns with
  | nil => cases turns <;> rfl
  | cons entry index ih =>
      rw [List.flatMap_cons, List.length_append, encodeIndexEntry_length] at hturns
      simp only [kFixedPart] at hturns
      cases turns with
      | zero => omega
      | succ turns =>
          have ih : Reader.decodeIndex turns (index.flatMap encodeIndexEntry) = .ok index :=
            ih (fun e he => hfits e (List.mem_cons_of_mem entry he)) (by omega)
          have hne :
            (encodeIndexEntry entry ++ index.flatMap encodeIndexEntry).isEmpty = false := rfl
          rw [List.flatMap_cons, Reader.decodeIndex, hne,
            decodeIndexEntry_encodeIndexEntry (hfits entry List.mem_cons_self)]
          simp only [Bool.false_eq_true, if_false, ih]

-- ============================================================================
-- Blocks in a file
-- ============================================================================

/-- The sizes of a file that `off_t` can hold do not wrap. -/
theorem toNat_ofNat_size {n : Nat} (h : n < 2 ^ 63) : (UInt64.ofNat n).toNat = n := by
  rw [UInt64.toNat_ofNat']
  omega

/-- A handle inside the file passes the bounds check. -/
theorem validateHandle_ok {offset size fileSize : Nat} (hfile : fileSize < 2 ^ 63)
    (h : offset + size ≤ fileSize) (what : String) :
    validateHandleInBounds ⟨UInt64.ofNat offset, UInt64.ofNat size⟩ (UInt64.ofNat fileSize) what =
      Status.OK := by
  have hsize : ¬ UInt64.ofNat size > UInt64.ofNat fileSize := by
    rw [gt_iff_lt, UInt64.lt_iff_toNat_lt, toNat_ofNat_size hfile, toNat_ofNat_size (by omega)]
    omega
  have hle : UInt64.ofNat size ≤ UInt64.ofNat fileSize := UInt64.not_lt.mp hsize
  have hoffset : ¬ UInt64.ofNat offset > UInt64.ofNat fileSize - UInt64.ofNat size := by
    rw [gt_iff_lt, UInt64.lt_iff_toNat_lt, UInt64.toNat_sub_of_le _ _ hle,
      toNat_ofNat_size hfile, toNat_ofNat_size (by omega), toNat_ofNat_size (by omega)]
    omega
  rw [validateHandleInBounds, if_neg (by rw [not_or]; exact ⟨hsize, hoffset⟩)]

/-- `ReadBlock` at the place of a finished block returns its contents. -/
theorem readBlock_at {file pre post contents : Bytes}
    (hfile : file = pre ++ (finishBlock contents ++ post)) (hlen : file.length < 2 ^ 63) :
    Reader.readBlock (.ofBytes file) (UInt64.ofNat file.length)
      ⟨UInt64.ofNat pre.length, UInt64.ofNat (finishBlock contents).length⟩ = .ok contents := by
  have hsum : pre.length + (finishBlock contents).length ≤ file.length := by
    rw [hfile, List.length_append, List.length_append]
    omega
  have hread : (file.drop (UInt64.ofNat pre.length).toNat).take
      (UInt64.ofNat (finishBlock contents).length).toNat = finishBlock contents := by
    rw [toNat_ofNat_size (by omega), toNat_ofNat_size (by omega), hfile, List.drop_left,
      List.take_left]
  have hshort : decide ((finishBlock contents).length <
      (UInt64.ofNat (finishBlock contents).length).toNat) = false := by
    rw [toNat_ofNat_size (by omega)]
    simp
  simp only [Reader.readBlock, validateHandle_ok hlen hsum, Status.ok_OK, if_true,
    ReadableFile.ofBytes, hread, hshort, verify_finishBlock]

/-- An index entry names the last key of a block and leads to its contents. -/
def LeadsTo (file : ReadableFile) (fileSize : UInt64) (entry : IndexEntry)
    (b : List Entry) : Prop :=
  entry.lastKey = lastKey b ∧ Reader.readBlock file fileSize entry.handle = .ok (blockBytes b)

theorem leadsTo_indexFrom {file post : Bytes} (pre : Bytes) {blocks : List (List Entry)}
    (hfile : file = pre ++ (dataBytes blocks ++ post)) (hlen : file.length < 2 ^ 63) :
    List.Forall₂ (LeadsTo (.ofBytes file) (UInt64.ofNat file.length)) (indexFrom pre.length blocks)
      blocks := by
  induction blocks generalizing pre with
  | nil => exact .nil
  | cons b blocks ih =>
      have hsplit : file = pre ++ (finishBlock (blockBytes b) ++ (dataBytes blocks ++ post)) := by
        rw [hfile, dataBytes, List.flatMap_cons, List.append_assoc]
        rfl
      have hnext := ih (pre ++ finishBlock (blockBytes b))
        (by rw [hsplit, List.append_assoc])
      rw [List.length_append] at hnext
      exact .cons ⟨rfl, readBlock_at hsplit hlen⟩ hnext

/-- The offsets in an index increase. -/
theorem indexFrom_increasing (offset : Nat) {blocks : List (List Entry)}
    (h : offset + (dataBytes blocks).length < 2 ^ 63) :
    (∀ entry ∈ indexFrom offset blocks, offset ≤ entry.handle.offset.toNat) ∧
      (indexFrom offset blocks).Pairwise fun a b => a.handle.offset < b.handle.offset := by
  induction blocks generalizing offset with
  | nil => exact ⟨fun entry he => absurd he (List.not_mem_nil), .nil⟩
  | cons b blocks ih =>
      have hsize : (dataBytes (b :: blocks)).length =
          (finishBlock (blockBytes b)).length + (dataBytes blocks).length := by simp [dataBytes]
      have hpos : 0 < (finishBlock (blockBytes b)).length := by simp [kBlockTrailerSize]
      obtain ⟨hlow, hpair⟩ := ih (offset + (finishBlock (blockBytes b)).length) (by omega)
      have hoffset : (UInt64.ofNat offset).toNat = offset := toNat_ofNat_size (by omega)
      refine ⟨fun entry he => ?_, List.pairwise_cons.mpr ⟨fun entry he => ?_, hpair⟩⟩
      · rcases List.mem_cons.mp he with rfl | he
        · exact Nat.le_of_eq hoffset.symm
        · have := hlow entry he
          omega
      · rw [UInt64.lt_iff_toNat_lt, hoffset]
        have := hlow entry he
        omega

-- ============================================================================
-- Opening
-- ============================================================================

theorem lastKey_mem {b : List Entry} (h : b ≠ []) :
    ∃ e ∈ b, b.getLast? = some e ∧ lastKey b = e.key := by
  refine ⟨b.getLast h, List.getLast_mem h, List.getLast?_eq_some_getLast h, ?_⟩
  rw [lastKey, List.getLast?_eq_some_getLast h]

theorem lastKey_of_mem_indexFrom {offset : Nat} {blocks : List (List Entry)} {entry : IndexEntry}
    (h : entry ∈ indexFrom offset blocks) : ∃ b ∈ blocks, entry.lastKey = lastKey b := by
  induction blocks generalizing offset with
  | nil => exact absurd h (List.not_mem_nil)
  | cons b blocks ih =>
      rcases List.mem_cons.mp h with rfl | h
      · exact ⟨b, List.mem_cons_self, rfl⟩
      · obtain ⟨b', hb', heq⟩ := ih h
        exact ⟨b', List.mem_cons_of_mem b hb', heq⟩

variable {blocks : List (List Entry)} {filter file : Bytes} {fileId : UInt64}

/-- The reader of a table. -/
def tableReader (blocks : List (List Entry)) (filter : Bytes) (fileId : UInt64) : Reader where
  file := .ofBytes (tableBytes blocks filter)
  footer := { footerOf blocks filter with
    storedChecksum := crc32c (encodeFooterBody (footerOf blocks filter)) }
  index := indexFrom 0 blocks
  filter := filter
  fileSize := UInt64.ofNat (tableBytes blocks filter).length
  fileId := fileId

/-- `Open` of a table whose file has a size that `off_t` can hold. -/
theorem openReader_tableBytes (hne : ∀ b ∈ blocks, b ≠ []) (hfits : ∀ e ∈ blocks.flatten, e.Fits)
    (hlen : (tableBytes blocks filter).length < 2 ^ 63) :
    Reader.openReader (.ok (.ofBytes (tableBytes blocks filter))) fileId =
      .ok (tableReader blocks filter fileId) := by
  have hsplit : (tableBytes blocks filter).length = (dataBytes blocks).length +
      (filterBytes filter).length + (finishBlock (indexBytes blocks)).length + kFooterSize := by
    rw [tableBytes, List.length_append, List.length_append, List.length_append, encodeFooter_length]
    omega
  have hfooterSize : (UInt64.ofNat kFooterSize).toNat = kFooterSize := rfl
  have hsmall : ¬ UInt64.ofNat (tableBytes blocks filter).length < UInt64.ofNat kFooterSize := by
    rw [UInt64.lt_iff_toNat_lt, toNat_ofNat_size hlen, hfooterSize]
    omega
  have hoffset : (UInt64.ofNat (tableBytes blocks filter).length -
      UInt64.ofNat kFooterSize).toNat = (dataBytes blocks).length +
        (filterBytes filter).length + (finishBlock (indexBytes blocks)).length := by
    rw [UInt64.toNat_sub_of_le _ _ (UInt64.not_lt.mp hsmall), toNat_ofNat_size hlen, hfooterSize]
    omega
  have hfooter : ((tableBytes blocks filter).drop (UInt64.ofNat (tableBytes blocks filter).length -
      UInt64.ofNat kFooterSize).toNat).take (UInt64.ofNat kFooterSize).toNat =
        encodeFooter (footerOf blocks filter) := by
    rw [hoffset, hfooterSize, tableBytes, ← List.append_assoc, ← List.append_assoc, List.drop_left',
      List.take_of_length_le]
    · simp
    · simp only [List.length_append]
  have hshort : decide ((encodeFooter (footerOf blocks filter)).length <
      (UInt64.ofNat kFooterSize).toNat) = false := rfl
  have hindexHandle : validateHandleInBounds (footerOf blocks filter).indexHandle
      (UInt64.ofNat (tableBytes blocks filter).length) "sstable index handle" = Status.OK :=
    validateHandle_ok hlen (by omega) _
  have hfilterHandle : validateHandleInBounds (footerOf blocks filter).filterHandle
      (UInt64.ofNat (tableBytes blocks filter).length) "sstable filter handle" = Status.OK :=
    validateHandle_ok hlen (by omega) _
  have hindexPos : (footerOf blocks filter).indexHandle.size > 0 := by
    rw [gt_iff_lt, UInt64.lt_iff_toNat_lt]
    show 0 < (UInt64.ofNat _).toNat
    rw [toNat_ofNat_size (by omega), finishBlock_length]
    exact Nat.succ_pos _
  have hindexRead : Reader.readBlock (.ofBytes (tableBytes blocks filter))
      (UInt64.ofNat (tableBytes blocks filter).length) (footerOf blocks filter).indexHandle =
        .ok (indexBytes blocks) := by
    have hplace : tableBytes blocks filter = (dataBytes blocks ++ filterBytes filter) ++
        (finishBlock (indexBytes blocks) ++ encodeFooter (footerOf blocks filter)) := by
      rw [tableBytes, List.append_assoc]
    have hread := readBlock_at hplace hlen
    rwa [List.length_append] at hread
  have hindexKeys : ∀ entry ∈ indexFrom 0 blocks, entry.lastKey.length < 2 ^ 32 := by
    intro entry hentry
    obtain ⟨b, hb, heq⟩ := lastKey_of_mem_indexFrom hentry
    obtain ⟨e, he, -, hkey⟩ := lastKey_mem (hne b hb)
    rw [heq, hkey]
    exact (hfits e (List.mem_flatten_of_mem hb he)).1
  have hindex : Reader.openIndex (.ofBytes (tableBytes blocks filter))
      (UInt64.ofNat (tableBytes blocks filter).length) (footerOf blocks filter).indexHandle =
        .ok (indexFrom 0 blocks) := by
    simp only [Reader.openIndex, if_pos hindexPos, hindexRead]
    exact decodeIndex_encode hindexKeys (Nat.le_refl _)
  have hfilter : Reader.openFilter (.ofBytes (tableBytes blocks filter))
      (UInt64.ofNat (tableBytes blocks filter).length) (footerOf blocks filter).filterHandle =
        .ok filter := by
    cases hfilter : filter with
    | nil => rfl
    | cons b rest =>
        have hbytes : filterBytes (b :: rest) = finishBlock (b :: rest) := rfl
        rw [← hfilter] at hbytes ⊢
        have hpos : (footerOf blocks filter).filterHandle.size > 0 := by
          rw [gt_iff_lt, UInt64.lt_iff_toNat_lt]
          show 0 < (UInt64.ofNat _).toNat
          rw [toNat_ofNat_size (by omega), hbytes, finishBlock_length]
          exact Nat.succ_pos _
        rw [Reader.openFilter, if_pos hpos]
        have hplace : tableBytes blocks filter = dataBytes blocks ++ (finishBlock filter ++
            (finishBlock (indexBytes blocks) ++ encodeFooter (footerOf blocks filter))) := by
          rw [tableBytes, hbytes]
        have hread := readBlock_at hplace hlen
        rwa [← hbytes] at hread
  have hsize : (ReadableFile.ofBytes (tableBytes blocks filter)).size =
      .ok (UInt64.ofNat (tableBytes blocks filter).length) := rfl
  have hreadAt : (ReadableFile.ofBytes (tableBytes blocks filter)).readAt
      (UInt64.ofNat (tableBytes blocks filter).length - UInt64.ofNat kFooterSize)
      (UInt64.ofNat kFooterSize) = .ok (encodeFooter (footerOf blocks filter), false) := by
    simp only [ReadableFile.ofBytes, hfooter, hshort]
  have hdecode :=
    decodeFooter_encodeFooter (show (footerOf blocks filter).formatVersion = _ from rfl)
  simp only [Reader.openReader, hsize, if_neg hsmall, hreadAt, hdecode, Reader.openWith,
    hindexHandle, hfilterHandle, Status.ok_OK, not_true_eq_false, if_false, hindex, hfilter]
  rfl

-- ============================================================================
-- Reading
-- ============================================================================

/-- A reader whose index leads to the blocks of a table. -/
structure Serves (r : Reader) (blocks : List (List Entry)) : Prop where
  leads : List.Forall₂ (LeadsTo r.file r.fileSize) r.index blocks
  increasing : r.index.Pairwise fun a b => a.handle.offset < b.handle.offset
  nonempty : ∀ b ∈ blocks, b ≠ []
  fits : ∀ e ∈ blocks.flatten, e.Fits
  sorted : Sorted blocks.flatten

/-- A cache holds for the blocks of this file what the file holds. -/
def Faithful (r : Reader) : Option BlockCache → Prop
  | none => True
  | some c => c.WF ∧ ∀ n ∈ c.lru, n.key.fileId = r.fileId →
      ∀ entry ∈ r.index, entry.handle.offset = n.key.blockOffset →
        Reader.readBlock r.file r.fileSize entry.handle = .ok n.block

theorem faithful_new (r : Reader) (capacity : Option UInt64) :
    Faithful r (capacity.map BlockCache.new) := by
  cases capacity with
  | none => trivial
  | some capacityBytes =>
      exact ⟨BlockCache.wf_new capacityBytes, fun n hn => absurd hn (List.not_mem_nil)⟩

variable {r : Reader} {cache : Option BlockCache}

/-- Blocks at one offset are one block. -/
theorem Serves.same (h : Serves r blocks) {a b : IndexEntry} (ha : a ∈ r.index) (hb : b ∈ r.index)
    (heq : a.handle.offset = b.handle.offset) : a = b := by
  have hnodup : (r.index.map fun entry => entry.handle.offset).Nodup :=
    List.pairwise_map.mpr (h.increasing.imp UInt64.ne_of_lt)
  exact List.inj_on_of_nodup_map hnodup ha hb heq

/-- With or without a hit, the contents of the block are returned. -/
theorem readDataBlock_spec (h : Serves r blocks) (hf : Faithful r cache) {entry : IndexEntry}
    (he : entry ∈ r.index) {contents : Bytes}
    (hread : Reader.readBlock r.file r.fileSize entry.handle = .ok contents) :
    (r.readDataBlock cache entry.handle).1 = .ok contents ∧
      Faithful r (r.readDataBlock cache entry.handle).2 := by
  cases cache with
  | none => exact ⟨hread, trivial⟩
  | some c =>
      obtain ⟨hwf, hblocks⟩ := hf
      obtain ⟨hwf', hsame, hhit⟩ := BlockCache.lookup_spec hwf r.fileId entry.handle.offset
      unfold Reader.readDataBlock
      rcases hlookup : c.lookup r.fileId entry.handle.offset with ⟨found, c'⟩
      rw [hlookup] at hwf' hsame hhit
      have hkept : Faithful r (some c') := ⟨hwf', fun n hn => hblocks n ((hsame n).mp hn)⟩
      cases found with
      | some block =>
          obtain ⟨n, hn, hkey, rfl⟩ := hhit block rfl
          have hcached := hblocks n hn (by rw [hkey]) entry he (by rw [hkey])
          simp only [hlookup]
          exact ⟨hcached.symm.trans hread, hkept⟩
      | none =>
          simp only [hlookup, hread]
          obtain ⟨hwf'', hcases⟩ :=
            BlockCache.insert_spec hwf' r.fileId entry.handle.offset contents
          refine ⟨trivial, hwf'', fun n hn hid other hother hoffset => ?_⟩
          rcases hcases n hn with ⟨hkey, rfl⟩ | hn
          · rw [hkey] at hoffset
            rw [h.same hother he hoffset, hread]
          · exact hkept.2 n hn hid other hother hoffset

/-- Searching two sequences that correspond. -/
theorem find?_forall₂ {α β : Type} {R : α → β → Prop} {p : α → Bool} {q : β → Bool} {xs : List α}
    {ys : List β} (h : List.Forall₂ R xs ys) (hpq : ∀ x y, R x y → p x = q y) :
    Option.Rel R (xs.find? p) (ys.find? q) := by
  induction h with
  | nil => exact .none
  | cons hxy _ ih =>
      rw [List.find?_cons, List.find?_cons, hpq _ _ hxy]
      split
      · exact .some hxy
      · exact ih

/-- The last keys of the index increase. -/
theorem Serves.lastKeys (h : Serves r blocks) :
    r.index.Pairwise fun a b => a.lastKey < b.lastKey := by
  have hblocks : blocks.Pairwise fun a b => lastKey a < lastKey b := by
    refine List.Pairwise.imp_of_mem (fun {a b} ha hb hab => ?_)
      (List.pairwise_flatten.mp h.sorted).2
    obtain ⟨x, hx, -, hxkey⟩ := lastKey_mem (h.nonempty a ha)
    obtain ⟨y, hy, -, hykey⟩ := lastKey_mem (h.nonempty b hb)
    rw [hxkey, hykey]
    exact hab x hx y hy
  have hmap : r.index.map IndexEntry.lastKey = blocks.map lastKey := by
    have hkeys :
        List.Forall₂ (fun entry b => IndexEntry.lastKey entry = lastKey b) r.index blocks :=
      h.leads.imp fun _ _ hlead => hlead.1
    rw [← List.forall₂_eq_eq_eq, List.forall₂_map_left_iff, List.forall₂_map_right_iff]
    exact hkeys
  have := (List.pairwise_map (f := lastKey) (R := fun a b : Key => a < b)).mpr hblocks
  rw [← hmap] at this
  exact List.pairwise_map.mp this

/-- Behind the filter, `Get` answers what the entries of the table hold. -/
theorem getUnfiltered_spec (h : Serves r blocks) (hf : Faithful r cache) (key : Key) :
    (r.getUnfiltered cache key).1 = .ok (lookup blocks.flatten key) ∧
      Faithful r (r.getUnfiltered cache key).2 := by
  have hfor : r.blockFor key = r.index.find? fun entry => !decide (entry.lastKey < key) :=
    getElem?_lowerBound (h.lastKeys.imp fun hab hb => by
      have hb := of_decide_eq_true hb
      exact decide_eq_true (List.lt_trans hab hb))
  have hsegments : blocks.flatten.find? (fun e => e.key == key) =
      (blocks.find? fun b => !decide (lastKey b < key)).bind fun b => b.find? fun e =>
        e.key == key :=
    find?_segments (fun a b : Key => a < b) List.lt_irrefl (fun _ _ _ => List.lt_trans)
      (fun b e hlast => by simp [lastKey, hlast]) h.nonempty h.sorted
  have hrel := find?_forall₂ (p := fun entry => !decide (entry.lastKey < key))
    (q := fun b => !decide (lastKey b < key)) h.leads fun entry b hb => by rw [hb.1]
  unfold Reader.getUnfiltered
  rw [hfor]
  cases hblock : blocks.find? fun b => !decide (lastKey b < key) with
  | none =>
      rw [hblock] at hrel
      cases hindex : r.index.find? fun entry => !decide (entry.lastKey < key) with
      | some entry => rw [hindex] at hrel; cases hrel
      | none =>
          rw [hblock] at hsegments
          refine ⟨?_, hf⟩
          rw [lookup, hsegments]
          rfl
  | some b =>
      rw [hblock] at hrel
      cases hindex : r.index.find? fun entry => !decide (entry.lastKey < key) with
      | none => rw [hindex] at hrel; cases hrel
      | some entry =>
          rw [hindex] at hrel
          cases hrel with
          | some hleads =>
              have hb : b ∈ blocks := List.mem_of_find?_eq_some hblock
              obtain ⟨hcontents, hf'⟩ := readDataBlock_spec h hf
                (List.mem_of_find?_eq_some hindex) hleads.2
              have hsearch : Reader.searchBlock key (blockBytes b).length (blockBytes b) =
                  .ok (lookup b key) :=
                searchBlock_blockBytes (fun e he => h.fits e (List.mem_flatten_of_mem hb he))
                  ((List.pairwise_flatten.mp h.sorted).1 b hb) key (Nat.le_refl _)
              have hlookup : lookup blocks.flatten key = lookup b key := by
                rw [lookup, hsegments, hblock]
                rfl
              rcases hread : r.readDataBlock cache entry.handle with ⟨result, cache'⟩
              rw [hread] at hcontents hf'
              obtain rfl : result = .ok (blockBytes b) := hcontents
              simp only [hread, hsearch, hlookup]
              exact ⟨trivial, hf'⟩

/-- The filter answers for every key and lets the keys of the table through. -/
def FilterServes (r : Reader) (entries : List Entry) : Prop :=
  (∀ key, ∃ b, r.passesFilter key = some b) ∧ ∀ e ∈ entries, r.passesFilter e.key = some true

/-- `Get` answers what the entries of the table hold, with any filter that serves
    them and any cache that is faithful. -/
theorem get_spec (h : Serves r blocks) (hfilter : FilterServes r blocks.flatten)
    (hf : Faithful r cache) (key : Key) :
    ∃ cache', r.get cache key = some (.ok (lookup blocks.flatten key), cache') ∧
      Faithful r cache' := by
  obtain ⟨answered, hpass⟩ := hfilter
  obtain ⟨b, hb⟩ := answered key
  unfold Reader.get
  rw [hb]
  cases b with
  | true =>
      obtain ⟨hanswer, hf'⟩ := getUnfiltered_spec h hf key
      exact ⟨(r.getUnfiltered cache key).2, by rw [← hanswer], hf'⟩
  | false =>
      have hnone : blocks.flatten.find? (fun e => e.key == key) = none := by
        rw [List.find?_eq_none]
        intro e he heq
        have heq : e.key = key := by simpa using heq
        rw [← heq, hpass e he] at hb
        exact absurd hb (by simp)
      exact ⟨cache, by rw [lookup, hnone], hf⟩

/-- Any sequence of `Get` calls answers as the list does. -/
theorem getAll_spec (h : Serves r blocks) (hfilter : FilterServes r blocks.flatten)
    (hf : Faithful r cache) (keys : List Key) :
    ∃ cache', r.getAll keys cache =
      some (keys.map fun key => .ok (lookup blocks.flatten key), cache') ∧ Faithful r cache' := by
  induction keys generalizing cache with
  | nil => exact ⟨cache, rfl, hf⟩
  | cons key keys ih =>
      obtain ⟨cache₁, hget, hf₁⟩ := get_spec h hfilter hf key
      obtain ⟨cache₂, hrest, hf₂⟩ := ih hf₁
      exact ⟨cache₂, by rw [Reader.getAll, hget]; simp only [hrest, List.map_cons], hf₂⟩

/-- `ForEachEntry` passes on the entries of the blocks it is led to. -/
theorem forEachBlock_spec (h : Serves r blocks) {index : List IndexEntry} {bs : List (List Entry)}
    (hleads : List.Forall₂ (LeadsTo r.file r.fileSize) index bs)
    (hindex : ∀ entry ∈ index, entry ∈ r.index) (hfits : ∀ e ∈ bs.flatten, e.Fits)
    (hf : Faithful r cache) :
    ∃ cache', r.forEachBlock index cache = (bs.flatten.map Entry.stored, Status.OK, cache') ∧
      Faithful r cache' := by
  induction hleads generalizing cache with
  | nil => exact ⟨cache, rfl, hf⟩
  | @cons entry b index bs hhead _ ih =>
      obtain ⟨hcontents, hf₁⟩ := readDataBlock_spec h hf (hindex entry List.mem_cons_self) hhead.2
      have hentries : Reader.entriesOf (blockBytes b).length (blockBytes b) =
          (b.map Entry.stored, Status.OK) :=
        entriesOf_blockBytes (fun e he => hfits e (by simp [he])) (Nat.le_refl _)
      rcases hread : r.readDataBlock cache entry.handle with ⟨result, cache₁⟩
      rw [hread] at hcontents hf₁
      obtain rfl : result = .ok (blockBytes b) := hcontents
      obtain ⟨cache₂, hrest, hf₂⟩ := ih (fun e he => hindex e (List.mem_cons_of_mem entry he))
        (fun e he => hfits e (by rw [List.flatten_cons]; exact List.mem_append_right b he)) hf₁
      refine ⟨cache₂, ?_, hf₂⟩
      simp only [Reader.forEachBlock, hread, hentries, Status.ok_OK, if_true, hrest,
        List.flatten_cons, List.map_append]

-- ============================================================================
-- Writing, then reading
-- ============================================================================

/-- The reader of a table serves its blocks. -/
theorem serves_tableReader (fileId : UInt64) (hne : ∀ b ∈ blocks, b ≠ [])
    (hfits : ∀ e ∈ blocks.flatten, e.Fits) (hsorted : Sorted blocks.flatten)
    (hlen : (tableBytes blocks filter).length < 2 ^ 63) :
    Serves (tableReader blocks filter fileId) blocks where
  leads := leadsTo_indexFrom [] rfl hlen
  increasing := by
    refine (indexFrom_increasing 0 ?_).2
    rw [tableBytes, List.length_append] at hlen
    omega
  nonempty := hne
  fits := hfits
  sorted := hsorted

/-- The filter that the writer leaves serves the entries. -/
theorem filterServes_tableReader {options : WriterOptions}
    (hfilter : Writer.FilterFor options blocks.flatten filter)
    (hbits : Bloom.totalBits blocks.flatten.length options.filterBitsPerKey.toNat < 2 ^ 32) :
    FilterServes (tableReader blocks filter fileId) blocks.flatten := by
  by_cases hnil : filter = []
  · subst hnil
    exact ⟨fun key => ⟨true, rfl⟩, fun e _ => rfl⟩
  · have hbuild := hfilter hnil
    have hpass (key : Key) : (tableReader blocks filter fileId).passesFilter key =
        Bloom.keyMayMatch key filter := by
      have hempty : filter.isEmpty = false := by simpa using hnil
      show (if filter.isEmpty then _ else _) = _
      rw [hempty]
      rfl
    have hkeys : blocks.flatten.map Entry.key ≠ [] := by
      intro hkeys
      rw [hkeys] at hbuild
      exact hnil (Option.some.inj hbuild).symm
    have hpositive : options.filterBitsPerKey ≠ 0 := by
      intro hzero
      rw [hzero, Bloom.buildFilter, if_pos (Or.inr rfl)] at hbuild
      exact hnil (Option.some.inj hbuild).symm
    obtain ⟨built, hbuilt, -, hall, hown⟩ :=
      Bloom.buildFilter_spec hkeys hpositive (by rwa [List.length_map])
    obtain rfl := Option.some.inj (hbuild.symm.trans hbuilt)
    refine ⟨fun key => ?_, fun e he => ?_⟩
    · rw [hpass]
      exact hall key
    · rw [hpass]
      exact hown e.key (List.mem_map_of_mem he)

/-- A list of entries with strictly increasing keys, written with any options and
    read with any cache or none, comes back: every `Add` and `Finish` returns OK,
    and if `off_t` can hold the size of the file the table opens, every sequence
    of `Get` calls answers as the list does, and `ForEachEntry` passes the list on. -/
theorem write_read_identity (options : WriterOptions) (capacity : Option UInt64) (fileId : UInt64)
    {entries : List Entry} (hsorted : Sorted entries) (hfits : ∀ e ∈ entries, e.Fits)
    (hbits : Bloom.totalBits entries.length options.filterBitsPerKey.toNat < 2 ^ 32)
    (env : List Fault) :
    ∃ file env', Writer.writeTable options entries allSucceed env [] =
        .done (entries.map fun _ => Status.OK, Status.OK) file env' ∧
      (file.length < 2 ^ 63 → ∃ r, Reader.openReader (.ok (.ofBytes file)) fileId = .ok r ∧
        ∀ keys, ∃ cache, r.getAll keys (capacity.map BlockCache.new) =
            some (keys.map fun key => .ok (lookup entries key), cache) ∧
          ∃ cache', r.forEachEntry cache = (entries.map Entry.stored, Status.OK, cache')) := by
  have hwrite := Writer.writeTable_spec options hsorted hbits env
  cases hrun : Writer.writeTable options entries allSucceed env [] with
  | crashed file => rw [hrun] at hwrite; exact absurd hwrite id
  | done result file env' =>
      rw [hrun] at hwrite
      obtain ⟨rfl, blocks, filter, rfl, hne, hfilter, rfl⟩ := hwrite
      refine ⟨_, env', rfl, fun hlen => ⟨_, openReader_tableBytes hne hfits hlen, fun keys => ?_⟩⟩
      have hserves := serves_tableReader fileId hne hfits hsorted hlen
      obtain ⟨cache, hget, hf⟩ := getAll_spec hserves
        (filterServes_tableReader hfilter hbits) (faithful_new _ capacity) keys
      obtain ⟨cache', heach, -⟩ := forEachBlock_spec hserves hserves.leads (fun _ => id) hfits hf
      exact ⟨cache, hget, cache', heach⟩

/-- Three entries in one-entry blocks, with a filter and a cache of 40 bytes. -/
theorem write_read_identity_three :
    Sorted [⟨[], 3, .kTombstone, []⟩, ⟨[1], 1, .kValue, []⟩, ⟨[1, 0], 2, .kValue, [7]⟩] ∧
    ∃ file env', Writer.writeTable ⟨1, 10⟩
        [⟨[], 3, .kTombstone, []⟩, ⟨[1], 1, .kValue, []⟩, ⟨[1, 0], 2, .kValue, [7]⟩]
        allSucceed [] [] = .done ([Status.OK, Status.OK, Status.OK], Status.OK) file env' ∧
      (file.length < 2 ^ 63 → ∃ r, Reader.openReader (.ok (.ofBytes file)) 5 = .ok r ∧
        ∀ keys, ∃ cache, r.getAll keys (some (BlockCache.new 40)) =
            some (keys.map fun key => .ok (lookup
              [⟨[], 3, .kTombstone, []⟩, ⟨[1], 1, .kValue, []⟩, ⟨[1, 0], 2, .kValue, [7]⟩] key),
              cache) ∧
          ∃ cache', r.forEachEntry cache =
            ([⟨[], 3, .kTombstone, []⟩, ⟨[1], 1, .kValue, []⟩, ⟨[1, 0], 2, .kValue, [7]⟩],
              Status.OK, cache')) := by
  have hsorted : Sorted
      [⟨[], 3, .kTombstone, []⟩, ⟨[1], 1, .kValue, []⟩, ⟨[1, 0], 2, .kValue, [7]⟩] := by
    unfold Sorted
    decide
  exact ⟨hsorted, write_read_identity ⟨1, 10⟩ (some 40) 5 hsorted
    (by unfold Entry.Fits; decide) (by decide) []⟩

end PassionProjects.PebbleDB.Sstable
