/-
  PassionProjects.PebbleDB.Db.BlockReads

  `DB::Get` down to the data blocks: MemTables, then the table readers, which
  share one block cache.

  With readers that serve their tables and a faithful cache it is the `Get` of the
  DB model, whose tables are their entries (`get_refines`).  With data blocks that
  no longer verify it never answers wrongly (`damaged_blocks_surface`): a reader
  that meets such a block ends the lookup with an error, and every other reader
  answers as before.
-/

import PassionProjects.PebbleDB.Db.Layering
import PassionProjects.PebbleDB.Sstable.RoundTrip

namespace PassionProjects.PebbleDB

open PassionProjects.PebbleDB.Cache
open PassionProjects.PebbleDB.Memtable
open PassionProjects.PebbleDB.Sstable

/-- The members of `DB` that `Get` reads; `tables` is oldest first. -/
structure ReadState where
  memtables : MemTableList
  tables : List Reader
  blockCache : Option BlockCache

namespace ReadState

/-- The table loop of `Get`, over the tables newest first. -/
def tablesGet (key : Key) : List Reader → Option BlockCache →
    Option (Except Status LookupResult × Option BlockCache)
  | [], cache => some (.ok .kNotFound, cache)
  | t :: rest, cache =>
    match t.get cache key with
    | none => none
    | some (.error s, cache) => some (.error s, cache)
    | some (.ok .kNotFound, cache) => tablesGet key rest cache
    | some (.ok result, cache) => some (.ok result, cache)

/-- The merged read path. -/
def resolve (s : ReadState) (key : Key) :
    Option (Except Status LookupResult × Option BlockCache) :=
  match s.memtables.get key with
  | .kNotFound => tablesGet key s.tables.reverse s.blockCache
  | result => some (.ok result, s.blockCache)

/-- What `Get` returns for what it resolved. -/
def answer : Except Status LookupResult → Except Status Value
  | .error s => .error s
  | .ok (.kFound value _) => .ok value
  | .ok _ => .error (Status.NotFound "")

/-- `DB::Get`: the value or the status it returns, and the cache it leaves. -/
def get (s : ReadState) (key : Key) : Option (Except Status Value × Option BlockCache) :=
  (s.resolve key).map fun r => (answer r.1, r.2)

end ReadState

-- ============================================================================
-- Tables that are whole
-- ============================================================================

/-- A reader that serves the entries of a table, filter included. -/
structure Whole (r : Reader) (entries : List Entry) : Prop where
  serves : ∃ blocks : List (List Entry), blocks.flatten = entries ∧ Serves r blocks
  filter : FilterServes r entries

/-- A lookup in one table leaves the cache faithful for the tables of other files. -/
theorem faithful_get_other {r other : Reader} (hid : other.fileId ≠ r.fileId)
    {cache cache' : Option BlockCache} {key : Key} {result : Except Status LookupResult}
    (hf : Faithful other cache) (hget : r.get cache key = some (result, cache')) :
    Faithful other cache' := by
  have hread (handle : BlockHandle) : Faithful other (r.readDataBlock cache handle).2 := by
    cases cache with
    | none => exact hf
    | some c =>
        obtain ⟨hwf, hblocks⟩ := hf
        obtain ⟨hwf', hsame, -⟩ := BlockCache.lookup_spec hwf r.fileId handle.offset
        unfold Reader.readDataBlock
        rcases hlookup : c.lookup r.fileId handle.offset with ⟨found, c'⟩
        rw [hlookup] at hwf' hsame
        have hkept : Faithful other (some c') := ⟨hwf', fun n hn => hblocks n ((hsame n).mp hn)⟩
        cases found with
        | some block => simpa only [hlookup] using hkept
        | none =>
            simp only [hlookup]
            cases Reader.readBlock r.file r.fileSize handle with
            | error s => exact hkept
            | ok contents =>
                obtain ⟨hwf'', hcases⟩ :=
                  BlockCache.insert_spec hwf' r.fileId handle.offset contents
                refine ⟨hwf'', fun n hn hnid => ?_⟩
                rcases hcases n hn with ⟨hkey, -⟩ | hn
                · rw [hkey] at hnid
                  exact absurd hnid.symm hid
                · exact hkept.2 n hn hnid
  unfold Reader.get at hget
  split at hget
  · exact absurd hget (by simp)
  · obtain ⟨-, rfl⟩ := Prod.mk.inj (Option.some.inj hget)
    exact hf
  · have hcache : cache' = (r.getUnfiltered cache key).2 :=
      (Prod.mk.inj (Option.some.inj hget)).2.symm
    rw [hcache, Reader.getUnfiltered]
    cases r.blockFor key with
    | none => exact hf
    | some entry =>
        have hread := hread entry.handle
        rcases hdata : r.readDataBlock cache entry.handle with ⟨found, cache''⟩
        rw [hdata] at hread
        simp only [hdata]
        cases found <;> exact hread

/-- A lookup in a whole table answers as its entries do. -/
theorem Whole.get {r : Reader} {entries : List Entry} (h : Whole r entries)
    {cache : Option BlockCache} (hf : Faithful r cache) (key : Key) :
    ∃ cache', r.get cache key = some (.ok (lookup entries key), cache') ∧ Faithful r cache' := by
  obtain ⟨⟨blocks, rfl, hserves⟩, hfilter⟩ := h
  exact get_spec hserves hfilter hf key

/-- The tables of whole readers answer as the tables of the DB model do. -/
theorem tablesGet_whole {readers : List Reader} {tables : List (List Entry)}
    (h : List.Forall₂ Whole readers tables)
    (hids : readers.Pairwise fun a b => a.fileId ≠ b.fileId) {cache : Option BlockCache}
    (hf : ∀ r ∈ readers, Faithful r cache) (key : Key) :
    ∃ cache' result, ReadState.tablesGet key readers cache = some (.ok result, cache') ∧
      DB.tablesGet (tables.map TableReader.complete) key = .ok result := by
  induction h generalizing cache with
  | nil => exact ⟨cache, .kNotFound, rfl, rfl⟩
  | @cons r entries readers tables hhead _ ih =>
      obtain ⟨hother, hids⟩ := List.pairwise_cons.mp hids
      obtain ⟨cache₁, hget, -⟩ := hhead.get (hf r List.mem_cons_self) key
      have hf₁ : ∀ r' ∈ readers, Faithful r' cache₁ := fun r' hr' =>
        faithful_get_other (hother r' hr').symm (hf r' (List.mem_cons_of_mem r hr')) hget
      obtain ⟨cache₂, result, hrest, hmodel⟩ := ih hids hf₁
      have hcomplete : (TableReader.complete entries).get key = .ok (lookup entries key) := rfl
      rw [ReadState.tablesGet, List.map_cons, DB.tablesGet, hget, hcomplete]
      cases hlookup : lookup entries key with
      | kFound value sequence => exact ⟨cache₁, .kFound value sequence, rfl, rfl⟩
      | kDeleted sequence => exact ⟨cache₁, .kDeleted sequence, rfl, rfl⟩
      | kNotFound => exact ⟨cache₂, result, hrest, hmodel⟩

/-- `Get` down to the blocks is the `Get` of the DB model. -/
theorem get_refines {s : ReadState} {db : DB} {tables : List (List Entry)}
    (hmem : db.memtables = s.memtables) (htables : db.tables = tables.map TableReader.complete)
    (hwhole : List.Forall₂ Whole s.tables tables)
    (hids : s.tables.Pairwise fun a b => a.fileId ≠ b.fileId)
    (hf : ∀ r ∈ s.tables, Faithful r s.blockCache) (key : Key) :
    ∃ cache', s.get key = some (db.get key, cache') := by
  obtain ⟨cache', result, hget, hmodel⟩ := tablesGet_whole (List.rel_reverse hwhole)
    (List.pairwise_reverse.mpr (hids.imp Ne.symm))
    (fun r hr => hf r (List.mem_reverse.mp hr)) key
  rw [List.map_reverse, ← htables] at hmodel
  unfold ReadState.get ReadState.resolve DB.get DB.resolve
  rw [hmem]
  cases s.memtables.get key with
  | kFound value sequence => exact ⟨s.blockCache, rfl⟩
  | kDeleted sequence => exact ⟨s.blockCache, rfl⟩
  | kNotFound =>
      simp only [hget, hmodel]
      cases result <;> exact ⟨cache', rfl⟩

-- ============================================================================
-- Tables with damaged blocks
-- ============================================================================

/-- The file has a block at the handle that `VerifyAndStripBlockTrailer` rejects. -/
def Rejected (file : ReadableFile) (handle : BlockHandle) : Prop :=
  ∃ raw ds, file.readAt handle.offset handle.size = .ok (raw, false) ∧
    verifyAndStripBlockTrailer raw = .error ds

/-- The file reads at the handle as the file of the reader does. -/
def Unaltered (r : Reader) (file : ReadableFile) (handle : BlockHandle) : Prop :=
  file.readAt handle.offset handle.size = r.file.readAt handle.offset handle.size

/-- Every data block is as it was, or no longer verifies. -/
def BlocksDamaged (r : Reader) (file : ReadableFile) : Prop :=
  ∀ entry ∈ r.index, Unaltered r file entry.handle ∨ Rejected file entry.handle

/-- The block that a lookup of the key would read is as it was. -/
def BlockIntact (r : Reader) (file : ReadableFile) (key : Key) : Prop :=
  r.passesFilter key = some true → ∀ entry, r.blockFor key = some entry →
    Unaltered r file entry.handle

/-- The reader once its file has become another one. -/
def Reader.onFile (r : Reader) (file : ReadableFile) : Reader := { r with file := file }

/-- A status that reports a failure and is not `NotFound`. -/
def Surfaces (s : Status) : Prop := s.ok = false ∧ s.isNotFound = false

theorem surfaces_toStatus (ds : DecodeStatus) (what : String) : Surfaces (toStatus ds what) := by
  cases ds <;> exact ⟨rfl, rfl⟩

variable {r : Reader} {file : ReadableFile} {cache : Option BlockCache} {key : Key}

theorem readDataBlock_unaltered (cache : Option BlockCache) {handle : BlockHandle}
    (h : Unaltered r file handle) :
    (Reader.onFile r file).readDataBlock cache handle = r.readDataBlock cache handle := by
  have hblock : Reader.readBlock file r.fileSize handle =
      Reader.readBlock r.file r.fileSize handle := by
    rw [Reader.readBlock, Reader.readBlock, h]
  show Reader.readDataBlock { r with file := file } cache handle = _
  simp only [Reader.readDataBlock, hblock]

/-- A rejected block is served from the cache or reported. -/
theorem readDataBlock_rejected (cache : Option BlockCache) {handle : BlockHandle}
    (h : Rejected file handle) :
    (Reader.onFile r file).readDataBlock cache handle = r.readDataBlock cache handle ∨
      ∃ s cache', (Reader.onFile r file).readDataBlock cache handle = (.error s, cache') ∧
        Surfaces s := by
  obtain ⟨raw, ds, hread, hverify⟩ := h
  have hblock : (∃ what, Reader.readBlock file r.fileSize handle = .error (toStatus ds what)) ∨
      Reader.readBlock file r.fileSize handle = Reader.readBlock r.file r.fileSize handle := by
    unfold Reader.readBlock
    cases hok : (validateHandleInBounds handle r.fileSize "sstable block").ok with
    | true => exact Or.inl ⟨"sstable block", by simp only [hok, if_true, hread, hverify]⟩
    | false => exact Or.inr (by simp only [hok, Bool.false_eq_true, if_false])
  show Reader.readDataBlock { r with file := file } cache handle = _ ∨ ∃ s cache',
    Reader.readDataBlock { r with file := file } cache handle = (.error s, cache') ∧ Surfaces s
  rcases hblock with ⟨what, hblock⟩ | hblock
  · unfold Reader.readDataBlock
    cases cache with
    | none => exact Or.inr ⟨_, none, by simp only [hblock], surfaces_toStatus ds what⟩
    | some c =>
        rcases hlookup : c.lookup r.fileId handle.offset with ⟨found, c'⟩
        cases found with
        | some block => exact Or.inl (by simp only [hlookup])
        | none =>
            exact Or.inr ⟨_, some c', by simp only [hlookup, hblock], surfaces_toStatus ds what⟩
  · exact Or.inl (by simp only [Reader.readDataBlock, hblock])

/-- `blockFor` is an index entry. -/
theorem blockFor_mem {entry : IndexEntry} (h : r.blockFor key = some entry) : entry ∈ r.index :=
  List.mem_of_getElem? h

/-- One table: a lookup on the damaged file answers as before, or reports the
    block it could not read. -/
theorem tableGet_damaged (cache : Option BlockCache) (key : Key) (h : BlocksDamaged r file) :
    (Reader.onFile r file).get cache key = r.get cache key ∨
      ∃ s cache', (Reader.onFile r file).get cache key = some (.error s, cache') ∧ Surfaces s := by
  have hpass : (Reader.onFile r file).passesFilter key = r.passesFilter key := rfl
  have hfor : (Reader.onFile r file).blockFor key = r.blockFor key := rfl
  unfold Reader.get
  rw [hpass]
  cases r.passesFilter key with
  | none => exact Or.inl rfl
  | some passes =>
      cases passes with
      | false => exact Or.inl rfl
      | true =>
          simp only [Reader.getUnfiltered, hfor]
          cases hblock : r.blockFor key with
          | none => exact Or.inl rfl
          | some entry =>
              have hread := (h entry (blockFor_mem hblock)).elim
                (fun hsame => Or.inl (readDataBlock_unaltered cache hsame))
                (readDataBlock_rejected cache)
              rcases hread with hsame | ⟨s, cache', herror, hs⟩
              · exact Or.inl (by simp only [hsame])
              · exact Or.inr ⟨s, cache', by simp only [herror], hs⟩

/-- One table: a lookup whose block is intact answers as before. -/
theorem tableGet_intact (h : BlockIntact r file key) :
    (Reader.onFile r file).get cache key = r.get cache key := by
  have hpass : (Reader.onFile r file).passesFilter key = r.passesFilter key := rfl
  have hfor : (Reader.onFile r file).blockFor key = r.blockFor key := rfl
  unfold Reader.get
  rw [hpass]
  cases hp : r.passesFilter key with
  | none => rfl
  | some passes =>
      cases passes with
      | false => rfl
      | true =>
          simp only [Reader.getUnfiltered, hfor]
          cases hblock : r.blockFor key with
          | none => rfl
          | some entry => simp only [readDataBlock_unaltered cache (h hp entry hblock)]

namespace ReadState

/-- The tables a lookup asks, newest first: up to the first that does not answer
    `kNotFound`. -/
def asked (key : Key) : List Reader → Option BlockCache → List Reader
  | [], _ => []
  | t :: rest, cache =>
    match t.get cache key with
    | some (.ok .kNotFound, cache) => t :: asked key rest cache
    | _ => [t]

theorem asked_subset (key : Key) (tables : List Reader) (cache : Option BlockCache) :
    asked key tables cache ⊆ tables := by
  induction tables generalizing cache with
  | nil => exact List.Subset.refl _
  | cons t rest ih =>
      unfold asked
      split
      · exact List.cons_subset_cons t (ih _)
      · exact List.cons_subset_cons t (List.nil_subset rest)

/-- The state once the files of the tables have become others. -/
def onFiles (s : ReadState) (files : UInt64 → ReadableFile) : ReadState :=
  { s with tables := s.tables.map fun r => Reader.onFile r (files r.fileId) }

end ReadState

variable {files : UInt64 → ReadableFile}

theorem tablesGet_damaged (key : Key) (cache : Option BlockCache) {tables : List Reader}
    (h : ∀ r ∈ tables, BlocksDamaged r (files r.fileId)) :
    ReadState.tablesGet key (tables.map fun r => Reader.onFile r (files r.fileId)) cache =
        ReadState.tablesGet key tables cache ∨
      ∃ s cache', ReadState.tablesGet key (tables.map fun r => Reader.onFile r (files r.fileId))
        cache = some (.error s, cache') ∧ Surfaces s := by
  induction tables generalizing cache with
  | nil => exact Or.inl rfl
  | cons t tables ih =>
      have ih cache := ih cache fun r hr => h r (List.mem_cons_of_mem t hr)
      rw [List.map_cons, ReadState.tablesGet, ReadState.tablesGet]
      rcases tableGet_damaged cache key (h t List.mem_cons_self) with
        hsame | ⟨s, cache', herror, hs⟩
      · rw [hsame]
        rcases hget : t.get cache key with _ | ⟨result, cache'⟩
        · exact Or.inl rfl
        · cases result with
          | error s => exact Or.inl rfl
          | ok found =>
              cases found with
              | kNotFound => exact ih cache'
              | kFound value sequence => exact Or.inl rfl
              | kDeleted sequence => exact Or.inl rfl
      · rw [herror]
        exact Or.inr ⟨s, cache', rfl, hs⟩

theorem tablesGet_intact {tables : List Reader}
    (h : ∀ r ∈ ReadState.asked key tables cache, BlockIntact r (files r.fileId) key) :
    ReadState.tablesGet key (tables.map fun r => Reader.onFile r (files r.fileId)) cache =
      ReadState.tablesGet key tables cache := by
  induction tables generalizing cache with
  | nil => rfl
  | cons t tables ih =>
      have hhead : BlockIntact t (files t.fileId) key := by
        refine h t ?_
        unfold ReadState.asked
        split <;> exact List.mem_cons_self
      rw [List.map_cons, ReadState.tablesGet, ReadState.tablesGet, tableGet_intact hhead]
      rcases hget : t.get cache key with _ | ⟨result, cache'⟩
      · rfl
      · cases result with
        | error s => rfl
        | ok found =>
            cases found with
            | kFound value sequence => rfl
            | kDeleted sequence => rfl
            | kNotFound =>
                refine ih fun r hr => h r ?_
                rw [ReadState.asked, hget]
                exact List.mem_cons_of_mem t hr

/-- Whatever data blocks of whatever open tables no longer verify, and whatever the
    cache holds: `Get` answers as on the unaltered files or returns a status that is
    neither OK nor NotFound, and it answers as on the unaltered files when the
    blocks it asks for are unaltered. -/
theorem damaged_blocks_surface (s : ReadState) (files : UInt64 → ReadableFile)
    (h : ∀ r ∈ s.tables, BlocksDamaged r (files r.fileId)) (key : Key) :
    ((s.onFiles files).get key = s.get key ∨
      ∃ status cache', (s.onFiles files).get key = some (.error status, cache') ∧
        status.ok = false ∧ status.isNotFound = false) ∧
    ((∀ r ∈ ReadState.asked key s.tables.reverse s.blockCache,
        BlockIntact r (files r.fileId) key) → (s.onFiles files).get key = s.get key) := by
  have hresolve (hsame : ReadState.tablesGet key (s.tables.reverse.map fun r =>
      Reader.onFile r (files r.fileId)) s.blockCache =
        ReadState.tablesGet key s.tables.reverse s.blockCache) :
      (s.onFiles files).get key = s.get key := by
    rw [ReadState.get, ReadState.get, ReadState.resolve, ReadState.resolve]
    show Option.map _ (match s.memtables.get key with
      | .kNotFound => ReadState.tablesGet key (s.tables.map _).reverse s.blockCache
      | result => _) = _
    rw [← List.map_reverse, hsame]
    rfl
  refine ⟨?_, fun hintact => hresolve (tablesGet_intact hintact)⟩
  rcases tablesGet_damaged key s.blockCache fun r hr => h r (List.mem_reverse.mp hr) with
    hsame | ⟨status, cache', herr, hs⟩
  · exact Or.inl (hresolve hsame)
  · cases hmem : s.memtables.get key with
    | kNotFound =>
        refine Or.inr ⟨status, cache', ?_, hs⟩
        rw [List.map_reverse] at herr
        simp only [ReadState.get, ReadState.resolve, ReadState.onFiles, hmem, herr]
        rfl
    | kFound value sequence =>
        exact Or.inl (by simp only [ReadState.get, ReadState.resolve, ReadState.onFiles, hmem])
    | kDeleted sequence =>
        exact Or.inl (by simp only [ReadState.get, ReadState.resolve, ReadState.onFiles, hmem])

/-- Two tables that hold the same key, and the file of the newer one with another
    compression byte. -/
def olderBlocks : List (List Entry) := [[⟨[1], 1, .kValue, [6]⟩], [⟨[2], 2, .kValue, [8]⟩]]

def newerBlocks : List (List Entry) := [[⟨[1], 3, .kValue, [7]⟩]]

def twoTables : ReadState where
  memtables := .new
  tables := [tableReader olderBlocks [] 4, tableReader newerBlocks [] 5]
  blockCache := none

def otherCompression (fileId : UInt64) : ReadableFile :=
  .ofBytes (if fileId = 5 then (tableBytes newerBlocks []).set 19 1 else tableBytes olderBlocks [])

/-- The key that both tables hold is not looked for in the older one; a key that only
    the older one holds is found. -/
theorem damaged_blocks_surface_twoTables :
    (twoTables.get [1]).map Prod.fst = some (.ok [7]) ∧
      (∃ status cache',
        (twoTables.onFiles otherCompression).get [1] = some (.error status, cache') ∧
          status.ok = false ∧ status.isNotFound = false) ∧
      (twoTables.onFiles otherCompression).get [2] = twoTables.get [2] := by
  have hunaltered : (twoTables.get [1]).map Prod.fst = some (.ok [7]) := by decide +kernel
  have hdamaged : ∀ r ∈ twoTables.tables, BlocksDamaged r (otherCompression r.fileId) := by
    intro r hr
    rcases List.mem_cons.mp hr with rfl | hr
    · exact fun entry _ => Or.inl rfl
    · obtain rfl := List.mem_singleton.mp hr
      intro entry hentry
      obtain rfl := List.mem_singleton.mp hentry
      exact Or.inr ⟨_, .kUnsupportedCompression, rfl, by decide +kernel⟩
  have hdiffers : (twoTables.onFiles otherCompression).get [1] ≠ twoTables.get [1] := by
    intro hsame
    rw [← hsame] at hunaltered
    exact absurd hunaltered (by decide +kernel)
  have hintact : ∀ r ∈ ReadState.asked [2] twoTables.tables.reverse twoTables.blockCache,
      BlockIntact r (otherCompression r.fileId) [2] := by
    intro r hr
    rcases List.mem_cons.mp (ReadState.asked_subset _ _ _ hr) with rfl | hr
    · intro _ entry hentry
      exact absurd hentry (by decide +kernel +revert)
    · obtain rfl := List.mem_singleton.mp hr
      exact fun _ _ _ => rfl
  have hsurface := damaged_blocks_surface twoTables otherCompression hdamaged
  exact ⟨hunaltered, (hsurface [1]).1.resolve_left hdiffers, (hsurface [2]).2 hintact⟩

end PassionProjects.PebbleDB
