/-
  PassionProjects.PebbleDB.Db.TableCount

  How many tables a published manifest lists.

  The encoder writes a table list of any length and the decoder refuses more than
  `kMaxTableCount` of them.  Only `SaveManifest` publishes, a flush adds one table
  for each MemTable it writes, and no table is ever dropped: a database that is
  used long enough publishes a manifest that it cannot load.
-/

import PassionProjects.PebbleDB.Db.FileNumbers

namespace PassionProjects.PebbleDB

open PassionProjects.Faults
open PassionProjects.Faults.Prog
open PassionProjects.FileSystem
open PassionProjects.FileSystem.Fs
open PassionProjects.Refinement
open PassionProjects.PebbleDB.Util
open PassionProjects.PebbleDB.Memtable
open PassionProjects.PebbleDB.Manifest

-- ============================================================================
-- Calls that publish nothing
-- ============================================================================

/-- The call publishes no manifest. -/
abbrev Silent {α : Type} (p : M α) : Prop := Keeps World.published p

theorem silent_atomically {o : FsOp} {effect : World → World}
    (h : ∀ w, (effect w).published = w.published) : Silent (atomically o effect) := by
  refine keeps_step fun fault w => ?_
  cases fault with
  | none => exact h w
  | error n => rfl
  | crash n =>
      cases n with
      | zero => rfl
      | succ n => exact h w

theorem silent_stat (n : FileName) : Silent (stat n) := keeps_read _

theorem silent_sysOpen (n : FileName) (trunc : Bool) : Silent (sysOpen n trunc) := by
  refine keeps_bind (silent_atomically fun _ => rfl) fun opened => ?_
  cases opened with
  | true => exact keeps_read _
  | false => exact keeps_pure _

theorem silent_syncDirectory (why : DirSync) : Silent (syncDirectory why) := by
  refine keeps_bind (silent_atomically fun _ => rfl) fun ok => ?_
  cases ok with
  | true => exact keeps_pure _
  | false => exact keeps_pure _

theorem silent_finishOpen (n : FileName) (what : String) (existedBefore : Bool)
    (fd : Option (FileId FileName)) : Silent (finishOpen n what existedBefore fd) := by
  cases fd with
  | none => exact keeps_pure _
  | some fd =>
      cases existedBefore with
      | true => exact keeps_pure _
      | false =>
          refine keeps_bind (silent_syncDirectory _) fun s => ?_
          split
          · exact keeps_pure _
          · exact keeps_pure _

theorem silent_openAppend (n : FileName) : Silent (openAppend n) :=
  keeps_bind (silent_stat n) fun _ => keeps_bind (silent_sysOpen n _) fun _ =>
    silent_finishOpen n _ _ _

theorem silent_openTruncate (n : FileName) : Silent (openTruncate n) :=
  keeps_bind (silent_stat n) fun _ => keeps_bind (silent_sysOpen n _) fun _ =>
    silent_finishOpen n _ _ _

theorem silent_openNew (n : FileName) : Silent (openNew n) := by
  refine keeps_bind (silent_stat n) fun existing => ?_
  split
  · exact keeps_pure _
  · exact keeps_bind (silent_sysOpen n _) fun _ => silent_finishOpen n _ _ _

theorem silent_readFile (n : FileName) : Silent (readFile n) := by
  refine keeps_bind (silent_atomically fun _ => rfl) fun opened =>
    keeps_bind (silent_stat n) fun data => ?_
  split
  · exact keeps_pure _
  · exact keeps_pure _

theorem silent_append (f : PosixFile) (data : Bytes) : Silent (append f data) := by
  refine keeps_bind (keeps_step fun fault w => ?_) fun ok => ?_
  · cases fault with
    | none => rfl
    | error n => rfl
    | crash n => rfl
  · split
    · exact keeps_pure _
    · exact keeps_pure _

theorem silent_sync (f : PosixFile) : Silent (sync f) := by
  refine keeps_bind (silent_atomically fun _ => rfl) fun ok => ?_
  split
  · exact keeps_pure _
  · exact keeps_pure _

theorem silent_truncateFile (n : FileName) (length : Nat) : Silent (truncateFile n length) := by
  refine keeps_bind (keeps_read _) fun r => ?_
  cases r with
  | none => exact keeps_pure _
  | some i =>
      refine keeps_bind (silent_atomically fun _ => rfl) fun cut => ?_
      cases cut with
      | false => exact keeps_pure _
      | true =>
          refine keeps_bind (silent_atomically fun _ => rfl) fun synced => ?_
          split
          · exact keeps_pure _
          · exact keeps_pure _

theorem silent_openWriter (n : FileName) (policy : Wal.SyncPolicy) (batchSize : Nat) :
    Silent (Wal.Writer.openWriter n policy batchSize) := by
  unfold Wal.Writer.openWriter
  split
  · exact keeps_pure _
  · refine keeps_bind (silent_openAppend n) fun opened => ?_
    cases opened with
    | error s => exact keeps_pure _
    | ok file => exact keeps_pure _

theorem silent_syncWriter (writer : Wal.Writer) : Silent writer.syncWriter := by
  refine keeps_bind (silent_sync _) fun s => ?_
  split
  · exact keeps_pure _
  · exact keeps_pure _

theorem silent_writeRecord (writer : Wal.Writer) (record : Wal.Record) :
    Silent (writer.writeRecord record) := by
  unfold Wal.Writer.writeRecord
  split
  · exact keeps_pure _
  · split
    · exact keeps_pure _
    · refine keeps_bind (silent_append _ _) fun s => ?_
      by_cases hs : s.ok = true
      · simp only [hs, if_true]
        split
        · exact silent_syncWriter _
        · exact keeps_pure _
      · simp only [hs]
        exact keeps_pure _

theorem silent_addRecord (writer : Wal.Writer) (record : Wal.Record) :
    Silent (writer.addRecord record) := by
  refine keeps_bind (silent_writeRecord writer record) fun x => ?_
  obtain ⟨s, writer⟩ := x
  show Keeps World.published (if s.ok then _ else _)
  split
  · exact keeps_bind (keeps_modify fun _ => rfl) fun _ => keeps_pure _
  · exact keeps_pure _

namespace DB

theorem silent_openReader (n : UInt64) : Silent (TableReader.openReader n) := by
  refine keeps_bind (silent_readFile _) fun contents => ?_
  split
  · exact keeps_pure _
  · exact keeps_pure _
  · exact keeps_pure _

theorem silent_openTables (tables : List TableFileInfo) : Silent (openTables tables) := by
  induction tables with
  | nil => exact keeps_pure _
  | cons table rest ih =>
      refine keeps_bind (silent_openReader _) fun opened => ?_
      cases opened with
      | error s => exact keeps_pure _
      | ok reader =>
          refine keeps_bind ih fun others => ?_
          cases others with
          | error s => exact keeps_pure _
          | ok readers => exact keeps_pure _

theorem silent_writeTable (n : UInt64) (entries : List Entry) : Silent (writeTable n entries) := by
  refine keeps_bind (silent_openNew _) fun opened => ?_
  cases opened with
  | error s => exact keeps_pure _
  | ok file =>
      refine keeps_bind (keeps_step fun fault w => ?_) fun written => ?_
      · rcases fault with _ | n | n
        · rfl
        · cases n <;> rfl
        · rcases n with _ | _ | n <;> rfl
      · cases written with
        | true => exact silent_sync _
        | false => exact keeps_pure _

end DB

-- ============================================================================
-- What a call publishes
-- ============================================================================

variable {pol : Policy FsOp World} {w₀ w : World} {db db' db₁ : DB} {s s₁ : Status} {k : Nat}

/-- Every manifest published since `w₀` lists at most `k` tables. -/
def PublishedUpTo (k : Nat) (w₀ w : World) : Prop :=
  ∀ md ∈ w.published, md ∈ w₀.published ∨ md.tables.length ≤ k

/-- What a process leaves that stops inside a call which publishes at most `k` tables. -/
def StoppedUpTo (pol : Policy FsOp World) (k : Nat) (w₀ w : World) : Prop :=
  PublishedUpTo k w₀ w ∧ MayStop pol

theorem PublishedUpTo.refl (k : Nat) (w : World) : PublishedUpTo k w w := fun _ => Or.inl

theorem PublishedUpTo.of_eq {w' : World} (h : PublishedUpTo k w₀ w)
    (heq : w'.published = w.published) : PublishedUpTo k w₀ w' := fun md hmd =>
  h md (by rwa [heq] at hmd)

theorem PublishedUpTo.bounded (h : PublishedUpTo k w₀ w) (hw : Bounded w₀.published)
    (hk : k ≤ kMaxTableCount.toNat) : Bounded w.published := fun md hmd =>
  (h md hmd).elim (hw md) fun hle => Nat.le_trans hle hk

/-- A silent call, then the rest. -/
theorem wp_silent {α β : Type} {p : M α} {f : α → M β} {Q : β → World → Prop} (hp : Silent p)
    (hw : PublishedUpTo k w₀ w)
    (h : ∀ a w₁, PublishedUpTo k w₀ w₁ → wp pol (f a) Q (StoppedUpTo pol k w₀) w₁) :
    wp pol (p >>= f) Q (StoppedUpTo pol k w₀) w :=
  wp_bind (wp_mono (hp pol w) (fun a w₁ hw₁ => h a w₁ (hw.of_eq hw₁))
    fun _ hc => ⟨hw.of_eq hc.1, hc.2⟩)

theorem renameManifest_publishes {data : ManifestData} (hk : data.tables.length ≤ k)
    (hw : PublishedUpTo k w₀ w) :
    wp pol (renameManifest data) (fun _ w' => PublishedUpTo k w₀ w') (StoppedUpTo pol k w₀) w := by
  have hrenamed : PublishedUpTo k w₀
      { w with fs := w.fs.rename .manifestTmp .manifest, published := w.published ++ [data] } := by
    intro md hmd
    rcases List.mem_append.mp hmd with hmd | hmd
    · exact hw md hmd
    · obtain rfl := List.mem_singleton.mp hmd
      exact Or.inr hk
  unfold renameManifest atomically
  refine wp_step hrenamed (fun _ _ => hw) fun n hn => ⟨?_, _, _, _, hn⟩
  cases n with
  | zero => exact hw
  | succ n => exact hrenamed

/-- `SaveManifest` publishes nothing but its argument. -/
theorem saveManifest_publishes {data : ManifestData} (hk : data.tables.length ≤ k)
    (hw : PublishedUpTo k w₀ w) :
    wp pol (saveManifest data) (fun _ w' => PublishedUpTo k w₀ w') (StoppedUpTo pol k w₀) w := by
  refine wp_silent (silent_openTruncate _) hw fun opened w₁ hw₁ => ?_
  cases opened with
  | error s => exact wp_pure.mpr hw₁
  | ok file =>
      refine wp_silent (silent_append file _) hw₁ fun s w₂ hw₂ => ?_
      split
      · refine wp_silent (silent_sync file) hw₂ fun s w₃ hw₃ => ?_
        split
        · refine wp_bind (wp_mono (renameManifest_publishes hk hw₃) ?_ fun _ hc => hc)
          intro renamed w₄ hw₄
          cases renamed with
          | false => exact wp_pure.mpr hw₄
          | true => exact wp_silent (silent_syncDirectory _) hw₄ fun s w₅ hw₅ => wp_pure.mpr hw₅
        · exact wp_pure.mpr hw₃
      · exact wp_pure.mpr hw₂

-- ============================================================================
-- How a flush grows the table list
-- ============================================================================

/-- How a part of a flush ends that adds `n` tables and hands out at most `m` file
    numbers. -/
structure Grew (n m : Nat) (db : DB) (s : Status) (db' : DB) : Prop where
  tables : db'.manifest.tables.length ≤ db.manifest.tables.length + n
  next : db'.nextFileNumber.toNat ≤ db.nextFileNumber.toNat + m
  seq : db'.nextSequence = db.nextSequence
  options : db'.options = db.options
  ok : s.ok = true → db'.manifest.tables.length = db.manifest.tables.length + n ∧
    db'.memtables.immutables.length = db.memtables.immutables.length - n

theorem Grew.trans {n₁ m₁ n m : Nat} (h₁ : Grew n₁ m₁ db s₁ db₁) (hok : s₁.ok = true)
    (h : Grew n m db₁ s db') : Grew (n₁ + n) (m₁ + m) db s db' where
  tables := by have := h₁.tables; have := h.tables; omega
  next := by have := h₁.next; have := h.next; omega
  seq := h.seq.trans h₁.seq
  options := h.options.trans h₁.options
  ok hs := by
    obtain ⟨htables₁, himm₁⟩ := h₁.ok hok
    obtain ⟨htables, himm⟩ := h.ok hs
    exact ⟨by omega, by omega⟩

/-- A part that fails is the end of the flush. -/
theorem Grew.failed {n₁ m₁ : Nat} (h : Grew n₁ m₁ db s db') (hs : ¬ s.ok = true) (n m : Nat) :
    Grew (n₁ + n) (m₁ + m) db s db' where
  tables := by have := h.tables; omega
  next := by have := h.next; omega
  seq := h.seq
  options := h.options
  ok hok := absurd hok hs

theorem toNat_add_one_le (a : UInt64) : (a + 1).toNat ≤ a.toNat + 1 := by
  rw [UInt64.toNat_add]
  exact Nat.mod_le _ _

/-- `Reader::Open` publishes nothing, and when it fails it says so. -/
theorem openReader_publishes (n : UInt64) (hw : PublishedUpTo k w₀ w) :
    wp pol (TableReader.openReader n)
      (fun r w' => PublishedUpTo k w₀ w' ∧ ∀ s, r = .error s → s.ok = false)
      (StoppedUpTo pol k w₀) w := by
  have herr : wp pol (TableReader.openReader n) (fun r _ => ∀ s, r = .error s → s.ok = false)
      (fun _ => True) w := by
    refine wp_bind (wp_mono (readFile_spec trivial) ?_ fun _ => id)
    rintro (s | contents) w' ⟨-, hr⟩
    · refine wp_pure.mpr fun s' hs' => ?_
      obtain rfl := Except.error.inj hs'
      exact hr.1
    · cases contents with
      | table entries => exact wp_pure.mpr fun s' hs' => absurd hs' (by simp)
      | _ => exact wp_pure.mpr fun s' hs' => (Except.error.inj hs') ▸ rfl
  exact wp_mono (wp_and (DB.silent_openReader n pol w) herr) (fun _ _ h => ⟨hw.of_eq h.1, h.2⟩)
    fun _ hc => ⟨hw.of_eq hc.1.1, hc.1.2⟩

theorem publishOldest_grows (frozen : MemTable) (hk : db.manifest.tables.length + 1 ≤ k)
    (hw : PublishedUpTo k w₀ w) :
    wp pol (DB.publishOldest frozen db)
      (fun x w' => PublishedUpTo k w₀ w' ∧ Grew 1 1 db x.1 x.2) (StoppedUpTo pol k w₀) w := by
  have hnext := toNat_add_one_le db.nextFileNumber
  have hkept : ∀ s : Status, s.ok = false →
      Grew 1 1 db s { db with nextFileNumber := db.nextFileNumber + 1 } := fun s hs =>
    ⟨Nat.le_succ _, hnext, rfl, rfl, fun hok => absurd hok (by simp [hs])⟩
  refine wp_silent (DB.silent_writeTable _ _) hw fun s w₁ hw₁ => ?_
  split
  · refine wp_bind (wp_mono (openReader_publishes _ hw₁) ?_ fun _ hc => hc)
    rintro (s | reader) w₂ ⟨hw₂, herr⟩
    · exact wp_pure.mpr ⟨hw₂, hkept s (herr s rfl)⟩
    · refine wp_bind (wp_mono (saveManifest_publishes (by simpa using hk) hw₂) ?_ fun _ hc => hc)
      rintro ⟨s, published⟩ w₃ hw₃
      show wp pol (if _ then _ else _) _ _ w₃
      split
      · exact wp_pure.mpr ⟨hw₃, hkept s (by simp_all)⟩
      · refine wp_pure.mpr ⟨hw₃, ?_, hnext, rfl, rfl, fun _ => ⟨?_, ?_⟩⟩
        · simp
        · simp
        · simp [MemTableList.removeOldest]
  · exact wp_pure.mpr ⟨hw₁, hkept s (by simpa using ‹¬ s.ok = true›)⟩

theorem flushImmutables_grows (n : Nat) (hn : n ≤ db.memtables.immutables.length)
    (hk : db.manifest.tables.length + n ≤ k) (hw : PublishedUpTo k w₀ w) :
    wp pol (DB.flushImmutables n db)
      (fun x w' => PublishedUpTo k w₀ w' ∧ Grew n n db x.1 x.2) (StoppedUpTo pol k w₀) w := by
  induction n generalizing db w with
  | zero => exact wp_pure.mpr ⟨hw, Nat.le_refl _, Nat.le_refl _, rfl, rfl, fun _ => ⟨rfl, rfl⟩⟩
  | succ n ih =>
      have hne : db.memtables.immutables ≠ [] := List.ne_nil_of_length_pos (by omega)
      unfold DB.flushImmutables
      rw [List.getLast?_eq_some_getLast hne]
      refine wp_bind (wp_mono (publishOldest_grows _ (by omega) hw) ?_ fun _ hc => hc)
      rintro ⟨s, db₁⟩ w₁ ⟨hw₁, hgrew⟩
      have hgrew : Grew 1 1 db s db₁ := hgrew
      show wp pol (if s.ok then _ else _) _ _ w₁
      rw [Nat.add_comm n 1]
      split
      · have htables := hgrew.tables
        obtain ⟨-, himm⟩ := hgrew.ok ‹_›
        refine wp_mono (ih (by omega) (by omega) hw₁) ?_ fun _ hc => hc
        exact fun x w' h => ⟨h.1, hgrew.trans ‹_› h.2⟩
      · exact wp_pure.mpr ⟨hw₁, hgrew.failed ‹_› n n⟩

theorem rotateWal_grows (hk : db.manifest.tables.length ≤ k) (hw : PublishedUpTo k w₀ w) :
    wp pol db.rotateWal
      (fun x w' => PublishedUpTo k w₀ w' ∧ Grew 0 1 db x.1 x.2) (StoppedUpTo pol k w₀) w := by
  have hnext := toNat_add_one_le db.nextFileNumber
  refine wp_silent (silent_openWriter _ _ _) hw fun opened w₁ hw₁ => ?_
  cases opened with
  | error s =>
      exact wp_pure.mpr ⟨hw₁, Nat.le_refl _, hnext, rfl, rfl, fun _ => ⟨rfl, rfl⟩⟩
  | ok writer =>
      refine wp_bind (wp_mono (saveManifest_publishes hk hw₁) ?_ fun _ hc => hc)
      rintro ⟨s, published⟩ w₂ hw₂
      show wp pol (if _ then _ else _) _ _ w₂
      split
      · exact wp_pure.mpr ⟨hw₂, Nat.le_refl _, hnext, rfl, rfl, fun _ => ⟨rfl, rfl⟩⟩
      · refine wp_silent (silent_atomically fun _ => rfl) hw₂ fun _ w₃ hw₃ => ?_
        exact wp_pure.mpr ⟨hw₃, Nat.le_refl _, hnext, rfl, rfl, fun _ => ⟨rfl, rfl⟩⟩

theorem freezeActive_eq (db : DB) : ∃ memtables, db.freezeActive = { db with memtables } := by
  unfold DB.freezeActive
  split
  · exact ⟨_, rfl⟩
  · exact ⟨_, rfl⟩

/-- How a call ends that flushes `n` MemTables: with `n` tables more if it succeeds,
    and then no frozen MemTable is left. -/
structure Lists (n : Nat) (db : DB) (s : Status) (db' : DB) : Prop where
  tables : db'.manifest.tables.length ≤ db.manifest.tables.length + n
  next : db'.nextFileNumber.toNat ≤ db.nextFileNumber.toNat + (n + 1)
  options : db'.options = db.options
  seq : db'.nextSequence = db.nextSequence
  ok : db.persistent = true → s.ok = true → 0 < n →
    db'.manifest.tables.length = db.manifest.tables.length + n ∧ db'.memtables.immutables = []

theorem Lists.none (db : DB) (s : Status) : Lists 0 db s db :=
  ⟨Nat.le_refl _, Nat.le_succ _, rfl, rfl, fun _ _ h => absurd h (Nat.lt_irrefl _)⟩

theorem flushLocked_lists (hk : db.manifest.tables.length + db.pending ≤ k)
    (hw : PublishedUpTo k w₀ w) :
    wp pol db.flushLocked
      (fun x w' => PublishedUpTo k w₀ w' ∧ Lists db.pending db x.1 x.2)
      (StoppedUpTo pol k w₀) w := by
  obtain ⟨memtables, hfrozen⟩ := freezeActive_eq db
  have hpending : db.pending = memtables.immutables.length := by rw [DB.pending, hfrozen]
  unfold DB.flushLocked
  split
  · rw [hfrozen]
    by_cases hnil : memtables.immutables.isEmpty = true
    · have hzero : db.pending = 0 := by
        rw [hpending, List.isEmpty_iff.mp hnil]
        rfl
      simp only [hnil, if_true, hzero]
      exact wp_pure.mpr ⟨hw, Nat.le_refl _, Nat.le_succ _, rfl, rfl,
        fun _ _ h => absurd h (Nat.lt_irrefl _)⟩
    · simp only [hnil]
      rw [hpending] at hk ⊢
      refine wp_bind (wp_mono (flushImmutables_grows _ (Nat.le_refl _) hk hw) ?_ fun _ hc => hc)
      rintro ⟨s, db₁⟩ w₁ ⟨hw₁, hgrew⟩
      have hgrew : Grew _ _ { db with memtables } s db₁ := hgrew
      have htables : db₁.manifest.tables.length ≤
          db.manifest.tables.length + memtables.immutables.length := hgrew.tables
      show wp pol (if s.ok then _ else _) _ _ w₁
      split
      · refine wp_mono (rotateWal_grows (Nat.le_trans htables hk) hw₁) ?_ fun _ hc => hc
        rintro ⟨s', db'⟩ w' ⟨hw', hgrew'⟩
        have hall := hgrew.trans ‹_› hgrew'
        refine ⟨hw', hall.tables, hall.next, hall.options, hall.seq, fun _ hs _ => ?_⟩
        obtain ⟨hcount, himm⟩ := hall.ok hs
        exact ⟨hcount, List.eq_nil_of_length_eq_zero (himm.trans (Nat.sub_self _))⟩
      · refine wp_pure.mpr ⟨hw₁, hgrew.tables, Nat.le_trans hgrew.next ?_, hgrew.options, hgrew.seq,
          fun _ hs => absurd hs ‹_›⟩
        exact Nat.le_succ _
  · exact wp_pure.mpr ⟨hw, Nat.le_add_right _ _, Nat.le_add_right _ _, rfl, rfl,
      fun hp => absurd hp ‹_›⟩

theorem flushIfDue_lists (hk : db.manifest.tables.length + db.due ≤ k)
    (hw : PublishedUpTo k w₀ w) :
    wp pol db.flushIfDue
      (fun x w' => PublishedUpTo k w₀ w' ∧ Lists db.due db x.1 x.2) (StoppedUpTo pol k w₀) w := by
  unfold DB.flushIfDue
  unfold DB.due at hk ⊢
  split
  · rw [if_pos ‹_›] at hk
    exact flushLocked_lists hk hw
  · exact wp_pure.mpr ⟨hw, .none db _⟩

-- ============================================================================
-- How a call grows the table list
-- ============================================================================

/-- How a call ends that has `n` MemTables to flush. -/
structure CallLists (n : Nat) (db : DB) (s : Status) (db' : DB) : Prop where
  tables : db'.manifest.tables.length ≤ db.manifest.tables.length + n
  next : db'.nextFileNumber.toNat ≤ db.nextFileNumber.toNat + (n + 1)
  seq : db'.nextSequence.toNat ≤ db.nextSequence.toNat + 1
  options : db'.options = db.options
  ok : db.persistent = true → s.ok = true → 0 < n →
    db'.manifest.tables.length = db.manifest.tables.length + n ∧ db'.memtables.immutables = []

theorem addToWal_lists (record : Wal.Record) (hw : PublishedUpTo k w₀ w) :
    wp pol (db.addToWal record)
      (fun x w' => PublishedUpTo k w₀ w' ∧ ∃ walWriter, x.2 = { db with walWriter } ∧
        DB.persistent { db with walWriter } = db.persistent)
      (StoppedUpTo pol k w₀) w := by
  unfold DB.addToWal
  cases hwriter : db.walWriter with
  | none => exact wp_pure.mpr ⟨hw, none, by rw [← hwriter], by simp [DB.persistent, hwriter]⟩
  | some writer =>
      refine wp_silent (silent_addRecord _ _) hw fun x w₁ hw₁ => wp_pure.mpr ⟨hw₁, _, rfl, ?_⟩
      simp [DB.persistent, hwriter]

/-- `Put` and `Delete`, whose effect on the members is `apply`. -/
theorem writeWith_lists {r : Wal.Record} {apply : DB → DB} {key : Key} {e : MemEntry}
    (happly : ∀ db₁, Wrote db₁ (apply db₁) key e)
    (hdue : ∀ walWriter, (apply { db with walWriter }).memtables = (apply db).memtables)
    (hk : db.manifest.tables.length + (apply db).due ≤ k) (hw : PublishedUpTo k w₀ w) :
    wp pol (db.writeWith r apply)
      (fun x w' => PublishedUpTo k w₀ w' ∧ CallLists (apply db).due db x.1 x.2)
      (StoppedUpTo pol k w₀) w := by
  refine wp_bind (wp_mono (addToWal_lists r hw) ?_ fun _ hc => hc)
  rintro ⟨s, db₁⟩ w₁ ⟨hw₁, walWriter, rfl, hp⟩
  have hwrote := happly { db with walWriter }
  have hsame := happly db
  have hmanifest : (apply { db with walWriter }).manifest = db.manifest := hwrote.manifest
  have heq : (apply { db with walWriter }).due = (apply db).due := by
    refine due_congr (hdue walWriter) (hwrote.options.trans hsame.options.symm) ?_
    rw [DB.persistent, DB.persistent, hwrote.walWriter, hsame.walWriter]
    exact hp
  show wp pol (if s.ok then _ else _) _ _ w₁
  split
  · refine wp_mono (flushIfDue_lists (by rw [hmanifest, heq]; exact hk) hw₁) ?_ fun _ hc => hc
    rintro ⟨s', db'⟩ w' ⟨hw', hlists⟩
    rw [heq] at hlists
    have hlists : Lists _ (apply { db with walWriter }) s' db' := hlists
    refine ⟨hw', ?_, ?_, ?_, ?_, fun hpersist hs hpos => ?_⟩
    · rw [← hmanifest]
      exact hlists.tables
    · have hnext := hlists.next
      rwa [hwrote.nextFile] at hnext
    · show db'.nextSequence.toNat ≤ _
      rw [hlists.seq, hwrote.nextSequence]
      exact toNat_add_one_le _
    · exact hlists.options.trans hwrote.options
    · rw [← hmanifest]
      refine hlists.ok ?_ hs hpos
      rw [DB.persistent, hwrote.walWriter]
      exact hp.trans hpersist
  · exact wp_pure.mpr ⟨hw₁, Nat.le_add_right _ _, Nat.le_add_right _ _, Nat.le_succ _, rfl,
      fun _ hs => absurd hs ‹_›⟩

/-- Every call lists at most the tables it had and those it flushes. -/
theorem op_lists (op : Op) (hk : db.manifest.tables.length + op.flushes db ≤ k)
    (hw : PublishedUpTo k w₀ w) :
    wp pol (op.run db)
      (fun x w' => PublishedUpTo k w₀ w' ∧ CallLists (op.flushes db) db x.1 x.2)
      (StoppedUpTo pol k w₀) w := by
  cases op with
  | put key value =>
      show wp pol (db.put key value) _ _ _
      rw [put_eq_writeWith]
      exact writeWith_lists (fun db₁ => wrote_applyPut db₁ key value db.nextSequence)
        (fun _ => rfl) hk hw
  | delete key =>
      show wp pol (db.delete key) _ _ _
      rw [delete_eq_writeWith]
      exact writeWith_lists (fun db₁ => wrote_applyDelete db₁ key db.nextSequence)
        (fun _ => rfl) hk hw
  | flush =>
      refine wp_mono (flushLocked_lists hk hw) ?_ fun _ hc => hc
      exact fun x w' ⟨hw', hlists⟩ => ⟨hw', hlists.tables, hlists.next,
        by rw [hlists.seq]; exact Nat.le_succ _, hlists.options, hlists.ok⟩

/-- A call from a given state. -/
theorem op_lists_from (pol : Policy FsOp World) (op : Op) (db : DB) (w : World) :
    wp pol (op.run db)
      (fun x w' => PublishedUpTo (db.manifest.tables.length + op.flushes db) w w' ∧
        CallLists (op.flushes db) db x.1 x.2)
      (StoppedUpTo pol (db.manifest.tables.length + op.flushes db) w) w :=
  op_lists op (Nat.le_refl _) (.refl _ w)

-- ============================================================================
-- Opening
-- ============================================================================

/-- What `LoadManifest` loads has as many tables as `DecodeManifest` accepts. -/
theorem loadManifest_lists (hw : PublishedUpTo k w₀ w) :
    wp pol loadManifest
      (fun r w' => PublishedUpTo k w₀ w' ∧
        ∀ md, r = .ok md → md.tables.length ≤ kMaxTableCount.toNat)
      (StoppedUpTo pol k w₀) w := by
  refine wp_silent (silent_stat _) hw fun existing w₁ hw₁ => ?_
  split
  · exact wp_pure.mpr ⟨hw₁, fun md hmd => absurd hmd (by simp)⟩
  · refine wp_silent (silent_readFile _) hw₁ fun contents w₂ hw₂ => ?_
    split
    · exact wp_pure.mpr ⟨hw₂, fun md hmd => absurd hmd (by simp)⟩
    · split
      · exact wp_pure.mpr ⟨hw₂, fun md hmd => absurd hmd (by simp)⟩
      · refine wp_pure.mpr ⟨hw₂, fun md hmd => ?_⟩
        obtain rfl := Except.ok.inj hmd
        exact decodeManifest_tables_le ‹_›
    · exact wp_pure.mpr ⟨hw₂, fun md hmd => absurd hmd (by simp)⟩

/-- How an open ends that lists at most `k` tables. -/
def OpensUpTo (k : Nat) (w₀ : World) (r : Except Status DB) (w : World) : Prop :=
  PublishedUpTo k w₀ w ∧ ∀ db, r = .ok db → db.manifest.tables.length ≤ k

theorem OpensUpTo.error (hw : PublishedUpTo k w₀ w) (s : Status) : OpensUpTo k w₀ (.error s) w :=
  ⟨hw, fun _ hdb => absurd hdb (by simp)⟩

theorem OpensUpTo.ok (hw : PublishedUpTo k w₀ w) (hk : db.manifest.tables.length ≤ k) :
    OpensUpTo k w₀ (.ok db) w :=
  ⟨hw, fun _ hdb => Except.ok.inj hdb ▸ hk⟩

theorem discardTorn_silent (name : FileName) (terminal : Wal.ReadResult) (length : Nat) :
    Silent (DB.discardTorn name terminal length) := by
  unfold DB.discardTorn
  split
  · exact silent_truncateFile _ _
  · exact keeps_pure _

theorem recoverWal_lists {options : Options} {md : ManifestData} {tables : List TableReader}
    (hk : md.tables.length ≤ k) (hw : PublishedUpTo k w₀ w) :
    wp pol (DB.recoverWal options md tables) (OpensUpTo k w₀) (StoppedUpTo pol k w₀) w := by
  refine wp_silent (silent_readFile _) hw fun contents w₁ hw₁ => ?_
  split
  · exact wp_pure.mpr (.error hw₁ _)
  · show wp pol (if _ then _ else _) _ _ w₁
    split
    · exact wp_pure.mpr (.error hw₁ _)
    · refine wp_silent (discardTorn_silent _ _ _) hw₁ fun s w₂ hw₂ => ?_
      split
      · refine wp_silent (silent_openWriter _ _ _) hw₂ fun opened w₃ hw₃ => ?_
        cases opened with
        | error s => exact wp_pure.mpr (.error hw₃ _)
        | ok writer => exact wp_pure.mpr (.ok hw₃ hk)
      · exact wp_pure.mpr (.error hw₂ _)
  · exact wp_pure.mpr (.error hw₁ _)

theorem recoverFresh_lists {options : Options} {md : ManifestData} {tables : List TableReader}
    (hk : md.tables.length ≤ k) (hw : PublishedUpTo k w₀ w) :
    wp pol (DB.recoverFresh options md tables) (OpensUpTo k w₀) (StoppedUpTo pol k w₀) w := by
  refine wp_silent (silent_openWriter _ _ _) hw fun opened w₁ hw₁ => ?_
  cases opened with
  | error s => exact wp_pure.mpr (.error hw₁ _)
  | ok writer =>
      refine wp_bind (wp_mono (saveManifest_publishes hk hw₁) ?_ fun _ hc => hc)
      rintro ⟨s, published⟩ w₂ hw₂
      show wp pol (if s.ok then _ else _) _ _ w₂
      split
      · exact wp_pure.mpr (.ok hw₂ hk)
      · exact wp_pure.mpr (.error hw₂ _)

theorem recoverFrom_lists {options : Options} {md : ManifestData} (hk : md.tables.length ≤ k)
    (hw : PublishedUpTo k w₀ w) :
    wp pol (DB.recoverFrom options md) (OpensUpTo k w₀) (StoppedUpTo pol k w₀) w := by
  refine wp_silent (DB.silent_openTables _) hw fun opened w₁ hw₁ => ?_
  cases opened with
  | error s => exact wp_pure.mpr (.error hw₁ _)
  | ok tables =>
      show wp pol (if _ then _ else _) _ _ w₁
      split
      · exact recoverWal_lists hk hw₁
      · exact recoverFresh_lists hk hw₁

/-- An open lists no more tables than `DecodeManifest` accepts. -/
theorem openDb_lists (options : Options) :
    wp pol (DB.openDb options) (OpensUpTo kMaxTableCount.toNat w)
      (StoppedUpTo pol kMaxTableCount.toNat w) w := by
  refine wp_bind (wp_mono (loadManifest_lists (.refl _ w)) ?_ fun _ hc => hc)
  rintro (s | md) w₁ ⟨hw₁, hmd⟩
  · show wp pol (if _ then _ else _) _ _ w₁
    split
    · exact recoverFrom_lists (Nat.zero_le _) hw₁
    · exact wp_pure.mpr (.error hw₁ _)
  · exact recoverFrom_lists (hmd md rfl) hw₁

-- ============================================================================
-- Runs
-- ============================================================================

/-- `LoadManifest` of a directory whose MANIFEST is what `SaveManifest` wrote for
    `md` returns `md`. -/
def Loads (md : ManifestData) : Prop :=
  ∀ (pol : Policy FsOp World) (w : World),
    w.fs.view .manifest = some (.bytes (encodeManifest md)) →
      loadManifest pol [] w = .done (.ok md) w []

/-- `LoadManifest` when no call fails. -/
theorem loadManifest_calm {b : Bytes} (h : w.fs.view .manifest = some (.bytes b)) :
    loadManifest pol [] w = .done (match decodeManifest b with
      | .error ds => .error (Status.Corruption ("manifest decode failed: " ++ ds.name))
      | .ok data => .ok data) w [] := by
  have hread : readFile .manifest pol [] w = .done (.ok (.bytes b)) w [] := by
    simp [readFile, bind, Prog.bind, atomically, Prog.step, nextFault, stat, Prog.read, h, pure,
      Prog.pure]
  simp only [loadManifest, bind, Prog.bind, stat, Prog.read, h, Option.isNone_some]
  show Prog.bind (readFile .manifest) _ pol [] w = _
  rw [Prog.bind, hread]
  dsimp only
  cases decodeManifest b with
  | error ds => rfl
  | ok md => rfl

theorem loads_iff (md : ManifestData) : Loads md ↔ md.tables.length ≤ kMaxTableCount.toNat := by
  rw [← decodeManifest_encodeManifest_iff]
  constructor
  · intro h
    have hcalm := h (fun _ _ _ => false) { World.init with
      fs := (Fs.init.create .manifest).write ⟨.manifest, 0⟩ (.bytes (encodeManifest md)) }
      (by simp [Fs.view, Fs.write, Fs.create, Fs.change, Fs.init, DirChange.apply])
    rw [loadManifest_calm (b := encodeManifest md)
      (by simp [Fs.view, Fs.write, Fs.create, Fs.change, Fs.init, DirChange.apply])] at hcalm
    have heq := (Outcome.done.inj hcalm).1
    cases hdecode : decodeManifest (encodeManifest md) with
    | error ds =>
        rw [hdecode] at heq
        exact absurd heq (by simp)
    | ok md' =>
        rw [hdecode] at heq
        rw [Except.ok.inj heq]
  · intro h pol w hview
    rw [loadManifest_calm hview, h]

/-- No call flushes the table list over the bound of `DecodeManifest`. -/
def Env.FlushesFit (E : Env) : Prop :=
  ∀ op db w, E.mayCall op db w →
    db.manifest.tables.length + op.flushes db ≤ kMaxTableCount.toNat

/-- The table lists of a state that meets the bound. -/
structure ListsFit (s : Sys) : Prop where
  published : Bounded s.world.published
  proc : ∀ db, s.proc = some db → db.manifest.tables.length ≤ kMaxTableCount.toNat

theorem listsFit_init : ListsFit .init :=
  ⟨fun _ hmd => absurd hmd (by simp [Sys.init, World.init]), fun _ hdb =>
    absurd hdb (by simp [Sys.init])⟩

theorem Step.listsFit {E : Env} (hE : E.FlushesFit) {s s' : Sys} {e : Event} (h : ListsFit s)
    (hstep : Step E s e s') : ListsFit s' := by
  have hle := Nat.le_refl kMaxTableCount.toNat
  cases hstep with
  | opened hopt hbounded hmay hrun =>
      obtain ⟨hw, hdb⟩ := wp_done (openDb_lists _) hrun
      exact ⟨hw.bounded h.published hle, fun db hproc =>
        hdb db (congrArg _ (Option.some.inj hproc))⟩
  | openFailed hopt hbounded hmay hrun hafter =>
      obtain ⟨hw, -⟩ := wp_done (openDb_lists _) hrun
      exact ⟨hw.bounded h.published hle, fun db hproc => absurd hproc (by simp)⟩
  | openCrashed hopt hbounded hmay hrun hafter =>
      obtain ⟨hw, -⟩ := wp_crashed (openDb_lists _) hrun
      exact ⟨hw.bounded h.published hle, fun db hproc => absurd hproc (by simp)⟩
  | returned hmay hfit hrun =>
      have hfits := hE _ _ _ hmay
      obtain ⟨hw, hlists⟩ := wp_done (op_lists_from _ _ _ _) hrun
      refine ⟨hw.bounded h.published hfits, fun db hproc => ?_⟩
      obtain rfl := Option.some.inj hproc
      exact Nat.le_trans hlists.tables hfits
  | crashed hmay hfit hrun hafter =>
      obtain ⟨hw, -⟩ := wp_crashed (op_lists_from _ _ _ _) hrun
      exact ⟨hw.bounded h.published (hE _ _ _ hmay), fun db hproc => absurd hproc (by simp)⟩
  | stopped hafter => exact ⟨h.published, fun db hproc => absurd hproc (by simp)⟩

theorem runs_listsFit {E : Env} (hE : E.FlushesFit) {s : Sys} {run : List (Event × Sys)}
    (hs : ListsFit s) (h : Runs (Step E) s run) : ListsFit (lastState s run) := by
  induction h with
  | nil s => exact hs
  | cons hstep hrest ih =>
      rw [lastState_cons]
      exact ih (hstep.listsFit hE hs)

/-- A published manifest loads exactly if the bound of `DecodeManifest` admits its
    table list.  Where no flush takes the list over that bound, every manifest that
    is ever published loads. -/
theorem published_loads {E : Env} {run : List (Event × Sys)} (h : Runs (Step E) .init run) :
    (∀ md ∈ (lastState .init run).world.published,
      Loads md ↔ md.tables.length ≤ kMaxTableCount.toNat) ∧
    (E.FlushesFit → ∀ md ∈ (lastState .init run).world.published, Loads md) :=
  ⟨fun md _ => loads_iff md, fun hE md hmd =>
    (loads_iff md).mpr ((runs_listsFit hE listsFit_init h).published md hmd)⟩

/-- As `faultyEnv`, where no flush takes the table list over the bound. -/
def fittingEnv : Env := { faultyEnv with
  mayCall := fun op db _ => db.manifest.tables.length + op.flushes db ≤ kMaxTableCount.toNat }

instance (w : World) : Decidable (fittingEnv.mayOpen w) := isTrue trivial
instance (op : Op) (db : DB) (w : World) : Decidable (fittingEnv.mayCall op db w) :=
  inferInstanceAs (Decidable (_ ≤ _))

/-- A Put, a flush and a restart. -/
theorem published_loads_flushScript : ∃ run, Runs (Step fittingEnv) .init run ∧
    (⟨3, 3, 1, [⟨2, 0⟩]⟩ : ManifestData) ∈ (lastState .init run).world.published ∧
    ∀ md ∈ (lastState .init run).world.published, Loads md := by
  have hmap : (runScript fittingEnv flushScript .init).map (fun run =>
      decide ((⟨3, 3, 1, [⟨2, 0⟩]⟩ : ManifestData) ∈ (lastState .init run).world.published)) =
      some true := by decide +kernel
  obtain ⟨run, hrun, hmem⟩ := Option.map_eq_some_iff.mp hmap
  have h := runScript_runs hrun
  exact ⟨run, h, of_decide_eq_true hmem, (published_loads h).2 fun _ _ _ hmay => hmay⟩

-- ============================================================================
-- Filling the table list
-- ============================================================================

/-- Nothing fails and the process is never stopped. -/
def calm : Policy FsOp World := fun _ _ _ => false

def calmEnv : Env where
  mode := .process
  openFaults := calm
  callFaults := calm

theorem not_mayFail_calm (o : FsOp) : ¬ MayFail calm o := fun ⟨_, _, h⟩ => absurd h (by simp [calm])

theorem not_mayStop_calm : ¬ MayStop calm := fun ⟨_, _, _, h⟩ => absurd h (by simp [calm])

theorem tolerable_calm : Tolerable .process calm where
  fsync n := not_mayFail_calm _
  append _ n := not_mayFail_calm _
  rotation _ w k h := absurd h (by simp [calm])

theorem sound_calmEnv : calmEnv.Sound :=
  ⟨tolerable_calm, fun _ _ _ _ _ => grounded_process _, fun ⟨_, hfail⟩ =>
    absurd hfail (not_mayFail_calm _)⟩

/-- An open DB whose every write flushes one MemTable, after `n` of them. -/
structure Filling (n : Nat) (db : DB) (w : World) : Prop where
  options : db.options.memtableSizeThresholdBytes = 1
  immutables : db.memtables.immutables = []
  tables : db.manifest.tables.length = n
  next : db.nextFileNumber.toNat ≤ 2 + 2 * n
  seq : db.nextSequence.toNat ≤ 1 + n
  clear : ∀ m : UInt64, db.nextFileNumber.toNat ≤ m.toNat → ¬ Blocked w m

theorem usage_set (m : MemTable) (key : Key) (e : MemEntry) :
    1 ≤ (m.set key e).approximateMemoryUsage := by
  unfold MemTable.set
  split
  · simp [entryCost, kPerEntryOverheadBytes]
    omega
  · simp [entryCost, kPerEntryOverheadBytes]
    omega

theorem Filling.flushes {n : Nat} (h : Filling n db w) (hp : db.persistent = true) (key : Key)
    (value : Value) : (Op.put key value).flushes db = 1 := by
  have hwrote := wrote_applyPut db key value db.nextSequence
  have hpersistent : (db.applyPut key value db.nextSequence).persistent = true := hp
  have hfull : (db.applyPut key value db.nextSequence).memtables.activeShouldFlush
      (db.applyPut key value db.nextSequence).options.memtableSizeThresholdBytes = true := by
    rw [hwrote.options, h.options]
    exact decide_eq_true (usage_set _ _ _)
  have hactive := hwrote.activeNonempty
  show (db.applyPut key value db.nextSequence).due = 1
  rw [DB.due, hpersistent, hfull, Bool.and_self, if_pos rfl, DB.pending, DB.freezeActive,
    if_neg (by rw [hactive]; simp)]
  show (_ :: (db.applyPut key value db.nextSequence).memtables.immutables).length = 1
  rw [hwrote.immutables, h.immutables]
  rfl

/-- One more write. -/
theorem Filling.step {n : Nat} {m : Store} (hrel : Related calmEnv ⟨w, some db⟩ m)
    (h : Filling n db w) (hn : n < 2 ^ 32) :
    ∃ e w' db', Step calmEnv ⟨w, some db⟩ e ⟨w', some db'⟩ ∧ Filling (n + 1) db' w' := by
  obtain ⟨g, hlive, -, htorn⟩ := hrel
  have htorn : g.torn = [] := htorn fun ⟨_, hfail⟩ => not_mayFail_calm _ hfail
  have hone := h.flushes hlive.persistent [97] [1]
  have hnext := h.next
  have hseq := h.seq
  have hfit : CountersFit (.put [97] [1]) db := ⟨by omega, by rw [hone]; omega⟩
  have hlists := op_lists_from calm (.put [97] [1]) db w
  cases hrun : (Op.put [97] [1]).run db calm [] w with
  | crashed w' => exact absurd (wp_crashed hlists hrun).2 not_mayStop_calm
  | done x w' env' =>
      obtain ⟨s, db'⟩ := x
      obtain ⟨g', hcalled⟩ :=
        wp_done (op_spec hlive tolerable_calm (fun _ => htorn) hfit) hrun
      have hcalled : Called .process calm (.put [97] [1]) db w g s db' w' g' := hcalled
      have happlied : applied w w' = true := by
        by_contra hnot
        obtain ⟨-, hno | ⟨o, hfail⟩⟩ := hcalled.refused _ rfl (by simpa using hnot)
        · exact hno ⟨show 1 ≤ Wal.kMaxKeyLength.toNat by decide,
            show 1 ≤ Wal.kMaxValueLength.toNat by decide⟩
        · exact not_mayFail_calm o hfail
      have hs : s.ok = true := by
        by_contra hs
        rcases hcalled.err (Or.inr happlied) (by simpa using hs) with ⟨m, hle, -, hb⟩ | ⟨o, hfail⟩
        · exact h.clear m hle hb
        · exact not_mayFail_calm o hfail
      obtain ⟨-, hgrown⟩ := wp_done hlists hrun
      rw [hone] at hgrown
      obtain ⟨htables, himm⟩ := hgrown.ok hlive.persistent hs Nat.one_pos
      have hnext' : db'.nextFileNumber.toNat ≤ db.nextFileNumber.toNat + (1 + 1) := hgrown.next
      have hseq' : db'.nextSequence.toNat ≤ db.nextSequence.toNat + 1 := hgrown.seq
      have hcount := h.tables
      refine ⟨_, w', db', .returned trivial hfit hrun, ?_⟩
      exact {
        options := by rw [hgrown.options, h.options]
        immutables := himm
        tables := by rw [htables, hcount]
        next := by omega
        seq := by omega
        clear := fun m hm => by
          rw [blocked_congr (hcalled.sst m hm)]
          exact h.clear m (Nat.le_trans hcalled.nextLe hm) }

/-- Any number of writes. -/
theorem exists_filling (n : Nat) (hn : n ≤ 2 ^ 32) : ∃ run w db,
    Runs (Step calmEnv) .init run ∧ lastState .init run = ⟨w, some db⟩ ∧ Filling n db w := by
  induction n with
  | zero =>
      have hcalc : ((DB.openDb { memtableSizeThresholdBytes := 1 } calm [] World.init).returned.map
          fun x => match x.1 with
            | .ok db => decide (db.options.memtableSizeThresholdBytes = 1 ∧
                db.memtables.immutables.length = 0 ∧ db.manifest.tables.length = 0 ∧
                db.nextFileNumber.toNat ≤ 2 ∧ db.nextSequence.toNat ≤ 1)
            | .error _ => false) = some true := by decide +kernel
      obtain ⟨⟨r, w, env⟩, hopen, hcalc⟩ := Option.map_eq_some_iff.mp hcalc
      cases r with
      | error s => exact absurd hcalc (by simp)
      | ok db =>
          obtain ⟨hopt, himm, htables, hnext, hseq⟩ := of_decide_eq_true hcalc
          have hrun := Outcome.returned_eq_some.mp hopen
          have hbounded : Bounded World.init.published :=
            fun md hmd => absurd hmd (by simp [World.init])
          have hstep : Step calmEnv .init .opened ⟨w, some db⟩ :=
            .opened (by decide) hbounded trivial hrun
          have hopenable := (down_init .process).openable (grounded_process _)
          rcases wp_done (openDb_spec hopenable hbounded (by decide)) hrun with
            ⟨db', g, heq, hrec⟩ | ⟨s, heq, -⟩
          · obtain rfl := Except.ok.inj heq
            refine ⟨_, w, db, .cons hstep (.nil _), rfl, hopt, List.eq_nil_of_length_eq_zero himm,
              htables, hnext, hseq, fun m hm => ?_⟩
            rw [blocked_congr (hrec.sst m)]
            simp [Blocked, World.init, Fs.init, Fs.view]
          · exact absurd heq (by simp)
  | succ n ih =>
      obtain ⟨run, w, db, hrun, hlast, hfill⟩ := ih (Nat.le_of_succ_le hn)
      obtain ⟨m, hrel⟩ := (simulation sound_calmEnv).reaches (related_init _) hrun
      rw [hlast] at hrel
      obtain ⟨e, w', db', hstep, hfill'⟩ := hfill.step hrel hn
      refine ⟨run ++ [(e, ⟨w', some db'⟩)], w', db', ?_, by simp, hfill'⟩
      rw [Runs.append, hlast]
      exact ⟨hrun, .cons hstep (.nil _)⟩

/-- One table more than `DecodeManifest` accepts, and nothing has failed. -/
theorem overfull_manifest_published : ∃ run, Runs (Step calmEnv) .init run ∧
    ∃ md ∈ (lastState .init run).world.published, md.tables.length = 1048577 ∧ ¬ Loads md := by
  obtain ⟨run, w, db, hrun, hlast, hfill⟩ := exists_filling 1048577 (by decide)
  obtain ⟨m, hrel⟩ := (simulation sound_calmEnv).reaches (related_init _) hrun
  rw [hlast] at hrel
  obtain ⟨g, hlive, -⟩ := hrel
  have hmem : db.manifest ∈ w.published := List.mem_of_getLast? (hlive.onDisk rfl).2
  refine ⟨run, hrun, db.manifest, by rw [hlast]; exact hmem, hfill.tables, ?_⟩
  rw [loads_iff, hfill.tables]
  decide

end PassionProjects.PebbleDB
