/-
  PassionProjects.PebbleDB.Wal.WriterSpec

  What `AddRecord` does to its segment: it grows by the whole record, or by a
  proper part of it when the append fails, and a crash inside leaves any part.
-/

import PassionProjects.PebbleDB.Util.PosixFile
import PassionProjects.PebbleDB.Util.PosixFileSpec

namespace PassionProjects.PebbleDB.Wal

open PassionProjects.Faults
open PassionProjects.Faults.Prog
open PassionProjects.FileSystem
open PassionProjects.FileSystem.Fs
open PassionProjects.PebbleDB.Util

inductive SyncPolicy where
  | kEveryWrite
  | kBatched
  | kExplicit
  deriving DecidableEq, Repr

structure Writer where
  file : PosixFile
  policy : SyncPolicy
  batchSize : Nat
  recordsSinceSync : Nat
  deriving DecidableEq, Repr

namespace Writer

/-- `Writer::Open`. -/
def openWriter (n : FileName) (policy : SyncPolicy) (batchSize : Nat) :
    M (Except Status Writer) :=
  if policy = .kBatched ∧ batchSize = 0 then
    pure (.error (Status.InvalidArgument "batch_size must be >= 1 for SyncPolicy::kBatched"))
  else do
    let opened ← openAppend n
    match opened with
    | .error s => pure (.error s)
    | .ok file => pure (.ok ⟨file, policy, batchSize, 0⟩)

/-- `Writer::Sync`. -/
def syncWriter (w : Writer) : M (Status × Writer) := do
  let s ← sync w.file
  if s.ok then pure (s, { w with recordsSinceSync := 0 }) else pure (s, w)

/-- The decision `AddRecord` takes after the append. -/
def syncDue (w : Writer) : Bool :=
  w.policy == .kEveryWrite || (w.policy == .kBatched && w.recordsSinceSync ≥ w.batchSize)

/-- `AddRecord` up to its return; `addRecord` also notes a record that was
    acknowledged. -/
def writeRecord (w : Writer) (record : Record) : M (Status × Writer) :=
  if record.key.length > kMaxKeyLength.toNat then
    pure (Status.InvalidArgument "WAL record key exceeds kMaxKeyLength", w)
  else if record.type ≠ .kDelete ∧ record.value.length > kMaxValueLength.toNat then
    pure (Status.InvalidArgument "WAL record value exceeds kMaxValueLength", w)
  else do
    let s ← append w.file (encodeRecord record)
    if s.ok then
      let w := { w with recordsSinceSync := w.recordsSinceSync + 1 }
      if w.syncDue then w.syncWriter else pure (s, w)
    else pure (s, w)

/-- `AddRecord`. -/
def addRecord (w : Writer) (record : Record) : M (Status × Writer) := do
  let (s, w) ← w.writeRecord record
  if s.ok then do
    Prog.modify fun world => { world with logged := world.logged ++ [record] }
    pure (s, w)
  else pure (s, w)

end Writer

/-- The writer appends to segment `number`.  Without an fsync for every write a
    power loss could take acknowledged records away. -/
structure Writer.Open (mode : CrashMode) (w : World) (number : UInt64)
    (writer : Writer) : Prop where
  path : writer.file.path = .wal number
  dir : w.fs.dir (.wal number) = some writer.file.fd
  policy : mode = .power → writer.policy = .kEveryWrite

/-- The segment has grown from the settled bytes `b` by `data`, for good. -/
structure Grown (mode : CrashMode) (number : UInt64) (b data : Bytes) (w w' : World) : Prop where
  touches : Touches mode (.wal number) w w'
  dir : w'.fs.dir (.wal number) = w.fs.dir (.wal number)
  view : w'.fs.view (.wal number) = some (.bytes (b ++ data))
  settled : Settled mode w'.fs (.wal number)
  possible : ∀ v', Possible mode w'.fs v' → ∃ v, Possible mode w.fs v ∧
    v' = Function.update v (.wal number) (some (.bytes (b ++ data)))

/-- What a crash inside `AddRecord` leaves. -/
structure PartlyGrown (mode : CrashMode) (number : UInt64) (b data : Bytes) (w w' : World) :
    Prop where
  touches : Touches mode (.wal number) w w'
  possible : ∀ v', Possible mode w'.fs v' → ∃ v left, Possible mode w.fs v ∧ left <+: data ∧
    v' = Function.update v (.wal number) (some (.bytes (b ++ left)))

variable {mode : CrashMode} {pol : Policy FsOp World} {w w' : World} {number : UInt64}
  {writer : Writer} {record : Record} {b data part : Bytes}

theorem grown_of_appended (h : Appended mode (.wal number) b data w w')
    (hs : Settled mode w'.fs (.wal number)) : Grown mode number b data w w' where
  touches := h.touches
  dir := h.dir
  view := h.view
  settled := hs
  possible v' hv' := by
    obtain ⟨v, left, hv, -, rfl⟩ := h.possible v' hv'
    have hleft := (hs.view hv').trans h.view
    rw [Function.update_self] at hleft
    exact ⟨v, hv, by rw [hleft]⟩

theorem partlyGrown_of_appended (h : Appended mode (.wal number) b part w w')
    (hpart : part <+: data) : PartlyGrown mode number b data w w' where
  touches := h.touches
  possible v' hv' := by
    obtain ⟨v, left, hv, hleft, rfl⟩ := h.possible v' hv'
    exact ⟨v, left, hv, hleft.trans hpart, rfl⟩

/-- An fsync after the append loses nothing. -/
theorem partlyGrown_of_synced {w₁ : World} (h : Appended mode (.wal number) b data w w₁)
    (ht : Touches mode (.wal number) w₁ w')
    (hposs : ∀ v, Possible mode w'.fs v → Possible mode w₁.fs v) :
    PartlyGrown mode number b data w w' where
  touches := h.touches.trans ht
  possible v' hv' := h.possible v' (hposs v' hv')

theorem fits_of_checks (hkey : ¬ record.key.length > kMaxKeyLength.toNat)
    (hvalue : ¬ (record.type ≠ .kDelete ∧ record.value.length > kMaxValueLength.toNat)) :
    record.Fits := by
  refine ⟨Nat.not_lt.mp hkey, ?_⟩
  unfold Record.storedValue
  by_cases hd : record.type = .kDelete
  · rw [if_pos hd]
    exact Nat.zero_le _
  · rw [if_neg hd]
    exact Nat.not_lt.mp fun h => hvalue ⟨hd, h⟩

theorem not_fits_of_key (hkey : record.key.length > kMaxKeyLength.toNat) : ¬ record.Fits :=
  fun h => Nat.not_lt.mpr h.1 hkey

theorem not_fits_of_value
    (hvalue : record.type ≠ .kDelete ∧ record.value.length > kMaxValueLength.toNat) :
    ¬ record.Fits := by
  intro h
  have hle := h.2
  rw [Record.storedValue, if_neg hvalue.1] at hle
  exact Nat.not_lt.mpr hle hvalue.2

theorem encodeRecord_ne_nil (record : Record) : encodeRecord record ≠ [] := by
  intro h
  have hlen := encodeRecord_length record
  rw [h] at hlen
  have hpos : 0 < kHeaderSize := by decide
  simp only [List.length_nil] at hlen
  omega

/-- How `AddRecord` ends when fsyncs of the segment do not fail. -/
inductive Added (mode : CrashMode) (pol : Policy FsOp World) (number : UInt64) (b : Bytes)
    (record : Record) (w w' : World) (s : Status) : Prop where
  | logged (hok : s.ok = true) (hfits : record.Fits)
      (hgrown : Grown mode number b (encodeRecord record) w w')
  | rejected (hs : s.ok = false) (hfits : ¬ record.Fits) (hsame : w' = w)
  | failed (hs : s.ok = false) (hfits : record.Fits) (hfail : MayFail pol (.append (.wal number)))
      (part : Bytes) (hpart : part <+: encodeRecord record)
      (hlt : part.length < (encodeRecord record).length)
      (happended : Appended mode (.wal number) b part w w')

theorem writeRecord_spec (hwf : w.fs.WF) (hh : Homed w.fs (.wal number))
    (hopen : writer.Open mode w number) (hs : Settled mode w.fs (.wal number))
    (hb : w.fs.view (.wal number) = some (.bytes b))
    (hsync : ¬ MayFail pol (.fsync (.wal number))) :
    wp pol (writer.writeRecord record)
      (fun r w' => r.2.file = writer.file ∧ r.2.policy = writer.policy ∧
        Added mode pol number b record w w' r.1)
      (fun w' => record.Fits ∧ PartlyGrown mode number b (encodeRecord record) w w') w := by
  unfold Writer.writeRecord
  by_cases hkey : record.key.length > kMaxKeyLength.toNat
  · rw [if_pos hkey]
    exact wp_pure.mpr ⟨rfl, rfl, .rejected rfl (not_fits_of_key hkey) rfl⟩
  rw [if_neg hkey]
  by_cases hvalue : record.type ≠ .kDelete ∧ record.value.length > kMaxValueLength.toNat
  · rw [if_pos hvalue]
    exact wp_pure.mpr ⟨rfl, rfl, .rejected rfl (not_fits_of_value hvalue) rfl⟩
  rw [if_neg hvalue]
  have hfits := fits_of_checks hkey hvalue
  refine wp_bind (wp_mono (append_spec mode hwf hh hopen.path hopen.dir hs hb
    (encodeRecord_ne_nil record)) ?_ fun w' ⟨part, hpart, happ⟩ =>
      ⟨hfits, partlyGrown_of_appended happ hpart⟩)
  rintro s w₁ (⟨hok, happ⟩ | ⟨herr, hfail, part, hpart, hlt, happ⟩)
  · rw [if_pos hok]
    by_cases hdue : Writer.syncDue { writer with recordsSinceSync := writer.recordsSinceSync + 1 }
    · simp only [hdue, if_true]
      have hdir₁ : w₁.fs.dir (.wal number) = some writer.file.fd := by
        rw [happ.dir]; exact hopen.dir
      refine wp_bind (wp_mono (sync_spec mode happ.touches.fs.wf hopen.path hdir₁) ?_
        fun w' ⟨ht, _, hposs, _⟩ => ⟨hfits, partlyGrown_of_synced happ ht hposs⟩)
      rintro s w₂ ⟨ht, hview, hdir, hposs, -, ⟨hok, hsettled, -⟩ | ⟨-, hfail⟩⟩
      · rw [if_pos hok]
        refine wp_pure.mpr ⟨rfl, rfl, .logged hok hfits (grown_of_appended ?_ (hsettled happ.link))⟩
        exact {
          touches := happ.touches.trans ht
          view := (congrFun hview _).trans happ.view
          dir := (congrFun hdir _).trans happ.dir
          link := (hsettled happ.link).link
          possible := fun v' hv' => happ.possible v' (hposs v' hv')
          process := fun _ => hsettled happ.link
          nothing := fun _ => hsettled happ.link }
      · exact absurd hfail hsync
    · simp only [hdue]
      have hmode : mode = .process := by
        cases mode with
        | process => rfl
        | power => exact absurd (by simp [Writer.syncDue, hopen.policy rfl]) hdue
      exact wp_pure.mpr ⟨rfl, rfl, .logged hok hfits (grown_of_appended happ (happ.process hmode))⟩
  · rw [if_neg (by rw [herr]; simp)]
    exact wp_pure.mpr ⟨rfl, rfl, .failed herr hfits hfail part hpart hlt happ⟩

/-- `AddRecord` notes the record it acknowledges, and nothing else. -/
theorem addRecord_spec (hwf : w.fs.WF) (hh : Homed w.fs (.wal number))
    (hopen : writer.Open mode w number) (hs : Settled mode w.fs (.wal number))
    (hb : w.fs.view (.wal number) = some (.bytes b))
    (hsync : ¬ MayFail pol (.fsync (.wal number))) :
    wp pol (writer.addRecord record)
      (fun r w' => r.2.file = writer.file ∧ r.2.policy = writer.policy ∧
        ∃ w₁, Added mode pol number b record w w₁ r.1 ∧
          w' = { w₁ with logged := if r.1.ok then w.logged ++ [record] else w.logged })
      (fun w' => record.Fits ∧ PartlyGrown mode number b (encodeRecord record) w w') w := by
  refine wp_bind (wp_mono (writeRecord_spec hwf hh hopen hs hb hsync) ?_ fun _ => id)
  rintro ⟨s, writer'⟩ w₁ ⟨hfile, hpolicy, hadded⟩
  have hlogged : w₁.logged = w.logged := by
    cases hadded with
    | logged _ _ h => exact h.touches.logged
    | rejected _ _ h => rw [h]
    | failed _ _ _ _ _ _ h => exact h.touches.logged
  show wp pol (if s.ok then _ else _) _ _ w₁
  by_cases hok : s.ok = true
  · rw [if_pos hok]
    refine wp_bind (wp_modify.mpr (wp_pure.mpr ⟨hfile, hpolicy, w₁, hadded, ?_⟩))
    simp only [hok, if_true, hlogged]
  · rw [if_neg hok]
    refine wp_pure.mpr ⟨hfile, hpolicy, w₁, hadded, ?_⟩
    simp only [hok, ← hlogged]
    rfl

/-- `Writer::Open`: it refuses an empty batch, and otherwise fails with the open. -/
theorem openWriter_spec (policy : SyncPolicy) (batchSize : Nat) (hwf : w.fs.WF)
    (hh : Homed w.fs (.wal number)) (hpolicy : mode = .power → policy = .kEveryWrite)
    (hbatch : policy = .kBatched → batchSize ≠ 0) :
    wp pol (Writer.openWriter (.wal number) policy batchSize)
      (fun r w' => Touches mode (.wal number) w w' ∧
        OnlyCreates mode (.wal number) w.fs w'.fs ∧
        match r with
        | .error s => s.ok = false ∧ s.isNotFound = false ∧ ∃ o, MayFail pol o
        | .ok writer => writer.Open mode w' number ∧
            w'.fs.view (.wal number) = some ((w.fs.view (.wal number)).getD (.bytes [])) ∧
            (w.fs.view (.wal number) = none ∨ Settled mode w.fs (.wal number) →
              Settled mode w'.fs (.wal number)))
      (fun w' => Touches mode (.wal number) w w' ∧
        OnlyCreates mode (.wal number) w.fs w'.fs) w := by
  unfold Writer.openWriter
  rw [if_neg fun h => hbatch h.1 h.2]
  refine wp_bind (wp_mono (openAppend_spec mode hwf hh) ?_ fun _ => id)
  rintro (s | file) w' ⟨ht, hc, hr⟩
  · obtain ⟨hs, hnf, hfail⟩ := hr
    exact wp_pure.mpr ⟨ht, hc, hs, hnf, hfail.elim (fun h => ⟨_, h⟩) fun h => ⟨_, h⟩⟩
  · exact wp_pure.mpr ⟨ht, hc, ⟨hr.path, hr.dir, hpolicy⟩, hr.view, hr.settled rfl⟩

end PassionProjects.PebbleDB.Wal
