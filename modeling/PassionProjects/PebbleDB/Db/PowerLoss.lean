/-
  PassionProjects.PebbleDB.Db.PowerLoss

  What a power loss can do when fsyncs of the directory fail.

  `SaveManifest` fsyncs the directory after its rename.  Where that fails for the
  publish of a table nothing is lost: the table is new, and the segment that holds
  its records is still there whether or not the rename survives.  Where it fails
  for a rotation, `FlushLocked` removes the old segment all the same, and a power
  loss can keep the removal without the rename: the manifest then names a segment
  that is gone.

  `Recover` fsyncs the directory only when it starts a fresh database.  A process
  that opens a directory after another one has ended, without a power loss in
  between, may so build on a rename that is still waiting, and write what it
  acknowledges to a segment that no manifest names once the rename is lost.
-/

import PassionProjects.PebbleDB.Db.CrashSafety

namespace PassionProjects.PebbleDB

open PassionProjects.Faults
open PassionProjects.Faults.Prog
open PassionProjects.FileSystem
open PassionProjects.FileSystem.Fs
open PassionProjects.Layers
open PassionProjects.Refinement
open PassionProjects.PebbleDB.Memtable
open PassionProjects.PebbleDB.Manifest

-- ============================================================================
-- What a process may build on
-- ============================================================================

/-- Nothing of the contents waits for an fsync. -/
def synced (fs : DbFs) : Option (FileId FileName) → Bool
  | none => true
  | some i => (fs.inodes i).durable == (fs.inodes i).data

/-- The segment that MANIFEST names when it has these contents. -/
def segmentIn : Option FileData → Option UInt64
  | some (.bytes b) => match decodeManifest b with
    | .ok md => some md.walFileNumber
    | .error _ => none
  | _ => none

/-- The link and the bytes of the segment are durable. -/
def DurableSegment (fs : DbFs) : Option UInt64 → Prop
  | none => True
  | some n => synced fs (fs.dir (.wal n)) = true ∧ ∀ x ∈ fs.mayLink (.wal n), x = fs.dir (.wal n)

instance (fs : DbFs) : ∀ segment, Decidable (DurableSegment fs segment)
  | none => isTrue trivial
  | some _ => inferInstanceAs (Decidable (_ ∧ _))

/-- A name under which a process that counts from `next` creates its files. -/
def FileName.isFresh (next : UInt64) : FileName → Bool
  | .wal n => next.toNat ≤ n.toNat
  | .sst n => next.toNat ≤ n.toNat
  | _ => false

/-- No power loss takes away what a process builds on that opens the directory now:
    every file that MANIFEST may turn out to be names the segment that is named
    now, this segment is durable, and no link of a name that the process will use
    waits for an fsync. -/
structure Firm (fs : DbFs) : Prop where
  manifest : ∀ x ∈ fs.mayLink .manifest, synced fs x = true ∧
    segmentIn (x.map fun i => (fs.inodes i).data) = segmentIn (fs.view .manifest)
  segment : DurableSegment fs (segmentIn (fs.view .manifest))
  fresh : ∀ c ∈ fs.pending, ∀ n ∈ c.names, n.isFresh (nextOnDisk fs.view) = true →
    ∀ x ∈ fs.mayLink n, x = fs.dir n

instance (fs : DbFs) : Decidable (Firm fs) :=
  decidable_of_iff
    ((∀ x ∈ fs.mayLink .manifest, synced fs x = true ∧
        segmentIn (x.map fun i => (fs.inodes i).data) = segmentIn (fs.view .manifest)) ∧
      DurableSegment fs (segmentIn (fs.view .manifest)) ∧
      ∀ c ∈ fs.pending, ∀ n ∈ c.names, n.isFresh (nextOnDisk fs.view) = true →
        ∀ x ∈ fs.mayLink n, x = fs.dir n)
    ⟨fun h => ⟨h.1, h.2.1, h.2.2⟩, fun h => ⟨h.manifest, h.segment, h.fresh⟩⟩

section Firm

variable {fs : DbFs} {published : List ManifestData} {u v : DbView}

theorem segmentIn_eq (hb : Bounded published) (h : Listed published v) :
    (v .manifest = none ∧ segmentIn (v .manifest) = none) ∨
      ∃ md, v .manifest = some (.bytes (encodeManifest md)) ∧
        segmentIn (v .manifest) = some md.walFileNumber := by
  rcases h with hnone | ⟨md, hmem, hmd⟩
  · exact Or.inl ⟨hnone, by rw [hnone]; rfl⟩
  · refine Or.inr ⟨md, hmd, ?_⟩
    simp only [hmd, segmentIn, decodeManifest_encodeManifest md (hb md hmem)]

theorem sameSegment_of_segmentIn (hb : Bounded published) (hu : Listed published u)
    (hv : Listed published v) (h : segmentIn (v .manifest) = segmentIn (u .manifest)) :
    SameSegment u v := by
  rcases segmentIn_eq hb hu with ⟨hu, hsu⟩ | ⟨md, hu, hsu⟩
  · rcases segmentIn_eq hb hv with ⟨hv, -⟩ | ⟨md', hv, hsv⟩
    · exact ⟨by simp [hu, hv], fun md md' hmd => absurd (hu.symm.trans hmd) (by simp)⟩
    · rw [hsu, hsv] at h
      exact absurd h (by simp)
  · rcases segmentIn_eq hb hv with ⟨hv, hsv⟩ | ⟨md', hv, hsv⟩
    · rw [hsu, hsv] at h
      exact absurd h (by simp)
    · rw [hsu, hsv] at h
      refine ⟨by simp [hu, hv], fun a b ha hb => ?_⟩
      obtain rfl := encodeManifest_inj (FileData.bytes.inj (Option.some.inj (hu.symm.trans ha)))
      obtain rfl := encodeManifest_inj (FileData.bytes.inj (Option.some.inj (hv.symm.trans hb)))
      exact (Option.some.inj h).symm

theorem Firm.settled {n : FileName} (hlink : ∀ x ∈ fs.mayLink n, x = fs.dir n)
    (hsync : synced fs (fs.dir n) = true) : Settled .power fs n := by
  refine ⟨linkSettled_of_mayLink hlink, fun i hi => Or.inr ?_⟩
  simpa [synced, hi] using hsync

/-- What is firm no crash changes. -/
theorem Firm.grounded (h : Firm fs) (hwf : fs.WF) (hb : Bounded published)
    (hlisted : ∀ v, Possible .power fs v → Listed published v) : Grounded .power fs where
  segment v hv := by
    refine sameSegment_of_segmentIn hb (hlisted _ (possible_view hwf _)) (hlisted v hv) ?_
    obtain ⟨d, c, hd, hc, rfl⟩ := hv
    obtain ⟨hsync, hsegment⟩ := h.manifest _ (mem_mayLink hd .manifest)
    rw [← hsegment]
    show segmentIn ((d .manifest).map c) = _
    cases hi : d .manifest with
    | none => rfl
    | some i =>
        have hdurable : (fs.inodes i).durable = (fs.inodes i).data := by
          simpa [synced, hi] using hsync
        simp [possibleData_synced (hc i) (Or.inr hdurable)]
  wal md hmd := by
    rcases segmentIn_eq hb (hlisted _ (possible_view hwf _)) with ⟨hnone, -⟩ | ⟨md', hmd', hseg⟩
    · exact absurd (hnone.symm.trans hmd) (by simp)
    · obtain rfl :=
        encodeManifest_inj (FileData.bytes.inj (Option.some.inj (hmd'.symm.trans hmd)))
      have hdurable := h.segment
      rw [hseg] at hdurable
      exact Firm.settled hdurable.2 hdurable.1
  fresh n hpos hn := by
    have hnext : (nextOnDisk fs.view).toNat ≤ n.toNat := by
      rcases hlisted _ (possible_view hwf _) with hnone | ⟨md, hmem, hmd⟩
      · rw [nextOnDisk, hnone]
        exact hpos
      · simpa [nextOnDisk, hmd, decodeManifest_encodeManifest md (hb md hmem)] using hn md hmd
    have hlink (m : FileName) (hm : m.isFresh (nextOnDisk fs.view) = true) :
        LinkSettled .power fs m := by
      by_cases hnamed : ∃ c ∈ fs.pending, m ∈ c.names
      · obtain ⟨c, hc, hmem⟩ := hnamed
        exact linkSettled_of_mayLink (h.fresh c hc m hmem hm)
      · exact linkSettled_of_unnamed hwf fun c hc hmem => hnamed ⟨c, hc, hmem⟩
    exact ⟨hlink _ (by simpa [FileName.isFresh] using hnext),
      hlink _ (by simpa [FileName.isFresh] using hnext)⟩

/-- What a power loss leaves is firm. -/
theorem firm_of_after {fs' : DbFs} (h : After .power fs fs') : Firm fs' := by
  obtain ⟨d, c, -, -, rfl⟩ := h
  have hsynced (x : Option (FileId FileName)) :
      synced { dir := d, durableDir := d, pending := [], inodes := fun i => ⟨c i, c i⟩,
               next := fs.next } x = true := by
    cases x with
    | none => rfl
    | some i => simp [synced]
  refine ⟨fun x hx => ⟨hsynced x, ?_⟩, ?_, by simp⟩
  · obtain rfl : x = d .manifest := by simpa [mayLink] using hx
    rfl
  · cases segmentIn _ with
    | none => trivial
    | some n => exact ⟨hsynced _, fun x hx => by simpa [mayLink] using hx⟩

end Firm

/-- Fsyncs of the directory may fail, wherever they are made. -/
def dirFaults : Policy FsOp World := fun _ o fault =>
  match o, fault with
  | .fsyncDir _, .error _ => true
  | _, .error _ => false
  | _, _ => true

/-- Fsyncs of the directory may fail, except after the rename of a rotation. -/
def publishDirFaults : Policy FsOp World := fun w o fault =>
  match o, fault with
  | .fsyncDir .created, .error _ => true
  | .fsyncDir .renamed, .error _ => !Rotated w.published
  | _, .error _ => false
  | _, _ => true

/-- Power may be lost and processes may end at any moment, and any fsync of the
    directory may fail. -/
def dirFaultEnv : Env where
  mode := .power
  openFaults := dirFaults
  callFaults := dirFaults

/-- As `dirFaultEnv`, but the fsyncs of rotations do not fail, and directories are
    opened on firm ground. -/
def powerEnv : Env where
  mode := .power
  openFaults := dirFaults
  callFaults := publishDirFaults
  mayOpen w := Firm w.fs

instance (w : World) : Decidable (dirFaultEnv.mayOpen w) := isTrue trivial
instance (op : Op) (db : DB) (w : World) : Decidable (dirFaultEnv.mayCall op db w) := isTrue trivial
instance (w : World) : Decidable (powerEnv.mayOpen w) := inferInstanceAs (Decidable (Firm _))
instance (op : Op) (db : DB) (w : World) : Decidable (powerEnv.mayCall op db w) := isTrue trivial

theorem sound_powerEnv : powerEnv.Sound where
  call := {
    fsync := fun n => by
      rintro ⟨w, k, h⟩
      exact absurd h (by simp [powerEnv, publishDirFaults])
    append := fun _ n => by
      rintro ⟨w, k, h⟩
      exact absurd h (by simp [powerEnv, publishDirFaults])
    rotation := fun _ w k h => by simpa [powerEnv, publishDirFaults] using h }
  opens _ hfirm hb hwf hlisted := hfirm.grounded hwf hb hlisted
  boundary hfail := by
    obtain ⟨n, w, k, h⟩ := hfail
    exact absurd h (by simp [powerEnv, publishDirFaults])

-- ============================================================================
-- What a power loss must not take away
-- ============================================================================

/-- The manifest names table files and a WAL segment that exist with complete
    contents; a segment may end in the record of a write that was interrupted. -/
def NamesCompleteFiles (v : DbView) : Prop :=
  ∀ md, v .manifest = some (.bytes (encodeManifest md)) →
    (∀ t ∈ md.tables, ∃ entries, v (.sst t.fileNumber) = some (.table entries)) ∧
    ∃ b, v (.wal md.walFileNumber) = some (.bytes b) ∧
      ((Wal.Reader.replay (.start b)).terminal = .kEndOfLog ∨
        (Wal.Reader.replay (.start b)).terminal = .kTruncated)

/-- `DB::Open` returns OK when no call in it fails, unless its process ends. -/
def OpensOk (w : World) : Prop :=
  ∀ options env s w' env', OptionsOk .power options →
    DB.openDb options stopsOnly env w ≠ .done (.error s) w' env'

/-- Whenever power is lost, the manifest that is found names complete files and
    `DB::Open` returns OK, as it does on firm ground after a process has ended; and
    everything acknowledged is read. -/
structure PowerSafe (run : List (Event × Sys)) : Prop where
  files : ∀ x ∈ run, ∀ v, Possible .power x.2.world.fs v → NamesCompleteFiles v
  opens : ∀ x ∈ run, ∀ fs, Bounded x.2.world.published → After .power x.2.world.fs fs →
    OpensOk { x.2.world with fs }
  reopens : ∀ x ∈ run, x.2.proc = none → Bounded x.2.world.published → Firm x.2.world.fs →
    OpensOk x.2.world
  follows : Follows SpecStep Agrees (fun _ => none) run

theorem DiskOk.namesCompleteFiles {v : DbView} {l : EntryLayer} (h : DiskOk v l) :
    NamesCompleteFiles v := by
  intro md hmd
  rcases h with ⟨hfresh, -⟩ | ⟨md', tables, records, torn, hshow, -⟩
  · rw [hfresh.manifest] at hmd
    exact absurd hmd (by simp)
  · have heq : encodeManifest md' = encodeManifest md :=
      FileData.bytes.inj (Option.some.inj (hshow.manifest.symm.trans hmd))
    obtain rfl := encodeManifest_inj heq
    refine ⟨fun t ht => ?_, _, hshow.wal, ?_⟩
    · rw [hshow.counters.infos] at ht
      obtain ⟨t', ht', rfl⟩ := List.mem_map.mp ht
      exact ⟨t'.entries, hshow.tableFiles t' ht'⟩
    · obtain ⟨-, hterminal, -⟩ :=
        Wal.Reader.replay_start records (fun r hr => (hshow.logged r hr).1) hshow.torn
      rw [hterminal]
      split
      · exact Or.inl rfl
      · exact Or.inr rfl

theorem Openable.opensOk {l : EntryLayer} {w : World} (h : Openable .power l w)
    (hb : Bounded w.published) : OpensOk w := by
  intro options env s w' env' hopt hrun
  rcases wp_done (openDb_spec h hb hopt) hrun with ⟨db, g, heq, -⟩ | ⟨s', -, ⟨o, hfail⟩, -⟩
  · exact absurd heq (by simp)
  · exact not_mayFail_stopsOnly o hfail

/-- In every state the directory is one that the end of the process may leave. -/
theorem Related.down {E : Env} {s : Sys} {m : Store} (h : Related E s m) :
    ∃ l, Down E.mode l s.world := by
  obtain ⟨w, _ | db⟩ := s
  · obtain ⟨l, hdown, -⟩ := h
    exact ⟨l, hdown⟩
  · obtain ⟨g, hlive, -⟩ := h
    exact ⟨_, hlive.crash.down (Or.inl rfl)⟩

-- ============================================================================
-- What does not survive
-- ============================================================================

/-- The status that an open of this directory fails with, if no call in it does. -/
def openError (w : World) : Option Status :=
  match DB.openDb {} stopsOnly [] w with
  | .done (.error s) _ _ => some s
  | _ => none

/-- The status that an open fails with if power is lost after a step of the run and
    these changes are kept. -/
def openErrorAfter (run : List (Event × Sys)) (k : Nat) (kept : List (DirChange FileName)) :
    Option Status := do
  let x ← run[k]?
  let fs ← leave .power kept x.2.world.fs
  if Bounded x.2.world.published then openError { x.2.world with fs } else none

theorem not_powerSafe_of_openErrorAfter {run : List (Event × Sys)} {k : Nat}
    {kept : List (DirChange FileName)} {s : Status} (h : openErrorAfter run k kept = some s) :
    ¬ PowerSafe run := by
  intro hsafe
  simp only [openErrorAfter, Option.bind_eq_bind, Option.bind_eq_some_iff] at h
  obtain ⟨x, hx, fs, hfs, h⟩ := h
  split at h
  · have hok := hsafe.opens x (List.mem_of_getElem? hx) fs ‹_› (leave_after hfs)
    rw [openError] at h
    split at h
    · exact hok {} [] _ _ _ ⟨fun _ => rfl, by simp⟩ ‹_›
    · exact absurd h (by simp)
  · exact absurd h (by simp)

/-- A Put and a flush whose rotation cannot fsync the directory; then power is
    lost, and of the rename and the removal of the old segment only the removal
    is kept. -/
def rotationScript : List Action :=
  [.start {} [] [], .call (.put [97] [1]) [] [],
    .call .flush (List.replicate 18 .none ++ [.error 0]) [], .halt [.unlink (.wal 1)],
    .start {} [] []]

theorem degraded_rotation_loses_segment : ∃ run, Runs (Step dirFaultEnv) .init run ∧
    run.map Prod.fst =
      [.opened, .returned (.put [97] [1]) Status.OK true,
        .returned .flush (Status.IOError "fsync (directory) failed") false, .stopped,
        .openFailed (Status.IOError "open (read) failed")] ∧
    ¬ PowerSafe run := by
  have hmap : (runScript dirFaultEnv rotationScript .init).map (fun run =>
        (run.map Prod.fst, openErrorAfter run 2 [.unlink (.wal 1)])) =
      some ([.opened, .returned (.put [97] [1]) Status.OK true,
        .returned .flush (Status.IOError "fsync (directory) failed") false, .stopped,
        .openFailed (Status.IOError "open (read) failed")],
        some (Status.IOError "open (read) failed")) := by decide +kernel
  obtain ⟨run, hrun, heq⟩ := Option.map_eq_some_iff.mp hmap
  obtain ⟨hevents, herror⟩ := Prod.mk.inj heq
  exact ⟨run, runScript_runs hrun, hevents, not_powerSafe_of_openErrorAfter herror⟩

/-- What a process leaves that ends without a power loss. -/
def keepAll (_ : List (DirChange FileName)) (w : World) : Option Sys := some ⟨w, none⟩

/-- The run of a script that says of every action whether power is lost if its process
    ends. -/
def runPower (E : Env) [∀ w, Decidable (E.mayOpen w)] [∀ op db w, Decidable (E.mayCall op db w)] :
    List (Action × Bool) → Sys → Option (List (Event × Sys)) :=
  runWith fun a => a.1.stepWith E (if a.2 then goDown E else keepAll)

theorem runPower_runs {E : Env} [∀ w, Decidable (E.mayOpen w)]
    [∀ op db w, Decidable (E.mayCall op db w)] {script : List (Action × Bool)} {s : Sys}
    {run : List (Event × Sys)} (h : runPower E script s = some run) : Runs (Step E) s run := by
  refine runWith_runs (fun a s e s' hstep => Action.stepWith_some (fun kept w s hs => ?_) hstep) h
  cases hlost : a.2 with
  | true => exact goDown_some (by simpa [hlost] using hs)
  | false =>
      have heq : some (⟨w, none⟩ : Sys) = some s := by simpa [hlost, keepAll] using hs
      exact ⟨w.fs, Or.inl rfl, (Option.some.inj heq).symm⟩

/-- The first open fails at its last fsync of the directory, so that the rename of the
    manifest waits; a second one succeeds, and a Put; then power is lost and the rename
    with it. -/
def retriedScript : List (Action × Bool) :=
  [(.start {} (List.replicate 7 .none ++ [.error 0]) [], false), (.start {} [] [], false),
    (.call (.put [97] [1]) [] [], false), (.halt [], true), (.start {} [] [], false)]

theorem retried_open_loses_write : ∃ run, Runs (Step dirFaultEnv) .init run ∧
    run.map (fun x => (x.1, x.2.proc.map fun db => db.get [97])) =
      [(.openFailed (Status.IOError "fsync (directory) failed"), none),
        (.opened, some (.error (Status.NotFound ""))),
        (.returned (.put [97] [1]) Status.OK true, some (.ok [1])), (.stopped, none),
        (.opened, some (.error (Status.NotFound "")))] ∧
    ¬ PowerSafe run := by
  have hmap : (runPower dirFaultEnv retriedScript .init).map
      (List.map fun x => (x.1, x.2.proc.map fun db => db.get [97])) =
      some [(.openFailed (Status.IOError "fsync (directory) failed"), none),
        (.opened, some (.error (Status.NotFound ""))),
        (.returned (.put [97] [1]) Status.OK true, some (.ok [1])), (.stopped, none),
        (.opened, some (.error (Status.NotFound "")))] := by decide +kernel
  obtain ⟨run, hrun, hreads⟩ := Option.map_eq_some_iff.mp hmap
  refine ⟨run, runPower_runs hrun, hreads, fun h => ?_⟩
  obtain ⟨⟨e₁, s₁⟩, rest, rfl, h₁, hrest⟩ := List.map_eq_cons_iff.mp hreads
  obtain ⟨⟨e₂, s₂⟩, rest, rfl, h₂, hrest⟩ := List.map_eq_cons_iff.mp hrest
  obtain ⟨⟨e₃, s₃⟩, rest, rfl, h₃, hrest⟩ := List.map_eq_cons_iff.mp hrest
  obtain ⟨⟨e₄, s₄⟩, rest, rfl, h₄, hrest⟩ := List.map_eq_cons_iff.mp hrest
  obtain ⟨⟨e₅, w₅, p₅⟩, rest, rfl, h₅, hrest⟩ := List.map_eq_cons_iff.mp hrest
  obtain ⟨rfl, -⟩ := Prod.mk.inj h₁
  obtain ⟨rfl, -⟩ := Prod.mk.inj h₂
  obtain ⟨rfl, -⟩ := Prod.mk.inj h₃
  obtain ⟨rfl, -⟩ := Prod.mk.inj h₄
  obtain ⟨rfl, hget⟩ := Prod.mk.inj h₅
  obtain ⟨db, rfl, hdb⟩ := Option.map_eq_some_iff.mp hget
  -- The Put is the only event that changes what the abstract system holds.
  obtain ⟨m₁, hm₁, -, hrest⟩ := h.follows.uncons
  obtain ⟨m₂, hm₂, -, hrest⟩ := hrest.uncons
  obtain ⟨m₃, hm₃, -, hrest⟩ := hrest.uncons
  obtain ⟨m₄, hm₄, -, hrest⟩ := hrest.uncons
  obtain ⟨m₅, hm₅, hagrees, -⟩ := hrest.uncons
  obtain rfl := hm₁.silent rfl
  obtain rfl := hm₂.silent rfl
  obtain rfl := hm₄.silent rfl
  obtain rfl := hm₅.silent rfl
  cases hm₃ with
  | applied =>
      have hread : db.get [97] = .ok [1] := hagrees [97]
      rw [hdb] at hread
      exact absurd hread (by simp)

-- ============================================================================
-- What survives
-- ============================================================================

theorem down_of_powerEnv {run : List (Event × Sys)} (h : Runs (Step powerEnv) .init run) :
    ∀ x ∈ run, ∃ l, Down .power l x.2.world := by
  intro x hx
  obtain ⟨m, hrel⟩ := (simulation sound_powerEnv).related (related_init _) h x hx
  exact hrel.down

/-- As long as the directory fsync of a rotation does not fail, and directories are
    opened on firm ground, every power loss is survived, whatever other fsyncs of
    the directory fail. -/
theorem power_safe {run : List (Event × Sys)} (h : Runs (Step powerEnv) .init run) :
    PowerSafe run where
  files x hx v hv := by
    obtain ⟨l, hdown⟩ := down_of_powerEnv h x hx
    obtain ⟨m', hdisk⟩ := hdown.views v hv
    exact hdisk.namesCompleteFiles
  opens x hx fs hbounded hafter := by
    obtain ⟨l, hdown⟩ := down_of_powerEnv h x hx
    obtain ⟨m', hdisk⟩ := hdown.views _ (hafter.spec hdown.wf).2.1
    exact (hdisk.openable hafter hdown.wf hdown.homed hdown.listed hdown.onDisk).opensOk hbounded
  reopens x hx _ hbounded hfirm := by
    obtain ⟨l, hdown⟩ := down_of_powerEnv h x hx
    exact (hdown.openable (hfirm.grounded hdown.wf hbounded hdown.listed)).opensOk hbounded
  follows := (simulation sound_powerEnv).follows (related_init _) h

/-- The directory fsync fails after the publish of a table, and the process ends;
    a second process writes while the rename still waits, and then power is lost and
    the rename with it. -/
def publishScript : List (Action × Bool) :=
  [(.start {} [] [], false), (.call (.put [97] [1]) [] [], false),
    (.call .flush (List.replicate 10 .none ++ [.error 0]) [], false), (.halt [], false),
    (.start {} [] [], false), (.call (.put [98] [1]) [] [], false), (.halt [], true),
    (.start {} [] [], false)]

theorem power_safe_publishScript : ∃ run,
    runPower powerEnv publishScript .init = some run ∧ PowerSafe run :=
  have hsome : (runPower powerEnv publishScript .init).isSome = true := by decide +kernel
  have ⟨run, hrun⟩ := Option.isSome_iff_exists.mp hsome
  ⟨run, hrun, power_safe (runPower_runs hrun)⟩

end PassionProjects.PebbleDB
