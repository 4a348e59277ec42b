/-
  PassionProjects.PebbleDB.Db.FileNumbers

  File numbers across restarts.

  A number is allocated in memory before the manifest that records it is saved.
  A process that stops in between leaves a table file whose number the next
  process hands out again, and `OpenNew` then refuses it.  The number of a
  rotated WAL segment is never recorded as allocated: the rotation saves the
  counter of the publish before it.
-/

import PassionProjects.PebbleDB.Db.CrashSafety

namespace PassionProjects.PebbleDB

open PassionProjects.Faults
open PassionProjects.Faults.Prog
open PassionProjects.FileSystem
open PassionProjects.FileSystem.Fs
open PassionProjects.Refinement
open PassionProjects.PebbleDB.Manifest

-- ============================================================================
-- Table files in the way
-- ============================================================================

/-- No table file with contents has a number that a process opening this directory
    would hand out. -/
def NoLeftovers (w : World) : Prop :=
  ∀ n : UInt64, (nextOnDisk w.fs.view).toNat ≤ n.toNat → ¬ Blocked w n

/-- As `faultyEnv`, with a condition on the directories that are opened. -/
def openingEnv (mayOpen : World → Prop) : Env := { faultyEnv with mayOpen }

theorem sound_openingEnv (mayOpen : World → Prop) : (openingEnv mayOpen).Sound :=
  ⟨tolerable_flushFaults, fun _ _ _ _ _ => grounded_process _,
    fun h => absurd h (not_appendsFail_flushFaults rfl)⟩

/-- No table file is in the way of an open DB. -/
def Unobstructed (s : Sys) : Prop :=
  ∀ db, s.proc = some db → ∀ n : UInt64, db.nextFileNumber.toNat ≤ n.toNat → ¬ Blocked s.world n

theorem blocked_congr {w w' : World} {n : UInt64} (h : w'.fs.view (.sst n) = w.fs.view (.sst n)) :
    Blocked w' n ↔ Blocked w n := by rw [Blocked, Blocked, h]

/-- Where directories without leftovers are opened, nothing is ever in the way. -/
theorem simulation_unobstructed {mayOpen : World → Prop}
    (hclean : ∀ w, mayOpen w → NoLeftovers w) :
    Simulation (Step (openingEnv mayOpen)) SpecStep
      (fun s m => Related (openingEnv mayOpen) s m ∧ Unobstructed s) Agrees where
  agrees h := (simulation (sound_openingEnv mayOpen)).agrees h.1
  step {s m e s'} hrel hstep := by
    obtain ⟨m', hspec, hrel'⟩ := (simulation (sound_openingEnv mayOpen)).step hrel.1 hstep
    refine ⟨m', hspec, hrel', ?_⟩
    cases hstep with
    | opened hopt hbounded hmay hrun =>
        obtain ⟨l, hdown, -⟩ := hrel.1
        rcases wp_done (openDb_spec (hdown.openable (grounded_process _)) hbounded hopt) hrun with
          ⟨db, g, heq, hrec⟩ | ⟨s, heq, -⟩
        · obtain rfl := Except.ok.inj heq
          rintro _ ⟨⟩ n hn
          rw [blocked_congr (hrec.sst n)]
          exact hclean _ hmay n (Nat.le_trans hrec.next hn)
        · exact absurd heq (by simp)
    | returned hmay hfit hrun =>
        obtain ⟨g, hlive, -, htorn⟩ := hrel.1
        have htorn' := (sound_openingEnv mayOpen).torn hlive hmay htorn
        obtain ⟨g', hcalled⟩ :=
          wp_done (op_spec hlive (sound_openingEnv mayOpen).call htorn' hfit) hrun
        rintro _ ⟨⟩ n hn
        rw [blocked_congr (hcalled.sst n hn)]
        exact hrel.2 _ rfl n (Nat.le_trans hcalled.nextLe hn)
    | openFailed => exact fun db hdb => absurd hdb (by simp)
    | openCrashed => exact fun db hdb => absurd hdb (by simp)
    | crashed => exact fun db hdb => absurd hdb (by simp)
    | stopped => exact fun db hdb => absurd hdb (by simp)

theorem noLeftovers_init : NoLeftovers World.init := by
  intro n _
  simp [Blocked, World.init, Fs.init, Fs.view]

instance (w : World) : Decidable ((openingEnv fun _ => True).mayOpen w) := isTrue trivial
instance (mayOpen : World → Prop) (op : Op) (db : DB) (w : World) :
    Decidable ((openingEnv mayOpen).mayCall op db w) := isTrue trivial

/-- A flush that crashes between writing its table and renaming the manifest, and
    a second process. -/
def leftoverScript : List Action :=
  [.start {} [] [], .call (.put [97] [1]) [] [],
    .call .flush [.none, .none, .none, .none, .none, .none, .none, .none, .crash 0] [],
    .start {} [] []]

/-- What a flush without a failing call returns in the last state of a run. -/
def lastFlush (run : List (Event × Sys)) : Option Status :=
  match lastState Sys.init run with
  | ⟨w, some db⟩ =>
    match DB.flush db stopsOnly [] w with
    | .done (s, _) _ _ => some s
    | .crashed _ => none
  | ⟨_, none⟩ => none

theorem lastFlush_eq_some {run : List (Event × Sys)} {s : Status} (h : lastFlush run = some s) :
    ∃ w db db' w' env', lastState .init run = ⟨w, some db⟩ ∧
      db.flush stopsOnly [] w = .done (s, db') w' env' := by
  unfold lastFlush at h
  split at h
  · split at h
    · obtain rfl := Option.some.inj h
      exact ⟨_, _, _, _, _, ‹_›, ‹_›⟩
    · exact absurd h (by simp)
  · exact absurd h (by simp)

/-- The counter of a manifest is beyond every number that it names. -/
structure NumbersBelow (md : ManifestData) : Prop where
  wal : md.walFileNumber.toNat < md.nextFileNumber.toNat
  tables : ∀ t ∈ md.tables, t.fileNumber.toNat < md.nextFileNumber.toNat

/-- The counter in MANIFEST is beyond the numbers it names unless the manifest that
    was published last is that of a WAL rotation. -/
theorem numbers_below_iff {run : List (Event × Sys)} (h : Runs (Step faultyEnv) .init run)
    {md : ManifestData} (hmd : (lastState .init run).world.fs.view .manifest =
      some (.bytes (encodeManifest md))) :
    NumbersBelow md ↔ ¬ Rotated (lastState .init run).world.published = true := by
  obtain ⟨m, hrel⟩ := (simulation sound_faultyEnv).reaches (related_init _) h
  have hdisk : OnDisk (lastState Sys.init run).world := by
    generalize lastState Sys.init run = s at hrel ⊢
    obtain ⟨w, _ | db⟩ := s
    · obtain ⟨l, hdown, -⟩ := hrel
      exact hdown.onDisk rfl
    · obtain ⟨g, hlive, -⟩ := hrel
      exact (hlive.onDisk rfl).1
  rcases hdisk with ⟨-, hnone⟩ | ⟨md', -, hmd', hwal, htables⟩
  · rw [hnone] at hmd
    exact absurd hmd (by simp)
  · have heq : encodeManifest md' = encodeManifest md :=
      FileData.bytes.inj (Option.some.inj (hmd'.symm.trans hmd))
    obtain rfl := encodeManifest_inj heq
    exact ⟨fun hbelow => hwal.mp hbelow.wal, fun hnot => ⟨hwal.mpr hnot, htables⟩⟩

/-- A Put and a flush. -/
def flushScript : List Action :=
  [.start {} [] [], .call (.put [97] [1]) [] [], .call .flush [] []]

theorem rotation_forgets_number : ∃ run, Runs (Step faultyEnv) .init run ∧
    (lastState .init run).world.fs.view .manifest =
      some (.bytes (encodeManifest ⟨3, 3, 1, [⟨2, 0⟩]⟩)) ∧
    ¬ NumbersBelow ⟨3, 3, 1, [⟨2, 0⟩]⟩ := by
  have hmap : (runScript faultyEnv flushScript .init).map
      (fun run => (lastState .init run).world.fs.view .manifest) =
      some (some (.bytes (encodeManifest ⟨3, 3, 1, [⟨2, 0⟩]⟩))) := by decide +kernel
  obtain ⟨run, hrun, hview⟩ := Option.map_eq_some_iff.mp hmap
  exact ⟨run, runScript_runs hrun, hview, fun h => absurd h.wal (by decide)⟩

theorem numbers_below_iff_flushScript : ∃ (run : List (Event × Sys)) (md : ManifestData),
    (lastState .init run).world.fs.view .manifest = some (.bytes (encodeManifest md)) ∧
    (NumbersBelow md ↔ ¬ Rotated (lastState .init run).world.published = true) := by
  have hmap : (runScript faultyEnv flushScript .init).map
      (fun run => (lastState .init run).world.fs.view .manifest) =
      some (some (.bytes (encodeManifest ⟨3, 3, 1, [⟨2, 0⟩]⟩))) := by decide +kernel
  obtain ⟨run, hrun, hview⟩ := Option.map_eq_some_iff.mp hmap
  exact ⟨run, _, hview, numbers_below_iff (runScript_runs hrun) hview⟩

end PassionProjects.PebbleDB
