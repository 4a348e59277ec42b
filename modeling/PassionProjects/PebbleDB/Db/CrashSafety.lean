/-
  PassionProjects.PebbleDB.Db.CrashSafety

  What the database promises when processes crash and flushes fail: it refines the map it
  stands for, and its layers are in the order of their sequence numbers.

  A script says what happens to a directory: which processes open it, which
  calls they make, where a fault strikes, and which of the directory changes
  that were not fsynced a power loss keeps.  `runScript` computes the run, and
  `runScript_runs` says that it is one.
-/

import PassionProjects.PebbleDB.Db.Run

namespace PassionProjects.PebbleDB

section Scripts

open PassionProjects.Faults
open PassionProjects.FileSystem
open PassionProjects.FileSystem.Fs
open PassionProjects.Refinement

/-- One step of a script.  `kept` is what a power loss keeps of the waiting
    directory changes, if the process stops in this step. -/
inductive Action where
  | start (options : Options) (env : List Fault) (kept : List (DirChange FileName))
  | call (op : Op) (env : List Fault) (kept : List (DirChange FileName))
  | halt (kept : List (DirChange FileName))

/-- The directory after a crash that keeps all contents and these changes. -/
def leave (mode : CrashMode) (kept : List (DirChange FileName)) (fs : DbFs) : Option DbFs :=
  match mode with
  | .process => some fs
  | .power =>
    if kept.isSublist fs.pending then
      let d := kept.foldl (fun d c => c.apply d) fs.durableDir
      some { dir := d, durableDir := d, pending := [],
             inodes := fun i => ⟨(fs.inodes i).data, (fs.inodes i).data⟩, next := fs.next }
    else none

theorem leave_after {mode : CrashMode} {kept : List (DirChange FileName)} {fs fs' : DbFs}
    (h : leave mode kept fs = some fs') : After mode fs fs' := by
  cases mode with
  | process => exact (Option.some.inj h).symm
  | power =>
      simp only [leave] at h
      by_cases hsub : kept.isSublist fs.pending = true
      · rw [if_pos hsub] at h
        refine ⟨_, fun i => (fs.inodes i).data, ⟨kept, List.isSublist_iff_sublist.mp hsub, rfl⟩,
          fun i => possibleData_self, ?_⟩
        exact (Option.some.inj h).symm
      · rw [if_neg hsub] at h
        exact absurd h (by simp)

instance (mode : CrashMode) (options : Options) : Decidable (OptionsOk mode options) :=
  decidable_of_iff ((mode = .power → options.walSyncPolicy = .kEveryWrite) ∧
      (options.walSyncPolicy = .kBatched → options.walBatchSize ≠ 0))
    ⟨fun h => ⟨h.1, h.2⟩, fun h => ⟨h.1, h.2⟩⟩

instance (published : List Manifest.ManifestData) : Decidable (Bounded published) :=
  inferInstanceAs (Decidable (∀ md ∈ published, _))

instance (op : Op) (db : DB) : Decidable (CountersFit op db) :=
  inferInstanceAs (Decidable (_ ∧ _))

/-- The state in which the process is gone. -/
def goDown (E : Env) (kept : List (DirChange FileName)) (w : World) : Option Sys :=
  (leave E.mode kept w.fs).map fun fs => ⟨{ w with fs }, none⟩

theorem goDown_some {E : Env} {kept : List (DirChange FileName)} {w : World} {s : Sys}
    (h : goDown E kept w = some s) :
    ∃ fs, E.Leaves w.fs fs ∧ s = ⟨{ w with fs }, none⟩ := by
  obtain ⟨fs, hfs, rfl⟩ := Option.map_eq_some_iff.mp h
  exact ⟨fs, Or.inr (leave_after hfs), rfl⟩

section Scripts

variable (E : Env) [∀ w, Decidable (E.mayOpen w)] [∀ op db w, Decidable (E.mayCall op db w)]

/-- The step an action makes, if it makes one, where `down` is what an ending process
    leaves. -/
def Action.stepWith (down : List (DirChange FileName) → World → Option Sys) :
    Action → Sys → Option (Event × Sys)
  | .start options env kept, ⟨w, none⟩ =>
    if OptionsOk E.mode options ∧ Bounded w.published ∧ E.mayOpen w then
      match DB.openDb options E.openFaults env w with
      | .done (.ok db) w' _ => some (.opened, ⟨w', some db⟩)
      | .done (.error s) w' _ => (down kept w').map fun s' => (.openFailed s, s')
      | .crashed w' => (down kept w').map fun s' => (.openCrashed, s')
    else none
  | .call op env kept, ⟨w, some db⟩ =>
    if E.mayCall op db w ∧ CountersFit op db then
      match op.run db E.callFaults env w with
      | .done (s, db') w' _ => some (.returned op s (applied w w'), ⟨w', some db'⟩)
      | .crashed w' => (down kept w').map fun s' => (.crashed op, s')
    else none
  | .halt kept, ⟨w, some _⟩ => (down kept w).map fun s' => (.stopped, s')
  | _, _ => none

/-- The step an action makes where every process that ends is struck by a crash. -/
def Action.step : Action → Sys → Option (Event × Sys) := Action.stepWith E (goDown E)

/-- The run of a script, where `step` makes its steps. -/
def runWith {α : Type} (step : α → Sys → Option (Event × Sys)) :
    List α → Sys → Option (List (Event × Sys))
  | [], _ => some []
  | a :: rest, s =>
    match step a s with
    | none => none
    | some (e, s') => (runWith step rest s').map fun run => (e, s') :: run

/-- The run of a script. -/
def runScript : List Action → Sys → Option (List (Event × Sys)) := runWith (Action.step E)

variable {E}

theorem Action.stepWith_some {down : List (DirChange FileName) → World → Option Sys}
    (hdown : ∀ kept w s, down kept w = some s →
      ∃ fs, E.Leaves w.fs fs ∧ s = ⟨{ w with fs }, none⟩)
    {a : Action} {s s' : Sys} {e : Event} (h : a.stepWith E down s = some (e, s')) :
    Step E s e s' := by
  obtain ⟨w, proc⟩ := s
  cases a with
  | start options env kept =>
      cases proc with
      | some db => exact absurd h (by simp [Action.stepWith])
      | none =>
          simp only [Action.stepWith] at h
          split at h
          · obtain ⟨hopt, hbounded, hmay⟩ := ‹_ ∧ _ ∧ _›
            split at h
            · obtain ⟨rfl, rfl⟩ := Prod.mk.inj (Option.some.inj h)
              exact .opened hopt hbounded hmay ‹_›
            · obtain ⟨x, hx, heq⟩ := Option.map_eq_some_iff.mp h
              obtain ⟨fs, hafter, rfl⟩ := hdown _ _ _ hx
              obtain ⟨rfl, rfl⟩ := Prod.mk.inj heq
              exact .openFailed hopt hbounded hmay ‹_› hafter
            · obtain ⟨x, hx, heq⟩ := Option.map_eq_some_iff.mp h
              obtain ⟨fs, hafter, rfl⟩ := hdown _ _ _ hx
              obtain ⟨rfl, rfl⟩ := Prod.mk.inj heq
              exact .openCrashed hopt hbounded hmay ‹_› hafter
          · exact absurd h (by simp)
  | call op env kept =>
      cases proc with
      | none => exact absurd h (by simp [Action.stepWith])
      | some db =>
          simp only [Action.stepWith] at h
          split at h
          · obtain ⟨hmay, hfit⟩ := ‹_ ∧ _›
            split at h
            · obtain ⟨rfl, rfl⟩ := Prod.mk.inj (Option.some.inj h)
              exact .returned hmay hfit ‹_›
            · obtain ⟨x, hx, heq⟩ := Option.map_eq_some_iff.mp h
              obtain ⟨fs, hafter, rfl⟩ := hdown _ _ _ hx
              obtain ⟨rfl, rfl⟩ := Prod.mk.inj heq
              exact .crashed hmay hfit ‹_› hafter
          · exact absurd h (by simp)
  | halt kept =>
      cases proc with
      | none => exact absurd h (by simp [Action.stepWith])
      | some db =>
          obtain ⟨x, hx, heq⟩ := Option.map_eq_some_iff.mp h
          obtain ⟨fs, hafter, rfl⟩ := hdown _ _ _ hx
          obtain ⟨rfl, rfl⟩ := Prod.mk.inj heq
          exact .stopped hafter

theorem Action.step_some {a : Action} {s s' : Sys} {e : Event} (h : a.step E s = some (e, s')) :
    Step E s e s' := Action.stepWith_some (fun _ _ _ => goDown_some) h

omit [∀ w, Decidable (E.mayOpen w)] [∀ op db w, Decidable (E.mayCall op db w)] in
/-- A computed run is a run. -/
theorem runWith_runs {α : Type} {step : α → Sys → Option (Event × Sys)}
    (hstep : ∀ a s e s', step a s = some (e, s') → Step E s e s') {script : List α} {s : Sys}
    {run : List (Event × Sys)} (h : runWith step script s = some run) : Runs (Step E) s run := by
  induction script generalizing s run with
  | nil =>
      obtain rfl := Option.some.inj h
      exact .nil s
  | cons a rest ih =>
      simp only [runWith] at h
      split at h
      · exact absurd h (by simp)
      · obtain ⟨run', hrun', rfl⟩ := Option.map_eq_some_iff.mp h
        exact .cons (hstep _ _ _ _ ‹_›) (ih hrun')

theorem runScript_runs {script : List Action} {s : Sys} {run : List (Event × Sys)}
    (h : runScript E script s = some run) : Runs (Step E) s run :=
  runWith_runs (fun _ _ _ _ => Action.step_some) h

end Scripts

end Scripts

section Promises

open PassionProjects.Faults
open PassionProjects.FileSystem
open PassionProjects.FileSystem.Fs
open PassionProjects.Layers
open PassionProjects.Refinement
open PassionProjects.PebbleDB.Memtable

instance (w : World) : Decidable (crashEnv.mayOpen w) := isTrue trivial
instance (op : Op) (db : DB) (w : World) : Decidable (crashEnv.mayCall op db w) := isTrue trivial
instance (w : World) : Decidable (faultyEnv.mayOpen w) := isTrue trivial
instance (op : Op) (db : DB) (w : World) : Decidable (faultyEnv.mayCall op db w) := isTrue trivial

-- ============================================================================
-- Refinement
-- ============================================================================

/-- Whatever fails in the flush path, wherever processes crash, and however often
    the directory is opened again: at every moment the DB reads what a map holds
    that every write with an OK `AddRecord` changed, in order, where a write that
    a crash interrupted may count; and every `DB::Open` that returns returns OK. -/
theorem crash_refinement {run : List (Event × Sys)} (h : Runs (Step crashEnv) .init run) :
    Follows SpecStep Agrees (fun _ => none) run ∧
      ∀ x ∈ run, ∀ status, x.1 ≠ .openFailed status :=
  ⟨(simulation sound_crashEnv).follows (related_init _) h,
    no_openFailed sound_crashEnv not_mayFail_stopsOnly (related_init _) h⟩

/-- A Put, a flush that crashes between writing its table and renaming the
    manifest, and a second process. -/
def crashScript : List Action :=
  [.start {} [] [], .call (.put [97] [1]) [] [],
    .call .flush [.none, .none, .none, .none, .none, .none, .none, .none, .crash 0] [],
    .start {} [] [], .call (.delete [97]) [] []]

theorem crash_refinement_crashScript : ∃ run, runScript crashEnv crashScript .init = some run ∧
    Follows SpecStep Agrees (fun _ => none) run ∧
      ∀ x ∈ run, ∀ status, x.1 ≠ .openFailed status :=
  have hsome : (runScript crashEnv crashScript .init).isSome = true := by decide +kernel
  have ⟨run, hrun⟩ := Option.isSome_iff_exists.mp hsome
  ⟨run, hrun, crash_refinement (runScript_runs hrun)⟩

-- ============================================================================
-- Layer order
-- ============================================================================

/-- The entry of a key with the highest sequence number among all layers. -/
def IsNewest (layers : List EntryLayer) (key : Key) (e : MemEntry) : Prop :=
  (∃ l ∈ layers, l key = some e) ∧ ∀ l ∈ layers, ∀ b, l key = some b → seqRank b ≤ seqRank e

/-- The layers of an open DB are in the order of their sequence numbers. -/
structure LayersInOrder (db : DB) (w : World) : Prop where
  ordered : Ordered seqRank db.layers
  entries : ∀ l ∈ db.layers, ∀ key e, l key = some e →
    e.sequence.toNat < db.nextSequence.toNat
  records : ∀ b, w.fs.view (.wal db.currentWalNumber) = some (.bytes b) →
    ∀ r ∈ (Wal.Reader.replay (.start b)).records, r.sequence.toNat < db.nextSequence.toNat
  resolved : ∀ key, db.resolve key = .ok (answer (firstHit db.layers key))
  newest : ∀ key e, firstHit db.layers key = some e ↔ IsNewest db.layers key e

theorem Live.layersInOrder {mode : CrashMode} {db : DB} {w : World} {g : LogState}
    (h : Live mode db w g) : LayersInOrder db w where
  ordered := h.ok.ordered
  entries := h.ok.below
  records b hb r hr := by
    have hwal := (h.views _ (possible_view h.wf mode)).wal
    obtain rfl := FileData.bytes.inj (Option.some.inj (hwal.symm.trans hb))
    obtain ⟨hrecords, -, -⟩ :=
      Wal.Reader.replay_start g.records (fun r hr => (h.ok.logged r hr).1) h.ok.torn
    rw [hrecords] at hr
    obtain ⟨r', hr', rfl⟩ := List.mem_map.mp hr
    exact (h.ok.logged r' hr').2.2
  resolved key := by
    have htables : db.tables = ((g.old ++ g.new).map PubTable.entries).map
        TableReader.complete := by
      rw [h.ok.tables, List.map_map]
      rfl
    exact resolve_eq_answer htables key
  newest key e := h.ok.ordered.firstHit_eq_some_iff key e

/-- In every state that is reached with a process running, whatever fails in opens
    and flushes and wherever processes crash, the first layer that mentions a key
    is the one with the highest sequence number. -/
theorem layers_in_order {run : List (Event × Sys)} (h : Runs (Step faultyEnv) .init run) {db : DB}
    (hproc : (lastState .init run).proc = some db) :
    LayersInOrder db (lastState .init run).world := by
  obtain ⟨m, hrel⟩ := (simulation sound_faultyEnv).reaches (related_init _) h
  generalize lastState Sys.init run = s at hproc hrel ⊢
  obtain ⟨w, proc⟩ := s
  obtain rfl : proc = some db := hproc
  obtain ⟨g, hlive, -, -⟩ := hrel
  exact hlive.layersInOrder

theorem layers_in_order_crashScript : ∃ run db, runScript faultyEnv crashScript .init = some run ∧
    (lastState .init run).proc = some db ∧ LayersInOrder db (lastState .init run).world :=
  have hsome : ((runScript faultyEnv crashScript .init).bind fun run =>
      (lastState .init run).proc).isSome = true := by decide +kernel
  have ⟨db, hdb⟩ := Option.isSome_iff_exists.mp hsome
  have ⟨run, hrun, hproc⟩ := Option.bind_eq_some_iff.mp hdb
  ⟨run, db, hrun, hproc, layers_in_order (runScript_runs hrun) hproc⟩

end Promises

end PassionProjects.PebbleDB
