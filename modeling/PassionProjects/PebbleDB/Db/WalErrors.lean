/-
  PassionProjects.PebbleDB.Db.WalErrors

  What happens when a write to the WAL fails.

  A failed append may leave a part of its record in the segment.  `Put` does not
  look at that: the next record is appended after the torn one, and the next
  replay reads the two as one damaged record.  A failed fsync leaves the whole
  record in the segment, and the next replay applies the write that was refused.
  As long as neither happens, nothing acknowledged is lost and nothing refused
  comes back.
-/

import PassionProjects.PebbleDB.Db.CrashSafety

namespace PassionProjects.PebbleDB

open PassionProjects.Faults
open PassionProjects.FileSystem
open PassionProjects.Refinement
open PassionProjects.PebbleDB.Memtable

/-- Every call may fail but the fsyncs of the WAL. -/
def appendFaults : Policy FsOp World := fun _ o fault =>
  match o, fault with
  | .fsync (.wal _), .error _ => false
  | _, _ => true

/-- Any append may fail part way, and the DB goes on. -/
def tornEnv : Env where
  mode := .process
  openFaults := stopsOnly
  callFaults := appendFaults

/-- Any append may fail part way, and writes are made on record boundaries only. -/
def boundaryEnv : Env where
  mode := .process
  openFaults := stopsOnly
  callFaults := appendFaults
  mayCall op db w := (op.record db).isSome = true → onBoundary db w = true

/-- Fsyncs of the WAL may fail as well. -/
def fsyncEnv : Env where
  mode := .process
  openFaults := stopsOnly
  callFaults := anyFault

instance (w : World) : Decidable (tornEnv.mayOpen w) := isTrue trivial
instance (op : Op) (db : DB) (w : World) : Decidable (tornEnv.mayCall op db w) := isTrue trivial
instance (w : World) : Decidable (boundaryEnv.mayOpen w) := isTrue trivial
instance (op : Op) (db : DB) (w : World) : Decidable (boundaryEnv.mayCall op db w) :=
  inferInstanceAs (Decidable (_ → _))
instance (w : World) : Decidable (fsyncEnv.mayOpen w) := isTrue trivial
instance (op : Op) (db : DB) (w : World) : Decidable (fsyncEnv.mayCall op db w) := isTrue trivial

theorem sound_boundaryEnv : boundaryEnv.Sound where
  call := {
    fsync := fun n => by
      rintro ⟨w, k, h⟩
      exact absurd h (by simp [boundaryEnv, appendFaults])
    append := fun h => absurd h (by simp [boundaryEnv])
    rotation := fun h => absurd h (by simp [boundaryEnv]) }
  opens _ _ _ _ _ := grounded_process _
  boundary _ op db w hmay := hmay

-- ============================================================================
-- Acknowledged writes
-- ============================================================================

/-- Every open that returns returns OK, every write that returned OK was applied,
    and what was applied is what is read. -/
structure AcknowledgedSurvive (run : List (Event × Sys)) : Prop where
  opens : ∀ x ∈ run, ∀ status, x.1 ≠ .openFailed status
  applied : ∀ x ∈ run, ∀ op status a, x.1 = .returned op status a → op ≠ .flush →
    status.ok = true → a = true
  follows : Follows SpecStep Agrees (fun _ => none) run

/-- A Put, one whose append stops a byte short, a third, and a second process. -/
def tornScript : List Action :=
  [.start {} [] [], .call (.put [97] [1]) [] [], .call (.put [98] [2]) [.error 27] [],
    .call (.put [99] [3]) [] [], .halt [], .start {} [] []]

theorem torn_append_loses_log : ∃ run, Runs (Step tornEnv) .init run ∧
    run.map Prod.fst =
      [.opened, .returned (.put [97] [1]) Status.OK true,
        .returned (.put [98] [2]) (Status.IOError "write failed") false,
        .returned (.put [99] [3]) Status.OK true, .stopped,
        .openFailed (Status.Corruption "WAL corrupted during replay")] ∧
    ¬ AcknowledgedSurvive run := by
  have hmap : (runScript tornEnv tornScript .init).map (List.map Prod.fst) =
      some [.opened, .returned (.put [97] [1]) Status.OK true,
        .returned (.put [98] [2]) (Status.IOError "write failed") false,
        .returned (.put [99] [3]) Status.OK true, .stopped,
        .openFailed (Status.Corruption "WAL corrupted during replay")] := by decide +kernel
  obtain ⟨run, hrun, hevents⟩ := Option.map_eq_some_iff.mp hmap
  refine ⟨run, runScript_runs hrun, hevents, fun h => ?_⟩
  have hmem : .openFailed (Status.Corruption "WAL corrupted during replay") ∈ run.map Prod.fst := by
    rw [hevents]
    simp
  obtain ⟨x, hx, heq⟩ := List.mem_map.mp hmem
  exact h.opens x hx _ heq

/-- As long as writes are made on record boundaries only, a failed append costs
    nothing that was acknowledged. -/
theorem acknowledged_survive {run : List (Event × Sys)} (h : Runs (Step boundaryEnv) .init run) :
    AcknowledgedSurvive run where
  opens := no_openFailed sound_boundaryEnv not_mayFail_stopsOnly (related_init _) h
  applied := ok_applied sound_boundaryEnv (related_init _) h
  follows := (simulation sound_boundaryEnv).follows (related_init _) h

/-- A failed append, a second process that cuts it off, and a third Put. -/
def boundaryScript : List Action :=
  [.start {} [] [], .call (.put [97] [1]) [] [], .call (.put [98] [2]) [.error 10] [], .halt [],
    .start {} [] [], .call (.put [99] [3]) [] []]

theorem acknowledged_survive_boundaryScript : ∃ run,
    runScript boundaryEnv boundaryScript .init = some run ∧ AcknowledgedSurvive run :=
  have hsome : (runScript boundaryEnv boundaryScript .init).isSome = true := by decide +kernel
  have ⟨run, hrun⟩ := Option.isSome_iff_exists.mp hsome
  ⟨run, hrun, acknowledged_survive (runScript_runs hrun)⟩

-- ============================================================================
-- Refused writes
-- ============================================================================

/-- What is read changes with applied writes and with crashes inside a write only:
    refused writes, closes and reopens leave it as it was. -/
structure NeverResurrected (run : List (Event × Sys)) : Prop where
  follows : Follows SpecStep Agrees (fun _ => none) run
  unchanged : ∀ pre e w db mid e' w' db' post,
    run = pre ++ (e, ⟨w, some db⟩) :: (mid ++ (e', ⟨w', some db'⟩) :: post) →
    (∀ x ∈ mid, x.1.silent = true) → e'.silent = true → ∀ key, db'.get key = db.get key

/-- A Put whose fsync fails, and a second process. -/
def fsyncScript : List Action :=
  [.start {} [] [], .call (.put [97] [1]) [.none, .error 0] [], .halt [], .start {} [] []]

theorem failed_fsync_resurrects : ∃ run, Runs (Step fsyncEnv) .init run ∧
    run.map (fun x => (x.1, x.2.proc.map fun db => db.get [97])) =
      [(.opened, some (.error (Status.NotFound ""))),
        (.returned (.put [97] [1]) (Status.IOError "fsync failed") false,
          some (.error (Status.NotFound ""))),
        (.stopped, none), (.opened, some (.ok [1]))] ∧
    ¬ NeverResurrected run := by
  have hmap : (runScript fsyncEnv fsyncScript .init).map
      (List.map fun x => (x.1, x.2.proc.map fun db => db.get [97])) =
      some [(.opened, some (.error (Status.NotFound ""))),
        (.returned (.put [97] [1]) (Status.IOError "fsync failed") false,
          some (.error (Status.NotFound ""))),
        (.stopped, none), (.opened, some (.ok [1]))] := by decide +kernel
  obtain ⟨run, hrun, hevents⟩ := Option.map_eq_some_iff.mp hmap
  refine ⟨run, runScript_runs hrun, hevents, fun h => ?_⟩
  obtain ⟨⟨e₁, w₁, p₁⟩, rest, rfl, h₁, hrest⟩ := List.map_eq_cons_iff.mp hevents
  obtain ⟨⟨e₂, w₂, p₂⟩, rest, rfl, h₂, hrest⟩ := List.map_eq_cons_iff.mp hrest
  obtain ⟨⟨e₃, w₃, p₃⟩, rest, rfl, h₃, hrest⟩ := List.map_eq_cons_iff.mp hrest
  obtain ⟨⟨e₄, w₄, p₄⟩, rest, rfl, h₄, hrest⟩ := List.map_eq_cons_iff.mp hrest
  obtain rfl := List.map_eq_nil_iff.mp hrest
  obtain ⟨rfl, hget₁⟩ := Prod.mk.inj h₁
  obtain ⟨rfl, -⟩ := Prod.mk.inj h₂
  obtain ⟨rfl, -⟩ := Prod.mk.inj h₃
  obtain ⟨rfl, hget₄⟩ := Prod.mk.inj h₄
  obtain ⟨db, rfl, hdb⟩ := Option.map_eq_some_iff.mp hget₁
  obtain ⟨db', rfl, hdb'⟩ := Option.map_eq_some_iff.mp hget₄
  have hsame := h.unchanged [] .opened w₁ db [_, _] .opened w₄ db' [] rfl
    (by simp [Event.silent]) rfl [97]
  rw [hdb, hdb'] at hsame
  exact absurd hsame (by simp)

/-- As long as fsyncs of the WAL succeed and writes are made on record boundaries,
    a refused write never comes back. -/
theorem never_resurrected {run : List (Event × Sys)} (h : Runs (Step boundaryEnv) .init run) :
    NeverResurrected run where
  follows := (simulation sound_boundaryEnv).follows (related_init _) h
  unchanged pre e w db mid e' w' db' post hsplit hmid he' key := by
    have hsplit' : run = pre ++ (e, ⟨w, some db⟩) :: ((mid ++ [(e', ⟨w', some db'⟩)]) ++ post) := by
      rw [hsplit, List.append_assoc]
      rfl
    subst hsplit'
    have hquiet : ∀ x ∈ mid ++ [(e', (⟨w', some db'⟩ : Sys))], ∀ m m',
        SpecStep m x.1 m' → m' = m := by
      intro x hx m m' hstep
      rcases List.mem_append.mp hx with hx | hx
      · exact hstep.silent (hmid x hx)
      · rw [List.mem_singleton.mp hx] at hstep
        exact hstep.silent he'
    obtain ⟨m, hbefore, hafter⟩ :=
      (simulation sound_boundaryEnv).unchanged (related_init _) h hquiet
    rw [lastState_concat] at hafter
    have hread : ∀ key, db.get key = answerOf (m key) := hbefore
    have hread' : ∀ key, db'.get key = answerOf (m key) := hafter
    rw [hread, hread']

theorem never_resurrected_boundaryScript : ∃ run,
    runScript boundaryEnv boundaryScript .init = some run ∧ NeverResurrected run :=
  have hsome : (runScript boundaryEnv boundaryScript .init).isSome = true := by decide +kernel
  have ⟨run, hrun⟩ := Option.isSome_iff_exists.mp hsome
  ⟨run, hrun, never_resurrected (runScript_runs hrun)⟩

end PassionProjects.PebbleDB
