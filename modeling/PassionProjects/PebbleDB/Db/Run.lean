/-
  PassionProjects.PebbleDB.Db.Run

  The system: a directory and at most one process that has it open.

  A step opens the directory, makes one call, or stops the process; every step
  may be struck by the faults its policy lets through, and a process that ends
  leaves the directory as it is, or, where power may be lost, what `After` says of
  that.  Any number of processes come one after the other.

  The purpose of the database is the abstract system: a map from keys to values
  that a write changes when its `AddRecord` returned OK, and that nothing else
  changes, except that a write inside which the process stopped may count.
-/

import PassionProjects.Lib.Transition
import PassionProjects.PebbleDB.Db.Recover
import PassionProjects.PebbleDB.Db.Write

namespace PassionProjects.PebbleDB

open PassionProjects.Faults
open PassionProjects.Faults.Prog
open PassionProjects.FileSystem
open PassionProjects.FileSystem.Fs
open PassionProjects.Layers
open PassionProjects.Refinement
open PassionProjects.PebbleDB.Memtable

/-- A call that changes an open DB. -/
inductive Op where
  | put (key : Key) (value : Value)
  | delete (key : Key)
  | flush
  deriving DecidableEq, Repr

namespace Op

def run : Op → DB → M (Status × DB)
  | .put key value, db => db.put key value
  | .delete key, db => db.delete key
  | .flush, db => db.flush

/-- The WAL record of a write. -/
def record : Op → DB → Option Wal.Record
  | .put key value, db => some ⟨db.nextSequence, .kPut, key, value⟩
  | .delete key, db => some ⟨db.nextSequence, .kDelete, key, []⟩
  | .flush, _ => none

/-- How many MemTables the flush inside the call has to write. -/
def flushes : Op → DB → Nat
  | .put key value, db => (db.applyPut key value db.nextSequence).due
  | .delete key, db => (db.applyDelete key db.nextSequence).due
  | .flush, db => db.pending

end Op

/-- What the database stands for. -/
abbrev Store := Key → Option Value

/-- The effect of a call on what the database stands for. -/
def Op.apply : Op → Store → Store
  | .put key value, m => Function.update m key (some value)
  | .delete key, m => Function.update m key none
  | .flush, m => m

/-- What `Get` returns for what the database holds. -/
def answerOf : Option Value → Except Status Value
  | some value => .ok value
  | none => .error (Status.NotFound "")

/-- The 64-bit counters have not run out. -/
def CountersFit (op : Op) (db : DB) : Prop :=
  db.nextSequence.toNat + 1 < 2 ^ 64 ∧
    db.nextFileNumber.toNat + op.flushes db + 1 < 2 ^ 64

/-- An environment: the kind of crash, the faults that may strike an open and a
    call, and when directories are opened and calls are made. -/
structure Env where
  mode : CrashMode
  openFaults : Policy FsOp World
  callFaults : Policy FsOp World
  mayOpen : World → Prop := fun _ => True
  mayCall : Op → DB → World → Prop := fun _ _ _ => True

/-- What the end of a process leaves of the directory: all of it when only the
    process ends, or what a crash of the environment's kind leaves. -/
def Env.Leaves (E : Env) (fs fs' : DbFs) : Prop := fs' = fs ∨ After E.mode fs fs'

structure Sys where
  world : World
  proc : Option DB

/-- Before the directory was ever opened. -/
def Sys.init : Sys := ⟨World.init, none⟩

/-- What can be seen of a step.  `applied` says that the `AddRecord` of the call
    returned OK. -/
inductive Event where
  | opened
  | openFailed (s : Status)
  | openCrashed
  | returned (op : Op) (s : Status) (applied : Bool)
  | crashed (op : Op)
  | stopped
  deriving DecidableEq, Repr

/-- A record was acknowledged between two worlds. -/
def applied (w w' : World) : Bool := w.logged.length < w'.logged.length

/-- The steps of the system. -/
inductive Step (E : Env) : Steps Sys Event where
  | opened {options : Options} {w w' : World} {db : DB} {env env' : List Fault}
      (hopt : OptionsOk E.mode options) (hbounded : Bounded w.published) (hmay : E.mayOpen w)
      (hrun : DB.openDb options E.openFaults env w = .done (.ok db) w' env') :
      Step E ⟨w, none⟩ .opened ⟨w', some db⟩
  | openFailed {options : Options} {w w' : World} {s : Status} {env env' : List Fault} {fs : DbFs}
      (hopt : OptionsOk E.mode options) (hbounded : Bounded w.published) (hmay : E.mayOpen w)
      (hrun : DB.openDb options E.openFaults env w = .done (.error s) w' env')
      (hafter : E.Leaves w'.fs fs) :
      Step E ⟨w, none⟩ (.openFailed s) ⟨{ w' with fs }, none⟩
  | openCrashed {options : Options} {w w' : World} {env : List Fault} {fs : DbFs}
      (hopt : OptionsOk E.mode options) (hbounded : Bounded w.published) (hmay : E.mayOpen w)
      (hrun : DB.openDb options E.openFaults env w = .crashed w') (hafter : E.Leaves w'.fs fs) :
      Step E ⟨w, none⟩ .openCrashed ⟨{ w' with fs }, none⟩
  | returned {op : Op} {w w' : World} {db db' : DB} {s : Status} {env env' : List Fault}
      (hmay : E.mayCall op db w) (hfit : CountersFit op db)
      (hrun : op.run db E.callFaults env w = .done (s, db') w' env') :
      Step E ⟨w, some db⟩ (.returned op s (applied w w')) ⟨w', some db'⟩
  | crashed {op : Op} {w w' : World} {db : DB} {env : List Fault} {fs : DbFs}
      (hmay : E.mayCall op db w) (hfit : CountersFit op db)
      (hrun : op.run db E.callFaults env w = .crashed w') (hafter : E.Leaves w'.fs fs) :
      Step E ⟨w, some db⟩ (.crashed op) ⟨{ w' with fs }, none⟩
  | stopped {w : World} {db : DB} {fs : DbFs} (hafter : E.Leaves w.fs fs) :
      Step E ⟨w, some db⟩ .stopped ⟨{ w with fs }, none⟩

/-- The steps of the abstract system. -/
inductive SpecStep : Steps Store Event where
  | opened (m : Store) : SpecStep m .opened m
  | openFailed (m : Store) (s : Status) : SpecStep m (.openFailed s) m
  | openCrashed (m : Store) : SpecStep m .openCrashed m
  | applied (m : Store) (op : Op) (s : Status) :
      SpecStep m (.returned op s true) (op.apply m)
  | refused (m : Store) (op : Op) (s : Status) : SpecStep m (.returned op s false) m
  | crashedBefore (m : Store) (op : Op) : SpecStep m (.crashed op) m
  | crashedAfter (m : Store) (op : Op) : SpecStep m (.crashed op) (op.apply m)
  | stopped (m : Store) : SpecStep m .stopped m

/-- An open DB reads what the abstract system holds. -/
def Agrees (s : Sys) (m : Store) : Prop :=
  match s.proc with
  | some db => ∀ key, db.get key = answerOf (m key)
  | none => True

-- ============================================================================
-- One call
-- ============================================================================

variable {mode : CrashMode} {pol : Policy FsOp World} {db db' : DB} {w w' : World} {g : LogState}
  {op : Op}

/-- How a call ends. -/
structure Called (mode : CrashMode) (pol : Policy FsOp World) (op : Op) (db : DB) (w : World)
    (g : LogState) (s : Status) (db' : DB) (w' : World) (g' : LogState) : Prop where
  live : Live mode db' w' g'
  map : valueMap (firstHit db'.layers) =
    if applied w w' then op.apply (valueMap (firstHit db.layers)) else valueMap (firstHit db.layers)
  torn : g'.torn = [] ∨ g'.torn = g.torn ∨ ∃ n, MayFail pol (.append (.wal n))
  nextLe : db.nextFileNumber.toNat ≤ db'.nextFileNumber.toNat
  sst : ∀ m : UInt64, db'.nextFileNumber.toNat ≤ m.toNat → w'.fs.view (.sst m) = w.fs.view (.sst m)
  refused : ∀ r, op.record db = some r → applied w w' = false →
    s.ok = false ∧ (¬ r.Fits ∨ ∃ o, MayFail pol o)
  ok : op = .flush ∨ applied w w' = true → s.ok = true →
    ¬ Obstructed w db.nextFileNumber (op.flushes db)
  err : op = .flush ∨ applied w w' = true → s.ok = false →
    Obstructed w db.nextFileNumber (op.flushes db) ∨ ∃ o, MayFail pol o

/-- What a process that stops inside a call leaves. -/
def CalledCrash (mode : CrashMode) (op : Op) (db : DB) (w' : World) : Prop :=
  ∃ l l', CrashEither mode l l' w' ∧ valueMap l = valueMap (firstHit db.layers) ∧
    valueMap l' = op.apply (valueMap (firstHit db.layers))

theorem valueMap_setLayer (l : EntryLayer) (key : Key) (e : MemEntry) :
    valueMap (setLayer l key e) = Function.update (valueMap l) key (MemEntry.value? e) := by
  funext k
  by_cases hk : k = key
  · subst hk
    simp [valueMap, setLayer]
  · simp [valueMap, setLayer, hk]

theorem applied_of_append {r : Wal.Record} (h : w'.logged = w.logged ++ [r]) :
    applied w w' = true := by simp [applied, h]

theorem applied_of_eq (h : w'.logged = w.logged) : applied w w' = false := by simp [applied, h]

theorem Acked.called {n : Nat} {r : Wal.Record} {s : Status} {g' : LogState}
    (h : Acked mode pol n db w r s db' w' g') (hn : op.flushes db = n)
    (hmap : op.apply (valueMap (firstHit db.layers)) =
      Function.update (valueMap (firstHit db.layers)) r.key (MemEntry.value? (recordEntry r))) :
    Called mode pol op db w g s db' w' g' where
  live := h.live
  map := by rw [applied_of_append h.logged, if_pos rfl, h.map, valueMap_setLayer, hmap]
  torn := Or.inl h.torn
  nextLe := h.nextLe
  sst := h.sst
  refused r _ hnot := absurd hnot (by rw [applied_of_append h.logged]; simp)
  ok _ hs := by rw [hn]; exact h.ok hs
  err _ hs := by rw [hn]; exact h.err hs

theorem Refused.called {r : Wal.Record} {s : Status} {g' : LogState}
    (h : Refused mode pol db w r s db' w' g') (hop : op.record db = some r) :
    Called mode pol op db w g s db' w' g' where
  live := h.live
  map := by rw [applied_of_eq h.same.logged, h.same.map]; rfl
  torn := h.torn.imp_right fun hfail => Or.inr ⟨_, hfail⟩
  nextLe := h.same.nextLe
  sst m _ := h.sst m
  refused r' hr' _ := by
    obtain rfl := Option.some.inj (hop.symm.trans hr')
    exact ⟨h.status, h.why.imp_right fun hfail => ⟨_, hfail⟩⟩
  ok hcase _ := by
    rcases hcase with rfl | happ
    · exact absurd hop (by simp [Op.record])
    · exact absurd happ (by rw [applied_of_eq h.same.logged]; simp)
  err hcase _ := by
    rcases hcase with rfl | happ
    · exact absurd hop (by simp [Op.record])
    · exact absurd happ (by rw [applied_of_eq h.same.logged]; simp)

theorem Flushed.called {s : Status} {g' : LogState}
    (h : Flushed mode pol db.pending db w g s db' w' g') :
    Called mode pol .flush db w g s db' w' g' where
  live := h.live
  map := by rw [applied_of_eq h.same.logged, h.same.map]; rfl
  torn := h.torn.elim (fun ht => Or.inr (Or.inl ht)) Or.inl
  nextLe := h.same.nextLe
  sst := h.sst
  refused r hr _ := absurd hr (by simp [Op.record])
  ok _ := h.ok
  err _ := h.err

/-- Every call keeps the invariant; a write needs the log on a record boundary. -/
theorem op_spec (h : Live mode db w g) (htol : Tolerable mode pol)
    (htorn : (op.record db).isSome = true → g.torn = []) (hfit : CountersFit op db) :
    wp pol (op.run db) (fun x w' => ∃ g', Called mode pol op db w g x.1 x.2 w' g')
      (CalledCrash mode op db) w := by
  cases op with
  | put key value =>
      have hmap : (Op.put key value).apply (valueMap (firstHit db.layers)) =
          Function.update (valueMap (firstHit db.layers)) key (some value) := rfl
      show wp pol (db.put key value) _ _ _
      rw [put_eq_writeWith]
      refine wp_mono (writeWith_spec (r := ⟨db.nextSequence, .kPut, key, value⟩)
        (n := (Op.put key value).flushes db) h htol (htorn rfl) rfl hfit.1 hfit.2 rfl
        (fun db₁ => wrote_applyPut db₁ key value _) fun writer => ?_) ?_ ?_
      · exact due_congr rfl rfl (Eq.trans rfl h.persistent.symm)
      · rintro ⟨s, db'⟩ w' ⟨g', hacked | hrefused⟩
        · exact ⟨g', hacked.called rfl hmap⟩
        · exact ⟨g', hrefused.called rfl⟩
      · exact fun w' hc => ⟨_, _, hc, rfl, by rw [valueMap_setLayer, hmap]; rfl⟩
  | delete key =>
      have hmap : (Op.delete key).apply (valueMap (firstHit db.layers)) =
          Function.update (valueMap (firstHit db.layers)) key none := rfl
      show wp pol (db.delete key) _ _ _
      rw [delete_eq_writeWith]
      refine wp_mono (writeWith_spec (r := ⟨db.nextSequence, .kDelete, key, []⟩)
        (n := (Op.delete key).flushes db) h htol (htorn rfl) rfl hfit.1 hfit.2 rfl
        (fun db₁ => wrote_applyDelete db₁ key _) fun writer => ?_) ?_ ?_
      · exact due_congr rfl rfl (Eq.trans rfl h.persistent.symm)
      · rintro ⟨s, db'⟩ w' ⟨g', hacked | hrefused⟩
        · exact ⟨g', hacked.called rfl hmap⟩
        · exact ⟨g', hrefused.called rfl⟩
      · exact fun w' hc => ⟨_, _, hc, rfl, by rw [valueMap_setLayer, hmap]; rfl⟩
  | flush =>
      refine wp_mono (flushLocked_spec h htol.rotation hfit.2) ?_ ?_
      · rintro ⟨s, db'⟩ w' ⟨g', hf⟩
        exact ⟨g', hf.called⟩
      · exact fun w' hc => ⟨_, _, hc.before (firstHit db.layers), rfl, rfl⟩

-- ============================================================================
-- The simulation
-- ============================================================================

/-- The bytes of the current segment are whole records. -/
def onBoundary (db : DB) (w : World) : Bool :=
  match w.fs.view (.wal db.currentWalNumber) with
  | some (.bytes b) => (Wal.Reader.replay (.start b)).terminal == .kEndOfLog
  | _ => false

theorem Live.onBoundary_iff (h : Live mode db w g) : onBoundary db w = true ↔ g.torn = [] := by
  have hwal := (h.views _ (possible_view h.wf mode)).wal
  obtain ⟨-, hterminal, -⟩ :=
    Wal.Reader.replay_start g.records (fun r hr => (h.ok.logged r hr).1) h.ok.torn
  rw [onBoundary, hwal, beq_iff_eq, hterminal]
  by_cases hnil : g.torn = []
  · simp [hnil]
  · simp [hnil]

/-- Appends to the WAL may fail. -/
def Env.AppendsFail (E : Env) : Prop := ∃ n, MayFail E.callFaults (.append (.wal n))

/-- Environments in which the database keeps its promise. -/
structure Env.Sound (E : Env) : Prop where
  call : Tolerable E.mode E.callFaults
  opens : ∀ w, E.mayOpen w → Bounded w.published → w.fs.WF →
    (∀ v, Possible E.mode w.fs v → Listed w.published v) → Grounded E.mode w.fs
  boundary : E.AppendsFail → ∀ op db w, E.mayCall op db w → (op.record db).isSome = true →
    onBoundary db w = true

/-- The abstract state that a state of the system stands for. -/
def Related (E : Env) (s : Sys) (m : Store) : Prop :=
  match s.proc with
  | some db => ∃ g, Live E.mode db s.world g ∧ valueMap (firstHit db.layers) = m ∧
      (¬ E.AppendsFail → g.torn = [])
  | none => ∃ l, Down E.mode l s.world ∧ valueMap l = m

theorem possible_init {mode : CrashMode} {v : DbView} (hv : Possible mode Fs.init v) :
    v = fun _ => none := by
  obtain ⟨d, c, hd, -, rfl⟩ := hv
  funext n
  have hnone : d n = none := by
    cases mode with
    | process => exact congrFun hd n
    | power =>
        obtain ⟨kept, hsub, rfl⟩ := hd
        rw [List.sublist_nil.mp hsub]
        rfl
  simp [hnone]

theorem down_init (mode : CrashMode) : Down mode (fun _ => none) World.init where
  wf := wf_init
  homed n _ := homed_init n
  views v hv := ⟨_, Or.inl ⟨by rw [possible_init hv]; exact ⟨rfl, fun _ => Or.inl rfl⟩, rfl⟩⟩
  held _ := Or.inl ⟨fun v hv => by rw [possible_init hv]; exact ⟨rfl, fun _ => Or.inl rfl⟩, rfl⟩
  listed v hv := Or.inl (by rw [possible_init hv])
  onDisk _ := Or.inl ⟨rfl, rfl⟩

theorem related_init (E : Env) : Related E .init fun _ => none :=
  ⟨_, down_init E.mode, rfl⟩

/-- What is left when only the process has ended. -/
theorem CrashEither.kept {l l' : EntryLayer} (h : CrashEither mode l l' w) :
    Down mode l w ∨ Down mode l' w := by
  have hviews (v : DbView) (hv : Possible mode w.fs v) : ∃ m', DiskOk v m' :=
    (h.views v hv).elim (fun h => ⟨_, h⟩) fun h => ⟨_, h⟩
  by_cases hground : Grounded mode w.fs
  · rcases h.held hground with hheld | hheld
    · exact Or.inl ⟨h.wf, h.homed, hviews, fun _ => hheld, h.listed, h.onDisk⟩
    · exact Or.inr ⟨h.wf, h.homed, hviews, fun _ => hheld, h.listed, h.onDisk⟩
  · exact Or.inl ⟨h.wf, h.homed, hviews, fun hg => absurd hg hground, h.listed, h.onDisk⟩

/-- A view that is the only one possible shows all there is. -/
theorem DiskOk.held {l : EntryLayer} {fs : DbFs} (h : DiskOk fs.view l)
    (hall : ∀ v, Possible mode fs v → v = fs.view) : Held mode l fs := by
  rcases h with ⟨hfresh, rfl⟩ | ⟨md, tables, records, torn, hshow, rfl⟩
  · exact Or.inl ⟨fun v hv => by rw [hall v hv]; exact hfresh, rfl⟩
  · refine Or.inr ⟨⟨tables, [], records, torn⟩, md, ⟨fun v hv => ?_, hshow.logOk, hshow.manifest,
      by simpa using hshow.counters⟩, by simp [LogState.map]⟩
    rw [hall v hv]
    exact hshow.viewOk

/-- After a crash nothing is left to chance: one view is possible, and what it shows
    can be opened. -/
theorem DiskOk.openable {l : EntryLayer} {fs : DbFs} (h : DiskOk fs.view l)
    (ha : After mode w.fs fs) (hwf : w.fs.WF) (hhomed : ∀ n, n ≠ .manifest → Homed w.fs n)
    (hlisted : ∀ v, Possible mode w.fs v → Listed w.published v)
    (hdisk : mode = .process → OnDisk w) : Openable mode l { w with fs } := by
  obtain ⟨hwf', hposs, hsettled⟩ := ha.spec hwf
  have hall (v : DbView) (hv : Possible mode fs v) : v = fs.view :=
    funext fun n => (hsettled n).view hv
  exact {
    wf := hwf'
    homed := fun n hn => ha.homed (hhomed n hn)
    grounded := grounded_of_settled hsettled
    held := h.held hall
    listed := fun v hv => by rw [hall v hv]; exact hlisted _ hposs
    onDisk := fun hmode => by
      subst hmode
      have heq : fs = w.fs := ha
      subst heq
      exact hdisk rfl }

theorem Openable.down {l : EntryLayer} (h : Openable mode l w) : Down mode l w :=
  ⟨h.wf, h.homed, fun v hv => ⟨l, h.held.disk v hv⟩, fun _ => h.held, h.listed, h.onDisk⟩

/-- What is left when a process has stopped. -/
theorem CrashEither.down {l l' : EntryLayer} {fs : DbFs} (h : CrashEither mode l l' w)
    (ha : fs = w.fs ∨ After mode w.fs fs) :
    Down mode l { w with fs } ∨ Down mode l' { w with fs } := by
  rcases ha with rfl | ha
  · exact h.kept
  · exact (h.views _ (ha.spec h.wf).2.1).imp
      (fun hv => (hv.openable ha h.wf h.homed h.listed h.onDisk).down)
      fun hv => (hv.openable ha h.wf h.homed h.listed h.onDisk).down

theorem CrashOk.down {l : EntryLayer} {fs : DbFs} (h : CrashOk mode l w)
    (ha : fs = w.fs ∨ After mode w.fs fs) : Down mode l { w with fs } :=
  ((h.before l).down ha).elim id id

theorem Live.agrees (h : Live mode db w g) (key : Key) :
    db.get key = answerOf (valueMap (firstHit db.layers) key) := by
  have htables : db.tables = ((g.old ++ g.new).map PubTable.entries).map TableReader.complete := by
    rw [h.ok.tables, List.map_map]
    rfl
  rw [get_eq_valueMap htables]
  rfl

variable {E : Env}

/-- A call needs nothing that a sound environment does not give. -/
theorem Env.Sound.torn (hE : E.Sound) (h : Live E.mode db w g) (hmay : E.mayCall op db w)
    (htorn : ¬ E.AppendsFail → g.torn = []) (hop : (op.record db).isSome = true) : g.torn = [] := by
  by_cases hfail : E.AppendsFail
  · exact h.onBoundary_iff.mp (hE.boundary hfail op db w hmay hop)
  · exact htorn hfail

/-- A directory that a sound environment opens is one that `Recover` can build on. -/
theorem Env.Sound.openable (hE : E.Sound) {m : EntryLayer} (h : Down E.mode m w)
    (hmay : E.mayOpen w) (hbounded : Bounded w.published) : Openable E.mode m w :=
  h.openable (hE.opens w hmay hbounded h.wf h.listed)

/-- The database simulates the map, step by step. -/
theorem simulation (hE : E.Sound) : Simulation (Step E) SpecStep (Related E) Agrees where
  agrees {s m} hrel := by
    obtain ⟨w, _ | db⟩ := s
    · trivial
    · obtain ⟨g, hlive, rfl, -⟩ := hrel
      exact hlive.agrees
  step {s m e s'} hrel hstep := by
    cases hstep with
    | opened hopt hbounded hmay hrun =>
        obtain ⟨l, hdown, rfl⟩ := hrel
        rcases wp_done (openDb_spec (hE.openable hdown hmay hbounded) hbounded hopt) hrun with
          ⟨db, g, heq, hrec⟩ | ⟨s, heq, -⟩
        · obtain rfl := Except.ok.inj heq
          exact ⟨_, .opened _, g, hrec.live, by rw [hrec.map], fun _ => hrec.torn⟩
        · exact absurd heq (by simp)
    | openFailed hopt hbounded hmay hrun hafter =>
        obtain ⟨l, hdown, rfl⟩ := hrel
        rcases wp_done (openDb_spec (hE.openable hdown hmay hbounded) hbounded hopt) hrun with
          ⟨db, g, heq, -⟩ | ⟨s, -, hfailed⟩
        · exact absurd heq (by simp)
        · exact ⟨_, .openFailed _ _, l, hfailed.2.down hafter, rfl⟩
    | openCrashed hopt hbounded hmay hrun hafter =>
        obtain ⟨l, hdown, rfl⟩ := hrel
        have hcrash := wp_crashed (openDb_spec (hE.openable hdown hmay hbounded) hbounded hopt) hrun
        exact ⟨_, .openCrashed _, l, hcrash.down hafter, rfl⟩
    | returned hmay hfit hrun =>
        obtain ⟨g, hlive, rfl, htorn⟩ := hrel
        have htorn' := hE.torn hlive hmay htorn
        obtain ⟨g', hcalled⟩ := wp_done (op_spec hlive hE.call htorn' hfit) hrun
        have hkept : ¬ E.AppendsFail → g'.torn = [] := fun hno => by
          rcases hcalled.torn with ht | ht | hfail
          · exact ht
          · rw [ht]
            exact htorn hno
          · exact absurd hfail hno
        refine ⟨_, ?_, g', hcalled.live, hcalled.map, hkept⟩
        cases applied _ _ with
        | true => exact .applied _ _ _
        | false => exact .refused _ _ _
    | crashed hmay hfit hrun hafter =>
        obtain ⟨g, hlive, rfl, htorn⟩ := hrel
        have htorn' := hE.torn hlive hmay htorn
        obtain ⟨l, l', hcrash, hl, hl'⟩ := wp_crashed (op_spec hlive hE.call htorn' hfit) hrun
        rcases hcrash.down hafter with hdown | hdown
        · exact ⟨_, .crashedBefore _ _, l, hdown, hl⟩
        · exact ⟨_, .crashedAfter _ _, l', hdown, hl'⟩
    | stopped hafter =>
        obtain ⟨g, hlive, rfl, -⟩ := hrel
        exact ⟨_, .stopped _, _, hlive.crash.down hafter, rfl⟩

/-- Where no call inside an open may fail, every open that returns returns OK. -/
theorem no_openFailed (hE : E.Sound) (hopen : ∀ o, ¬ MayFail E.openFaults o) {s : Sys} {m : Store}
    (hrel : Related E s m) {run : List (Event × Sys)} (hrun : Runs (Step E) s run) :
    ∀ x ∈ run, ∀ status, x.1 ≠ .openFailed status := by
  induction hrun generalizing m with
  | nil s => simp
  | cons hstep hrest ih =>
      obtain ⟨m', -, hrel'⟩ := (simulation hE).step hrel hstep
      intro x hx status
      rcases List.mem_cons.mp hx with rfl | hx
      · rintro rfl
        cases hstep with
        | openFailed hopt hbounded hmay hrun hafter =>
            obtain ⟨l, hdown, rfl⟩ := hrel
            rcases wp_done (openDb_spec (hE.openable hdown hmay hbounded) hbounded hopt) hrun with
              ⟨db, g, heq, -⟩ | ⟨s, -, ⟨o, hfail⟩, -⟩
            · exact absurd heq (by simp)
            · exact hopen o hfail
      · exact ih hrel' x hx status

theorem Op.exists_record (hop : op ≠ .flush) (db : DB) : ∃ r, op.record db = some r := by
  cases op with
  | put key value => exact ⟨_, rfl⟩
  | delete key => exact ⟨_, rfl⟩
  | flush => exact absurd rfl hop

/-- A write that returned OK was applied. -/
theorem ok_applied (hE : E.Sound) {s : Sys} {m : Store} (hrel : Related E s m)
    {run : List (Event × Sys)} (hrun : Runs (Step E) s run) :
    ∀ x ∈ run, ∀ op status a, x.1 = .returned op status a → op ≠ .flush → status.ok = true →
      a = true := by
  induction hrun generalizing m with
  | nil s => simp
  | cons hstep hrest ih =>
      obtain ⟨m', -, hrel'⟩ := (simulation hE).step hrel hstep
      intro x hx op status a heq hop hok
      rcases List.mem_cons.mp hx with rfl | hx
      · obtain rfl := heq
        cases hstep with
        | returned hmay hfit hrun =>
            obtain ⟨g, hlive, -, htorn⟩ := hrel
            have htorn' := hE.torn hlive hmay htorn
            obtain ⟨g', hcalled⟩ := wp_done (op_spec hlive hE.call htorn' hfit) hrun
            by_contra hnot
            obtain ⟨r, hr⟩ := Op.exists_record hop _
            have hno := (hcalled.refused r hr (by simpa using hnot)).1
            rw [hok] at hno
            exact absurd hno (by simp)
      · exact ih hrel' x hx op status a heq hop hok

/-- An event after which the database stands for what it stood for before. -/
def Event.silent : Event → Bool
  | .returned _ _ a => !a
  | .crashed _ => false
  | _ => true

theorem SpecStep.silent {m m' : Store} {e : Event} (h : SpecStep m e m') (he : e.silent = true) :
    m' = m := by
  cases h with
  | applied => exact absurd he (by simp [Event.silent])
  | crashedAfter => exact absurd he (by simp [Event.silent])
  | _ => rfl

-- ============================================================================
-- Environments
-- ============================================================================

/-- The process may stop anywhere, and no call fails. -/
def stopsOnly : Policy FsOp World := fun _ _ fault =>
  match fault with
  | .error _ => false
  | _ => true

/-- Every call may fail. -/
def anyFault : Policy FsOp World := fun _ _ _ => true

/-- Every call may fail but the appends to the WAL and its fsyncs. -/
def flushFaults : Policy FsOp World := fun _ o fault =>
  match o, fault with
  | .append (.wal _), .error _ => false
  | .fsync (.wal _), .error _ => false
  | _, _ => true

theorem not_mayFail_stopsOnly (o : FsOp) : ¬ MayFail stopsOnly o := by
  rintro ⟨w, k, h⟩
  exact absurd h (by simp [stopsOnly])

theorem tolerable_stopsOnly (mode : CrashMode) : Tolerable mode stopsOnly where
  fsync n := not_mayFail_stopsOnly _
  append _ n := not_mayFail_stopsOnly _
  rotation _ w k h := absurd h (by simp [stopsOnly])

theorem tolerable_flushFaults : Tolerable .process flushFaults where
  fsync n := by
    rintro ⟨w, k, h⟩
    exact absurd h (by simp [flushFaults])
  append h := absurd h (by simp)
  rotation h := absurd h (by simp)

/-- The process may stop anywhere, opening it again does not fail, and every step
    of the flush path may. -/
def crashEnv : Env where
  mode := .process
  openFaults := stopsOnly
  callFaults := flushFaults

/-- As `crashEnv`, and the calls inside an open may fail too. -/
def faultyEnv : Env where
  mode := .process
  openFaults := anyFault
  callFaults := flushFaults

theorem not_appendsFail_flushFaults {E : Env} (h : E.callFaults = flushFaults) :
    ¬ E.AppendsFail := by
  rintro ⟨n, w, k, hfail⟩
  rw [h] at hfail
  exact absurd hfail (by simp [flushFaults])

theorem sound_crashEnv : crashEnv.Sound :=
  ⟨tolerable_flushFaults, fun _ _ _ _ _ => grounded_process _,
    fun h => absurd h (not_appendsFail_flushFaults rfl)⟩

theorem sound_faultyEnv : faultyEnv.Sound :=
  ⟨tolerable_flushFaults, fun _ _ _ _ _ => grounded_process _, fun h =>
    absurd h (not_appendsFail_flushFaults rfl)⟩

end PassionProjects.PebbleDB
