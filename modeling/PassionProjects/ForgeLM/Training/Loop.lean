/-
  PassionProjects.ForgeLM.Training.Loop

  The training loop and its checkpoints (`training/loop.py`, `training/checkpoint.py`).  What
  a micro-batch and an optimizer step do to the model, the optimizer and the scheduler is a
  parameter.
-/

import PassionProjects.ForgeLM.Dataset.TextDataset

namespace PassionProjects.ForgeLM

open Generators

variable {D G B M C R P H : Type}

/-- `TrainingConfig`; `others` are the fields that only `config_hash` and the optimizer
    read. -/
structure TrainingConfig (R : Type) where
  seed : Int
  microBatchSize : Int
  gradAccumSteps : Int
  others : R
  microBatchSize_pos : 0 < microBatchSize
  gradAccumSteps_pos : 0 < gradAccumSteps

/-- The parts of `train_step` on a model with its optimizer and scheduler. -/
structure Learning (M B : Type) where
  zeroGrad : M → M
  backward : (accumSteps : Int) → M → B → M
  optimize : M → M

structure Trainer (D B M C R P : Type) where
  trainDataset : D
  modelConfig : C
  trainingConfig : TrainingConfig R
  datasetPaths : Option P
  learner : M
  step : Nat
  iterArgs : IterArgs D
  batchIter : IterState B

namespace Trainer

/-- `Trainer.__init__` -/
def init (learner : M) (trainDataset : D) (modelConfig : C) (trainingConfig : TrainingConfig R)
    (datasetPaths : Option P) : Trainer D B M C R P where
  trainDataset := trainDataset
  modelConfig := modelConfig
  trainingConfig := trainingConfig
  datasetPaths := datasetPaths
  learner := learner
  step := 0
  iterArgs := ⟨trainDataset, trainingConfig.microBatchSize, trainingConfig.seed, 0⟩
  batchIter := .created

/-- The loop of `train_step` over so many micro-batches, with those it consumed. -/
def accumulate (env : Loading D G B) (ops : Learning M B) (turns : Nat) :
    Nat → Trainer D B M C R P → Option (Except IterError (List B) × Trainer D B M C R P)
  | 0, t => some (.ok [], t)
  | n + 1, t => do
      let (batch, batchIter) ← next (iterBatchesTurn env t.iterArgs) turns t.batchIter
      match batch with
      | .error e => some (.error e, { t with batchIter := batchIter })
      | .ok b =>
          let (batches, t) ← accumulate env ops turns n
            { t with
              batchIter := batchIter
              learner := ops.backward t.trainingConfig.gradAccumSteps t.learner b }
          some (batches.map (b :: ·), t)

/-- `train_step`, with the micro-batches it consumed; each of them within so many turns. -/
def trainStep (env : Loading D G B) (ops : Learning M B) (turns : Nat)
    (t : Trainer D B M C R P) : Option (Except IterError (List B) × Trainer D B M C R P) := do
  let (batches, t) ← accumulate env ops turns t.trainingConfig.gradAccumSteps.toNat
    { t with learner := ops.zeroGrad t.learner }
  match batches with
  | .error e => some (.error e, t)
  | .ok bs => some (.ok bs, { t with learner := ops.optimize t.learner, step := t.step + 1 })

/-- So many steps, with the micro-batches of each. -/
def trainSteps (env : Loading D G B) (ops : Learning M B) (turns : Nat) :
    Nat → Trainer D B M C R P → Option (Except IterError (List (List B)) × Trainer D B M C R P)
  | 0, t => some (.ok [], t)
  | n + 1, t => do
      let (batches, t) ← trainStep env ops turns t
      match batches with
      | .error e => some (.error e, t)
      | .ok bs =>
          let (rest, t) ← trainSteps env ops turns n t
          some (rest.map (bs :: ·), t)

end Trainer

/-- The payload of a checkpoint. -/
structure Checkpoint (M H : Type) where
  step : Nat
  learner : M
  configHash : H

/-- `save_checkpoint` -/
def saveCheckpoint (configHash : C → TrainingConfig R → Option P → H)
    (t : Trainer D B M C R P) : Checkpoint M H where
  step := t.step
  learner := t.learner
  configHash := configHash t.modelConfig t.trainingConfig t.datasetPaths

/-- `verify_config_hash` -/
def verifyConfigHash [DecidableEq H] [ToString H]
    (configHash : C → TrainingConfig R → Option P → H) (payload : Checkpoint M H)
    (modelConfig : C) (trainingConfig : TrainingConfig R) (datasetPaths : Option P) :
    Except String Unit :=
  let expected := configHash modelConfig trainingConfig datasetPaths
  let actual := payload.configHash
  if actual ≠ expected then
    .error ("checkpoint config_hash does not match the given model/training config " ++
      "(and/or dataset paths) -- resuming would silently train with different " ++
      "hyperparameters/architecture, or against a different token stream, than " ++
      "the checkpoint was produced with (expected " ++ toString expected ++ ", got " ++
      toString actual ++ ")")
  else
    .ok ()

/-- `Trainer.load_checkpoint` -/
def loadCheckpoint [DecidableEq H] [ToString H]
    (configHash : C → TrainingConfig R → Option P → H) (payload : Checkpoint M H) (learner : M)
    (trainDataset : D) (modelConfig : C) (trainingConfig : TrainingConfig R)
    (datasetPaths : Option P) : Except String (Trainer D B M C R P) := do
  verifyConfigHash configHash payload modelConfig trainingConfig datasetPaths
  let trainer : Trainer D B M C R P :=
    .init learner trainDataset modelConfig trainingConfig datasetPaths
  let trainer := { trainer with learner := payload.learner, step := payload.step }
  let alreadyConsumed := trainer.step * trainingConfig.gradAccumSteps
  .ok { trainer with
    iterArgs :=
      ⟨trainDataset, trainingConfig.microBatchSize, trainingConfig.seed, alreadyConsumed⟩
    batchIter := .created }

-- ============================================================================
-- Micro-batches of a run
-- ============================================================================

/-- The trainers of runs that may be interrupted: each step, and each return to a checkpoint
    with the same dataset and configuration, leads to another one. -/
inductive Trains [DecidableEq H] [ToString H] (env : Loading D G B) (ops : Learning M B)
    (configHash : C → TrainingConfig R → Option P → H) (dataset : D) (modelConfig : C)
    (config : TrainingConfig R) (paths : Option P) : Trainer D B M C R P → Prop where
  | init (learner : M) : Trains env ops configHash dataset modelConfig config paths
      (.init learner dataset modelConfig config paths)
  | step {t t' : Trainer D B M C R P} {turns : Nat} {batches : Except IterError (List B)} :
      Trains env ops configHash dataset modelConfig config paths t →
        t.trainStep env ops turns = some (batches, t') →
          Trains env ops configHash dataset modelConfig config paths t'
  | load {t t' : Trainer D B M C R P} {learner : M} :
      Trains env ops configHash dataset modelConfig config paths t →
        loadCheckpoint configHash (saveCheckpoint configHash t) learner dataset modelConfig config
            paths = .ok t' →
          Trains env ops configHash dataset modelConfig config paths t'

/-- The iterator of the trainer is at its step. -/
structure AtStep (env : Loading D G B) (f : Nat → B) (dataset : D) (modelConfig : C)
    (config : TrainingConfig R) (paths : Option P) (t : Trainer D B M C R P) : Prop where
  dataset_eq : t.trainDataset = dataset
  modelConfig_eq : t.modelConfig = modelConfig
  config_eq : t.trainingConfig = config
  paths_eq : t.datasetPaths = paths
  streams : Streams (iterBatchesTurn env t.iterArgs) t.batchIter
    fun i => f (t.step * config.gradAccumSteps.toNat + i)

variable {env : Loading D G B} {ops : Learning M B} {t t' : Trainer D B M C R P}

namespace Trainer

theorem accumulate_mono {r : Except IterError (List B) × Trainer D B M C R P} {turns more n : Nat}
    (h : accumulate env ops turns n t = some r) (hle : turns ≤ more) :
    accumulate env ops more n t = some r := by
  induction n generalizing t r with
  | zero => exact h
  | succ n ih =>
      unfold accumulate at h ⊢
      obtain ⟨⟨batch, batchIter⟩, hnext, hrest⟩ := Option.bind_eq_some_iff.mp h
      refine Option.bind_eq_some_iff.mpr ⟨⟨batch, batchIter⟩, next_mono hnext hle, ?_⟩
      cases batch with
      | error e => exact hrest
      | ok b =>
          obtain ⟨⟨batches, t'⟩, hloop, hr⟩ := Option.bind_eq_some_iff.mp hrest
          exact Option.bind_eq_some_iff.mpr ⟨⟨batches, t'⟩, ih hloop, hr⟩

theorem trainStep_mono {r : Except IterError (List B) × Trainer D B M C R P} {turns more : Nat}
    (h : trainStep env ops turns t = some r) (hle : turns ≤ more) :
    trainStep env ops more t = some r := by
  unfold trainStep at h ⊢
  obtain ⟨a, hloop, hrest⟩ := Option.bind_eq_some_iff.mp h
  exact Option.bind_eq_some_iff.mpr ⟨a, accumulate_mono hloop hle, hrest⟩

theorem trainSteps_mono {r : Except IterError (List (List B)) × Trainer D B M C R P}
    {turns more n : Nat} (h : trainSteps env ops turns n t = some r) (hle : turns ≤ more) :
    trainSteps env ops more n t = some r := by
  induction n generalizing t r with
  | zero => exact h
  | succ n ih =>
      unfold trainSteps at h ⊢
      obtain ⟨⟨batches, t'⟩, hstep, hrest⟩ := Option.bind_eq_some_iff.mp h
      refine Option.bind_eq_some_iff.mpr ⟨⟨batches, t'⟩, trainStep_mono hstep hle, ?_⟩
      cases batches with
      | error e => exact hrest
      | ok bs =>
          obtain ⟨⟨rest, t''⟩, hsteps, hr⟩ := Option.bind_eq_some_iff.mp hrest
          exact Option.bind_eq_some_iff.mpr ⟨⟨rest, t''⟩, ih hsteps, hr⟩

/-- The fields that a step leaves. -/
structure Same (t t' : Trainer D B M C R P) : Prop where
  trainDataset : t'.trainDataset = t.trainDataset
  modelConfig : t'.modelConfig = t.modelConfig
  trainingConfig : t'.trainingConfig = t.trainingConfig
  datasetPaths : t'.datasetPaths = t.datasetPaths
  iterArgs : t'.iterArgs = t.iterArgs

/-- The micro-batches of a step are the next ones of the stream. -/
theorem accumulate_streams (ops : Learning M B) {g : Nat → B} (n : Nat)
    (h : Streams (iterBatchesTurn env t.iterArgs) t.batchIter g) :
    ∃ turns t', accumulate env ops turns n t = some (.ok ((List.range n).map g), t') ∧
      Same t t' ∧ t'.step = t.step ∧
        Streams (iterBatchesTurn env t.iterArgs) t'.batchIter fun i => g (n + i) := by
  induction n generalizing t g with
  | zero => exact ⟨0, t, rfl, ⟨rfl, rfl, rfl, rfl, rfl⟩, rfl, by simpa using h⟩
  | succ n ih =>
      obtain ⟨batchIter, ⟨turns, hnext⟩, hrest⟩ := h.next
      let t₁ : Trainer D B M C R P := { t with
        batchIter := batchIter
        learner := ops.backward t.trainingConfig.gradAccumSteps t.learner (g 0) }
      obtain ⟨turns', t', hloop, hsame, hstep, hstreams⟩ := ih (t := t₁) hrest
      refine ⟨max turns turns', t', ?_, ⟨hsame.1, hsame.2, hsame.3, hsame.4, hsame.5⟩, hstep, ?_⟩
      · unfold accumulate
        refine Option.bind_eq_some_iff.mpr
          ⟨_, next_mono hnext (Nat.le_max_left turns turns'), ?_⟩
        refine Option.bind_eq_some_iff.mpr
          ⟨_, accumulate_mono hloop (Nat.le_max_right turns turns'), ?_⟩
        rw [List.range_succ_eq_map, List.map_cons, List.map_map]
        rfl
      · have hshift : (fun i => g (n + 1 + i)) = fun i => g (n + i + 1) :=
          funext fun i => congrArg g (Nat.add_right_comm n 1 i)
        rw [hshift]
        exact hstreams

end Trainer

open Trainer

section Run

variable {f : Nat → B} {dataset : D} {modelConfig : C} {config : TrainingConfig R}
  {paths : Option P}

/-- The micro-batches of a step. -/
def stepBatches (f : Nat → B) (config : TrainingConfig R) (step : Nat) : List B :=
  (List.range config.gradAccumSteps.toNat).map fun i =>
    f (step * config.gradAccumSteps.toNat + i)

/-- A step takes the micro-batches that are due. -/
theorem AtStep.trainStep (ops : Learning M B)
    (h : AtStep env f dataset modelConfig config paths t) :
    ∃ turns t', t.trainStep env ops turns = some (.ok (stepBatches f config t.step), t') ∧
      t'.step = t.step + 1 ∧ AtStep env f dataset modelConfig config paths t' := by
  let t₁ : Trainer D B M C R P := { t with learner := ops.zeroGrad t.learner }
  obtain ⟨turns, t', hloop, hsame, hstep, hstreams⟩ := accumulate_streams (t := t₁) ops
    config.gradAccumSteps.toNat h.streams
  have hcount : t.trainingConfig.gradAccumSteps.toNat = config.gradAccumSteps.toNat := by
    rw [h.config_eq]
  refine ⟨turns, { t' with learner := ops.optimize t'.learner, step := t'.step + 1 }, ?_,
    congrArg (· + 1) hstep, ⟨hsame.trainDataset.trans h.dataset_eq,
      hsame.modelConfig.trans h.modelConfig_eq, hsame.trainingConfig.trans h.config_eq,
      hsame.datasetPaths.trans h.paths_eq, ?_⟩⟩
  · unfold Trainer.trainStep
    rw [hcount]
    exact Option.bind_eq_some_iff.mpr ⟨_, hloop, rfl⟩
  · have hargs : t'.iterArgs = t.iterArgs := hsame.iterArgs
    have hposition : (fun i => f ((t'.step + 1) * config.gradAccumSteps.toNat + i)) =
        fun i => f (t.step * config.gradAccumSteps.toNat +
          (config.gradAccumSteps.toNat + i)) := by
      funext i
      rw [show t'.step = t.step from hstep, Nat.succ_mul, Nat.add_assoc]
    show Streams (iterBatchesTurn env t'.iterArgs) t'.batchIter _
    rw [hargs, hposition]
    exact hstreams

/-- A run of steps takes the micro-batches that are due. -/
theorem AtStep.trainSteps (h : AtStep env f dataset modelConfig config paths t) (n : Nat) :
    ∃ turns t', t.trainSteps env ops turns n =
      some (.ok ((List.range n).map fun j => stepBatches f config (t.step + j)), t') := by
  induction n generalizing t with
  | zero => exact ⟨0, t, rfl⟩
  | succ n ih =>
      obtain ⟨turns, t₁, htrain, hstep, hnext⟩ := h.trainStep ops
      obtain ⟨turns', t', hsteps⟩ := ih hnext
      refine ⟨max turns turns', t', ?_⟩
      unfold Trainer.trainSteps
      refine Option.bind_eq_some_iff.mpr
        ⟨_, trainStep_mono htrain (Nat.le_max_left turns turns'), ?_⟩
      refine Option.bind_eq_some_iff.mpr
        ⟨_, trainSteps_mono hsteps (Nat.le_max_right turns turns'), ?_⟩
      rw [List.range_succ_eq_map, List.map_cons, List.map_map, hstep, Nat.add_zero]
      refine congrArg (fun bs => some (Except.ok (_ :: bs), t')) (List.map_congr_left fun j _ => ?_)
      exact congrArg (stepBatches f config) (Nat.add_right_comm t.step 1 j)

/-- Every step goes on to the next position. -/
theorem AtStep.after (h : AtStep env f dataset modelConfig config paths t) {turns : Nat}
    {batches : Except IterError (List B)}
    (htrain : t.trainStep env ops turns = some (batches, t')) :
    AtStep env f dataset modelConfig config paths t' := by
  obtain ⟨turns', t₁, hdue, -, hnext⟩ := h.trainStep ops
  have hone := trainStep_mono htrain (Nat.le_max_left turns turns')
  have htwo := trainStep_mono hdue (Nat.le_max_right turns turns')
  obtain ⟨-, rfl⟩ := Prod.mk.inj (Option.some.inj (hone.symm.trans htwo))
  exact hnext

variable [DecidableEq H] [ToString H] (configHash : C → TrainingConfig R → Option P → H)

/-- The checkpoint of a trainer is accepted, and leads back to its step. -/
theorem AtStep.load (h : AtStep env f dataset modelConfig config paths t) (learner : M)
    (hstreams : ∀ n : Nat, Streams
      (iterBatchesTurn env ⟨dataset, config.microBatchSize, config.seed, n⟩) .created
        fun i => f (n + i)) :
    ∃ t' : Trainer D B M C R P, loadCheckpoint configHash (saveCheckpoint configHash t) learner
        dataset modelConfig config paths = .ok t' ∧ t'.step = t.step ∧
      AtStep env f dataset modelConfig config paths t' := by
  have hhash : (saveCheckpoint configHash t).configHash =
      configHash modelConfig config paths := by
    unfold saveCheckpoint
    rw [h.modelConfig_eq, h.config_eq, h.paths_eq]
  have hskip : ((t.step * config.gradAccumSteps.toNat : Nat) : Int) =
      t.step * config.gradAccumSteps := by
    rw [Int.natCast_mul, Int.toNat_of_nonneg (Int.le_of_lt config.gradAccumSteps_pos)]
  let t' : Trainer D B M C R P := { Trainer.init t.learner dataset modelConfig config paths with
    step := t.step
    iterArgs := ⟨dataset, config.microBatchSize, config.seed, t.step * config.gradAccumSteps⟩ }
  refine ⟨t', ?_, rfl, rfl, rfl, rfl, rfl, ?_⟩
  · unfold loadCheckpoint verifyConfigHash
    rw [hhash]
    simp only [ne_eq, not_true_eq_false, if_false]
    rfl
  · have hposition := hstreams (t.step * config.gradAccumSteps.toNat)
    rw [hskip] at hposition
    exact hposition

/-- Whatever was interrupted before, a trainer is at its step. -/
theorem Trains.atStep (hstreams : ∀ n : Nat, Streams
      (iterBatchesTurn env ⟨dataset, config.microBatchSize, config.seed, n⟩) .created
        fun i => f (n + i))
    (h : Trains env ops configHash dataset modelConfig config paths t) :
    AtStep env f dataset modelConfig config paths t := by
  induction h with
  | init learner =>
      refine ⟨rfl, rfl, rfl, rfl, ?_⟩
      have hzero : (fun i => f (0 * config.gradAccumSteps.toNat + i)) = fun i => f (0 + i) := by
        rw [Nat.zero_mul]
      show Streams _ _ fun i => f (0 * config.gradAccumSteps.toNat + i)
      rw [hzero]
      exact hstreams 0
  | step _ htrain ih => exact ih.after htrain
  | load _ hload ih =>
      obtain ⟨t₁, hok, -, hat⟩ := ih.load configHash _ hstreams
      obtain rfl := Except.ok.inj (hload.symm.trans hok)
      exact hat

end Run

/-- Streams of batches are resumed where they were left: with `skip_batches` the first ones are
    dropped, and a trainer takes the micro-batches that belong to its steps, whether or not it
    comes from checkpoints. -/
theorem resumed_batches (env : Loading D G B) (ops : Learning M B) [DecidableEq H] [ToString H]
    (configHash : C → TrainingConfig R → Option P → H) (dataset : D) (modelConfig : C)
    (config : TrainingConfig R) (paths : Option P) {datasetLen : Nat}
    (hlen : env.len dataset = some datasetLen) (henough : config.microBatchSize ≤ datasetLen)
    (hloader : ∀ seed : Int,
      (makeDataloader env dataset config.microBatchSize true seed 0 true).length =
        datasetLen / config.microBatchSize.toNat) :
    ∃ f : Nat → B,
      (∀ n : Nat, batchAt env ⟨dataset, config.microBatchSize, config.seed, 0⟩
        (datasetLen / config.microBatchSize.toNat) n = some (f n)) ∧
      (∀ n : Nat, Streams
        (iterBatchesTurn env ⟨dataset, config.microBatchSize, config.seed, n⟩) .created
          fun i => f (n + i)) ∧
      (∀ (t : Trainer D B M C R P) (n : Nat),
        Trains env ops configHash dataset modelConfig config paths t →
          ∃ turns t', t.trainSteps env ops turns n =
            some (.ok ((List.range n).map fun j => stepBatches f config (t.step + j)), t')) ∧
      ∀ (t : Trainer D B M C R P) (learner : M),
        Trains env ops configHash dataset modelConfig config paths t →
          ∃ t' : Trainer D B M C R P,
            loadCheckpoint configHash (saveCheckpoint configHash t) learner dataset modelConfig
              config paths = .ok t' ∧ t'.step = t.step ∧
            Trains env ops configHash dataset modelConfig config paths t' := by
  let args (n : Nat) : IterArgs D := ⟨dataset, config.microBatchSize, config.seed, n⟩
  have hargs : ∀ n, Streaming env (args n) (datasetLen / config.microBatchSize.toNat) := fun n =>
    ⟨config.microBatchSize_pos, ⟨datasetLen, hlen, henough, rfl⟩, fun epoch => hloader _⟩
  obtain ⟨f, hf⟩ := exists_batches (hargs 0)
  have hstreams : ∀ n : Nat, Streams (iterBatchesTurn env (args n)) .created fun i => f (n + i) :=
    fun n => iterBatches_streams (hargs n) (Int.natCast_nonneg n) hf
  refine ⟨f, hf, hstreams, fun t n ht => (ht.atStep configHash hstreams).trainSteps n,
    fun t learner ht => ?_⟩
  obtain ⟨t', hload, hstep, -⟩ := (ht.atStep configHash hstreams).load configHash learner hstreams
  exact ⟨t', hload, hstep, ht.load hload⟩

/-- Loaders that turn the dataset by the seed and cut it in full batches. -/
def turning : Loading (List Nat) Int (List Nat) where
  len dataset := some dataset.length
  manualSeed seed := seed
  dataLoader dataset batchSize _ generator _ _ :=
    (List.range (dataset.length / batchSize.toNat)).map fun k =>
      ((dataset.drop generator.toNat ++ dataset.take generator.toNat).drop
        (k * batchSize.toNat)).take batchSize.toNat

/-- Five examples in batches of two, three of which make a step: the second step begins in the
    second epoch, also after a return to a checkpoint. -/
theorem resumed_batches_five :
    ∃ f : Nat → List Nat, f 2 = [2, 3] ∧ f 3 = [4, 5] ∧
      Streams (iterBatchesTurn turning ⟨[1, 2, 3, 4, 5], 2, 0, 3⟩) .created (fun i => f (3 + i)) ∧
      ∃ turns t',
        (Trainer.init (P := Unit) [] [1, 2, 3, 4, 5] () ⟨0, 2, 3, (), by decide, by decide⟩
        none).trainSteps turning ⟨id, fun _ bs b => bs ++ [b], id⟩ turns 2 =
          some (.ok [[f 0, f 1, f 2], [f 3, f 4, f 5]], t') := by
  obtain ⟨f, hf, hstreams, hruns, -⟩ := resumed_batches turning
    (⟨id, fun _ bs b => bs ++ [b], id⟩ : Learning (List (List Nat)) (List Nat))
    (fun _ _ _ => (0 : Nat)) [1, 2, 3, 4, 5] () ⟨0, 2, 3, (), by decide, by decide⟩
    (none : Option Unit) rfl (by decide) (fun seed => by simp [makeDataloader, turning])
  have htwo := (hf 2).symm
  have hthree := (hf 3).symm
  exact ⟨f, Option.some.inj htwo, Option.some.inj hthree, hstreams 3, hruns _ 2 (.init [])⟩

end PassionProjects.ForgeLM
