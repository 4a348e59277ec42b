/-
  PassionProjects.ForgeLM.Evaluation.Perplexity

  The loss of a model over a dataset (`evaluation/perplexity.py`), with sums exact.  The
  model and the cross-entropy of one token are parameters.
-/

import Mathlib.Algebra.BigOperators.Group.List.Basic
import Mathlib.Algebra.Field.Rat
import Mathlib.Order.WithBot
import Mathlib.Tactic.NormNum
import PassionProjects.ForgeLM.Dataset.TextDataset
import PassionProjects.Lib.Lines
import PassionProjects.Lib.Raising
import PassionProjects.Lib.Results

namespace PassionProjects.ForgeLM

open Raising Raising.Prog Results

variable {F L : Type} [Field F]

/-- `EvalResult` -/
structure EvalResult (F : Type) where
  loss : F
  perplexity : WithTop F
  numBatches : Nat
  tokensEvaluated : Nat

/-- A model: the logits of every position of a batch of rows, in training mode or not. -/
structure Module (L : Type) where
  training : Bool
  forward : Bool → List (List Int) → List (List L)

/-- The sums of `evaluate_loss`. -/
structure Totals (F : Type) where
  lossSum : F
  tokens : Nat
  numBatches : Nat

/-- `F.cross_entropy(logits, y, reduction="sum")` -/
def crossEntropySum (tokenLoss : L → Int → F) (logits : List L) (y : List Int) : F :=
  (List.zipWith tokenLoss logits y).sum

/-- One turn of the loop over the batches; nothing where it breaks. -/
def evaluateBatch (tokenLoss : L → Int → F) (model : List (List Int) → List (List L))
    (maxTokens : Option Int) (batch : List (List Int × List Int)) (s : Totals F) :
    Option (Totals F) :=
  if maxTokens.any fun m => m ≤ (s.tokens : Int) then
    none
  else
    let logitsFlat := (model (batch.map Prod.fst)).flatten
    let yFlat := (batch.map Prod.snd).flatten
    let counted : List L × List Int :=
      match maxTokens with
      | none => (logitsFlat, yFlat)
      | some m =>
          let remaining := m - s.tokens
          if remaining < yFlat.length then
            (logitsFlat.take remaining.toNat, yFlat.take remaining.toNat)
          else
            (logitsFlat, yFlat)
    let batchLoss := crossEntropySum tokenLoss counted.1 counted.2
    some ⟨s.lossSum + batchLoss, s.tokens + counted.2.length, s.numBatches + 1⟩

/-- The loop, over the indices of the examples of each batch. -/
def evaluateBatches (tokenLoss : L → Int → F) (model : List (List Int) → List (List L))
    (dataset : NextTokenDataset) (maxTokens : Option Int) :
    List (List Nat) → Totals F → Except Error (Totals F)
  | [], s => .ok s
  | indices :: rest, s => do
      let batch ← indices.mapM fun i : Nat => dataset.getItem i
      match evaluateBatch tokenLoss model maxTokens batch s with
      | none => .ok s
      | some s' => evaluateBatches tokenLoss model dataset maxTokens rest s'

/-- `evaluate_loss`. The loader is neither shuffled nor drops its last batch; `mathExp` has
    no value where `math.exp` overflows. -/
def evaluateLoss (tokenLoss : L → Int → F) (mathExp : F → Option F) (dataset : NextTokenDataset)
    (batchSize : Int) (maxTokens : Option Int) : Prog Error (Module L) (EvalResult F) := do
  check (0 < batchSize) (.valueError ("batch_size must be positive, got " ++ toString batchSize))
  check (∀ m ∈ maxTokens, 0 < m) (.valueError ("max_tokens must be positive when set, got " ++
    toString (maxTokens.getD 0)))
  let wasTraining := (← Prog.read).training
  modify fun model => { model with training := false }
  let model ← Prog.read
  let loader := chunks batchSize.toNat (List.range dataset.len)
  let totals :=
    evaluateBatches tokenLoss (model.forward model.training) dataset maxTokens loader ⟨0, 0, 0⟩
  -- the `finally` clause
  modify fun model => { model with training := wasTraining }
  let totals ← ofExcept totals
  check (totals.numBatches ≠ 0) (.valueError ("evaluate_loss produced no batches -- dataset is " ++
    "empty or max_tokens is smaller than one example's worth of target tokens"))
  let avgLoss := totals.lossSum / totals.tokens
  let perplexity : WithTop F :=
    match mathExp avgLoss with
    | some p => p
    | none => ⊤
  pure ⟨avgLoss, perplexity, totals.numBatches, totals.tokens⟩

-- ============================================================================
-- The tokens that are counted
-- ============================================================================

/-- The cross-entropies of the targets of some examples, where a row of inputs has the
    logits `row`. -/
def targetLosses (tokenLoss : L → Int → F) (row : List Int → List L) (dataset : NextTokenDataset)
    (indices : List Nat) : List F :=
  indices.flatMap fun i => List.zipWith tokenLoss (row (dataset.slice i)) (dataset.slice (i + 1))

/-- How many target tokens a budget leaves. -/
def evaluatedTokens (dataset : NextTokenDataset) : Option Int → Nat
  | none => dataset.len * dataset.contextLength
  | some m => min m.toNat (dataset.len * dataset.contextLength)

/-- What is counted of some tokens after `tokens` others. -/
def counted {α : Type} (maxTokens : Option Int) (tokens : Nat) (l : List α) : List α :=
  match maxTokens with
  | none => l
  | some m => l.take (m - tokens).toNat

section Counted

variable {α : Type} {maxTokens : Option Int} {tokens : Nat}

theorem counted_append (l l' : List α) : counted maxTokens tokens (l ++ l') =
    counted maxTokens tokens l ++
      counted maxTokens (tokens + (counted maxTokens tokens l).length) l' := by
  cases maxTokens with
  | none => rfl
  | some m =>
      unfold counted
      dsimp only
      rw [List.take_append, List.length_take]
      congr 2
      omega

theorem counted_spent (h : maxTokens.any fun m => m ≤ (tokens : Int)) (l : List α) :
    counted maxTokens tokens l = [] := by
  cases maxTokens with
  | none => exact absurd h Bool.false_ne_true
  | some m =>
      have hle : m ≤ tokens := of_decide_eq_true h
      unfold counted
      dsimp only
      rw [Int.toNat_of_nonpos (by omega), List.take_zero]

end Counted

variable (tokenLoss : L → Int → F) {model : List (List Int) → List (List L)}
  {row : List Int → List L} {dataset : NextTokenDataset} (maxTokens : Option Int)

/-- The rows of a batch do not see each other, and have logits at every position. -/
structure RowWise (model : List (List Int) → List (List L)) (row : List Int → List L) : Prop where
  eq : ∀ xs, model xs = xs.map row
  length : ∀ x, (row x).length = x.length

/-- The window of an example. -/
def NextTokenDataset.window (dataset : NextTokenDataset) (i : Nat) : List Int × List Int :=
  (dataset.slice i, dataset.slice (i + 1))

omit [Field F] in
theorem flat_losses (hmodel : RowWise model row) {indices : List Nat}
    (hindices : ∀ i ∈ indices, i < dataset.len) :
    List.zipWith tokenLoss (model ((indices.map dataset.window).map Prod.fst)).flatten
        ((indices.map dataset.window).map Prod.snd).flatten =
      targetLosses tokenLoss row dataset indices := by
  have hrows : List.Forall₂ (fun x y => x.length = y.length)
      (model ((indices.map dataset.window).map Prod.fst))
      ((indices.map dataset.window).map Prod.snd) := by
    rw [hmodel.eq, List.map_map, List.map_map, List.map_map, List.forall₂_map_left_iff,
      List.forall₂_map_right_iff, List.forall₂_same]
    intro i hi
    have hlt := hindices i hi
    exact (hmodel.length _).trans
      ((dataset.length_slice hlt.le).trans (dataset.length_slice hlt).symm)
  rw [zipWith_flatten _ hrows, hmodel.eq, List.map_map, List.map_map, List.map_map,
    List.zipWith_map, List.zipWith_self, ← List.flatMap_def]
  rfl

omit [Field F] in
theorem length_targetLosses (hmodel : RowWise model row) {indices : List Nat}
    (hindices : ∀ i ∈ indices, i < dataset.len) :
    (targetLosses tokenLoss row dataset indices).length =
      indices.length * dataset.contextLength := by
  unfold targetLosses
  rw [List.length_flatMap]
  have hlen : ∀ i ∈ indices, (List.zipWith tokenLoss (row (dataset.slice i))
      (dataset.slice (i + 1))).length = dataset.contextLength := by
    intro i hi
    have hlt := hindices i hi
    rw [List.length_zipWith, hmodel.length, dataset.length_slice hlt.le, dataset.length_slice hlt,
      Nat.min_self]
  rw [List.map_congr_left hlen, List.map_const', List.sum_replicate_nat]

theorem length_flat_targets {indices : List Nat} (hindices : ∀ i ∈ indices, i < dataset.len) :
    ((indices.map dataset.window).map Prod.snd).flatten.length =
      indices.length * dataset.contextLength := by
  rw [List.map_map, ← List.flatMap_def, List.length_flatMap]
  have hlen : ∀ i ∈ indices, ((Prod.snd ∘ dataset.window) i).length = dataset.contextLength :=
    fun i hi => dataset.length_slice (hindices i hi)
  rw [List.map_congr_left hlen, List.map_const', List.sum_replicate_nat]

/-- A turn of the loop counts what the budget leaves. -/
theorem evaluateBatch_eq (hmodel : RowWise model row) {indices : List Nat}
    (hindices : ∀ i ∈ indices, i < dataset.len) {s : Totals F}
    (hbudget : ¬ maxTokens.any fun m => m ≤ (s.tokens : Int)) :
    evaluateBatch tokenLoss model maxTokens (indices.map dataset.window) s =
      some ⟨s.lossSum + (counted maxTokens s.tokens
          (targetLosses tokenLoss row dataset indices)).sum,
        s.tokens + (counted maxTokens s.tokens
          (targetLosses tokenLoss row dataset indices)).length, s.numBatches + 1⟩ := by
  have hlosses := flat_losses tokenLoss hmodel hindices
  have hlength := length_flat_targets hindices
  have htargets := length_targetLosses tokenLoss hmodel hindices
  unfold evaluateBatch crossEntropySum
  rw [if_neg hbudget]
  cases maxTokens with
  | none =>
      dsimp only [counted]
      rw [hlosses, hlength, htargets]
  | some m =>
      dsimp only [counted]
      split
      · rw [← List.take_zipWith, hlosses, List.length_take, List.length_take, hlength, htargets]
      · rename_i hall
        rw [hlosses, hlength, List.take_of_length_le (by omega), htargets]

/-- The loop counts what the budget leaves, batch after batch. -/
theorem evaluateBatches_eq (hmodel : RowWise model row) {loader : List (List Nat)}
    (hloader : ∀ indices ∈ loader, ∀ i ∈ indices, i < dataset.len) (s : Totals F) :
    ∃ numBatches, evaluateBatches tokenLoss model dataset maxTokens loader s =
      .ok ⟨s.lossSum + (counted maxTokens s.tokens
          (targetLosses tokenLoss row dataset loader.flatten)).sum,
        s.tokens + (counted maxTokens s.tokens
          (targetLosses tokenLoss row dataset loader.flatten)).length, numBatches⟩ ∧
      s.numBatches ≤ numBatches ∧
        (loader ≠ [] → ¬ (maxTokens.any fun m => m ≤ (s.tokens : Int)) →
          s.numBatches < numBatches) := by
  induction loader generalizing s with
  | nil =>
      have hnone : counted maxTokens s.tokens ([] : List F) = [] := by
        cases maxTokens with
        | none => rfl
        | some m => exact List.take_nil
      refine ⟨s.numBatches, ?_, le_rfl, fun h => absurd rfl h⟩
      unfold evaluateBatches
      rw [List.flatten_nil, targetLosses, List.flatMap_nil, hnone, List.sum_nil, add_zero,
        List.length_nil, Nat.add_zero]
  | cons indices rest ih =>
      have hindices := hloader indices List.mem_cons_self
      have hbatch :
          (indices.mapM fun i : Nat => dataset.getItem i) = .ok (indices.map dataset.window) :=
        mapM_ok fun i hi => dataset.getItem_eq (hindices i hi)
      have hsplit : targetLosses tokenLoss row dataset (indices :: rest).flatten =
          targetLosses tokenLoss row dataset indices ++
            targetLosses tokenLoss row dataset rest.flatten := by
        unfold targetLosses
        rw [List.flatten_cons, List.flatMap_append]
      unfold evaluateBatches
      rw [hbatch, hsplit]
      by_cases hbudget : maxTokens.any fun m => m ≤ (s.tokens : Int)
      · refine ⟨s.numBatches, ?_, le_rfl, fun _ h => absurd hbudget h⟩
        rw [counted_spent hbudget, List.sum_nil, add_zero, List.length_nil, Nat.add_zero]
        show (match evaluateBatch tokenLoss model maxTokens (indices.map dataset.window) s with
          | none => Except.ok s
          | some s' => _) = _
        rw [evaluateBatch, if_pos hbudget]
      · obtain ⟨numBatches, hrest, hle, -⟩ := ih (fun c hc => hloader c (List.mem_cons_of_mem _ hc))
          ⟨s.lossSum + (counted maxTokens s.tokens
              (targetLosses tokenLoss row dataset indices)).sum,
            s.tokens + (counted maxTokens s.tokens
              (targetLosses tokenLoss row dataset indices)).length, s.numBatches + 1⟩
        refine ⟨numBatches, ?_, Nat.le_of_succ_le hle, fun _ _ => hle⟩
        show (match evaluateBatch tokenLoss model maxTokens (indices.map dataset.window) s with
          | none => Except.ok s
          | some s' => evaluateBatches tokenLoss model dataset maxTokens rest s') = _
        rw [evaluateBatch_eq tokenLoss maxTokens hmodel hindices hbudget]
        refine hrest.trans ?_
        rw [counted_append, List.sum_append, List.length_append, add_assoc, Nat.add_assoc]

-- ============================================================================
-- Any batch size
-- ============================================================================

omit [Field F] in
/-- The tokens of a dataset that a budget leaves are its first ones. -/
theorem counted_all {losses : List F}
    (h : losses.length = dataset.len * dataset.contextLength) :
    counted maxTokens 0 losses = losses.take (evaluatedTokens dataset maxTokens) ∧
      (counted maxTokens 0 losses).length = evaluatedTokens dataset maxTokens := by
  cases maxTokens with
  | none => exact ⟨(List.take_of_length_le h.le).symm, h⟩
  | some m =>
      have htake : counted (some m) 0 losses = losses.take m.toNat :=
        congrArg (fun n => losses.take (Int.toNat n)) (sub_zero m)
      rw [htake, evaluatedTokens, ← h, ← List.length_take]
      refine ⟨?_, rfl⟩
      rw [List.length_take, List.take_eq_take_min]

/-- The loss is the mean of the first tokens of the dataset, as many as the budget leaves. -/
theorem evaluate_loss_any_batching {model : Module L} (hmodel : RowWise (model.forward false) row)
    (mathExp : F → Option F) (dataset : NextTokenDataset) (hmax : ∀ m ∈ maxTokens, 0 < m) :
    (targetLosses tokenLoss row dataset (List.range dataset.len)).length =
        dataset.len * dataset.contextLength ∧
      0 < evaluatedTokens dataset maxTokens ∧
      ∃ loss perplexity,
        loss = ((targetLosses tokenLoss row dataset (List.range dataset.len)).take
          (evaluatedTokens dataset maxTokens)).sum / (evaluatedTokens dataset maxTokens : F) ∧
        ∀ batchSize : Int, 0 < batchSize → ∃ numBatches,
          evaluateLoss tokenLoss mathExp dataset batchSize maxTokens model =
            (.ok ⟨loss, perplexity, numBatches, evaluatedTokens dataset maxTokens⟩, model) := by
  have hrange : ∀ i ∈ List.range dataset.len, i < dataset.len := fun i => List.mem_range.mp
  have hall := length_targetLosses tokenLoss hmodel hrange
  rw [List.length_range] at hall
  have hpos : 0 < evaluatedTokens dataset maxTokens := by
    have hmul := Nat.mul_pos dataset.len_pos dataset.contextLength_pos
    cases maxTokens with
    | none => exact hmul
    | some m =>
        have hm := hmax m rfl
        exact Nat.lt_min.mpr ⟨by omega, hmul⟩
  obtain ⟨htake, hlength⟩ := counted_all maxTokens hall
  let loss := ((targetLosses tokenLoss row dataset (List.range dataset.len)).take
    (evaluatedTokens dataset maxTokens)).sum / (evaluatedTokens dataset maxTokens : F)
  refine ⟨hall, hpos, loss, match mathExp loss with | some p => ↑p | none => ⊤, rfl,
    fun batchSize hsize => ?_⟩
  have hloader : ∀ indices ∈ chunks batchSize.toNat (List.range dataset.len), ∀ i ∈ indices,
      i < dataset.len := fun indices hindices i hi => hrange i (mem_of_mem_chunks hindices hi)
  obtain ⟨numBatches, hrun, -, hbatches⟩ := evaluateBatches_eq tokenLoss maxTokens hmodel
    hloader ⟨0, 0, 0⟩
  rw [flatten_chunks, htake, zero_add, Nat.zero_add, ← htake, hlength, htake] at hrun
  have hfirst : ¬ maxTokens.any fun m => m ≤ ((0 : Nat) : Int) := by
    cases maxTokens with
    | none => exact Bool.false_ne_true
    | some m => exact fun h => absurd (of_decide_eq_true h) (hmax m rfl).not_ge
  have hne : List.range dataset.len ≠ [] :=
    List.ne_nil_of_length_pos (by rw [List.length_range]; exact dataset.len_pos)
  have hcount : numBatches ≠ 0 := (hbatches (chunks_ne_nil hne) hfirst).ne'
  refine ⟨numBatches, ?_⟩
  unfold evaluateLoss
  simp only [check, if_pos hsize, if_pos hmax]
  show andThen (ofExcept (evaluateBatches tokenLoss (model.forward false) dataset maxTokens
    (chunks batchSize.toNat (List.range dataset.len)) ⟨0, 0, 0⟩)) _ model = _
  rw [hrun]
  show andThen (if numBatches ≠ 0 then _ else _) _ model = _
  rw [if_pos hcount]
  rfl

/-- A model whose logits are the tokens. -/
def echo : Module ℚ := ⟨true, fun _ xs => xs.map fun x => x.map fun t : Int => (t : ℚ)⟩

/-- A dataset of two windows of two tokens, whatever the batches; the budget ends inside the
    second window. -/
theorem evaluate_loss_any_batching_three :
    ∃ perplexity, ∀ batchSize : Int, 0 < batchSize → ∃ numBatches,
      evaluateLoss (fun x y => (x * y : ℚ)) (fun _ => none)
          ⟨[1, 2, 3, 4], 2, by decide, by decide⟩ batchSize (some 3) echo =
        (.ok ⟨14 / 3, perplexity, numBatches, 3⟩, echo) := by
  have hecho : RowWise (echo.forward false) fun x => x.map fun t : Int => (t : ℚ) :=
    ⟨fun _ => rfl, fun x => x.length_map _⟩
  obtain ⟨-, -, loss, perplexity, hloss, hrun⟩ := evaluate_loss_any_batching
    (fun x y => (x * y : ℚ)) (some 3) hecho (fun _ => none)
    ⟨[1, 2, 3, 4], 2, by decide, by decide⟩ (by decide)
  have hvalue : loss = 14 / 3 := by
    have hthree : Int.toNat 3 = 3 := rfl
    rw [hloss]
    norm_num [targetLosses, evaluatedTokens, NextTokenDataset.len, NextTokenDataset.slice,
      List.range_succ, hthree]
  exact ⟨perplexity, hvalue ▸ hrun⟩

end PassionProjects.ForgeLM
