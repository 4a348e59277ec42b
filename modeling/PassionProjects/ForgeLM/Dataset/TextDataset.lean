/-
  PassionProjects.ForgeLM.Dataset.TextDataset

  Windows over a token array, and the infinite stream of batches of `dataset/text_dataset.py`.
  The datasets of the stream and the `DataLoader` are parameters.
-/

import PassionProjects.ForgeLM.Text
import PassionProjects.Lib.Generators

namespace PassionProjects.ForgeLM

/-- `NextTokenDataset`, as its constructor leaves it. -/
structure NextTokenDataset where
  tokens : List Int
  contextLength : Nat
  contextLength_pos : 0 < contextLength
  length_tokens : contextLength + 1 ≤ tokens.length

namespace NextTokenDataset

/-- `NextTokenDataset.__init__` -/
def init (tokens : List Int) (contextLength : Int) : Except Error NextTokenDataset :=
  if hpos : contextLength ≤ 0 then
    .error (.valueError ("context_length must be positive, got " ++ toString contextLength))
  else if hlen : (tokens.length : Int) < contextLength + 1 then
    .error (.valueError ("need at least context_length + 1 = " ++ toString (contextLength + 1) ++
      " tokens, got " ++ toString tokens.length))
  else
    .ok ⟨tokens, contextLength.toNat, by omega, by omega⟩

/-- `__len__` -/
def len (dataset : NextTokenDataset) : Nat := dataset.tokens.length - dataset.contextLength

/-- `tokens[start : start + L]` -/
def slice (dataset : NextTokenDataset) (start : Nat) : List Int :=
  (dataset.tokens.drop start).take dataset.contextLength

/-- `__getitem__` -/
def getItem (dataset : NextTokenDataset) (idx : Int) : Except Error (List Int × List Int) :=
  if idx < 0 ∨ (dataset.len : Int) ≤ idx then
    .error .indexError
  else
    .ok (dataset.slice idx.toNat, dataset.slice (idx.toNat + 1))

theorem len_pos (dataset : NextTokenDataset) : 0 < dataset.len := by
  have hlen := dataset.length_tokens
  unfold len
  omega

/-- Both sides of a window are whole. -/
theorem length_slice (dataset : NextTokenDataset) {start : Nat} (h : start ≤ dataset.len) :
    (dataset.slice start).length = dataset.contextLength := by
  have hlen := dataset.length_tokens
  unfold len at h
  unfold slice
  rw [List.length_take, List.length_drop]
  omega

theorem getItem_eq (dataset : NextTokenDataset) {i : Nat} (h : i < dataset.len) :
    dataset.getItem i = .ok (dataset.slice i, dataset.slice (i + 1)) := by
  unfold getItem
  rw [if_neg (by omega)]
  rfl

end NextTokenDataset

open Generators

/-- What a generator raises. -/
inductive IterError where
  | valueError (text : String)
  | stopIteration
  deriving DecidableEq

/-- Datasets, seeded generators of random numbers, and loaders with the batches of one
    epoch; a dataset without `__len__` has no length. -/
structure Loading (D G B : Type) where
  len : D → Option Nat
  manualSeed : Int → G
  dataLoader : (dataset : D) → (batchSize : Int) → (shuffle : Bool) → (generator : G) →
    (numWorkers : Int) → (dropLast : Bool) → List B

variable {D G B : Type}

/-- `make_dataloader` -/
def makeDataloader (env : Loading D G B) (dataset : D) (batchSize : Int) (shuffle : Bool)
    (seed : Int) (numWorkers : Int) (dropLast : Bool) : List B :=
  env.dataLoader dataset batchSize shuffle (env.manualSeed seed) numWorkers dropLast

/-- The arguments of `iter_batches`. -/
structure IterArgs (D : Type) where
  dataset : D
  batchSize : Int
  seed : Int
  skipBatches : Int

/-- Where `iter_batches` is; `loader` is what is left of the epoch. -/
inductive IterState (B : Type) where
  | created
  | running (epoch : Nat) (loader : List B) (batchesYielded : Nat)
  | finished

/-- The loader of an epoch. -/
def epochLoader (env : Loading D G B) (args : IterArgs D) (epoch : Nat) : List B :=
  makeDataloader env args.dataset args.batchSize true (args.seed + epoch) 0 true

/-- One turn of `iter_batches`: its checks, one batch, or the next epoch. -/
def iterBatchesTurn (env : Loading D G B) (args : IterArgs D) :
    IterState B → Turn IterError (IterState B) B
  | .created =>
      if args.batchSize ≤ 0 then
        .raise (.valueError ("batch_size must be positive, got " ++ toString args.batchSize))
          .finished
      else if args.skipBatches < 0 then
        .raise (.valueError ("skip_batches must be non-negative, got " ++
          toString args.skipBatches)) .finished
      else
        match env.len args.dataset with
        | none => .raise (.valueError ("iter_batches requires a Dataset that implements __len__ " ++
            "(needed to guard against a batch_size larger than the dataset -- see below)"))
            .finished
        | some datasetLen =>
            if (datasetLen : Int) < args.batchSize then
              .raise (.valueError ("dataset has " ++ toString datasetLen ++
                " example(s), fewer than batch_size=" ++ toString args.batchSize ++
                "; with drop_last=True this would never yield a full batch. Reduce " ++
                "micro_batch_size, increase context_length's window count, or use a " ++
                "larger dataset/val split.")) .finished
            else
              .pass (.running 0 (epochLoader env args 0) 0)
  | .running epoch [] batchesYielded =>
      .pass (.running (epoch + 1) (epochLoader env args (epoch + 1)) batchesYielded)
  | .running epoch (batch :: loader) batchesYielded =>
      if args.skipBatches ≤ batchesYielded then
        .yield batch (.running epoch loader (batchesYielded + 1))
      else
        .pass (.running epoch loader (batchesYielded + 1))
  | .finished => .raise .stopIteration .finished

-- ============================================================================
-- The stream
-- ============================================================================

/-- The dataset has a full batch, and so has every epoch: as many as the length allows. -/
structure Streaming (env : Loading D G B) (args : IterArgs D) (perEpoch : Nat) : Prop where
  batchSize_pos : 0 < args.batchSize
  enough : ∃ datasetLen : Nat, env.len args.dataset = some datasetLen ∧
    args.batchSize ≤ datasetLen ∧ perEpoch = datasetLen / args.batchSize.toNat
  loader_length : ∀ epoch, (epochLoader env args epoch).length = perEpoch

section Stream

variable {env : Loading D G B} {args : IterArgs D} {perEpoch : Nat}

theorem Streaming.perEpoch_pos (h : Streaming env args perEpoch) : 0 < perEpoch := by
  obtain ⟨datasetLen, -, hle, rfl⟩ := h.enough
  have hpos := h.batchSize_pos
  exact Nat.div_pos (by omega) (by omega)

/-- The batch at a position of the stream. -/
def batchAt (env : Loading D G B) (args : IterArgs D) (perEpoch n : Nat) : Option B :=
  (epochLoader env args (n / perEpoch))[n % perEpoch]?

theorem Streaming.exists_batch (h : Streaming env args perEpoch) (n : Nat) :
    ∃ b, batchAt env args perEpoch n = some b := by
  have hlt : n % perEpoch < (epochLoader env args (n / perEpoch)).length := by
    rw [h.loader_length]
    exact Nat.mod_lt n h.perEpoch_pos
  exact ⟨_, List.getElem?_eq_getElem hlt⟩

/-- After `n` batches, skipped or not. -/
def Reached (env : Loading D G B) (args : IterArgs D) (perEpoch : Nat) (s : IterState B)
    (n : Nat) : Prop :=
  ∃ epoch k, k ≤ perEpoch ∧ n = epoch * perEpoch + k ∧
    s = .running epoch ((epochLoader env args epoch).drop k) n

/-- The next batch is in an epoch: the one before, or the next one. -/
theorem Reached.loaded (hargs : Streaming env args perEpoch) {s : IterState B} {n : Nat}
    (h : Reached env args perEpoch s n) :
    ∃ b epoch loader, batchAt env args perEpoch n = some b ∧
      Passes (iterBatchesTurn env args) s (.running epoch (b :: loader) n) ∧
        Reached env args perEpoch (.running epoch loader (n + 1)) (n + 1) := by
  have hper := hargs.perEpoch_pos
  -- a place inside of an epoch
  have hinside : ∀ epoch k, k < perEpoch → n = epoch * perEpoch + k →
      ∃ b, batchAt env args perEpoch n = some b ∧
        (epochLoader env args epoch).drop k = b :: (epochLoader env args epoch).drop (k + 1) := by
    rintro epoch k hk rfl
    have hlt : k < (epochLoader env args epoch).length := by rwa [hargs.loader_length]
    refine ⟨(epochLoader env args epoch)[k], ?_, List.drop_eq_getElem_cons hlt⟩
    unfold batchAt
    rw [Nat.mul_comm epoch, Nat.mul_add_div hper, Nat.div_eq_of_lt hk, Nat.add_zero,
      Nat.mul_add_mod, Nat.mod_eq_of_lt hk]
    exact List.getElem?_eq_getElem hlt
  obtain ⟨epoch, k, hk, hn, rfl⟩ := h
  rcases Nat.lt_or_eq_of_le hk with hlt | rfl
  · obtain ⟨b, hb, hdrop⟩ := hinside epoch k hlt hn
    exact ⟨b, epoch, _, hb, hdrop ▸ .refl, epoch, k + 1, hlt, by omega, rfl⟩
  · have hnext : n = (epoch + 1) * k + 0 := by rw [hn, Nat.succ_mul, Nat.add_zero]
    obtain ⟨b, hb, hdrop⟩ := hinside (epoch + 1) 0 hper hnext
    have hend : (epochLoader env args epoch).drop k = [] :=
      List.drop_eq_nil_of_le (Nat.le_of_eq (hargs.loader_length epoch))
    refine ⟨b, epoch + 1, (epochLoader env args (epoch + 1)).drop 1, hb, ?_,
      epoch + 1, 1, hper, by omega, rfl⟩
    rw [hend]
    refine .single ?_
    rw [← hdrop]
    rfl

/-- Once the skipped batches are behind, each batch is yielded. -/
theorem Reached.yields (hargs : Streaming env args perEpoch) {s : IterState B} {n : Nat}
    (h : Reached env args perEpoch s n) (hskip : args.skipBatches ≤ n) :
    ∃ b s', batchAt env args perEpoch n = some b ∧ Yields (iterBatchesTurn env args) s b s' ∧
      Reached env args perEpoch s' (n + 1) := by
  obtain ⟨b, epoch, loader, hb, hpasses, hreached⟩ := h.loaded hargs
  refine ⟨b, _, hb, hpasses.yields (yields_of_turn ?_), hreached⟩
  unfold iterBatchesTurn
  exact if_pos hskip

/-- Batches are passed over until as many are as are to be skipped. -/
theorem Reached.passes (hargs : Streaming env args perEpoch) {s : IterState B} {n : Nat}
    (h : Reached env args perEpoch s n) (hskip : (n : Int) ≤ args.skipBatches) :
    ∃ s', Passes (iterBatchesTurn env args) s s' ∧
      Reached env args perEpoch s' args.skipBatches.toNat := by
  induction hleft : args.skipBatches.toNat - n generalizing s n with
  | zero =>
      have hn : args.skipBatches.toNat = n := by omega
      exact ⟨s, .refl, hn ▸ h⟩
  | succ left ih =>
      obtain ⟨b, epoch, loader, -, hpasses, hreached⟩ := h.loaded hargs
      obtain ⟨s', hrest, hs'⟩ := ih hreached (by omega) (by omega)
      refine ⟨s', (hpasses.tail ?_).trans hrest, hs'⟩
      unfold iterBatchesTurn
      exact if_neg (by omega)

theorem created_passes (hargs : Streaming env args perEpoch) (hskip : 0 ≤ args.skipBatches) :
    ∃ s, Passes (iterBatchesTurn env args) .created s ∧
      Reached env args perEpoch s args.skipBatches.toNat := by
  obtain ⟨datasetLen, hlen, hle, -⟩ := hargs.enough
  have hstart : iterBatchesTurn env args .created =
      .pass (.running 0 (epochLoader env args 0) 0) := by
    unfold iterBatchesTurn
    rw [if_neg (Int.not_le.mpr hargs.batchSize_pos), if_neg (Int.not_lt.mpr hskip), hlen]
    exact if_neg (Int.not_lt.mpr hle)
  have hzero : Reached env args perEpoch (.running 0 (epochLoader env args 0) 0) 0 :=
    ⟨0, 0, Nat.zero_le _, by omega, rfl⟩
  obtain ⟨s, hpasses, hs⟩ := hzero.passes hargs hskip
  exact ⟨s, .head hstart hpasses, hs⟩

/-- The batches of all epochs, in order. -/
theorem exists_batches (hargs : Streaming env args perEpoch) :
    ∃ f : Nat → B, ∀ n, batchAt env args perEpoch n = some (f n) := by
  choose f hf using hargs.exists_batch
  exact ⟨f, hf⟩

/-- Skipping batches is dropping them from the stream. -/
theorem iterBatches_streams (hargs : Streaming env args perEpoch) (hskip : 0 ≤ args.skipBatches)
    {f : Nat → B} (hf : ∀ n, batchAt env args perEpoch n = some (f n)) :
    Streams (iterBatchesTurn env args) .created fun i => f (args.skipBatches.toNat + i) := by
  obtain ⟨s, hpasses, hs⟩ := created_passes hargs hskip
  have hstream : Streams (iterBatchesTurn env args) s
      fun i => f (args.skipBatches.toNat + i) := by
    refine streams_of_invariant (f := f)
      (I := fun s n => Reached env args perEpoch s n ∧ args.skipBatches ≤ n) ⟨hs, by omega⟩ ?_
    intro s n h
    obtain ⟨b, s', hb, hyields, hs'⟩ := h.1.yields hargs h.2
    obtain rfl : b = f n := Option.some.inj (hb.symm.trans (hf n))
    exact ⟨s', hyields, hs', by omega⟩
  exact hpasses.streams hstream

end Stream

end PassionProjects.ForgeLM
