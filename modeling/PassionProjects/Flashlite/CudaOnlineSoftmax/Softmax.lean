/-
  PassionProjects.Flashlite.CudaOnlineSoftmax.Softmax

  The row kernel turns every row of the scores into its softmax, under every schedule of its
  threads; and the statistics of a row do not depend on how it is cut into tiles.
-/

import PassionProjects.Flashlite.CudaOnlineSoftmax.Rows

namespace PassionProjects.Flashlite

open ExpField Kernels Staged

variable {F : Type} [ExpField F]

namespace Staged

/-- The scores have so many elements, and a block so many bytes of shared memory. -/
def InScores (elements sharedBytes : Nat) : StagedCell → Prop
  | .scores n => n < elements
  | .smem _ n => (n + 1) * 4 ≤ sharedBytes
  | _ => False

def IsScore (elements : Nat) : StagedCell → Prop
  | .scores n => n < elements
  | _ => False

/-- Each row of `S` scores with its softmax in its place. -/
def softmaxRows (S : Nat) (μ : Memory F) : Memory F
  | .scores n => ↑(softmax S (fun j => μ (.scores (n / S * S + j))) (n % S))
  | x => μ x

/-- Every row has a finite score, and its finite scores are above the sentinel. -/
structure RowsAbove (rowCount S : Nat) (μ : Memory F) : Prop where
  finite : ∀ r < rowCount, ∃ j < S, μ (.scores (r * S + j)) ≠ ⊥
  above : ∀ r < rowCount, ∀ j < S, ∀ a : F, μ (.scores (r * S + j)) = a → -fltMax < a

/-- The scores of a row are above the sentinel. -/
theorem RowsAbove.row {rowCount S r : Nat} {μ : Memory F} (hμ : RowsAbove rowCount S μ)
    (hr : r < rowCount) :
    OnlineRows.Above ((List.range S).map fun j => μ (.scores (r * S + j))) := by
  intro a ha
  obtain ⟨j, hj, heq⟩ := List.mem_map.mp ha
  exact hμ.above r hr j (List.mem_range.mp hj) a heq

theorem row_split {r r' S j j' : Nat} (hj : j < S) (hj' : j' < S)
    (h : r * S + j = r' * S + j') : r = r' ∧ j = j' := by
  have hpos := Nat.zero_lt_of_lt hj
  have hdiv := congrArg (· / S) h
  have hmod := congrArg (· % S) h
  simp only [Nat.mul_comm _ S, Nat.mul_add_div hpos, Nat.div_eq_of_lt hj, Nat.div_eq_of_lt hj',
    Nat.add_zero] at hdiv
  simp only [Nat.mul_comm _ S, Nat.mul_add_mod, Nat.mod_eq_of_lt hj, Nat.mod_eq_of_lt hj'] at hmod
  exact ⟨hdiv, hmod⟩

theorem row_lt {r rowCount S j : Nat} (hr : r < rowCount) (hj : j < S) :
    r * S + j < rowCount * S := by
  have hle : (r + 1) * S ≤ rowCount * S := Nat.mul_le_mul_right S hr
  rw [Nat.succ_mul] at hle
  omega

/-- Threads along one dimension. -/
theorem numbered_line (n : Nat) : OnlineRows.Numbered (Dim3.at (d := ⟨n, 1, 1⟩)) n where
  inj _ _ h := Prod.ext (Fin.ext h) (Subsingleton.elim _ _)
  lt i := i.1.isLt
  surj m hm := ⟨(⟨m, hm⟩, 0, 0), rfl⟩

end Staged

namespace OnlineRows

variable {T : Type} {idx : T → Dim3} {S k : Nat} {blockIdx : Dim3} {xs : Nat → WithBot F}

/-- What a block works on. -/
def BlockCell (S blockDim : Nat) (blockIdx : Dim3) (x : StagedCell) : Prop :=
  (∃ n < 2 * blockDim, x = .smem blockIdx n) ∨ ∃ j < S, x = row S blockIdx j

theorem slot_cell {n : Nat} {x : StagedCell} (hn : n < 2 ^ k)
    (hx : x ∈ (slots F (2 ^ k) blockIdx).cells n) : BlockCell S (2 ^ k) blockIdx x := by
  rcases hx with rfl | rfl
  · exact .inl ⟨n, by omega, rfl⟩
  · exact .inl ⟨2 ^ k + n, by omega, rfl⟩

theorem reduce_has (hidx : Numbered idx (2 ^ k)) {f : Footprint T StagedCell (WithBot F)}
    (hf : f ∈ reducePhases idx S k blockIdx xs) {i : T} {a : Access StagedCell (WithBot F)}
    (ha : f.Has i a) : BlockCell S (2 ^ k) blockIdx a.cell ∧
      ∀ x v, a = .write x v → ∃ n, x = .smem blockIdx n := by
  have hshared : ∀ {n x}, x ∈ (slots F (2 ^ k) blockIdx).cells n → ∃ m, x = .smem blockIdx m := by
    rintro n x (rfl | rfl)
    · exact ⟨n, rfl⟩
    · exact ⟨2 ^ k + n, rfl⟩
  rcases List.mem_cons.mp hf with rfl | hf
  · rcases ha with ⟨x, ⟨j, hj, rfl⟩, rfl⟩ | ⟨w, hw, rfl⟩
    · exact ⟨.inr ⟨j, hj, rfl⟩, fun x v h => nomatch h⟩
    · have hcell := (slots F (2 ^ k) blockIdx).put_cells hw
      refine ⟨slot_cell (hidx.lt i) hcell, fun x v h => ?_⟩
      exact (Access.write.inj h).1 ▸ hshared hcell
  · rcases List.mem_append.mp hf with hf | hf
    · obtain ⟨n, hn, hcell⟩ := Slots.phases_has hf ha
      exact ⟨slot_cell hn hcell, fun x v h => by rw [h] at hcell; exact hshared hcell⟩
    · rw [List.mem_singleton.mp hf] at ha
      rcases ha with ⟨x, hx, rfl⟩ | ⟨w, hw, rfl⟩
      · have hx : x ∈ (slots F (2 ^ k) blockIdx).cells 0 := hx
        exact ⟨slot_cell (Nat.two_pow_pos k) hx, fun x v h => nomatch h⟩
      · exact absurd hw List.not_mem_nil

theorem row_has (hidx : Numbered idx (2 ^ k)) {f : Footprint T StagedCell (WithBot F)}
    (hf : f ∈ rowPhases idx S k blockIdx xs) {i : T} {a : Access StagedCell (WithBot F)}
    (ha : f.Has i a) : BlockCell S (2 ^ k) blockIdx a.cell := by
  rcases List.mem_append.mp hf with hf | hf
  · exact (reduce_has hidx hf ha).1
  · rw [List.mem_singleton.mp hf] at ha
    rcases ha with ⟨x, ⟨j, hj, rfl⟩, rfl⟩ | ⟨w, hw, rfl⟩
    · exact .inr ⟨j, ((mem_strided (Nat.two_pow_pos k) (hidx.lt i)).mp hj).1, rfl⟩
    · obtain ⟨j, hj, rfl⟩ := mem_normalize_writes.mp hw
      exact .inr ⟨j, ((mem_strided (Nat.two_pow_pos k) (hidx.lt i)).mp hj).1, rfl⟩

/-- Each score of the row is written once. -/
theorem countP_row [Fintype T] (hidx : Numbered idx (2 ^ k)) {j : Nat} (hj : j < S) :
    (blockWrites (rowPhases idx S k blockIdx xs)).countP (·.1 = row S blockIdx j) = 1 := by
  obtain ⟨i, hi⟩ := hidx.surj (j % 2 ^ k) (Nat.mod_lt j (Nat.two_pow_pos k))
  have hmem : j ∈ strided (idx i).x S (2 ^ k) :=
    (mem_strided (Nat.two_pow_pos k) (hidx.lt i)).mpr ⟨hj, hi.symm⟩
  have hreduce : ¬ Writes (reducePhases idx S k blockIdx xs) (row S blockIdx j) := by
    rintro ⟨f, hf, i, w, hw, heq⟩
    obtain ⟨n, hn⟩ := (reduce_has hidx hf (.inr ⟨w, hw, rfl⟩)).2 w.1 w.2 rfl
    exact StagedCell.noConfusion (heq.symm.trans hn)
  rw [rowPhases, countP_blockWrites_concat hreduce, countP_allWrites (i := i)]
  · rw [normalizeFootprint, countP_flatMap (nodup_strided (Nat.two_pow_pos k)) hmem]
    · simp
    · intro j' hne w hw
      rw [List.mem_singleton.mp hw]
      exact decide_eq_false fun heq => hne (row_inj heq)
  · intro i' hne w hw heq
    obtain ⟨j', hj', rfl⟩ := mem_normalize_writes.mp hw
    exact hne (strided_thread hidx (row_inj heq ▸ hj') hmem)

theorem blocks_apart {rowCount : Nat} {b b' : (⟨rowCount, 1, 1⟩ : Dim3).Index} (hne : b ≠ b')
    {n : Nat} {x : StagedCell} (hx : BlockCell S n (.at b) x) : ¬ BlockCell S n (.at b') x := by
  intro hx'
  rcases hx with ⟨m, -, rfl⟩ | ⟨j, hj, rfl⟩ <;> rcases hx' with ⟨m', -, h⟩ | ⟨j', hj', h⟩
  · exact hne (Dim3.at_injective (StagedCell.smem.inj h).1)
  · exact StagedCell.noConfusion h
  · exact StagedCell.noConfusion h
  · have hrow := (row_split hj hj' (StagedCell.scores.inj h)).1
    exact hne ((numbered_line rowCount).inj hrow)

/-- The phases of the blocks of the launch. -/
def launchPhases (rowCount S k : Nat) (μ : Memory F) (b : (⟨rowCount, 1, 1⟩ : Dim3).Index) :
    List (Footprint (⟨2 ^ k, 1, 1⟩ : Dim3).Index StagedCell (WithBot F)) :=
  rowPhases Dim3.at S k (.at b) fun j => μ (row S (.at b) j)

theorem phase_cell {rowCount : Nat} {μ : Memory F} {b : (⟨rowCount, 1, 1⟩ : Dim3).Index}
    {x : StagedCell}
    (hx : Reads (launchPhases rowCount S k μ b) x ∨ Writes (launchPhases rowCount S k μ b) x) :
    BlockCell S (2 ^ k) (.at b) x := by
  rcases hx with ⟨f, hf, i, hx⟩ | ⟨f, hf, i, w, hw, rfl⟩
  · exact row_has (numbered_line (2 ^ k)) hf (.inl ⟨x, hx, rfl⟩)
  · exact row_has (numbered_line (2 ^ k)) hf (.inr ⟨w, hw, rfl⟩)

/-- The whole grid, with what the kernel makes of each row. -/
theorem grid_pairs (rowCount : Nat) {μ μ₀ : Memory F} (hμ₀ : ∀ x, x.IsGlobal → μ₀ x = μ x) :
    ∃ μ', GridPerforms μ₀ (fun (b : (⟨rowCount, 1, 1⟩ : Dim3).Index)
        (i : (⟨2 ^ k, 1, 1⟩ : Dim3).Index) => onlineSoftmaxRowsKernel S (2 ^ k) (.at b) (.at i))
      (launchPhases rowCount S k μ) μ' ∧
        ∀ (b : (⟨rowCount, 1, 1⟩ : Dim3).Index), ∀ j < S, μ' b (row S (.at b) j) =
          ↑(expSub (μ (row S (.at b) j)) (rowPair S k fun j => μ (row S (.at b) j)).1 /
            (rowPair S k fun j => μ (row S (.at b) j)).2) := by
  have hblock := fun b : (⟨rowCount, 1, 1⟩ : Dim3).Index =>
    block_performs (.at b) (fun j => μ (row S (.at b) j))
      (fun j _ => hμ₀ (row S (.at b) j) trivial) (numbered_line (2 ^ k))
  choose μ' hperforms hrow using hblock
  refine ⟨μ', ⟨hperforms, fun b b' hne x hx => ?_⟩, hrow⟩
  have hapart := blocks_apart hne (phase_cell (.inr hx))
  exact ⟨fun h => hapart (phase_cell (.inl h)), fun h => hapart (phase_cell (.inr h))⟩

/-- The whole grid, where the rows become their softmax. -/
theorem grid_performs {rowCount : Nat} {μ : Memory F} (hμ : RowsAbove rowCount S μ)
    {μ₀ : Memory F} (hμ₀ : ∀ x, x.IsGlobal → μ₀ x = μ x) :
    ∃ μ', GridPerforms μ₀ (fun (b : (⟨rowCount, 1, 1⟩ : Dim3).Index)
        (i : (⟨2 ^ k, 1, 1⟩ : Dim3).Index) => onlineSoftmaxRowsKernel S (2 ^ k) (.at b) (.at i))
      (launchPhases rowCount S k μ) μ' ∧
        ∀ b x, IsScore (rowCount * S) x → Writes (launchPhases rowCount S k μ b) x →
          μ' b x = softmaxRows S μ x := by
  obtain ⟨μ', hperforms, hrow⟩ := grid_pairs _ (S := S) (k := k) hμ₀
  refine ⟨μ', hperforms, fun b x hscore hx => ?_⟩
  rcases phase_cell (.inr hx) with ⟨n, -, rfl⟩ | ⟨j, hj, rfl⟩
  · exact absurd hscore id
  · have hr : b.1.val < rowCount := b.1.isLt
    obtain ⟨j₀, hj₀, hne⟩ := hμ.finite b.1 hr
    have habove : Above ((List.range S).map fun j => μ (row S (.at b) j)) := hμ.row hr
    have hdiv : ((Dim3.at b).x * S + j) / S = (Dim3.at b).x := by
      rw [Nat.mul_comm, Nat.mul_add_div (Nat.zero_lt_of_lt hj), Nat.div_eq_of_lt hj, Nat.add_zero]
    have hmod : ((Dim3.at b).x * S + j) % S = j := by
      rw [Nat.mul_comm, Nat.mul_add_mod, Nat.mod_eq_of_lt hj]
    refine (hrow b j hj).trans ?_
    rw [rowPair_softmax habove ⟨j₀, hj₀, hne⟩]
    show _ = ((softmax S _ (((Dim3.at b).x * S + j) % S) : F) : WithBot F)
    rw [hdiv, hmod]
    rfl

end OnlineRows

open OnlineRows

/-- The launch computes the softmax of every row. -/
theorem onlineSoftmaxRows_computes {rowCount S : Nat} {μ : Memory F}
    (hμ : RowsAbove rowCount S μ) :
    (onlineSoftmaxRowsLaunch rowCount S).Computes StagedCell.IsGlobal
      (InScores (rowCount * S) (onlineSoftmaxRowsLaunch (F := F) rowCount S).sharedBytes)
      (IsScore (rowCount * S)) μ (softmaxRows S μ) := by
  have : Nonempty (onlineSoftmaxRowsLaunch (F := F) rowCount S).block.Index :=
    inferInstanceAs (Nonempty (Fin 256 × Fin 1 × Fin 1))
  refine .of_grid (launchPhases rowCount S 8 μ) (fun μ₀ hμ₀ => grid_performs (k := 8) hμ hμ₀)
    (fun b f hf i a ha => ?_) (fun x hx => ?_) fun b x hx hglobal => ?_
  · rcases row_has (numbered_line (2 ^ 8)) hf ha with ⟨n, hn, h⟩ | ⟨j, hj, h⟩
    · rw [h]
      show (n + 1) * 4 ≤ 2 * 256 * 4
      omega
    · rw [h]
      exact row_lt b.1.isLt hj
  · cases x with
    | scores n =>
        have hS : 0 < S := Nat.pos_of_ne_zero fun h => absurd hx (by simp [IsScore, h])
        have hr : n / S < rowCount := Nat.div_lt_of_lt_mul (Nat.mul_comm rowCount S ▸ hx)
        let b : (⟨rowCount, 1, 1⟩ : Dim3).Index := (⟨n / S, hr⟩, 0, 0)
        have hcount : (blockWrites (launchPhases rowCount S 8 μ b)).countP
            (·.1 = row S (.at b) (n % S)) = 1 :=
          countP_row (numbered_line (2 ^ 8)) (Nat.mod_lt n hS)
        have hindex : row S (.at b) (n % S) = .scores n :=
          congrArg StagedCell.scores (Nat.div_add_mod' n S)
        exact ⟨b, hindex ▸ hcount⟩
    | q n => exact absurd hx id
    | k n => exact absurd hx id
    | v n => exact absurd hx id
    | out n => exact absurd hx id
    | smem b n => exact absurd hx id
  · rcases phase_cell (.inr hx) with ⟨n, -, rfl⟩ | ⟨j, hj, rfl⟩
    · exact absurd hglobal id
    · exact row_lt b.1.isLt hj

-- ============================================================================
-- Rows at the sentinel
-- ============================================================================

/-- A run that ends leaves in each row what the kernel's pair makes of it. -/
theorem onlineSoftmaxRows_leaves (rowCount S : Nat) (μ : Memory F) :
    ∃ tr c, (onlineSoftmaxRowsLaunch rowCount S).Launched StagedCell.IsGlobal μ tr c ∧
      c.Finished ∧ ∀ r < rowCount, ∀ j < S, c.state (.scores (r * S + j)) =
        ↑(expSub (μ (.scores (r * S + j))) (rowPair S 8 fun j => μ (.scores (r * S + j))).1 /
          (rowPair S 8 fun j => μ (.scores (r * S + j))).2) := by
  obtain ⟨μ', hperforms, hrow⟩ :=
    grid_pairs rowCount (S := S) (k := 8) (μ := μ) fun _ _ => rfl
  obtain ⟨tr, c, hrun, hc⟩ := hperforms.finishes
  refine ⟨tr, c, ⟨μ, fun _ _ => rfl, hrun⟩, hc, fun r hr j hj => ?_⟩
  let b : (⟨rowCount, 1, 1⟩ : Dim3).Index := (⟨r, hr⟩, 0, 0)
  have hcount : (blockWrites (launchPhases rowCount S 8 μ b)).countP
      (·.1 = row S (.at b) j) = 1 := countP_row (numbered_line (2 ^ 8)) hj
  obtain ⟨w, hw, heq⟩ := List.countP_pos_iff.mp (hcount ▸ Nat.one_pos)
  obtain ⟨f, hf, i, hw⟩ := mem_blockWrites.mp hw
  have hwritten : Writes (launchPhases rowCount S 8 μ b) (row S (.at b) j) :=
    ⟨f, hf, i, w, hw, of_decide_eq_true heq⟩
  exact ((hperforms.state hrun hc).1 b _ hwritten).trans (hrow b j hj)

/-- A row whose only score is the sentinel: the kernel takes it for an empty row. -/
theorem onlineSoftmaxRows_sentinel :
    onlineSoftmaxStats [((-fltMax : ℝ) : WithBot ℝ)] 1 = .ok (↑(-fltMax : ℝ), 1) ∧
      rowPair 1 8 (fun _ => ((-fltMax : ℝ) : WithBot ℝ)) = (-fltMax, 0) ∧
      ¬ (onlineSoftmaxRowsLaunch 1 1).Computes StagedCell.IsGlobal
        (InScores 1 (onlineSoftmaxRowsLaunch (F := ℝ) 1 1).sharedBytes) (IsScore 1)
        (fun _ => ((-fltMax : ℝ) : WithBot ℝ))
        (softmaxRows 1 fun _ => ((-fltMax : ℝ) : WithBot ℝ)) := by
  have hpair : rowPair 1 8 (fun _ => ((-fltMax : ℝ) : WithBot ℝ)) = (-fltMax, 0) :=
    rowPair_sentinel 7 fun _ _ => le_rfl
  refine ⟨?_, hpair, fun hcomputes => ?_⟩
  · rw [onlineSoftmaxStats_eq (List.cons_ne_nil _ _) Int.one_pos, ← tileStats_eq]
    simp [tileStats, maxOf, exp_zero]
  · obtain ⟨tr, c, hlaunched, hc, hleft⟩ :=
      onlineSoftmaxRows_leaves 1 1 fun _ => ((-fltMax : ℝ) : WithBot ℝ)
    have hzero := hleft 0 Nat.one_pos 0 Nat.one_pos
    have hone := hcomputes.output tr c hlaunched hc (.scores 0) Nat.one_pos
    rw [hpair, div_zero] at hzero
    have hsoftmax : softmaxRows 1 (fun _ => ((-fltMax : ℝ) : WithBot ℝ)) (.scores 0) = 1 := by
      simp [softmaxRows, softmax, exp_ne_zero]
    exact zero_ne_one ((hzero.symm.trans hone).trans hsoftmax)

-- ============================================================================
-- Any tiling
-- ============================================================================

/-- The tiles of a row do not matter to what is computed from it. -/
theorem online_softmax_any_tiling :
    (∀ scores : List (WithBot F), (∃ a : F, ↑a ∈ scores) →
      ∃ m : F, ((m : WithBot F) ∈ scores ∧ ∀ x ∈ scores, x ≤ m) ∧
        (∀ tileSize : Int, 0 < tileSize → onlineSoftmaxStats scores tileSize =
          .ok (↑m, (scores.map fun x => expSub x m).sum)) ∧
        (∀ g : Grouping F, g.scores.Perm scores →
          g.stats = (↑m, (scores.map fun x => expSub x m).sum)) ∧
        ∀ (d : Nat) (vRows : List (Fin d → F)), vRows.length = scores.length →
          ∀ tileSize : Int, 0 < tileSize → onlineSoftmaxAttentionRow scores vRows tileSize =
            .ok (weighted (softmaxRow scores) vRows)) ∧
    (∀ p q : WithBot F × F, Producible (combine p q) ∧ combine p q = combine q p) ∧
    (∀ tile : List (WithBot F), Producible (tileStats tile)) ∧
    (∀ p q r : WithBot F × F, Producible p → Producible q → Producible r →
      combine (combine p q) r = combine p (combine q r)) ∧
    (∀ p : WithBot F × F, Producible p → combine (⊥, 0) p = p ∧ combine p (⊥, 0) = p) ∧
    ∀ (rowCount S : Nat) (μ : Memory F), RowsAbove rowCount S μ →
      (∀ r < rowCount, onlineSoftmaxStats
          ((List.range S).map fun j => μ (.scores (r * S + j))) 1 =
        .ok (↑(rowPair S 8 fun j => μ (.scores (r * S + j))).1,
          (rowPair S 8 fun j => μ (.scores (r * S + j))).2)) ∧
      (onlineSoftmaxRowsLaunch rowCount S).Computes StagedCell.IsGlobal
        (InScores (rowCount * S) (onlineSoftmaxRowsLaunch (F := F) rowCount S).sharedBytes)
        (IsScore (rowCount * S)) μ (softmaxRows S μ) := by
  refine ⟨fun scores hfin => ?_, fun p q => ⟨producible_combine p q, combine_comm p q⟩,
    producible_tileStats, fun p q r => combine_assoc, fun p hp => ⟨combine_empty hp, ?_⟩,
    fun rowCount S μ hμ => ⟨fun r hr => ?_, onlineSoftmaxRows_computes hμ⟩⟩
  · obtain ⟨m, hmax, hstats⟩ := statsOf_eq hfin
    refine ⟨m, hmax, fun tileSize ht => ?_, fun g hg => ?_, fun d vRows hlen tileSize ht => ?_⟩
    · rw [onlineSoftmaxStats_eq (List.ne_nil_of_mem hfin.choose_spec) ht, hstats]
    · rw [g.stats_eq, statsOf_perm hg, hstats]
    · exact onlineSoftmaxAttentionRow_eq hfin hlen ht
  · rw [combine_comm]
    exact combine_empty hp
  · obtain ⟨j₀, hj₀, hne⟩ := hμ.finite r hr
    rw [onlineSoftmaxStats_eq ?_ Int.one_pos, rowPair_stats (hμ.row hr) ⟨j₀, hj₀, hne⟩]
    exact List.ne_nil_of_mem (List.mem_map_of_mem (List.mem_range.mpr hj₀))

/-- A masked score and a zero, in tiles of one and of two scores and by the kernel. -/
theorem online_softmax_any_tiling_masked :
    onlineSoftmaxStats [⊥, ((0 : ℝ) : WithBot ℝ)] 1 = .ok (↑(0 : ℝ), 1) ∧
      onlineSoftmaxStats [⊥, ((0 : ℝ) : WithBot ℝ)] 2 = .ok (↑(0 : ℝ), 1) ∧
      combine (combine (⊥, (0 : ℝ)) (↑(0 : ℝ), 1)) (↑(0 : ℝ), 1) =
        combine (⊥, 0) (combine (↑(0 : ℝ), 1) (↑(0 : ℝ), 1)) ∧
      combine (⊥, 0) (((0 : ℝ) : WithBot ℝ), (1 : ℝ)) = (↑(0 : ℝ), 1) ∧
      (onlineSoftmaxRowsLaunch 1 2).Computes StagedCell.IsGlobal
        (InScores (1 * 2) (onlineSoftmaxRowsLaunch (F := ℝ) 1 2).sharedBytes) (IsScore (1 * 2))
        (fun x => if x = .scores 0 then ⊥ else ((0 : ℝ) : WithBot ℝ))
        (softmaxRows 2 fun x => if x = .scores 0 then ⊥ else ((0 : ℝ) : WithBot ℝ)) := by
  obtain ⟨hrow, -, -, hassoc, hempty, hkernel⟩ := online_softmax_any_tiling (F := ℝ)
  have hfin : ∃ a : ℝ, (a : WithBot ℝ) ∈ [⊥, ((0 : ℝ) : WithBot ℝ)] := ⟨0, by simp⟩
  have hzero : Producible (((0 : ℝ) : WithBot ℝ), (1 : ℝ)) := fun h => absurd h WithBot.coe_ne_bot
  obtain ⟨m, ⟨hmem, -⟩, hstats, -, -⟩ := hrow _ hfin
  have hm : m = 0 := by simpa using hmem
  subst hm
  have hsum : (List.map (fun x => expSub x ((0 : ℝ) : WithBot ℝ))
      [⊥, ((0 : ℝ) : WithBot ℝ)]).sum = 1 := by
    simp only [List.map_cons, List.map_nil, List.sum_cons, List.sum_nil, expSub_bot, expSub_coe,
      sub_self, exp_zero, zero_add, add_zero]
  rw [hsum] at hstats
  refine ⟨hstats 1 Int.one_pos, hstats 2 (by omega), hassoc _ _ _ (fun _ => rfl) hzero hzero,
    (hempty _ hzero).1, (hkernel 1 2 _ ⟨fun r hr => ⟨1, Nat.one_lt_two, ?_⟩, ?_⟩).2⟩
  · obtain rfl : r = 0 := Nat.lt_one_iff.mp hr
    simp
  · intro r hr j hj a ha
    have hsentinel : -fltMax < (0 : ℝ) := by
      unfold fltMax
      norm_num
    split at ha
    · exact absurd ha.symm WithBot.coe_ne_bot
    · exact WithBot.coe_injective ha ▸ hsentinel

end PassionProjects.Flashlite
