/-
  PassionProjects.Flashlite.CudaFused.Attention

  The fused kernel computes attention, under every schedule of its threads, for every shape
  whose grid the hardware takes and the host computes without overflow, and for no other.
-/

import PassionProjects.Flashlite.CudaFused.Blocks

namespace PassionProjects.Flashlite

open ExpField Kernels FusedAttention

variable {F : Type} [ExpField F]

/-- The launch touches its buffers only, ends, writes every element of the output once, and
    leaves there what the reference computes. -/
structure Computes (l : Launch Cell F) (batch heads seqLen headDim : Nat) (causal : Bool)
    (q k v : Nat → F) (μ : Cell → F) : Prop where
  inBuffer : ∀ before b i a x after c,
    Launched Cell.IsGlobal l μ (before ++ .act b i a x :: after) c →
      a.cell.InBuffer (batch * heads * seqLen * headDim) l.sharedBytes
  progress : ∀ tr c, Launched Cell.IsGlobal l μ tr c →
    c.Finished ∨ ∃ label c', Step Access.exec c label c'
  bounded : ∀ μ₀, (∀ x, Cell.IsGlobal x → μ₀ x = μ x) →
    ∃ n, ∀ tr c, Run Access.exec (l.start μ₀) tr c → tr.length ≤ n
  writtenOnce : ∀ tr c, Launched Cell.IsGlobal l μ tr c → c.Finished →
    ∀ n < batch * heads * seqLen * headDim,
      (tr.filterMap Label.written).countP (·.1 = .out n) = 1
  output : ∀ tr c, Launched Cell.IsGlobal l μ tr c → c.Finished →
    ∀ b < batch, ∀ h < heads, ∀ i < seqLen, ∀ d < headDim,
      c.state (.out (((b * heads + h) * seqLen + i) * headDim + d)) =
        referenceAttention seqLen headDim (contiguous heads seqLen headDim q)
          (contiguous heads seqLen headDim k) (contiguous heads seqLen headDim v) causal none
          b h i d

/-- The scores that the kernel computes are above its sentinel. -/
def ScoresAbove (batch heads seqLen headDim : Nat) (causal : Bool) (q k : Nat → F) : Prop :=
  ∀ b < batch, ∀ h < heads, ∀ i < seqLen, ∀ j < seqLen, (causal → j ≤ i) →
    -fltMax < (∑ e ∈ Finset.range headDim, contiguous heads seqLen headDim q b h i e *
      contiguous heads seqLen headDim k b h j e) * (1 / sqrt (headDim : F))

-- ============================================================================
-- The whole grid
-- ============================================================================

namespace FusedJob

variable {a : FusedJob F} {gridX gridY : Nat}

omit [ExpField F] in
theorem base_le {blockIdx : Nat × Nat} (h : blockIdx.2 < gridY) :
    a.base blockIdx + a.S * a.D ≤ gridY * a.S * a.D := by
  have hle : (blockIdx.2 + 1) * (a.S * a.D) ≤ gridY * (a.S * a.D) := Nat.mul_le_mul_right _ h
  rw [base_eq, Nat.mul_assoc, Nat.mul_assoc, ← Nat.succ_mul]
  exact hle

/-- Two blocks write no cell that the other one reads or writes. -/
theorem blocks_apart {blockIdx blockIdx' : Nat × Nat} (hne : blockIdx ≠ blockIdx')
    {total n : Nat} {x : Cell} (hx : Writes (a.phasesFrom total blockIdx 0 n) x) :
    ¬ Reads (a.phasesFrom total blockIdx' 0 n) x ∧
      ¬ Writes (a.phasesFrom total blockIdx' 0 n) x := by
  rcases writes_cell hx with ⟨m, rfl⟩ | ⟨i, hrow, d, hd, rfl⟩
  · constructor
    · intro hreads
      rcases reads_cell hreads with ⟨m', -, h | h | h⟩ | ⟨m', h⟩
      · cases h
      · cases h
      · cases h
      · exact hne (Cell.smem.inj h).1
    · intro hwrites
      rcases writes_cell hwrites with ⟨m', h⟩ | ⟨i', -, d', -, h⟩
      · exact hne (Cell.smem.inj h).1
      · cases h
  · constructor
    · intro hreads
      rcases reads_cell hreads with ⟨m', -, h | h | h⟩ | ⟨m', h⟩ <;> cases h
    · intro hwrites
      rcases writes_cell hwrites with ⟨m', h⟩ | ⟨i', hrow', d', hd', h⟩
      · cases h
      · obtain ⟨hhead, hsame, -⟩ := out_index_inj hrow hrow' hd hd' (Cell.out.inj h)
        have hi := i.isLt
        have hi' := i'.isLt
        simp only [rowOf, kFusedTileDim] at hsame hi hi'
        exact hne (Prod.ext (by omega) hhead)

theorem grid_performs (gridX : Nat) (hD : 0 < a.D) (hS : 0 < a.S) {total : Nat}
    (htotal : gridY * a.S * a.D = total) {μ : Cell → F} (hμ : Holds a.q a.k a.v μ) :
    ∃ μ', GridPerforms μ
      (fun (b : Fin gridX × Fin gridY) (i : Fin kFusedTileDim) =>
        fusedAttentionKernel a.H a.S a.D a.scale a.causal (b.1, b.2) i)
      (fun b => a.phasesFrom total (b.1, b.2) 0
        ((a.S + kFusedTileDim - 1) / kFusedTileDim)) μ' ∧
        ∀ b : Fin gridX × Fin gridY, ∀ i, ∀ w ∈ (a.storeFootprint (b.1, b.2)
          ((a.S + kFusedTileDim - 1) / kFusedTileDim)).writes i, μ' b w.1 = w.2 := by
  have hblock := fun b : Fin gridX × Fin gridY =>
    have hbase : a.base (b.1, b.2) + a.S * a.D ≤ total := htotal ▸ base_le b.2.isLt
    block_performs hbase hD hS hμ
  choose μ' hperforms hout using hblock
  exact ⟨μ', ⟨hperforms, fun b b' hne x hx => blocks_apart (block_ne hne) hx⟩, hout⟩

/-- A row stores each of its elements once. -/
theorem countP_row {blockIdx : Nat × Nat} {i : Fin kFusedTileDim} {t d : Nat}
    (hrow : rowOf blockIdx i < a.S) (hd : d < a.D) :
    ((a.storeFootprint blockIdx t).writes i).countP
      (·.1 = .out (blockIdx.2 * a.S * a.D + rowOf blockIdx i * a.D + d)) = 1 := by
  have hwrites : (a.storeFootprint blockIdx t).writes i =
      rowWrites a.D (a.base blockIdx) (rowOf blockIdx i) (a.threadState blockIdx i t) :=
    if_pos hrow
  rw [hwrites, rowWrites, countP_flatMap List.nodup_range (List.mem_range.mpr hd)]
  · simp [base_eq]
  · intro d' hne w hw
    rw [List.mem_singleton.mp hw, base_eq]
    simp [hne]

/-- The writes of the grid have each element of the output once. -/
theorem countP_grid {b : Fin gridX × Fin gridY} {i : Fin kFusedTileDim} {total n d : Nat}
    (hrow : rowOf (b.1, b.2) i < a.S) (hd : d < a.D) :
    (GridPerforms.gridWrites fun b : Fin gridX × Fin gridY =>
      a.phasesFrom total (b.1, b.2) 0 n).countP
        (·.1 = .out (b.2 * a.S * a.D + rowOf (b.1, b.2) i * a.D + d)) = 1 := by
  rw [GridPerforms.gridWrites, countP_flatMap Finset.univ.nodup_toList (by simp : b ∈ _),
    countP_out, Footprint.allWrites, countP_flatMap Finset.univ.nodup_toList (by simp : i ∈ _),
    countP_row hrow hd]
  · intro j hne w hw
    obtain ⟨hrow', d', hd', rfl⟩ := mem_storeWrites.mp hw
    refine decide_eq_false fun heq => hne ?_
    obtain ⟨-, hsame, -⟩ := out_index_inj hrow' hrow hd' hd (Cell.out.inj heq)
    exact Fin.ext (Nat.add_left_cancel hsame)
  · intro b' hne w hw
    refine decide_eq_false fun heq => ?_
    obtain ⟨f, hf, j, hw⟩ := mem_blockWrites.mp hw
    exact (blocks_apart (block_ne hne.symm) (out_writes n hrow hd)).2 ⟨f, hf, j, w, hw, heq⟩

end FusedJob

-- ============================================================================
-- The launch
-- ============================================================================

section Launch

variable {batch heads S D : Nat} {causal : Bool}

/-- The host's `S + kFusedTileDim - 1` wraps once at most. -/
theorem hostRows_eq (S : Nat) : CInt.int (CInt.int ((S : Int) + kFusedTileDim) - 1) =
    CInt.int ((S : Int) + kFusedTileDim - 1) := Int.bmod_sub_bmod

/-- The tiles of the grid, as long as their rows are `int`s. -/
theorem fusedLaunch_gridX (batch heads D : Nat) (causal : Bool)
    (hint : S + kFusedTileDim ≤ 2 ^ 31) :
    (fusedLaunch (F := F) batch heads S D causal).gridX =
      (S + kFusedTileDim - 1) / kFusedTileDim := by
  have hrows :
      CInt.int ((S : Int) + kFusedTileDim - 1) = ((S + kFusedTileDim - 1 : Nat) : Int) := by
    rw [CInt.int_of_lt (by omega) (by omega)]
    simp only [kFusedTileDim]
    omega
  dsimp only [fusedLaunch]
  rw [hostRows_eq, hrows, ← Int.ofNat_tdiv]
  exact CInt.unsigned_of_lt (by simp only [kFusedTileDim] at *; omega)

/-- Where the rows of the tiles are no `int`s, their number is negative, and the grid too wide. -/
theorem fusedLaunch_gridX_wide (batch heads D : Nat) (causal : Bool) (hS : S < 2 ^ 31)
    (hint : 2 ^ 31 < S + kFusedTileDim) :
    2 ^ 31 ≤ (fusedLaunch (F := F) batch heads S D causal).gridX := by
  have hrows : CInt.int ((S : Int) + kFusedTileDim - 1) =
      -((2 ^ 32 - (S + kFusedTileDim - 1) : Nat) : Int) := by
    have hwrap : (S : Int) + kFusedTileDim - 1 - 2 ^ 32 =
        -((2 ^ 32 - (S + kFusedTileDim - 1) : Nat) : Int) := by
      simp only [kFusedTileDim] at *
      omega
    rw [← hwrap, CInt.int, ← Int.sub_bmod_right]
    exact CInt.int_of_lt (by simp only [kFusedTileDim] at *; omega)
      (by simp only [kFusedTileDim] at *; omega)
  dsimp only [fusedLaunch]
  rw [hostRows_eq, hrows, Int.neg_tdiv, ← Int.ofNat_tdiv, CInt.unsigned]
  simp only [kFusedTileDim] at *
  omega

theorem fusedLaunch_gridY (batch heads S D : Nat) (causal : Bool) :
    (fusedLaunch (F := F) batch heads S D causal).gridY = batch * heads % 2 ^ 32 := by
  have hwrap :
      CInt.int ((batch : Int) * heads) % 2 ^ 32 = ((batch * heads % 2 ^ 32 : Nat) : Int) := by
    rw [CInt.int, ← Nat.cast_mul]
    exact Int.bmod_emod
  dsimp only [fusedLaunch]
  rw [CInt.unsigned, hwrap]
  rfl

/-- The host computes the grid without overflow. -/
theorem fusedLaunch_grid (D : Nat) (causal : Bool) (hgrid : batch * heads ≤ 65535)
    (hint : S + kFusedTileDim ≤ 2 ^ 31) :
    (fusedLaunch (F := F) batch heads S D causal).gridX = (S + kFusedTileDim - 1) / kFusedTileDim ∧
      (fusedLaunch (F := F) batch heads S D causal).gridY = batch * heads := by
  refine ⟨fusedLaunch_gridX batch heads D causal hint, ?_⟩
  rw [fusedLaunch_gridY]
  exact Nat.mod_eq_of_lt (by omega)

variable (batch heads S D causal)

/-- The launch as a job of its kernel. -/
def fusedJob (q k v : Nat → F) : FusedJob F :=
  ⟨heads, S, D, 1 / sqrt (D : F), causal, q, k, v⟩

variable {batch heads S D causal} {q k v : Nat → F}

/-- The phases of the blocks of a launch. -/
def fusedPhases (batch heads S D : Nat) (causal : Bool) (q k v : Nat → F)
    (b : (fusedLaunch (F := F) batch heads S D causal).Block) :
    List (Footprint (Fin kFusedTileDim) Cell F) :=
  (fusedJob heads S D causal q k v).phasesFrom (batch * heads * S * D) (b.1, b.2) 0
    ((S + kFusedTileDim - 1) / kFusedTileDim)

theorem launch_performs (causal : Bool) (hS : 0 < S) (hD : 0 < D) (hgrid : batch * heads ≤ 65535)
    (hint : S + kFusedTileDim ≤ 2 ^ 31) {μ : Cell → F} (hμ : Holds q k v μ) :
    ∃ μ', GridPerforms μ
      (fun (b : (fusedLaunch (F := F) batch heads S D causal).Block) (i : Fin kFusedTileDim) =>
        (fusedLaunch (F := F) batch heads S D causal).kernel (b.1, b.2) i)
      (fusedPhases batch heads S D causal q k v) μ' ∧
        ∀ b : (fusedLaunch (F := F) batch heads S D causal).Block, ∀ i,
          ∀ w ∈ ((fusedJob heads S D causal q k v).storeFootprint (b.1, b.2)
            ((S + kFusedTileDim - 1) / kFusedTileDim)).writes i, μ' b w.1 = w.2 := by
  have hgridY := (fusedLaunch_grid (F := F) D causal hgrid hint).2
  have htotal : (fusedLaunch (F := F) batch heads S D causal).gridY * S * D =
      batch * heads * S * D := by rw [hgridY]
  exact FusedJob.grid_performs (a := fusedJob heads S D causal q k v) _ hD hS htotal hμ

omit [ExpField F] in
theorem Holds.of_global {μ μ₀ : Cell → F} (hμ : Holds q k v μ)
    (h : ∀ x, x.IsGlobal → μ₀ x = μ x) : Holds q k v μ₀ :=
  ⟨fun n => (h (.q n) trivial).trans (hμ.q n), fun n => (h (.k n) trivial).trans (hμ.k n),
    fun n => (h (.v n) trivial).trans (hμ.v n)⟩

/-- A row belongs to a thread. -/
theorem exists_thread (bh : Nat) {row : Nat} (hrow : row < S) :
    ∃ x < (S + kFusedTileDim - 1) / kFusedTileDim, ∃ i : Fin kFusedTileDim,
      row = FusedJob.rowOf (x, bh) i := by
  refine ⟨row / kFusedTileDim, ?_, ⟨row % kFusedTileDim, Nat.mod_lt _ (by decide)⟩,
    (Nat.div_add_mod' row kFusedTileDim).symm⟩
  simp only [kFusedTileDim]
  omega

/-- An element of the output is stored by one thread. -/
theorem exists_row (hS : 0 < S) (hD : 0 < D) {n : Nat} (hn : n < batch * heads * S * D) :
    ∃ bh < batch * heads, ∃ x < (S + kFusedTileDim - 1) / kFusedTileDim, ∃ i : Fin kFusedTileDim,
      FusedJob.rowOf (x, bh) i < S ∧ ∃ d < D,
        n = bh * S * D + FusedJob.rowOf (x, bh) i * D + d := by
  obtain ⟨x, hx, i, hrow⟩ := exists_thread (n / D / S) (Nat.mod_lt (n / D) hS)
  refine ⟨n / D / S, ?_, x, hx, i, ?_, n % D, Nat.mod_lt n hD, ?_⟩
  · rw [Nat.div_lt_iff_lt_mul hS, Nat.div_lt_iff_lt_mul hD]
    exact hn
  · rw [← hrow]
    exact Nat.mod_lt _ hS
  · rw [← hrow, ← Nat.add_mul, Nat.div_add_mod', Nat.div_add_mod']

/-- What is stored for a row is the row of the reference. -/
theorem output_eq {b h d x : Nat} {i : Fin kFusedTileDim}
    (hi : FusedJob.rowOf (x, b * heads + h) i < S) (hd : d < D)
    (hscores : ∀ j < S, (causal → j ≤ FusedJob.rowOf (x, b * heads + h) i) →
      -fltMax < (∑ e ∈ Finset.range D,
        contiguous heads S D q b h (FusedJob.rowOf (x, b * heads + h) i) e *
          contiguous heads S D k b h j e) * (1 / sqrt (D : F))) :
    (fusedJob heads S D causal q k v).output (x, b * heads + h) i
        ((S + kFusedTileDim - 1) / kFusedTileDim) d =
      referenceAttention S D (contiguous heads S D q) (contiguous heads S D k)
        (contiguous heads S D v) causal none b h (FusedJob.rowOf (x, b * heads + h) i) d := by
  set a := fusedJob heads S D causal q k v
  set row := FusedJob.rowOf (x, b * heads + h) i
  have hindex : ∀ (buffer : Nat → F) (j e : Nat), contiguous heads S D buffer b h j e =
      buffer (a.base (x, b * heads + h) + j * D + e) := by
    intro buffer j e
    have hsum : ((b * heads + h) * S + j) * D + e = (b * heads + h) * S * D + j * D + e := by
      rw [Nat.add_mul]
    rw [contiguous, FusedJob.base_eq, hsum]
    rfl
  have hvisible : visible S causal row ≤ S := by
    unfold visible
    split <;> omega
  have htiles : min ((S + kFusedTileDim - 1) / kFusedTileDim * kFusedTileDim)
      (visible S causal row) = visible S causal row := by
    refine Nat.min_eq_right (hvisible.trans ?_)
    simp only [kFusedTileDim]
    omega
  have hstate : a.threadState (x, b * heads + h) i ((S + kFusedTileDim - 1) / kFusedTileDim) =
      .after D (rowScore q k D (a.base (x, b * heads + h)) (1 / sqrt (D : F)) row)
        (valueRow v D (a.base (x, b * heads + h))) (visible S causal row) := by
    rw [← htiles]
    exact if_pos hi
  have hattended : ∀ j < visible S causal row, j < S ∧ (causal → j ≤ row) := by
    intro j hj
    refine ⟨hj.trans_le hvisible, fun hcausal => ?_⟩
    have hvisible : visible S causal row = row + 1 := if_pos hcausal
    omega
  have hpos : 0 < visible S causal row := by
    unfold visible
    split <;> omega
  rw [FusedJob.output, hstate, RowState.after_output (fun j hj => ?_) hpos hd]
  · change _ = referenceAttention S D _ _ _ causal (some (1 / sqrt (D : F))) b h row d
    rw [referenceAttention_row hi]
    simp only [hindex]
    rfl
  · have hscore := hscores j (hattended j hj).1 (hattended j hj).2
    simp only [hindex] at hscore
    exact hscore

theorem launchAttentionFused_ok (hbatch : 0 < batch) (hheads : 0 < heads) (hS : 0 < S)
    (hmax : D ≤ kMaxHeadDimFused) (hgrid : batch * heads ≤ 65535)
    (hint : S + kFusedTileDim ≤ 2 ^ 31) :
    launchAttentionFused (F := F) batch heads S D causal [] =
      (.ok (), [fusedLaunch batch heads S D causal]) := by
  obtain ⟨hgridX, hgridY⟩ := fusedLaunch_grid (F := F) D causal hgrid hint
  refine submit_ok ⟨?_, ?_, ?_, ?_⟩ []
  · rw [hgridX]
    simp only [kFusedTileDim] at hint ⊢
    omega
  · rw [hgridY]
    exact ⟨Nat.mul_pos hbatch hheads, hgrid⟩
  · have hblock : 0 < kFusedTileDim ∧ kFusedTileDim ≤ 1024 := by decide
    exact hblock
  · simp only [fusedLaunch, kFusedTileDim, kMaxHeadDimFused] at hmax ⊢
    omega

/-- The fused kernel computes attention for every shape whose launch the hardware takes. -/
theorem attention_fused_computes (hbatch : 0 < batch) (hheads : 0 < heads) (hS : 0 < S)
    (hD : 0 < D) (hmax : D ≤ kMaxHeadDimFused) (hgrid : batch * heads ≤ 65535)
    (hint : S + kFusedTileDim ≤ 2 ^ 31) (hscores : ScoresAbove batch heads S D causal q k) :
    launchAttentionFused (F := F) batch heads S D causal [] =
        (.ok (), [fusedLaunch batch heads S D causal]) ∧
      ∀ μ, Holds q k v μ →
        Computes (fusedLaunch batch heads S D causal) batch heads S D causal q k v μ := by
  refine ⟨launchAttentionFused_ok hbatch hheads hS hmax hgrid hint, fun μ hμ => ?_⟩
  have hperforms := fun (μ₀ : Cell → F) (hμ₀ : ∀ x, Cell.IsGlobal x → μ₀ x = μ x) =>
    launch_performs causal hS hD hgrid hint (hμ.of_global hμ₀)
  obtain ⟨hgridX, hgridY⟩ := fusedLaunch_grid (F := F) D causal hgrid hint
  constructor
  · rintro before b i x val after c ⟨μ₀, hμ₀, hrun⟩
    obtain ⟨μ', hgridPerforms, -⟩ := hperforms μ₀ hμ₀
    obtain ⟨f, hf, hhas⟩ := hgridPerforms.access hrun
    have hbase : (fusedJob heads S D causal q k v).base (b.1, b.2) + S * D ≤
        batch * heads * S * D := FusedJob.base_le (b.2.isLt.trans_eq hgridY)
    exact FusedJob.has_inBuffer hbase (List.mem_of_getElem? hf) hhas
  · rintro tr c ⟨μ₀, hμ₀, hrun⟩
    obtain ⟨μ', hgridPerforms, -⟩ := hperforms μ₀ hμ₀
    exact hgridPerforms.progress hrun
  · intro μ₀ hμ₀
    obtain ⟨μ', hgridPerforms, -⟩ := hperforms μ₀ hμ₀
    exact hgridPerforms.bounded
  · rintro tr c ⟨μ₀, hμ₀, hrun⟩ hc n hn
    obtain ⟨μ', hgridPerforms, -⟩ := hperforms μ₀ hμ₀
    obtain ⟨bh, hbh, x, hx, i, hrow, d, hd, rfl⟩ := exists_row hS hD hn
    refine ((hgridPerforms.writes hrun hc).countP_eq _).trans ?_
    exact FusedJob.countP_grid (a := fusedJob heads S D causal q k v)
      (b := (⟨x, hx.trans_eq hgridX.symm⟩, ⟨bh, hbh.trans_eq hgridY.symm⟩)) hrow hd
  · rintro tr c ⟨μ₀, hμ₀, hrun⟩ hc b hb h hh i hi d hd
    obtain ⟨μ', hgridPerforms, hout⟩ := hperforms μ₀ hμ₀
    have hbh : b * heads + h < batch * heads := by
      have hle : (b + 1) * heads ≤ batch * heads := Nat.mul_le_mul_right heads hb
      rw [Nat.succ_mul] at hle
      omega
    obtain ⟨x, hx, j, rfl⟩ := exists_thread (b * heads + h) hi
    let block : (fusedLaunch (F := F) batch heads S D causal).Block :=
      (⟨x, hx.trans_eq hgridX.symm⟩, ⟨b * heads + h, hbh.trans_eq hgridY.symm⟩)
    have hindex : ((b * heads + h) * S + FusedJob.rowOf (x, b * heads + h) j) * D + d =
        (b * heads + h) * S * D + FusedJob.rowOf (x, b * heads + h) j * D + d := by
      rw [Nat.add_mul]
    rw [hindex]
    refine ((hgridPerforms.state hrun hc).1 block _ (FusedJob.out_writes _ hi hd)).trans ?_
    refine (hout block j _ (FusedJob.mem_storeWrites.mpr ⟨hi, d, hd, rfl⟩)).trans ?_
    exact output_eq hi hd fun j hj hattended => hscores b hb h hh _ hi j hj hattended

/-- A launch on too few heads leaves elements of the output unwritten. -/
theorem not_computes (hS : 0 < S) (hD : 0 < D)
    (hfew : (fusedLaunch (F := F) batch heads S D causal).gridY < batch * heads) {μ : Cell → F}
    (hμ : Holds q k v μ) :
    ¬ Computes (fusedLaunch batch heads S D causal) batch heads S D causal q k v μ := by
  intro hcomputes
  obtain ⟨μ', hperforms, -⟩ := FusedJob.grid_performs (a := fusedJob heads S D causal q k v)
    (fusedLaunch (F := F) batch heads S D causal).gridX hD hS
    (show (fusedLaunch (F := F) batch heads S D causal).gridY * S * D = _ from rfl) hμ
  obtain ⟨tr, c, hrun, hc⟩ := hperforms.finishes
  have hbehind : (fusedLaunch (F := F) batch heads S D causal).gridY * S * D <
      batch * heads * S * D :=
    Nat.mul_lt_mul_of_pos_right (Nat.mul_lt_mul_of_pos_right hfew hS) hD
  have hone := ((hperforms.writes hrun hc).countP_eq _).symm.trans
    (hcomputes.writtenOnce tr c ⟨μ, fun _ _ => rfl, hrun⟩ hc _ hbehind)
  obtain ⟨w, hw, heq⟩ := List.countP_pos_iff.mp (hone ▸ Nat.one_pos)
  obtain ⟨b, f, hf, i, hw⟩ := GridPerforms.mem_gridWrites.mp hw
  rcases FusedJob.writes_cell ⟨f, hf, i, w, hw, of_decide_eq_true heq⟩ with
    ⟨m, hcell⟩ | ⟨j, hrow, d, hd, hcell⟩
  · cases hcell
  · -- the last element that a block of the grid writes comes before
    have hin : b.2 * S * D + FusedJob.rowOf (b.1, b.2) j * D + d <
        (fusedLaunch (F := F) batch heads S D causal).gridY * S * D := by
      have hblock : (fusedJob heads S D causal q k v).base (b.1, b.2) + S * D ≤
          (fusedLaunch (F := F) batch heads S D causal).gridY * S * D :=
        FusedJob.base_le b.2.isLt
      have hend : FusedJob.rowOf (b.1, b.2) j * D + d < S * D := by
        have hle : (FusedJob.rowOf (b.1, b.2) j + 1) * D ≤ S * D := Nat.mul_le_mul_right D hrow
        have hlast : d < D := hd
        rw [Nat.succ_mul] at hle
        omega
      rw [FusedJob.base_eq] at hblock
      have hbase : b.2 * S * D + S * D ≤
        (fusedLaunch (F := F) batch heads S D causal).gridY * S * D := hblock
      omega
    exact absurd (Cell.out.inj hcell) (Nat.ne_of_gt hin)

/-- Memory that holds the inputs. -/
def holding (q k v : Nat → F) : Cell → F
  | .q n => q n
  | .k n => k n
  | .v n => v n
  | .out _ => 0
  | .smem _ _ => 0

theorem holds_holding (q k v : Nat → F) : Holds q k v (holding q k v) :=
  ⟨fun _ => rfl, fun _ => rfl, fun _ => rfl⟩

/-- The launcher launches the fused kernel and it computes attention, if and only if the heads fit
into the second dimension of a grid and the rows of the tiles are `int`s. -/
theorem attention_fused_computes_iff (hbatch : 0 < batch) (hheads : 0 < heads) (hS : 0 < S)
    (hint : S < 2 ^ 31) (hD : 0 < D) (hmax : D ≤ kMaxHeadDimFused)
    (hscores : ScoresAbove batch heads S D causal q k) :
    (launchAttentionFused (F := F) batch heads S D causal [] =
        (.ok (), [fusedLaunch batch heads S D causal]) ∧
      ∀ μ, Holds q k v μ →
        Computes (fusedLaunch batch heads S D causal) batch heads S D causal q k v μ) ↔
      batch * heads ≤ 65535 ∧ S + kFusedTileDim ≤ 2 ^ 31 := by
  constructor
  · rintro ⟨hlaunch, hcomputes⟩
    have haccepted : (fusedLaunch (F := F) batch heads S D causal).Accepted := by
      by_contra hrefused
      have herror : launchAttentionFused (F := F) batch heads S D causal [] = _ :=
        submit_error hrefused []
      rw [herror] at hlaunch
      exact absurd (Prod.mk.inj hlaunch).1 (by simp)
    constructor
    · by_contra hheads'
      refine not_computes hS hD ?_ (holds_holding q k v) (hcomputes _ (holds_holding q k v))
      exact lt_of_le_of_lt haccepted.2.1.2 (Nat.lt_of_not_le hheads')
    · by_contra hrows
      have hwide := fusedLaunch_gridX_wide (F := F) batch heads D causal hint
        (Nat.lt_of_not_le hrows)
      exact absurd haccepted.1.2 (Nat.not_lt.mpr hwide)
  · rintro ⟨hgrid, hrows⟩
    exact attention_fused_computes hbatch hheads hS hD hmax hgrid hrows hscores

theorem scoresAbove_of_nonneg {q k : Nat → ℝ} (hq : ∀ n, 0 ≤ q n) (hk : ∀ n, 0 ≤ k n) :
    ScoresAbove batch heads S D causal q k := by
  intro b _ h _ i _ j _ _
  have hmax : (0 : ℝ) < fltMax := by
    unfold fltMax
    norm_num
  have hscore : (0 : ℝ) ≤ (∑ e ∈ Finset.range D, contiguous heads S D q b h i e *
      contiguous heads S D k b h j e) * (1 / sqrt (D : ℝ)) := by
    refine mul_nonneg (Finset.sum_nonneg fun e _ => mul_nonneg (hq _) (hk _)) ?_
    exact one_div_nonneg.mpr (Real.sqrt_nonneg _)
  linarith

/-- Six heads of seventy rows in three tiles, causal. -/
theorem attention_fused_computes_tiles :
    launchAttentionFused (F := ℝ) 2 3 70 4 true [] = (.ok (), [fusedLaunch 2 3 70 4 true]) ∧
      ∀ μ, Holds (fun n => (n : ℝ)) (fun n => (n : ℝ) + 1) (fun n => (n : ℝ)) μ →
        Computes (fusedLaunch 2 3 70 4 true) 2 3 70 4 true (fun n => (n : ℝ))
          (fun n => (n : ℝ) + 1) (fun n => (n : ℝ)) μ :=
  (attention_fused_computes_iff (by decide) (by decide) (by decide) (by decide) (by decide)
    (by decide) (scoresAbove_of_nonneg (fun n => n.cast_nonneg) fun n =>
      add_nonneg n.cast_nonneg zero_le_one)).mpr ⟨by decide, by decide⟩

/-- The hardware takes no grid of more than 65535 heads: the launcher throws, and the property of
the kernel is false. -/
theorem attention_fused_refused :
    ScoresAbove (F := ℝ) 65536 1 1 1 false (fun _ => 0) (fun _ => 0) ∧
      launchAttentionFused (F := ℝ) 65536 1 1 1 false [] = (.error .cudaError, []) := by
  constructor
  · exact scoresAbove_of_nonneg (fun _ => le_refl 0) fun _ => le_refl 0
  · refine submit_error (fun haccepted => ?_) []
    have hgridY := haccepted.2.1.2
    revert hgridY
    decide

end Launch

end PassionProjects.Flashlite
