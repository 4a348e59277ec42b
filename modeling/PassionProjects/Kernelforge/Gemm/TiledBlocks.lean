/-
  PassionProjects.Kernelforge.Gemm.TiledBlocks

  A block that works by tiles, from barrier to barrier, and grids of such blocks.
-/

import PassionProjects.Kernelforge.Gemm.Tiles

namespace PassionProjects.Kernelforge

open Kernels

variable {T F : Type} [Semiring F] {g : Tiling T} {x : GemmJob F} {blockIdx : Dim3}
  {μ μ' : GemmCell → F}

theorem index_lt {m n row col : Nat} (hrow : row < m) (hcol : col < n) : row * n + col < m * n := by
  have hle : (row + 1) * n ≤ m * n := Nat.mul_le_mul_right n hrow
  rw [Nat.succ_mul] at hle
  omega

-- ============================================================================
-- One access
-- ============================================================================

theorem loadA_performs (hμ : x.Holds μ) (row col : Nat) :
    Performs x.inputs μ (loadA x.m x.k row col) [] (.ret (x.aAt row col)) := by
  unfold loadA GemmJob.aAt
  split
  · rename_i h
    rw [← hμ.a]
    exact .load (.inl ⟨_, index_lt h.1 h.2, rfl⟩)
  · exact .here

theorem loadB_performs (hμ : x.Holds μ) (row col : Nat) :
    Performs x.inputs μ (loadB x.k x.n row col) [] (.ret (x.bAt row col)) := by
  unfold loadB GemmJob.bAt
  split
  · rename_i h
    rw [← hμ.b]
    exact .load (.inr ⟨_, index_lt h.1 h.2, rfl⟩)
  · exact .here

omit [Semiring F] in
/-- Writes to shared memory leave the factors alone. -/
theorem GemmJob.Holds.write {y : GemmCell} (hμ : x.Holds μ) (hy : ¬ y.IsGlobal) (v : F) :
    x.Holds (Function.update μ y v) := by
  have hkept (z : GemmCell) (hz : z.IsGlobal) : Function.update μ y v z = μ z := by
    refine Function.update_of_ne ?_ v μ
    rintro rfl
    exact hy hz
  exact ⟨fun i => (hkept (.a i) trivial).trans (hμ.a i),
    fun i => (hkept (.b i) trivial).trans (hμ.b i)⟩

theorem storeC_performs (g : Tiling T) (blockIdx : Dim3) (p : Nat × Nat) {v : F}
    (hv : g.row blockIdx p < x.m → g.col blockIdx p < x.n →
      v = x.dot (g.row blockIdx p) (g.col blockIdx p)) (μ : GemmCell → F) :
    Performs ∅ μ (storeC x.m x.n (g.row blockIdx p) (g.col blockIdx p) v)
      (g.storeOutput x blockIdx p (x.dot (g.row blockIdx p) (g.col blockIdx p))) (.ret ()) := by
  unfold storeC Tiling.storeOutput
  split
  · rename_i h
    rw [hv h.1 h.2]
    exact .store _ _
  · exact .here

namespace Tiling

-- ============================================================================
-- Filling the tiles
-- ============================================================================

theorem mem_fill_writes {t : Nat} {i : T} {w : GemmCell × F} :
    w ∈ (g.fillPhase x blockIdx t).writes i ↔
      (∃ p ∈ g.aCells i, w = (.aTile blockIdx p.1 p.2,
        x.aAt (blockIdx.y * g.bm + p.1) (t * g.bk + p.2))) ∨
      ∃ p ∈ g.bCells i, w = (.bTile blockIdx p.1 p.2,
        x.bAt (t * g.bk + p.1) (blockIdx.x * g.bn + p.2)) := by
  simp only [fillPhase, List.mem_append, List.mem_map, eq_comm (a := w)]

/-- No cell is filled twice. -/
theorem fill_inj (hg : g.Ok) {t : Nat} {i j : T} {w w' : GemmCell × F}
    (hw : w ∈ (g.fillPhase x blockIdx t).writes i) (hw' : w' ∈ (g.fillPhase x blockIdx t).writes j)
    (heq : w.1 = w'.1) : i = j ∧ w = w' := by
  rcases mem_fill_writes.mp hw with ⟨p, hp, rfl⟩ | ⟨p, hp, rfl⟩
  · rcases mem_fill_writes.mp hw' with ⟨p', hp', rfl⟩ | ⟨p', hp', rfl⟩
    · obtain ⟨-, hrow, hcol⟩ := GemmCell.aTile.inj heq
      obtain rfl : p = p' := Prod.ext hrow hcol
      exact ⟨hg.aCells.unique hp hp', rfl⟩
    · cases heq
  · rcases mem_fill_writes.mp hw' with ⟨p', hp', rfl⟩ | ⟨p', hp', rfl⟩
    · cases heq
    · obtain ⟨-, hrow, hcol⟩ := GemmCell.bTile.inj heq
      obtain rfl : p = p' := Prod.ext hrow hcol
      exact ⟨hg.bCells.unique hp hp', rfl⟩

theorem fill_raceFree (hg : g.Ok) (t : Nat) : (g.fillPhase x blockIdx t).RaceFree := by
  intro i j hij w hw
  refine ⟨?_, fun w' hw' heq => hij (fill_inj hg hw hw' heq).1⟩
  rcases mem_fill_writes.mp hw with ⟨p, -, rfl⟩ | ⟨p, -, rfl⟩
  · rintro (⟨n, -, h⟩ | ⟨n, -, h⟩) <;> cases h
  · rintro (⟨n, -, h⟩ | ⟨n, -, h⟩) <;> cases h

/-- After the fill the tiles are in shared memory, and the factors where they were. -/
theorem fill_leads (hg : g.Ok) {t : Nat} (h : (g.fillPhase x blockIdx t).Leads μ μ')
    (hμ : x.Holds μ) : x.Holds μ' ∧ g.Filled x blockIdx t μ' := by
  have hkept : ∀ y : GemmCell, y.IsGlobal → μ' y = μ y := by
    intro y hy
    refine h.kept y fun i w hw heq => ?_
    rcases mem_fill_writes.mp hw with ⟨p, -, rfl⟩ | ⟨p, -, rfl⟩
    · subst heq
      exact hy
    · subst heq
      exact hy
  refine ⟨⟨fun i => (hkept (.a i) trivial).trans (hμ.a i),
    fun i => (hkept (.b i) trivial).trans (hμ.b i)⟩, ⟨fun r hr c hc => ?_, fun r hr c hc => ?_⟩⟩
  · obtain ⟨i, hi⟩ := hg.aCells.exists_mem hr hc
    exact h.written i _ (mem_fill_writes.mpr (.inl ⟨_, hi, rfl⟩))
  · obtain ⟨i, hi⟩ := hg.bCells.exists_mem hr hc
    exact h.written i _ (mem_fill_writes.mpr (.inr ⟨_, hi, rfl⟩))

-- ============================================================================
-- Storing the outputs
-- ============================================================================

theorem mem_store_writes {i : T} {w : GemmCell × F} :
    w ∈ (g.storePhase x blockIdx).writes i ↔ ∃ p ∈ g.outputs i,
      (g.row blockIdx p < x.m ∧ g.col blockIdx p < x.n) ∧
        w = (.c (g.row blockIdx p * x.n + g.col blockIdx p),
          x.dot (g.row blockIdx p) (g.col blockIdx p)) := by
  unfold storePhase storeOutput
  rw [List.mem_flatMap]
  refine exists_congr fun p => and_congr_right fun _ => ?_
  split
  · rename_i h
    simp [h]
  · rename_i h
    simp [h]

/-- Of all blocks only one stores an element, and there only one thread. -/
theorem store_inj (hg : g.Ok) {blockIdx' : Dim3} {i j : T} {w w' : GemmCell × F}
    (hw : w ∈ (g.storePhase x blockIdx).writes i) (hw' : w' ∈ (g.storePhase x blockIdx').writes j)
    (heq : w.1 = w'.1) : (blockIdx.x = blockIdx'.x ∧ blockIdx.y = blockIdx'.y) ∧
    i = j ∧ w = w' := by
  obtain ⟨p, hp, ⟨-, hcol⟩, rfl⟩ := mem_store_writes.mp hw
  obtain ⟨p', hp', ⟨-, hcol'⟩, rfl⟩ := mem_store_writes.mp hw'
  obtain ⟨hrows, hcols⟩ := index_inj hcol hcol' (GemmCell.c.inj heq)
  obtain ⟨hy, hrow⟩ := index_inj (hg.outputs.lt hp).1 (hg.outputs.lt hp').1 hrows
  obtain ⟨hx, hcol⟩ := index_inj (hg.outputs.lt hp).2 (hg.outputs.lt hp').2 hcols
  obtain rfl : p = p' := Prod.ext hrow hcol
  refine ⟨⟨hx, hy⟩, hg.outputs.unique hp hp', ?_⟩
  rw [hrows, hcols]

theorem store_raceFree (hg : g.Ok) : (g.storePhase x blockIdx).RaceFree :=
  fun _ _ hij _ hw => ⟨fun hread => hread, fun _ hw' heq => hij (store_inj hg hw hw' heq).2.1⟩

-- ============================================================================
-- A block
-- ============================================================================

/-- What the threads of a kernel do with the tiles: thread `i` has `s i t` before turn `t`. -/
structure Drives {σ : Type} (g : Tiling T) (x : GemmJob F) (blockIdx : Dim3) (s : T → Nat → σ)
    (load : T → Nat → Program (Access GemmCell F) F Unit)
    (use tail : T → σ → Nat → Program (Access GemmCell F) F σ)
    (finish : T → σ → Program (Access GemmCell F) F Unit) : Prop where
  load : ∀ t < g.turns x, ∀ μ, x.Holds μ → ∀ i, Performs x.inputs μ (load i t)
    ((g.fillPhase x blockIdx t).writes i) (.ret ())
  use : ∀ t < g.turns x, ∀ μ, g.Filled x blockIdx t μ → ∀ i, Performs (g.tileCells blockIdx) μ
    (use i (s i t) t) [] (.ret (s i (t + 1)))
  tail : ∀ t < g.turns x, ∀ i, tail i (s i (t + 1)) t = .ret (s i (t + 1))
  finish : ∀ i μ, Performs ∅ μ (finish i (s i (g.turns x)))
    ((g.storePhase x blockIdx).writes i) (.ret ())

theorem Drives.block_performs {σ : Type} {s : T → Nat → σ}
    {load : T → Nat → Program (Access GemmCell F) F Unit}
    {use tail : T → σ → Nat → Program (Access GemmCell F) F σ}
    {finish : T → σ → Program (Access GemmCell F) F Unit}
    (h : g.Drives x blockIdx s load use tail finish) (hg : g.Ok) (hμ : x.Holds μ) :
    ∃ μ', BlockPerforms μ (fun i => (List.range (g.turns x)).foldlM (fun s t => do
        load i t
        Program.barrier
        let s ← use i s t
        Program.barrier
        tail i s t) (s i 0) >>= finish i) (g.phases x blockIdx) μ' ∧
      ∀ i, ∀ w ∈ (g.storePhase x blockIdx).writes i, μ' w.1 = w.2 := by
  obtain ⟨μ₁, hturns, -⟩ := BlockReaches.staged (g.fillPhase x blockIdx)
    (fun _ => g.tileCells blockIdx) h.load (fun t _ => fill_raceFree hg t)
    (fun t _ i w hw w' hw' heq => (fill_inj hg hw hw' heq).2)
    (fun t _ μ μ' hμ hleads => fill_leads hg hleads hμ) h.use h.tail hμ
  have hrace : (g.storePhase x blockIdx).RaceFree := store_raceFree hg
  obtain ⟨μ', hleads⟩ := hrace.leads
    (fun i w hw w' hw' heq => (store_inj hg hw hw' heq).2.2) μ₁
  have hfinish : BlockPerforms μ₁ (fun i => finish i (s i (g.turns x)))
      [g.storePhase x blockIdx] μ' := .last (fun i => h.finish i μ₁) hrace hleads
  have hend := hturns.bind (g := finish)
  exact ⟨μ', hend.performs hfinish, hleads.written⟩

-- ============================================================================
-- The cells of a block
-- ============================================================================

theorem mem_phases {f : Footprint T GemmCell F} (hf : f ∈ g.phases x blockIdx) :
    (∃ t, f = g.fillPhase x blockIdx t) ∨ f = usePhase (fun _ => g.tileCells blockIdx) ∨
      f = g.storePhase x blockIdx := by
  rcases List.mem_append.mp hf with hf | hf
  · obtain ⟨t, -, hf⟩ := List.mem_flatMap.mp hf
    rcases List.mem_pair.mp hf with rfl | rfl
    · exact .inl ⟨t, rfl⟩
    · exact .inr (.inl rfl)
  · exact .inr (.inr (List.mem_singleton.mp hf))

theorem has_inBuffer (hg : g.Ok) {f : Footprint T GemmCell F} (hf : f ∈ g.phases x blockIdx)
    {i : T} {acc : Access GemmCell F} (hacc : f.Has i acc) :
    acc.cell.InBuffer x.m x.n x.k g.bm g.bn g.bk := by
  rcases mem_phases hf with ⟨t, rfl⟩ | rfl | rfl
  · rcases hacc with ⟨y, ⟨n, hn, rfl⟩ | ⟨n, hn, rfl⟩, rfl⟩ | ⟨w, hw, rfl⟩
    · exact hn
    · exact hn
    · rcases mem_fill_writes.mp hw with ⟨p, hp, rfl⟩ | ⟨p, hp, rfl⟩
      · exact hg.aCells.lt hp
      · exact hg.bCells.lt hp
  · rcases hacc with ⟨y, ⟨r, hr, c, hc, rfl⟩ | ⟨r, hr, c, hc, rfl⟩, rfl⟩ | ⟨w, hw, rfl⟩
    · exact ⟨hr, hc⟩
    · exact ⟨hr, hc⟩
    · exact absurd hw List.not_mem_nil
  · rcases hacc with ⟨y, hy, rfl⟩ | ⟨w, hw, rfl⟩
    · exact absurd hy (Set.notMem_empty y)
    · obtain ⟨p, -, ⟨hrow, hcol⟩, rfl⟩ := mem_store_writes.mp hw
      exact index_lt hrow hcol

theorem writes_cell {y : GemmCell} (hy : Writes (g.phases x blockIdx) y) :
    (∃ r c, y = .aTile blockIdx r c ∨ y = .bTile blockIdx r c) ∨
      ∃ i, ∃ w ∈ (g.storePhase x blockIdx).writes i, w.1 = y := by
  obtain ⟨f, hf, i, w, hw, rfl⟩ := hy
  rcases mem_phases hf with ⟨t, rfl⟩ | rfl | rfl
  · rcases mem_fill_writes.mp hw with ⟨p, -, rfl⟩ | ⟨p, -, rfl⟩
    · exact .inl ⟨p.1, p.2, .inl rfl⟩
    · exact .inl ⟨p.1, p.2, .inr rfl⟩
  · exact absurd hw List.not_mem_nil
  · exact .inr ⟨i, w, hw, rfl⟩

theorem reads_cell {y : GemmCell} (hy : Reads (g.phases x blockIdx) y) :
    y ∈ x.inputs ∨ ∃ r c, y = .aTile blockIdx r c ∨ y = .bTile blockIdx r c := by
  obtain ⟨f, hf, i, hy⟩ := hy
  rcases mem_phases hf with ⟨t, rfl⟩ | rfl | rfl
  · exact .inl hy
  · rcases hy with ⟨r, -, c, -, rfl⟩ | ⟨r, -, c, -, rfl⟩
    · exact .inr ⟨r, c, .inl rfl⟩
    · exact .inr ⟨r, c, .inr rfl⟩
  · exact absurd hy (Set.notMem_empty y)

/-- Two blocks write no cell that the other one reads or writes. -/
theorem blocks_apart (hg : g.Ok) {blockIdx' : Dim3} (hz : blockIdx.z = blockIdx'.z)
    (hne : blockIdx ≠ blockIdx') {y : GemmCell} (hy : Writes (g.phases x blockIdx) y) :
    ¬ Reads (g.phases x blockIdx') y ∧ ¬ Writes (g.phases x blockIdx') y := by
  rcases writes_cell hy with ⟨r, c, rfl | rfl⟩ | ⟨i, w, hw, rfl⟩
  · constructor
    · intro hreads
      rcases reads_cell hreads with (⟨n, -, h⟩ | ⟨n, -, h⟩) | ⟨r', c', h | h⟩
      · cases h
      · cases h
      · exact hne (GemmCell.aTile.inj h).1
      · cases h
    · intro hwrites
      rcases writes_cell hwrites with ⟨r', c', h | h⟩ | ⟨j, w', hw', h⟩
      · exact hne (GemmCell.aTile.inj h).1
      · cases h
      · obtain ⟨p, -, -, rfl⟩ := mem_store_writes.mp hw'
        cases h
  · constructor
    · intro hreads
      rcases reads_cell hreads with (⟨n, -, h⟩ | ⟨n, -, h⟩) | ⟨r', c', h | h⟩
      · cases h
      · cases h
      · cases h
      · exact hne (GemmCell.bTile.inj h).1
    · intro hwrites
      rcases writes_cell hwrites with ⟨r', c', h | h⟩ | ⟨j, w', hw', h⟩
      · cases h
      · exact hne (GemmCell.bTile.inj h).1
      · obtain ⟨p, -, -, rfl⟩ := mem_store_writes.mp hw'
        cases h
  · obtain ⟨p, -, -, hcell⟩ := mem_store_writes.mp hw
    constructor
    · intro hreads
      rcases reads_cell hreads with (⟨n, -, h⟩ | ⟨n, -, h⟩) | ⟨r', c', h | h⟩ <;>
        exact absurd h (by simp [hcell])
    · intro hwrites
      rcases writes_cell hwrites with ⟨r', c', h | h⟩ | ⟨j, w', hw', h⟩
      · exact absurd h (by simp [hcell])
      · exact absurd h (by simp [hcell])
      · obtain ⟨⟨hx, hy⟩, -⟩ := store_inj hg hw hw' h.symm
        obtain ⟨bx, by', bz⟩ := blockIdx
        obtain ⟨bx', by'', bz'⟩ := blockIdx'
        exact hne (by simp_all)

-- ============================================================================
-- The whole grid
-- ============================================================================

/-- Before the outputs are stored, only tiles are written. -/
theorem not_writes_turns {n i : Nat} : ¬ Writes ((List.range n).flatMap fun t =>
    turnPhases (g.fillPhase x blockIdx t) fun _ => g.tileCells blockIdx) (.c i) := by
  rintro ⟨f, hf, j, w, hw, hcell⟩
  obtain ⟨t, -, hf⟩ := List.mem_flatMap.mp hf
  rcases List.mem_pair.mp hf with rfl | rfl
  · rcases mem_fill_writes.mp hw with ⟨p, -, rfl⟩ | ⟨p, -, rfl⟩ <;> cases hcell
  · exact absurd hw List.not_mem_nil

/-- A thread stores each of its outputs once. -/
theorem countP_outputs (hg : g.Ok) {i : T} {p : Nat × Nat} (hp : p ∈ g.outputs i)
    (hrow : g.row blockIdx p < x.m) (hcol : g.col blockIdx p < x.n) :
    ((g.storePhase x blockIdx).writes i).countP
      (·.1 = .c (g.row blockIdx p * x.n + g.col blockIdx p)) = 1 := by
  unfold storePhase
  rw [countP_flatMap (hg.outputs.nodup i) hp]
  · rw [storeOutput, if_pos ⟨hrow, hcol⟩]
    simp
  · intro p' hne w hw
    refine decide_eq_false fun heq => hne ?_
    unfold storeOutput at hw
    split at hw
    · rename_i hin
      rw [List.mem_singleton.mp hw] at heq
      obtain ⟨hrows, hcols⟩ := index_inj hin.2 hcol (GemmCell.c.inj heq)
      exact Prod.ext (Nat.add_left_cancel hrows) (Nat.add_left_cancel hcols)
    · exact absurd hw List.not_mem_nil

theorem countP_block [Fintype T] (hg : g.Ok) {i : T} {p : Nat × Nat} (hp : p ∈ g.outputs i)
    (hrow : g.row blockIdx p < x.m) (hcol : g.col blockIdx p < x.n) :
    (blockWrites (g.phases x blockIdx)).countP
      (·.1 = .c (g.row blockIdx p * x.n + g.col blockIdx p)) = 1 := by
  rw [phases, countP_blockWrites_concat not_writes_turns, countP_allWrites,
    countP_outputs hg hp hrow hcol]
  intro j hne w hw heq
  exact hne (store_inj hg hw (mem_store_writes.mpr ⟨p, hp, ⟨hrow, hcol⟩, rfl⟩) heq).2.1

end Tiling

/-- The elements of the product. -/
def IsOutput (m n : Nat) (y : GemmCell) : Prop := ∃ i < m * n, y = .c i

/-- The memory with the product in it. -/
def GemmJob.product (x : GemmJob F) : GemmCell → F
  | .c i => x.dot (i / x.n) (i % x.n)
  | _ => 0

/-- An element belongs to a block and to one of its outputs. -/
theorem exists_place {m b row : Nat} (hb : 0 < b) (hrow : row < m) :
    row / b < (m + b - 1) / b ∧ row % b < b ∧ row = row / b * b + row % b := by
  refine ⟨?_, Nat.mod_lt row hb, (Nat.div_add_mod' row b).symm⟩
  rw [Nat.div_lt_iff_lt_mul hb]
  have hdiv := Nat.div_add_mod (m + b - 1) b
  have hmod := Nat.mod_lt (m + b - 1) hb
  rw [Nat.mul_comm] at hdiv
  omega

/-- A grid of blocks that work by tiles computes the product. -/
theorem Tiling.computes {l : Launch3 GemmCell F} {g : Tiling l.block.Index} (hg : g.Ok)
    (hbm : 0 < g.bm) (hbn : 0 < g.bn) (hx : l.grid.x = (x.n + g.bn - 1) / g.bn)
    (hy : l.grid.y = (x.m + g.bm - 1) / g.bm) (hz : l.grid.z = 1) [Nonempty l.block.Index]
    (hblock : ∀ b : l.grid.Index, ∀ μ, x.Holds μ → ∃ μ',
      BlockPerforms μ (fun i => l.kernel (.at b) (.at i)) (g.phases x (.at b)) μ' ∧
        ∀ i, ∀ w ∈ (g.storePhase x (.at b)).writes i, μ' w.1 = w.2) (hμ : x.Holds μ) :
    l.Computes GemmCell.IsGlobal (GemmCell.InBuffer x.m x.n x.k g.bm g.bn g.bk)
      (IsOutput x.m x.n) μ x.product := by
  have hplane (b b' : l.grid.Index) : (Dim3.at b).z = (Dim3.at b').z := by
    have hb := b.2.2.isLt
    have hb' := b'.2.2.isLt
    show (b.2.2 : Nat) = b'.2.2
    omega
  refine .of_grid (fun b => g.phases x (.at b)) (fun μ₀ hμ₀ => ?_)
    (fun b f hf i acc hacc => Tiling.has_inBuffer hg hf hacc) ?_ ?_
  · have hholds : x.Holds μ₀ :=
      ⟨fun i => (hμ₀ (.a i) trivial).trans (hμ.a i), fun i => (hμ₀ (.b i) trivial).trans (hμ.b i)⟩
    choose μ' hperforms hstored using fun b => hblock b μ₀ hholds
    refine ⟨μ', ⟨hperforms, fun b b' hne y hy => ?_⟩, fun b y htarget hwrites => ?_⟩
    · exact Tiling.blocks_apart hg (hplane b b') (fun heq => hne (Dim3.at_injective heq)) hy
    · rcases Tiling.writes_cell hwrites with ⟨r, c, rfl | rfl⟩ | ⟨i, w, hw, rfl⟩
      · obtain ⟨n, -, h⟩ := htarget
        cases h
      · obtain ⟨n, -, h⟩ := htarget
        cases h
      · rw [hstored b i w hw]
        obtain ⟨p, -, ⟨hrow, hcol⟩, rfl⟩ := Tiling.mem_store_writes.mp hw
        have hpos := Nat.zero_lt_of_lt hcol
        show _ = x.dot _ _
        rw [Nat.mul_comm, Nat.mul_add_div hpos, Nat.mul_add_mod, Nat.div_eq_of_lt hcol,
          Nat.mod_eq_of_lt hcol, Nat.add_zero]
  · rintro y ⟨n, hn, rfl⟩
    have hpos : 0 < x.n := Nat.pos_of_mul_pos_left (Nat.zero_lt_of_lt hn)
    have hrow : n / x.n < x.m := (Nat.div_lt_iff_lt_mul hpos).mpr hn
    have hcol : n % x.n < x.n := Nat.mod_lt n hpos
    obtain ⟨hby, hr, hrowEq⟩ := exists_place hbm hrow
    obtain ⟨hbx, hc, hcolEq⟩ := exists_place hbn hcol
    obtain ⟨i, hi⟩ := hg.outputs.exists_mem hr hc
    let b : l.grid.Index := ⟨⟨_, hx ▸ hbx⟩, ⟨_, hy ▸ hby⟩, ⟨0, hz ▸ Nat.one_pos⟩⟩
    have hrowEq : g.row (.at b) (n / x.n % g.bm, n % x.n % g.bn) = n / x.n := hrowEq.symm
    have hcolEq : g.col (.at b) (n / x.n % g.bm, n % x.n % g.bn) = n % x.n := hcolEq.symm
    refine ⟨b, ?_⟩
    have hcount := Tiling.countP_block hg hi (hrowEq.trans_lt hrow) (hcolEq.trans_lt hcol)
    rw [hrowEq, hcolEq, Nat.div_add_mod'] at hcount
    exact hcount
  · intro b y hwrites hglobal
    rcases Tiling.writes_cell hwrites with ⟨r, c, rfl | rfl⟩ | ⟨i, w, hw, rfl⟩
    · exact absurd hglobal id
    · exact absurd hglobal id
    · obtain ⟨p, -, ⟨hrow, hcol⟩, rfl⟩ := Tiling.mem_store_writes.mp hw
      exact ⟨_, index_lt hrow hcol, rfl⟩

end PassionProjects.Kernelforge
