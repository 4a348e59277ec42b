/-
  PassionProjects.Kernelforge.Gemm.GemmTiled

  `gemm_tiled_kernel` and its launcher.  A thread loads one element of each tile and
  computes one element of the product.
-/

import PassionProjects.Kernelforge.Gemm.TiledBlocks
import PassionProjects.Lib.Results

namespace PassionProjects.Kernelforge

open Kernels

def kGemmTileDim : Nat := 32

variable {F : Type} [Semiring F]

/-- The body of the loop over the tiles up to the first barrier. -/
def loadTiles (m n k row col : Nat) (blockIdx threadIdx : Dim3) (t : Nat) : GemmThread F Unit := do
  let aCol ← gemmInt (t * kGemmTileDim + threadIdx.x)
  let bRow ← gemmInt (t * kGemmTileDim + threadIdx.y)
  let av ← loadA m k row aCol
  store (.aTile blockIdx threadIdx.y threadIdx.x) av
  let bv ← loadB k n bRow col
  store (.bTile blockIdx threadIdx.y threadIdx.x) bv

def useTiles (blockIdx threadIdx : Dim3) (acc : F) : GemmThread F F :=
  (List.range kGemmTileDim).foldlM (fun acc kk => do
    let av ← load (.aTile blockIdx threadIdx.y kk)
    let bv ← load (.bTile blockIdx kk threadIdx.x)
    pure (acc + av * bv)) acc

def gemmTiledKernel (m n k : Nat) (blockIdx threadIdx : Dim3) : GemmThread F Unit := do
  let col ← gemmInt (blockIdx.x * kGemmTileDim + threadIdx.x)
  let row ← gemmInt (blockIdx.y * kGemmTileDim + threadIdx.y)
  let padded ← gemmInt (k + kGemmTileDim)
  let numKTiles := (padded - 1) / kGemmTileDim
  let acc ← (List.range numKTiles).foldlM (fun acc t => do
    loadTiles m n k row col blockIdx threadIdx t
    Program.barrier
    let acc ← useTiles blockIdx threadIdx acc
    Program.barrier
    let _ ← gemmInt (t + 1)
    pure acc) 0
  storeC m n row col acc

/-- `static_cast<unsigned>((size + tile - 1) / tile)`, in the host's `int`. -/
@[irreducible] def gridSize (size tile : Nat) : Nat :=
  CInt.unsigned ((CInt.int (CInt.int (size + tile) - 1)).tdiv tile)

def gemmTiledGrid (m n k : Nat) : Launch3 GemmCell F where
  grid := ⟨gridSize n kGemmTileDim, gridSize m kGemmTileDim, 1⟩
  block := ⟨kGemmTileDim, kGemmTileDim, 1⟩
  sharedBytes := 2 * (kGemmTileDim * kGemmTileDim) * 4
  kernel := gemmTiledKernel m n k

inductive GemmError where
  | cudaError
  deriving DecidableEq

/-- `gemm_tiled_launch` -/
def gemmTiledLaunch (m n k : Nat) : Raising.Prog GemmError (List (Launch3 GemmCell F)) Unit :=
  if m = 0 ∨ n = 0 then pure () else Launch3.submit .cudaError (gemmTiledGrid m n k)

-- ============================================================================
-- The grid
-- ============================================================================

/-- Where `size + tile` is one more than the largest `int`, taking one away leads back. -/
theorem gridSize_eq {size tile : Nat} (hpos : 0 < tile) (htile : tile ≤ 64)
    (hsize : size ≤ 2 ^ 31 - 64) : gridSize size tile = (size + tile - 1) / tile := by
  have hsum : CInt.int (CInt.int ((size : Int) + tile) - 1) = ((size + tile - 1 : Nat) : Int) := by
    have hwrap :
        CInt.int (CInt.int ((size : Int) + tile) - 1) = CInt.int ((size : Int) + tile - 1) :=
      Int.bmod_sub_bmod
    rw [hwrap, CInt.int_of_lt (by omega) (by omega)]
    omega
  unfold gridSize
  rw [hsum, ← Int.ofNat_tdiv]
  refine CInt.unsigned_of_lt ?_
  have hle := Nat.div_le_self (size + tile - 1) tile
  omega

-- ============================================================================
-- What the threads do
-- ============================================================================

namespace GemmTiled

variable {x : GemmJob F} {blockIdx : Dim3} {μ : GemmCell → F}

abbrev Thread := Fin kGemmTileDim × Fin kGemmTileDim × Fin 1

/-- A thread has the same place in both tiles and in the output. -/
def tiling : Tiling Thread where
  bm := kGemmTileDim
  bn := kGemmTileDim
  bk := kGemmTileDim
  aCells i := [(i.2.1, i.1)]
  bCells i := [(i.2.1, i.1)]
  outputs i := [(i.2.1, i.1)]

theorem shares : Shares (fun i : Thread => [((i.2.1 : Nat), (i.1 : Nat))]) kGemmTileDim
    kGemmTileDim where
  lt {i p} hp := by
    rw [List.mem_singleton.mp hp]
    exact ⟨i.2.1.isLt, i.1.isLt⟩
  exists_mem {r} hr {c} hc := ⟨⟨⟨c, hc⟩, ⟨r, hr⟩, 0⟩, List.mem_singleton_self _⟩
  unique {i j p} hi hj := by
    have heq := (List.mem_singleton.mp hi).symm.trans (List.mem_singleton.mp hj)
    obtain ⟨hy, hx⟩ := Prod.mk.inj heq
    exact Prod.ext (Fin.ext hx) (Prod.ext (Fin.ext hy) (Subsingleton.elim _ _))
  nodup i := List.nodup_singleton _

theorem tiling_ok : tiling.Ok := ⟨shares, shares, shares⟩

/-- What a thread has added up before turn `t`. -/
def accBefore (x : GemmJob F) (blockIdx : Dim3) (i : Thread) (t : Nat) : F :=
  x.upTo (t * kGemmTileDim) (blockIdx.y * kGemmTileDim + i.2.1) (blockIdx.x * kGemmTileDim + i.1)

theorem loadTiles_performs (hμ : x.Holds μ) {t : Nat}
    (ht : t * kGemmTileDim + kGemmTileDim < 2 ^ 31)
    (i : Thread) :
    Performs x.inputs μ (loadTiles x.m x.n x.k (blockIdx.y * kGemmTileDim + i.2.1)
        (blockIdx.x * kGemmTileDim + i.1) blockIdx (Dim3.at (d := ⟨_, _, _⟩) i) t)
      ((tiling.fillPhase x blockIdx t).writes i) (.ret ()) := by
  have hx := i.1.isLt
  have hy := i.2.1.isLt
  unfold loadTiles gemmInt
  have haCol : t * kGemmTileDim + (Dim3.at (d := ⟨_, _, _⟩) i).x < 2 ^ 31 := by
    show t * kGemmTileDim + i.1 < 2 ^ 31
    omega
  have hbRow : t * kGemmTileDim + (Dim3.at (d := ⟨_, _, _⟩) i).y < 2 ^ 31 := by
    show t * kGemmTileDim + i.2.1 < 2 ^ 31
    omega
  rw [evalInt_of_lt haCol, evalInt_of_lt hbRow]
  refine (loadA_performs hμ _ _).bind_read ?_
  refine .store_bind ((loadB_performs (hμ.write id _) _ _).bind_read (.store _ _))

theorem useTiles_performs {t : Nat} (hμ : tiling.Filled x blockIdx t μ) (i : Thread) :
    Performs (tiling.tileCells blockIdx) μ
      (useTiles blockIdx (Dim3.at (d := ⟨_, _, _⟩) i) (accBefore x blockIdx i t)) []
      (.ret (accBefore x blockIdx i (t + 1))) := by
  have hloop : Performs (tiling.tileCells blockIdx) μ
      ((List.range kGemmTileDim).foldlM (fun acc kk => do
        let av ← load (.aTile blockIdx i.2.1 kk)
        let bv ← load (.bTile blockIdx kk i.1)
        pure (acc + av * bv)) (x.upTo (t * kGemmTileDim + 0)
          (blockIdx.y * kGemmTileDim + i.2.1) (blockIdx.x * kGemmTileDim + i.1))) []
      (.ret (x.upTo (t * kGemmTileDim + kGemmTileDim) (blockIdx.y * kGemmTileDim + i.2.1)
        (blockIdx.x * kGemmTileDim + i.1))) := by
    refine Performs.range_read (f := fun kk => x.upTo (t * kGemmTileDim + kk)
      (blockIdx.y * kGemmTileDim + i.2.1) (blockIdx.x * kGemmTileDim + i.1)) fun kk hkk => ?_
    have ha : GemmCell.aTile blockIdx i.2.1 kk ∈ tiling.tileCells blockIdx :=
      .inl ⟨_, i.2.1.isLt, _, hkk, rfl⟩
    have hb : GemmCell.bTile blockIdx kk i.1 ∈ tiling.tileCells blockIdx :=
      .inr ⟨_, hkk, _, i.1.isLt, rfl⟩
    refine .load_bind ha (.load_bind hb ?_)
    rw [hμ.a _ i.2.1.isLt _ hkk, hμ.b _ hkk _ i.1.isLt, ← Nat.add_assoc, upTo_succ]
    exact .here
  unfold accBefore
  rw [Nat.succ_mul]
  exact hloop

theorem drives (hk : x.k ≤ 2 ^ 31 - 64) : tiling.Drives x blockIdx (accBefore x blockIdx)
    (fun i => loadTiles x.m x.n x.k (blockIdx.y * kGemmTileDim + i.2.1)
      (blockIdx.x * kGemmTileDim + i.1) blockIdx (Dim3.at (d := ⟨_, _, _⟩) i))
    (fun i acc _ => useTiles blockIdx (Dim3.at (d := ⟨_, _, _⟩) i) acc)
    (fun _ acc t => do
      let _ ← gemmInt (t + 1)
      pure acc)
    (fun i acc => storeC x.m x.n (blockIdx.y * kGemmTileDim + i.2.1)
      (blockIdx.x * kGemmTileDim + i.1) acc) := by
  have hturn : ∀ t < tiling.turns x, t * kGemmTileDim + kGemmTileDim < 2 ^ 31 := by
    intro t ht
    have ht : t < (x.k + kGemmTileDim - 1) / kGemmTileDim := ht
    unfold kGemmTileDim at ht ⊢
    omega
  constructor
  · exact fun t ht μ hμ i => loadTiles_performs hμ (hturn t ht) i
  · exact fun t _ μ hμ i => useTiles_performs hμ i
  · intro t ht i
    have hlt := hturn t ht
    have hnext : t + 1 < 2 ^ 31 := by
      unfold kGemmTileDim at hlt
      omega
    rw [gemmInt, evalInt_of_lt hnext]
    rfl
  · intro i μ
    have hcovers : x.k ≤ tiling.turns x * kGemmTileDim := le_turns tiling (by decide)
    have hstore := storeC_performs tiling blockIdx (i.2.1, i.1)
      (v := accBefore x blockIdx i (tiling.turns x))
      (fun hrow hcol => upTo_eq_dot hcovers hrow hcol) μ
    have hwrites : (tiling.storePhase x blockIdx).writes i =
        tiling.storeOutput x blockIdx (i.2.1, i.1)
          (x.dot (tiling.row blockIdx (i.2.1, i.1)) (tiling.col blockIdx (i.2.1, i.1))) :=
      List.flatMap_singleton _ _
    rw [hwrites]
    exact hstore

/-- A block of the kernel, at a place where its outputs have `int` indices. -/
theorem block_performs (hk : x.k ≤ 2 ^ 31 - 64)
    (hrows : blockIdx.y * kGemmTileDim + kGemmTileDim ≤ 2 ^ 31)
    (hcols : blockIdx.x * kGemmTileDim + kGemmTileDim ≤ 2 ^ 31) (hμ : x.Holds μ) :
    ∃ μ', BlockPerforms μ (fun i : Thread =>
        gemmTiledKernel x.m x.n x.k blockIdx (Dim3.at (d := ⟨_, _, _⟩) i))
      (tiling.phases x blockIdx) μ' ∧
        ∀ i, ∀ w ∈ (tiling.storePhase x blockIdx).writes i, μ' w.1 = w.2 := by
  have hkernel : (fun i : Thread =>
      gemmTiledKernel x.m x.n x.k blockIdx (Dim3.at (d := ⟨_, _, _⟩) i)) = fun i =>
      (List.range (tiling.turns x)).foldlM (fun acc t => do
        loadTiles x.m x.n x.k (blockIdx.y * kGemmTileDim + i.2.1)
          (blockIdx.x * kGemmTileDim + i.1) blockIdx (Dim3.at (d := ⟨_, _, _⟩) i) t
        Program.barrier
        let acc ← useTiles blockIdx (Dim3.at (d := ⟨_, _, _⟩) i) acc
        Program.barrier
        let _ ← gemmInt (t + 1)
        pure acc) (accBefore x blockIdx i 0) >>= fun acc =>
          storeC x.m x.n (blockIdx.y * kGemmTileDim + i.2.1)
            (blockIdx.x * kGemmTileDim + i.1) acc := by
    funext i
    have hx := i.1.isLt
    have hy := i.2.1.isLt
    have hcol : blockIdx.x * kGemmTileDim + (Dim3.at (d := ⟨_, _, _⟩) i).x < 2 ^ 31 := by
      show blockIdx.x * kGemmTileDim + i.1 < 2 ^ 31
      omega
    have hrow : blockIdx.y * kGemmTileDim + (Dim3.at (d := ⟨_, _, _⟩) i).y < 2 ^ 31 := by
      show blockIdx.y * kGemmTileDim + i.2.1 < 2 ^ 31
      omega
    have hpadded : x.k + kGemmTileDim < 2 ^ 31 := by
      unfold kGemmTileDim
      omega
    unfold gemmTiledKernel
    rw [gemmInt, evalInt_of_lt hcol, gemmInt, evalInt_of_lt hrow, gemmInt, evalInt_of_lt hpadded]
    have hzero : accBefore x blockIdx i 0 = 0 := by
      rw [accBefore, Nat.zero_mul, upTo_zero]
    rw [hzero]
    rfl
  rw [hkernel]
  exact (drives hk).block_performs tiling_ok hμ

end GemmTiled

/-- The places of a grid along one side are below `2 ^ 31`. -/
theorem place_le {size tile i : Nat} (hpos : 0 < tile) (htile : tile ≤ 64)
    (hsize : size ≤ 2 ^ 31 - 64) (hi : i < (size + tile - 1) / tile) :
    i * tile + tile ≤ 2 ^ 31 := by
  have hle := (Nat.le_div_iff_mul_le hpos).mp hi
  rw [Nat.succ_mul] at hle
  omega

theorem gemmTiled_computes {x : GemmJob F} (hm : x.m ≤ 2 ^ 31 - 64) (hn : x.n ≤ 2 ^ 31 - 64)
    (hk : x.k ≤ 2 ^ 31 - 64) {μ : GemmCell → F} (hμ : x.Holds μ) :
    (gemmTiledGrid x.m x.n x.k).Computes GemmCell.IsGlobal
      (GemmCell.InBuffer x.m x.n x.k kGemmTileDim kGemmTileDim kGemmTileDim)
      (IsOutput x.m x.n) μ x.product := by
  have hpos : 0 < kGemmTileDim := by decide
  have htile : kGemmTileDim ≤ 64 := by decide
  have hnonempty : Nonempty (gemmTiledGrid (F := F) x.m x.n x.k).block.Index :=
    ⟨(⟨0, hpos⟩, ⟨0, hpos⟩, ⟨0, Nat.one_pos⟩)⟩
  have hx : (gemmTiledGrid (F := F) x.m x.n x.k).grid.x =
      (x.n + kGemmTileDim - 1) / kGemmTileDim := gridSize_eq hpos htile hn
  have hy : (gemmTiledGrid (F := F) x.m x.n x.k).grid.y =
      (x.m + kGemmTileDim - 1) / kGemmTileDim := gridSize_eq hpos htile hm
  have hz : (gemmTiledGrid (F := F) x.m x.n x.k).grid.z = 1 := rfl
  refine Tiling.computes GemmTiled.tiling_ok hpos hpos hx hy hz (fun b μ hμ => ?_) hμ
  exact GemmTiled.block_performs hk (place_le hpos htile hm (b.2.1.isLt.trans_eq hy))
    (place_le hpos htile hn (b.1.isLt.trans_eq hx)) hμ

end PassionProjects.Kernelforge
