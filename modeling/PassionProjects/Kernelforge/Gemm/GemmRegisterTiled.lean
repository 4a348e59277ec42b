/-
  PassionProjects.Kernelforge.Gemm.GemmRegisterTiled

  `gemm_register_tiled_kernel` and its launcher.  The threads fill the tiles together, and
  each computes eight elements of one column of the product.
-/

import PassionProjects.Kernelforge.Gemm.GemmTiled

namespace PassionProjects.Kernelforge

open Kernels

def kGemmRegBM : Nat := 64

def kGemmRegBN : Nat := 64

def kGemmRegBK : Nat := 16

def kGemmRegTM : Nat := 8

def kGemmRegBlockThreads : Nat := kGemmRegBM / kGemmRegTM * kGemmRegBN

variable {F : Type} [Semiring F]

def loadATile (m k blockRow0 k0 : Nat) (blockIdx : Dim3) (tid : Nat) : GemmThread F Unit :=
  forStrided .overflow tid (kGemmRegBM * kGemmRegBK) kGemmRegBlockThreads fun idx => do
    let r := idx / kGemmRegBK
    let cLocal := idx % kGemmRegBK
    let gRow ← gemmInt (blockRow0 + r)
    let gCol ← gemmInt (k0 + cLocal)
    let v ← loadA m k gRow gCol
    store (.aTile blockIdx r cLocal) v

def loadBTile (n k k0 : Nat) (blockIdx : Dim3) (tid : Nat) : GemmThread F Unit :=
  forStrided .overflow tid (kGemmRegBK * kGemmRegBN) kGemmRegBlockThreads fun idx => do
    let r := idx / kGemmRegBN
    let cLocal := idx % kGemmRegBN
    let gRow ← gemmInt (k0 + r)
    let gCol ← gemmInt (blockIdx.x * kGemmRegBN + cLocal)
    let v ← loadB k n gRow gCol
    store (.bTile blockIdx r cLocal) v

/-- One element of `b_tile` is used for all rows of the thread. -/
def useRow (blockIdx : Dim3) (threadRow kk : Nat) (bVal : F) (acc : Nat → F) :
    GemmThread F (Nat → F) :=
  (List.range kGemmRegTM).foldlM (fun acc i => do
    let tileRow ← gemmInt (threadRow * kGemmRegTM + i)
    let av ← load (.aTile blockIdx tileRow kk)
    pure (Function.update acc i (acc i + av * bVal))) acc

def useRegTiles (blockIdx : Dim3) (threadRow threadCol : Nat) (acc : Nat → F) :
    GemmThread F (Nat → F) :=
  (List.range kGemmRegBK).foldlM (fun acc kk => do
    let bVal ← load (.bTile blockIdx kk threadCol)
    useRow blockIdx threadRow kk bVal acc) acc

def storeRows (m n blockRow0 threadRow col : Nat) (acc : Nat → F) : GemmThread F Unit :=
  (List.range kGemmRegTM).forM fun i => do
    let row ← gemmInt (blockRow0 + threadRow * kGemmRegTM + i)
    storeC m n row col (acc i)

def gemmRegisterTiledKernel (m n k : Nat) (blockIdx threadIdx : Dim3) : GemmThread F Unit := do
  let tid := threadIdx.x
  let threadRow := tid / kGemmRegBN
  let threadCol := tid % kGemmRegBN
  let blockRow0 ← gemmInt (blockIdx.y * kGemmRegBM)
  let col ← gemmInt (blockIdx.x * kGemmRegBN + threadCol)
  let padded ← gemmInt (k + kGemmRegBK)
  let numKTiles := (padded - 1) / kGemmRegBK
  let acc ← (List.range numKTiles).foldlM (fun acc t => do
    (do let k0 ← gemmInt (t * kGemmRegBK)
        loadATile m k blockRow0 k0 blockIdx tid
        loadBTile n k k0 blockIdx tid)
    Program.barrier
    let acc ← useRegTiles blockIdx threadRow threadCol acc
    Program.barrier
    let _ ← gemmInt (t + 1)
    pure acc) fun _ => 0
  storeRows m n blockRow0 threadRow col acc

def gemmRegisterTiledGrid (m n k : Nat) : Launch3 GemmCell F where
  grid := ⟨gridSize n kGemmRegBN, gridSize m kGemmRegBM, 1⟩
  block := ⟨kGemmRegBlockThreads, 1, 1⟩
  sharedBytes := (kGemmRegBM * kGemmRegBK + kGemmRegBK * kGemmRegBN) * 4
  kernel := gemmRegisterTiledKernel m n k

/-- `gemm_register_tiled_launch` -/
def gemmRegisterTiledLaunch (m n k : Nat) :
    Raising.Prog GemmError (List (Launch3 GemmCell F)) Unit :=
  if m = 0 ∨ n = 0 then pure () else Launch3.submit .cudaError (gemmRegisterTiledGrid m n k)

namespace GemmRegisterTiled

variable {x : GemmJob F} {blockIdx : Dim3} {μ : GemmCell → F}

abbrev Thread := Fin kGemmRegBlockThreads × Fin 1 × Fin 1

/-- The places of a rectangle that come to a thread by its number, one round after another. -/
def places (rows cols : Nat) (i : Thread) : List (Nat × Nat) :=
  (strided i.1 (rows * cols) kGemmRegBlockThreads).map fun idx => (idx / cols, idx % cols)

/-- The threads are numbered row by row, eight rows of the output to a row of threads. -/
def tiling : Tiling Thread where
  bm := kGemmRegBM
  bn := kGemmRegBN
  bk := kGemmRegBK
  aCells := places kGemmRegBM kGemmRegBK
  bCells := places kGemmRegBK kGemmRegBN
  outputs i := (List.range kGemmRegTM).map fun j =>
    (i.1 / kGemmRegBN * kGemmRegTM + j, i.1 % kGemmRegBN)

theorem blockThreads_pos : 0 < kGemmRegBlockThreads := by decide

theorem mem_places {rows cols : Nat} {i : Thread} {p : Nat × Nat} :
    p ∈ places rows cols i ↔ ∃ idx, (idx < rows * cols ∧ idx % kGemmRegBlockThreads = i.1) ∧
      (idx / cols, idx % cols) = p := by
  simp only [places, List.mem_map, mem_strided blockThreads_pos i.1.isLt]

theorem divMod_inj {cols idx idx' : Nat}
    (h : (idx / cols, idx % cols) = (idx' / cols, idx' % cols)) : idx = idx' := by
  obtain ⟨hdiv, hmod⟩ := Prod.mk.inj h
  rw [← Nat.div_add_mod idx cols, ← Nat.div_add_mod idx' cols, hdiv, hmod]

theorem shares_places {rows cols : Nat} (hcols : 0 < cols) :
    Shares (places rows cols) rows cols where
  lt {i p} hp := by
    obtain ⟨idx, ⟨hlt, -⟩, rfl⟩ := mem_places.mp hp
    exact ⟨(Nat.div_lt_iff_lt_mul hcols).mpr hlt, Nat.mod_lt idx hcols⟩
  exists_mem {r} hr {c} hc := by
    refine ⟨(⟨(r * cols + c) % kGemmRegBlockThreads, Nat.mod_lt _ blockThreads_pos⟩, 0, 0),
      mem_places.mpr ⟨r * cols + c, ⟨index_lt hr hc, rfl⟩, ?_⟩⟩
    rw [Nat.mul_comm, Nat.mul_add_div hcols, Nat.mul_add_mod, Nat.div_eq_of_lt hc,
      Nat.mod_eq_of_lt hc, Nat.add_zero]
  unique {i j p} hi hj := by
    obtain ⟨idx, ⟨-, hidx⟩, rfl⟩ := mem_places.mp hi
    obtain ⟨idx', ⟨-, hidx'⟩, heq⟩ := mem_places.mp hj
    obtain rfl := divMod_inj heq
    exact Prod.ext (Fin.ext (hidx.symm.trans hidx')) (Subsingleton.elim _ _)
  nodup i := (nodup_strided blockThreads_pos).map fun _ _ => divMod_inj

theorem shares_outputs : Shares tiling.outputs kGemmRegBM kGemmRegBN where
  lt {i p} hp := by
    obtain ⟨j, hj, rfl⟩ := List.mem_map.mp hp
    have hi := i.1.isLt
    have hj := List.mem_range.mp hj
    unfold kGemmRegBlockThreads at hi
    unfold kGemmRegBM kGemmRegBN kGemmRegTM at *
    exact ⟨by omega, by omega⟩
  exists_mem {r} hr {c} hc := by
    have hlt : r / kGemmRegTM * kGemmRegBN + c < kGemmRegBlockThreads := by
      unfold kGemmRegBlockThreads
      unfold kGemmRegBM kGemmRegBN kGemmRegTM at *
      omega
    refine ⟨(⟨r / kGemmRegTM * kGemmRegBN + c, hlt⟩, 0, 0), List.mem_map.mpr
      ⟨r % kGemmRegTM, List.mem_range.mpr (Nat.mod_lt r (by decide)), ?_⟩⟩
    show ((r / kGemmRegTM * kGemmRegBN + c) / kGemmRegBN * kGemmRegTM + r % kGemmRegTM,
      (r / kGemmRegTM * kGemmRegBN + c) % kGemmRegBN) = (r, c)
    unfold kGemmRegBM kGemmRegBN kGemmRegTM at *
    exact Prod.ext (by omega) (by omega)
  unique {i j p} hi hj := by
    obtain ⟨a, ha, rfl⟩ := List.mem_map.mp hi
    obtain ⟨b, hb, heq⟩ := List.mem_map.mp hj
    obtain ⟨hrow, hcol⟩ := Prod.mk.inj heq
    have ha := List.mem_range.mp ha
    have hb := List.mem_range.mp hb
    refine Prod.ext (Fin.ext ?_) (Subsingleton.elim _ _)
    unfold kGemmRegBN kGemmRegTM at *
    omega
  nodup i := List.nodup_range.map fun j j' heq => by
    have hrow := (Prod.mk.inj heq).1
    omega

theorem tiling_ok : tiling.Ok :=
  ⟨shares_places (by decide), shares_places (by decide), shares_outputs⟩

-- ============================================================================
-- Filling the tiles
-- ============================================================================

omit [Semiring F] in
/-- A loop over places that reads the factors and fills one cell for each. -/
theorem fill_performs {rows cols : Nat} {i : Thread} {body : Nat → GemmThread F Unit}
    {w : Nat × Nat → GemmCell × F} (hμ : x.Holds μ) (hsize : rows * cols = 1024)
    (hw : ∀ p, ¬ (w p).1.IsGlobal)
    (hbody : ∀ idx < 1024, ∀ ν, x.Holds ν →
      Performs x.inputs ν (body idx) [w (idx / cols, idx % cols)] (.ret ())) :
    Performs x.inputs μ
      (forStrided .overflow i.1 (rows * cols) kGemmRegBlockThreads body)
      ((places rows cols i).map w) (.ret ()) := by
  rw [forStrided_eq blockThreads_pos (by rw [hsize]; decide), places, List.map_map,
    List.map_eq_flatMap]
  refine Performs.forM (fun idx hidx ν hν => ?_) fun idx _ w' hw' hmem => ?_
  · have hlt := lt_of_mem_strided blockThreads_pos hidx
    exact (hbody idx (hsize ▸ hlt) μ hμ).congr hν
  · rw [List.mem_singleton.mp hw'] at hmem
    rcases hmem with ⟨n, -, h⟩ | ⟨n, -, h⟩
    · exact hw _ (by rw [Function.comp_apply] at h; rw [h]; trivial)
    · exact hw _ (by rw [Function.comp_apply] at h; rw [h]; trivial)

theorem loadATile_performs (hμ : x.Holds μ) {t : Nat}
    (hrows : blockIdx.y * kGemmRegBM + kGemmRegBM ≤ 2 ^ 31)
    (ht : t * kGemmRegBK + kGemmRegBK < 2 ^ 31) (i : Thread) :
    Performs x.inputs μ
      (loadATile x.m x.k (blockIdx.y * kGemmRegBM) (t * kGemmRegBK) blockIdx i.1)
      ((places kGemmRegBM kGemmRegBK i).map fun p => (.aTile blockIdx p.1 p.2,
        x.aAt (blockIdx.y * kGemmRegBM + p.1) (t * kGemmRegBK + p.2))) (.ret ()) := by
  refine fill_performs hμ rfl (fun p h => h) fun idx hidx ν hν => ?_
  have hrow : blockIdx.y * kGemmRegBM + idx / kGemmRegBK < 2 ^ 31 := by
    unfold kGemmRegBM kGemmRegBK at *
    omega
  have hcol : t * kGemmRegBK + idx % kGemmRegBK < 2 ^ 31 := by
    unfold kGemmRegBK at *
    omega
  dsimp only [gemmInt]
  rw [evalInt_of_lt hrow, evalInt_of_lt hcol]
  exact (loadA_performs hν _ _).bind_read (.store _ _)

theorem loadBTile_performs (hμ : x.Holds μ) {t : Nat}
    (hcols : blockIdx.x * kGemmRegBN + kGemmRegBN ≤ 2 ^ 31)
    (ht : t * kGemmRegBK + kGemmRegBK < 2 ^ 31) (i : Thread) :
    Performs x.inputs μ
      (loadBTile x.n x.k (t * kGemmRegBK) blockIdx i.1)
      ((places kGemmRegBK kGemmRegBN i).map fun p => (.bTile blockIdx p.1 p.2,
        x.bAt (t * kGemmRegBK + p.1) (blockIdx.x * kGemmRegBN + p.2))) (.ret ()) := by
  refine fill_performs hμ rfl (fun p h => h) fun idx hidx ν hν => ?_
  have hrow : t * kGemmRegBK + idx / kGemmRegBN < 2 ^ 31 := by
    unfold kGemmRegBN kGemmRegBK at *
    omega
  have hcol : blockIdx.x * kGemmRegBN + idx % kGemmRegBN < 2 ^ 31 := by
    unfold kGemmRegBN at *
    omega
  dsimp only [gemmInt]
  rw [evalInt_of_lt hrow, evalInt_of_lt hcol]
  exact (loadB_performs hν _ _).bind_read (.store _ _)

theorem load_performs (hμ : x.Holds μ) {t : Nat}
    (hrows : blockIdx.y * kGemmRegBM + kGemmRegBM ≤ 2 ^ 31)
    (hcols : blockIdx.x * kGemmRegBN + kGemmRegBN ≤ 2 ^ 31)
    (ht : t * kGemmRegBK + kGemmRegBK < 2 ^ 31) (i : Thread) :
    Performs x.inputs μ (do
        let k0 ← gemmInt (t * kGemmRegBK)
        loadATile x.m x.k (blockIdx.y * kGemmRegBM) k0 blockIdx i.1
        loadBTile x.n x.k k0 blockIdx i.1)
      ((tiling.fillPhase x blockIdx t).writes i) (.ret ()) := by
  have hk0 : t * kGemmRegBK < 2 ^ 31 := by omega
  rw [gemmInt, evalInt_of_lt hk0]
  refine (loadATile_performs hμ hrows ht i).bind ((loadBTile_performs hμ hcols ht i).congr ?_)
  -- the cells of `a_tile` are no inputs
  rintro y hy
  refine replay_of_not_mem (fun w hw heq => ?_) μ
  obtain ⟨p, -, rfl⟩ := List.mem_map.mp hw
  rcases hy with ⟨n, -, rfl⟩ | ⟨n, -, rfl⟩ <;> cases heq

-- ============================================================================
-- Using the tiles
-- ============================================================================

/-- The accumulators of a thread: the first `i` have `c + 1` places behind them, the others
    `c`. -/
def regAcc (x : GemmJob F) (row0 col c i : Nat) : Nat → F := fun j =>
  if j < kGemmRegTM then x.upTo (if j < i then c + 1 else c) (row0 + j) col else 0

theorem regAcc_all (row0 col c : Nat) :
    regAcc x row0 col c kGemmRegTM = regAcc x row0 col (c + 1) 0 := by
  funext j
  unfold regAcc
  by_cases hj : j < kGemmRegTM
  · simp [hj]
  · simp [hj]

theorem regAcc_update {row0 col c i : Nat} (hi : i < kGemmRegTM) :
    Function.update (regAcc x row0 col c i) i
      (regAcc x row0 col c i i + x.aAt (row0 + i) c * x.bAt c col) =
        regAcc x row0 col c (i + 1) := by
  funext j
  unfold regAcc
  rcases eq_or_ne j i with rfl | hne
  · rw [Function.update_self]
    simp [hi, upTo_succ]
  · rw [Function.update_of_ne hne]
    have hiff : j < i ↔ j < i + 1 := by omega
    simp only [hiff]

variable {i : Thread}

/-- The rows of a thread begin here. -/
def rowOrigin (blockIdx : Dim3) (i : Thread) : Nat :=
  blockIdx.y * kGemmRegBM + i.1 / kGemmRegBN * kGemmRegTM

def colOf (blockIdx : Dim3) (i : Thread) : Nat := blockIdx.x * kGemmRegBN + i.1 % kGemmRegBN

theorem tileRow_lt {j : Nat} (hj : j < kGemmRegTM) :
    i.1 / kGemmRegBN * kGemmRegTM + j < kGemmRegBM := by
  have hi := i.1.isLt
  unfold kGemmRegBlockThreads at hi
  unfold kGemmRegBM kGemmRegBN kGemmRegTM at *
  omega

theorem useRow_performs {t kk : Nat} (hμ : tiling.Filled x blockIdx t μ) (hkk : kk < kGemmRegBK) :
    Performs (tiling.tileCells blockIdx) μ
      (useRow blockIdx (i.1 / kGemmRegBN) kk (x.bAt (t * kGemmRegBK + kk) (colOf blockIdx i))
        (regAcc x (rowOrigin blockIdx i) (colOf blockIdx i) (t * kGemmRegBK + kk) 0)) []
      (.ret (regAcc x (rowOrigin blockIdx i) (colOf blockIdx i) (t * kGemmRegBK + kk + 1) 0)) := by
  rw [← regAcc_all]
  refine Performs.range_read (f := fun j =>
    regAcc x (rowOrigin blockIdx i) (colOf blockIdx i) (t * kGemmRegBK + kk) j) fun j hj => ?_
  have hrow : i.1 / kGemmRegBN * kGemmRegTM + j < kGemmRegBM := tileRow_lt hj
  have hint : i.1 / kGemmRegBN * kGemmRegTM + j < 2 ^ 31 := by
    unfold kGemmRegBM at hrow
    omega
  have hmem : GemmCell.aTile blockIdx (i.1 / kGemmRegBN * kGemmRegTM + j) kk ∈
      tiling.tileCells blockIdx := .inl ⟨_, hrow, _, hkk, rfl⟩
  rw [gemmInt, evalInt_of_lt hint]
  refine .load_bind hmem ?_
  rw [hμ.a _ hrow _ hkk, ← regAcc_update hj, rowOrigin, Nat.add_assoc]
  exact .here

theorem useRegTiles_performs {t : Nat} (hμ : tiling.Filled x blockIdx t μ) :
    Performs (tiling.tileCells blockIdx) μ
      (useRegTiles blockIdx (i.1 / kGemmRegBN) (i.1 % kGemmRegBN)
        (regAcc x (rowOrigin blockIdx i) (colOf blockIdx i) (t * kGemmRegBK) 0)) []
      (.ret (regAcc x (rowOrigin blockIdx i) (colOf blockIdx i) ((t + 1) * kGemmRegBK) 0)) := by
  rw [Nat.succ_mul]
  refine Performs.range_read (f := fun kk =>
    regAcc x (rowOrigin blockIdx i) (colOf blockIdx i) (t * kGemmRegBK + kk) 0) fun kk hkk => ?_
  have hcol : i.1 % kGemmRegBN < kGemmRegBN := Nat.mod_lt _ (by decide)
  have hmem : GemmCell.bTile blockIdx kk (i.1 % kGemmRegBN) ∈ tiling.tileCells blockIdx :=
    .inr ⟨_, hkk, _, hcol, rfl⟩
  refine .load_bind hmem ?_
  rw [hμ.b _ hkk _ hcol]
  exact useRow_performs hμ hkk

-- ============================================================================
-- A block
-- ============================================================================

theorem storeRows_performs (hrows : blockIdx.y * kGemmRegBM + kGemmRegBM ≤ 2 ^ 31) {c : Nat}
    (hc : x.k ≤ c) (μ : GemmCell → F) :
    Performs ∅ μ (storeRows x.m x.n (blockIdx.y * kGemmRegBM) (i.1 / kGemmRegBN)
        (colOf blockIdx i) (regAcc x (rowOrigin blockIdx i) (colOf blockIdx i) c 0))
      ((tiling.storePhase x blockIdx).writes i) (.ret ()) := by
  have hwrites : (tiling.storePhase x blockIdx).writes i =
      (List.range kGemmRegTM).flatMap fun j => tiling.storeOutput x blockIdx
        (i.1 / kGemmRegBN * kGemmRegTM + j, i.1 % kGemmRegBN)
        (x.dot (tiling.row blockIdx (i.1 / kGemmRegBN * kGemmRegTM + j, i.1 % kGemmRegBN))
          (tiling.col blockIdx (i.1 / kGemmRegBN * kGemmRegTM + j, i.1 % kGemmRegBN))) :=
    List.flatMap_map _ _ _
  rw [hwrites]
  refine Performs.forM (fun j hj ν _ => ?_) fun j _ w _ hmem => hmem
  have hj := List.mem_range.mp hj
  have hrow : i.1 / kGemmRegBN * kGemmRegTM + j < kGemmRegBM := tileRow_lt hj
  have hint : blockIdx.y * kGemmRegBM + i.1 / kGemmRegBN * kGemmRegTM + j < 2 ^ 31 := by omega
  rw [gemmInt, evalInt_of_lt hint]
  have hassoc : blockIdx.y * kGemmRegBM + i.1 / kGemmRegBN * kGemmRegTM + j =
      tiling.row blockIdx (i.1 / kGemmRegBN * kGemmRegTM + j, i.1 % kGemmRegBN) :=
    Nat.add_assoc _ _ _
  have hacc (hlt : tiling.row blockIdx (i.1 / kGemmRegBN * kGemmRegTM + j, i.1 % kGemmRegBN) < x.m)
      (hcol : colOf blockIdx i < x.n) :
      regAcc x (rowOrigin blockIdx i) (colOf blockIdx i) c 0 j =
        x.dot (tiling.row blockIdx (i.1 / kGemmRegBN * kGemmRegTM + j, i.1 % kGemmRegBN))
          (colOf blockIdx i) := by
    unfold regAcc
    rw [if_pos hj, if_neg (Nat.not_lt_zero j), rowOrigin, hassoc]
    exact upTo_eq_dot hc hlt hcol
  have hstore := storeC_performs tiling blockIdx
    (i.1 / kGemmRegBN * kGemmRegTM + j, i.1 % kGemmRegBN) hacc ν
  rw [← hassoc] at hstore
  rw [← hassoc]
  exact hstore

theorem drives (hk : x.k ≤ 2 ^ 31 - 64)
    (hrows : blockIdx.y * kGemmRegBM + kGemmRegBM ≤ 2 ^ 31)
    (hcols : blockIdx.x * kGemmRegBN + kGemmRegBN ≤ 2 ^ 31) :
    tiling.Drives x blockIdx
      (fun i t => regAcc x (rowOrigin blockIdx i) (colOf blockIdx i) (t * kGemmRegBK) 0)
      (fun i t => do
        let k0 ← gemmInt (t * kGemmRegBK)
        loadATile x.m x.k (blockIdx.y * kGemmRegBM) k0 blockIdx i.1
        loadBTile x.n x.k k0 blockIdx i.1)
      (fun i acc _ => useRegTiles blockIdx (i.1 / kGemmRegBN) (i.1 % kGemmRegBN) acc)
      (fun _ acc t => do
        let _ ← gemmInt (t + 1)
        pure acc)
      (fun i acc => storeRows x.m x.n (blockIdx.y * kGemmRegBM) (i.1 / kGemmRegBN)
        (colOf blockIdx i) acc) := by
  have hturn : ∀ t < tiling.turns x, t * kGemmRegBK + kGemmRegBK < 2 ^ 31 := by
    intro t ht
    have ht : t < (x.k + kGemmRegBK - 1) / kGemmRegBK := ht
    unfold kGemmRegBK at ht ⊢
    omega
  constructor
  · exact fun t ht μ hμ i => load_performs hμ hrows hcols (hturn t ht) i
  · exact fun t _ μ hμ i => useRegTiles_performs hμ
  · intro t ht i
    have hlt := hturn t ht
    have hnext : t + 1 < 2 ^ 31 := by
      unfold kGemmRegBK at hlt
      omega
    rw [gemmInt, evalInt_of_lt hnext]
    rfl
  · exact fun i μ => storeRows_performs hrows (le_turns tiling (by decide)) μ

theorem block_performs (hk : x.k ≤ 2 ^ 31 - 64)
    (hrows : blockIdx.y * kGemmRegBM + kGemmRegBM ≤ 2 ^ 31)
    (hcols : blockIdx.x * kGemmRegBN + kGemmRegBN ≤ 2 ^ 31) (hμ : x.Holds μ) :
    ∃ μ', BlockPerforms μ (fun i : Thread =>
        gemmRegisterTiledKernel x.m x.n x.k blockIdx (Dim3.at (d := ⟨_, _, _⟩) i))
      (tiling.phases x blockIdx) μ' ∧
        ∀ i, ∀ w ∈ (tiling.storePhase x blockIdx).writes i, μ' w.1 = w.2 := by
  have hkernel : (fun i : Thread =>
      gemmRegisterTiledKernel x.m x.n x.k blockIdx (Dim3.at (d := ⟨_, _, _⟩) i)) = fun i =>
      (List.range (tiling.turns x)).foldlM (fun acc t => do
        (do let k0 ← gemmInt (t * kGemmRegBK)
            loadATile x.m x.k (blockIdx.y * kGemmRegBM) k0 blockIdx i.1
            loadBTile x.n x.k k0 blockIdx i.1)
        Program.barrier
        let acc ← useRegTiles blockIdx (i.1 / kGemmRegBN) (i.1 % kGemmRegBN) acc
        Program.barrier
        let _ ← gemmInt (t + 1)
        pure acc) (regAcc x (rowOrigin blockIdx i) (colOf blockIdx i) (0 * kGemmRegBK) 0) >>=
          fun acc => storeRows x.m x.n (blockIdx.y * kGemmRegBM) (i.1 / kGemmRegBN)
            (colOf blockIdx i) acc := by
    funext i
    have hrow : blockIdx.y * kGemmRegBM < 2 ^ 31 := by
      unfold kGemmRegBM at hrows ⊢
      omega
    have hcol : blockIdx.x * kGemmRegBN + (Dim3.at (d := ⟨_, _, _⟩) i).x % kGemmRegBN < 2 ^ 31 := by
      have hmod : (Dim3.at (d := ⟨_, _, _⟩) i).x % kGemmRegBN < kGemmRegBN :=
        Nat.mod_lt _ (by decide)
      omega
    have hpadded : x.k + kGemmRegBK < 2 ^ 31 := by
      unfold kGemmRegBK
      omega
    have hzero : regAcc x (rowOrigin blockIdx i) (colOf blockIdx i) (0 * kGemmRegBK) 0 =
        fun _ => 0 := by
      funext j
      simp [regAcc, upTo_zero]
    unfold gemmRegisterTiledKernel
    rw [hzero]
    dsimp only
    rw [gemmInt, evalInt_of_lt hrow, gemmInt, evalInt_of_lt hcol, gemmInt, evalInt_of_lt hpadded]
    rfl
  rw [hkernel]
  exact (drives hk hrows hcols).block_performs tiling_ok hμ

end GemmRegisterTiled

theorem gemmRegisterTiled_computes {x : GemmJob F} (hm : x.m ≤ 2 ^ 31 - 64)
    (hn : x.n ≤ 2 ^ 31 - 64) (hk : x.k ≤ 2 ^ 31 - 64) {μ : GemmCell → F} (hμ : x.Holds μ) :
    (gemmRegisterTiledGrid x.m x.n x.k).Computes GemmCell.IsGlobal
      (GemmCell.InBuffer x.m x.n x.k kGemmRegBM kGemmRegBN kGemmRegBK)
      (IsOutput x.m x.n) μ x.product := by
  have hBM : 0 < kGemmRegBM ∧ kGemmRegBM ≤ 64 := by decide
  have hBN : 0 < kGemmRegBN ∧ kGemmRegBN ≤ 64 := by decide
  have hnonempty : Nonempty (gemmRegisterTiledGrid (F := F) x.m x.n x.k).block.Index :=
    ⟨(⟨0, GemmRegisterTiled.blockThreads_pos⟩, ⟨0, Nat.one_pos⟩, ⟨0, Nat.one_pos⟩)⟩
  have hx : (gemmRegisterTiledGrid (F := F) x.m x.n x.k).grid.x =
      (x.n + kGemmRegBN - 1) / kGemmRegBN := gridSize_eq hBN.1 hBN.2 hn
  have hy : (gemmRegisterTiledGrid (F := F) x.m x.n x.k).grid.y =
      (x.m + kGemmRegBM - 1) / kGemmRegBM := gridSize_eq hBM.1 hBM.2 hm
  have hz : (gemmRegisterTiledGrid (F := F) x.m x.n x.k).grid.z = 1 := rfl
  refine Tiling.computes GemmRegisterTiled.tiling_ok hBM.1 hBN.1 hx hy hz (fun b μ hμ => ?_) hμ
  exact GemmRegisterTiled.block_performs hk (place_le hBM.1 hBM.2 hm (b.2.1.isLt.trans_eq hy))
    (place_le hBN.1 hBN.2 hn (b.1.isLt.trans_eq hx)) hμ

end PassionProjects.Kernelforge
