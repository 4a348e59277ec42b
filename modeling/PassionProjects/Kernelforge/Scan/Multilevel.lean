/-
  PassionProjects.Kernelforge.Scan.Multilevel

  The scan of many blocks (`scan_common.cu`): the blocks scan their chunks, one block scans
  the totals of the chunks, and what lies before a chunk is added to its sums.
-/

import PassionProjects.Kernelforge.Scan.Blocks

namespace PassionProjects.Kernelforge

open Raising Raising.Prog Warps Warps.Program
open Footprint (readWrite)

variable {F : Type} [AddCommGroup F]

-- ============================================================================
-- Launchers
-- ============================================================================

inductive ScanError where
  | launch (e : LaunchError)
  | runtimeError (what : String)
  deriving DecidableEq

abbrev ScanHost (F α : Type) := Host ScanError ScanCell F α

def ofLaunchError {α : Type} (m : Host LaunchError ScanCell F α) : ScanHost F α := fun cs =>
  ((m cs).1.mapError .launch, (m cs).2)

/-- `ScanScratch`: the lengths of its arrays. -/
structure ScanScratch where
  dBlockSums : Nat
  dBlockSumsScanned : Nat
  dBlockOffsets : Nat
  dLevel2DummySums : Nat
  deriving DecidableEq

/-- The lengths of scratch arrays for a block size. -/
def scratchOf (blockSize : Nat) : ScanScratch := ⟨blockSize, blockSize, blockSize, 1⟩

/-- `scan_alloc_scratch` -/
def scanAllocScratch (blockSize : Int) : ScanHost F ScanScratch := do
  ofLaunchError (validateBlockSizePow21d blockSize "scan_alloc_scratch")
  pure (scratchOf blockSize.toNat)

/-- `(n + block_size - 1) / block_size`, in `size_t`. -/
def scanBlocks (n blockSize : Nat) : Nat := (n + blockSize - 1) % 2 ^ 64 / blockSize

def ScanStrategy.launch (strategy : ScanStrategy) (dIn dOut dBlockSums : ScanArray)
    (n gridDim blockDim : Nat) : Launch ScanCell F :=
  ⟨gridDim, blockDim, strategy.smemBytes blockDim, strategy.kernel dIn dOut dBlockSums n blockDim⟩

/-- `BlockScanPassFn` -/
abbrev BlockScanPassFn (F : Type) := ScanArray → ScanArray → ScanArray → Nat → Int → ScanHost F Unit

/-- A pass of one of the kernels. -/
def blockPassLaunch (launcherName : String) (strategy : ScanStrategy) : BlockScanPassFn F :=
  fun dIn dOut dBlockSums n blockSize => do
    ofLaunchError (validateBlockSizePow21d blockSize launcherName)
    Launch.submit (.launch .cudaError) (strategy.launch dIn dOut dBlockSums n
      (scanBlocks n blockSize.toNat % 2 ^ 32) blockSize.toNat)

/-- `scan_hillis_steele_block_pass_launch` -/
def scanHillisSteeleBlockPassLaunch : BlockScanPassFn F :=
  blockPassLaunch "scan_hillis_steele_block_pass_launch" .hillisSteele

/-- `scan_blelloch_block_pass_launch` -/
def scanBlellochBlockPassLaunch : BlockScanPassFn F :=
  blockPassLaunch "scan_blelloch_block_pass_launch" .blelloch

/-- `next_pow2_at_least` -/
def nextPow2AtLeast (x p : Nat) : Nat :=
  if p < x ∧ 0 < p then nextPow2AtLeast x (2 * p) else p
termination_by x - p

/-- `scan_compute_block_offsets_kernel` -/
def scanComputeBlockOffsetsKernel (numBlocks blockDim blockIdx tid : Nat) : ScanThread F Unit :=
  let i := blockIdx * blockDim + tid
  if i < numBlocks then do
    let a ← load (.array .blockSumsScanned i)
    let b ← load (.array .blockSums i)
    store (.array .blockOffsets i) (a - b)
  else pure ()

/-- `scan_add_block_offsets_kernel` -/
def scanAddBlockOffsetsKernel (n blockDim blockIdx tid : Nat) : ScanThread F Unit :=
  let i := blockIdx * blockDim + tid
  if i < n then do
    let a ← load (.array .output i)
    let b ← load (.array .blockOffsets blockIdx)
    store (.array .output i) (a + b)
  else pure ()

def offsetsLaunch (numBlocks level2BlockSize : Nat) : Launch ScanCell F :=
  ⟨1, level2BlockSize, 0, scanComputeBlockOffsetsKernel numBlocks level2BlockSize⟩

def addLaunch (n numBlocks blockSize : Nat) : Launch ScanCell F :=
  ⟨numBlocks % 2 ^ 32, blockSize, 0, scanAddBlockOffsetsKernel n blockSize⟩

/-- What `scan_multilevel_launch` throws. -/
def tooManyBlocks (n blockSize numBlocks : Nat) : ScanError :=
  .runtimeError ("kernelforge::scan_multilevel_launch: n=" ++ toString n ++ " with block_size=" ++
    toString blockSize ++ " requires " ++ toString numBlocks ++
    " blocks, exceeding this 2-level scan's supported ceiling of block_size^2 = " ++
    toString (blockSize * blockSize) ++
    " elements. A 3rd scan level would be required beyond that (see scan_common.cuh's " ++
    "\"Known, disclosed scope limit\" comment) -- not implemented.")

/-- `scan_multilevel_launch`.  The answer is `out_grid` and `out_block`. -/
def scanMultilevelLaunch (blockScanPass : BlockScanPassFn F) (n : Nat) (blockSize : Int) :
    ScanHost F (Nat × Nat) := do
  ofLaunchError (validateBlockSizePow21d blockSize "scan_multilevel_launch")
  let block := blockSize.toNat
  if n = 0 then
    pure (0, block)
  else do
    let numBlocks := scanBlocks n block
    let grid := numBlocks % 2 ^ 32
    check (¬ numBlocks > block) (tooManyBlocks n block numBlocks)
    blockScanPass .input .output .blockSums n blockSize
    if numBlocks = 1 then
      pure (grid, block)
    else do
      let level2BlockSize := nextPow2AtLeast numBlocks kMinPow2BlockSize.toNat
      blockScanPass .blockSums .blockSumsScanned .level2DummySums numBlocks level2BlockSize
      Launch.submit (.launch .cudaError) (offsetsLaunch numBlocks level2BlockSize)
      Launch.submit (.launch .cudaError) (addLaunch n numBlocks block)
      pure (grid, block)

/-- `scan_hillis_steele_launch` -/
def scanHillisSteeleLaunch (n : Nat) (blockSize : Int) : ScanHost F (Nat × Nat) :=
  scanMultilevelLaunch scanHillisSteeleBlockPassLaunch n blockSize

/-- `scan_blelloch_launch` -/
def scanBlellochLaunch (n : Nat) (blockSize : Int) : ScanHost F (Nat × Nat) :=
  scanMultilevelLaunch scanBlellochBlockPassLaunch n blockSize

namespace ScanStrategy

def blockPass : ScanStrategy → BlockScanPassFn F
  | hillisSteele => scanHillisSteeleBlockPassLaunch
  | blelloch => scanBlellochBlockPassLaunch

def scan : ScanStrategy → Nat → Int → ScanHost F (Nat × Nat)
  | hillisSteele => scanHillisSteeleLaunch
  | blelloch => scanBlellochLaunch

theorem scan_eq (strategy : ScanStrategy) (n : Nat) (blockSize : Int) :
    (strategy.scan n blockSize : ScanHost F (Nat × Nat)) =
      scanMultilevelLaunch strategy.blockPass n blockSize := by
  cases strategy
  · rfl
  · rfl

end ScanStrategy

-- ============================================================================
-- What is asked of the device
-- ============================================================================

omit [AddCommGroup F] in
theorem ofLaunchError_validate {k : Nat} (hk : 5 ≤ k) (hk' : k ≤ 10) (name : String)
    (cs : List (Command ScanCell F)) :
    ofLaunchError (validateBlockSizePow21d (2 ^ k : Nat) name) cs = (.ok (), cs) := by
  unfold ofLaunchError
  rw [validateBlockSizePow21d_ok hk hk']
  rfl

theorem ScanStrategy.smemBytes_le (strategy : ScanStrategy) {k : Nat} (hk : k ≤ 10) :
    strategy.smemBytes (2 ^ k) ≤ 49152 := by
  have hmax := two_pow_le hk
  cases strategy
  · show 2 * 2 ^ k * 4 ≤ _
    omega
  · show 2 ^ k * 4 ≤ _
    omega

theorem blockPass_ok (strategy : ScanStrategy) {k n : Nat} (hk : 5 ≤ k) (hk' : k ≤ 10)
    (dIn dOut dBlockSums : ScanArray) (hpos : 0 < scanBlocks n (2 ^ k))
    (hmax : scanBlocks n (2 ^ k) ≤ 1024) (cs : List (Command ScanCell F)) :
    strategy.blockPass dIn dOut dBlockSums n (2 ^ k : Nat) cs = (.ok (),
      cs ++ [.launch (strategy.launch dIn dOut dBlockSums n (scanBlocks n (2 ^ k)) (2 ^ k))]) := by
  have hblock := two_pow_le hk'
  have hmod : scanBlocks n (2 ^ k) % 2 ^ 32 = scanBlocks n (2 ^ k) := Nat.mod_eq_of_lt (by omega)
  have haccepted : (strategy.launch (F := F) dIn dOut dBlockSums n (scanBlocks n (2 ^ k))
      (2 ^ k)).Accepted :=
    ⟨⟨hpos, Nat.lt_of_le_of_lt hmax (by decide)⟩, ⟨Nat.two_pow_pos k, hblock⟩,
      strategy.smemBytes_le hk'⟩
  have hpass :
      ∀ name : String, blockPassLaunch name strategy dIn dOut dBlockSums n (2 ^ k : Nat) cs =
      (.ok (), cs ++
        [.launch (strategy.launch dIn dOut dBlockSums n (scanBlocks n (2 ^ k)) (2 ^ k))]) := by
    intro name
    refine (bind_ok (ofLaunchError_validate hk hk' name cs)).trans ?_
    rw [Int.toNat_natCast, hmod]
    exact Launch.submit_ok haccepted cs
  cases strategy
  · exact hpass _
  · exact hpass _

end PassionProjects.Kernelforge
