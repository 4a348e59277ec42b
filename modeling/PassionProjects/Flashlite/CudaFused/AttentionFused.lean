/-
  PassionProjects.Flashlite.CudaFused.AttentionFused

  The fused attention kernel and its launcher.  A block covers a tile of query rows, one
  thread a row; the keys and values pass through shared memory one tile after another, and
  each thread keeps a running maximum, sum and output of its row.
-/

import PassionProjects.Lib.Results
import PassionProjects.Lib.Exponential
import PassionProjects.Lib.Kernels.Launch
import PassionProjects.Lib.Kernels.Loops

namespace PassionProjects.Flashlite

open ExpField Kernels

def kFusedTileDim : Nat := 32

def kMaxHeadDimFused : Nat := 128

/-- The elements of the four buffers, and of the shared memory of each block. -/
inductive Cell where
  | q (i : Nat)
  | k (i : Nat)
  | v (i : Nat)
  | out (i : Nat)
  | smem (blockIdx : Nat × Nat) (i : Nat)
  deriving DecidableEq

variable {F : Type} [ExpField F]

/-- `FLT_MAX`, the largest finite `float`. -/
def fltMax : F := (2 ^ 24 - 1) * 2 ^ 104

/-- The softmax state of a row and its output so far. -/
structure RowState (F : Type) where
  m : F
  l : F
  acc : Nat → F

namespace FusedAttention

abbrev Thread (F : Type) := Program (Access Cell F) F

/-- `k_tile[idx]`. -/
def kTile (blockIdx : Nat × Nat) (idx : Nat) : Cell := .smem blockIdx idx

/-- `v_tile[idx]`, which follows the tile of keys. -/
def vTile (D : Nat) (blockIdx : Nat × Nat) (idx : Nat) : Cell :=
  .smem blockIdx (kFusedTileDim * D + idx)

def loadQuery (D qkvBase row : Nat) : Thread F (Nat → F) :=
  (List.range D).foldlM (fun qReg d => do
    let x ← load (.q (qkvBase + row * D + d))
    pure (Function.update qReg d x)) fun _ => 0

/-- The threads of a block load a tile of keys and values together. -/
def loadTile (S D qkvBase : Nat) (blockIdx : Nat × Nat) (threadIdx tileStart : Nat) :
    Thread F Unit :=
  (strided threadIdx (kFusedTileDim * D) kFusedTileDim).forM fun idx => do
    let localRow := idx / D
    let localCol := idx % D
    let globalRow := tileStart + localRow
    if globalRow < S then
      let x ← load (.k (qkvBase + globalRow * D + localCol))
      store (kTile blockIdx idx) x
      let y ← load (.v (qkvBase + globalRow * D + localCol))
      store (vTile D blockIdx idx) y
    else
      store (kTile blockIdx idx) 0
      store (vTile D blockIdx idx) 0

/-- The score of a key of the tile. -/
def scoreOf (D : Nat) (scale : F) (blockIdx : Nat × Nat) (qReg : Nat → F) (jj : Nat) :
    Thread F F := do
  let score ← (List.range D).foldlM (fun score d => do
    let x ← load (kTile blockIdx (jj * D + d))
    pure (score + qReg d * x)) 0
  pure (score * scale)

/-- One key of the tile enters the state of the row. -/
def absorbKey (D : Nat) (scale : F) (blockIdx : Nat × Nat) (qReg : Nat → F) (s : RowState F)
    (jj : Nat) : Thread F (RowState F) := do
  let score ← scoreOf D scale blockIdx qReg jj
  let mNew := max s.m score
  let correction := if s.m = -fltMax then 0 else exp (s.m - mNew)
  let p := exp (score - mNew)
  let acc ← (List.range D).foldlM (fun acc d => do
    let y ← load (vTile D blockIdx (jj * D + d))
    pure (Function.update acc d (acc d * correction + p * y))) s.acc
  pure ⟨mNew, s.l * correction + p, acc⟩

/-- The keys of a tile that the row may attend to.  They end at the first one in the
    future. -/
def absorbTile (S D : Nat) (scale : F) (causal : Bool) (blockIdx : Nat × Nat)
    (row tileStart : Nat) (qReg : Nat → F) (s : RowState F) : Thread F (RowState F) :=
  if row < S ∧ ¬ (causal ∧ tileStart > row) then
    let tileLen := min kFusedTileDim (S - tileStart)
    let keys := (List.range tileLen).takeWhile fun jj => ¬ (causal ∧ tileStart + jj > row)
    keys.foldlM (absorbKey D scale blockIdx qReg) s
  else
    pure s

def storeRow (D qkvBase row : Nat) (s : RowState F) : Thread F Unit :=
  let invL := if s.l > 0 then 1 / s.l else 0
  (List.range D).forM fun d => store (.out (qkvBase + row * D + d)) (s.acc d * invL)

end FusedAttention

open FusedAttention

def fusedAttentionKernel (H S D : Nat) (scale : F) (causal : Bool) (blockIdx : Nat × Nat)
    (threadIdx : Nat) : Thread F Unit := do
  let bh := blockIdx.2
  let h := bh % H
  let b := bh / H
  let row := blockIdx.1 * kFusedTileDim + threadIdx
  let qkvBase := (b * H + h) * S * D
  let qReg ← (if row < S then loadQuery D qkvBase row else pure fun _ => 0)
  let numKvTiles := (S + kFusedTileDim - 1) / kFusedTileDim
  let s ← (List.range numKvTiles).foldlM (fun s t => do
    let tileStart := t * kFusedTileDim
    loadTile S D qkvBase blockIdx threadIdx tileStart
    Program.barrier
    let s ← FusedAttention.absorbTile S D scale causal blockIdx row tileStart qReg s
    -- The tile is loaded again in the next turn.
    Program.barrier
    pure s) ⟨-fltMax, 0, fun _ => 0⟩
  if row < S then storeRow D qkvBase row s else pure ()

inductive LaunchError where
  | cudaError
  deriving DecidableEq

/-- The launch for these sizes, as the host computes it. -/
def fusedLaunch (batch heads seqLen headDim : Nat) (causal : Bool) : Launch Cell F :=
  let scale : F := 1 / sqrt (headDim : F)
  let bh := CInt.int (batch * heads)
  let numQueryTiles := (CInt.int (CInt.int (seqLen + kFusedTileDim) - 1)).tdiv kFusedTileDim
  { gridX := CInt.unsigned numQueryTiles
    gridY := CInt.unsigned bh
    blockX := kFusedTileDim
    sharedBytes := 2 * kFusedTileDim * headDim * 4
    kernel := fusedAttentionKernel heads seqLen headDim scale causal }

def launchAttentionFused (batch heads seqLen headDim : Nat) (causal : Bool) :
    Host LaunchError Cell F Unit :=
  submit .cudaError (fusedLaunch batch heads seqLen headDim causal)

end PassionProjects.Flashlite
