/-
  PassionProjects.Kernelforge.Gemm.Tiles

  Matrix products by tiles.  A block owns a rectangle of the output; turn after turn its
  threads stage a tile of each factor in shared memory and add up what the tiles give.  How
  the threads share the tiles and the outputs is left open.
-/

import Mathlib.Algebra.BigOperators.Group.Finset.Basic
import Mathlib.Algebra.Ring.Defs
import PassionProjects.Lib.Kernels.Launch
import PassionProjects.Lib.Kernels.Loops
import PassionProjects.Lib.Kernels.Blocks

namespace PassionProjects.Kernelforge

open Kernels

/-- The elements of the three matrices, and of the two shared tiles of each block. -/
inductive GemmCell where
  | a (i : Nat)
  | b (i : Nat)
  | c (i : Nat)
  | aTile (blockIdx : Dim3) (row col : Nat)
  | bTile (blockIdx : Dim3) (row col : Nat)
  | overflow
  deriving DecidableEq

/-- The cells that the host can see. -/
def GemmCell.IsGlobal : GemmCell → Prop
  | .a _ | .b _ | .c _ => True
  | _ => False

/-- Two factors, of `m` by `k` and `k` by `n` elements. -/
structure GemmJob (F : Type) where
  m : Nat
  n : Nat
  k : Nat
  a : Nat → F
  b : Nat → F

abbrev GemmThread (F : Type) := Program (Access GemmCell F) F

/-- The value of an expression of type `int`, or of an `unsigned` one that becomes an `int`. -/
def gemmInt {F : Type} (n : Nat) : GemmThread F Nat := evalInt .overflow n

/-- `(row < m && col < k) ? a[row * k + col] : 0`.  The index is a `size_t`, which holds it. -/
def loadA {F : Type} [Zero F] (m k row col : Nat) : GemmThread F F :=
  if row < m ∧ col < k then load (.a (row * k + col)) else pure 0

/-- `(row < k && col < n) ? b[row * n + col] : 0` -/
def loadB {F : Type} [Zero F] (k n row col : Nat) : GemmThread F F :=
  if row < k ∧ col < n then load (.b (row * n + col)) else pure 0

/-- `if (row < m && col < n) c[row * n + col] = v` -/
def storeC {F : Type} (m n row col : Nat) (v : F) : GemmThread F Unit :=
  if row < m ∧ col < n then store (.c (row * n + col)) v else pure ()

/-- How the threads of a block share the cells of its tiles and its outputs. -/
structure Tiling (T : Type) where
  bm : Nat
  bn : Nat
  bk : Nat
  aCells : T → List (Nat × Nat)
  bCells : T → List (Nat × Nat)
  outputs : T → List (Nat × Nat)

/-- Each place of a rectangle belongs to one thread. -/
structure Shares {T : Type} (cells : T → List (Nat × Nat)) (rows cols : Nat) : Prop where
  lt : ∀ {i p}, p ∈ cells i → p.1 < rows ∧ p.2 < cols
  exists_mem : ∀ {r}, r < rows → ∀ {c}, c < cols → ∃ i, (r, c) ∈ cells i
  unique : ∀ {i j p}, p ∈ cells i → p ∈ cells j → i = j
  nodup : ∀ i, (cells i).Nodup

structure Tiling.Ok {T : Type} (g : Tiling T) : Prop where
  aCells : Shares g.aCells g.bm g.bk
  bCells : Shares g.bCells g.bk g.bn
  outputs : Shares g.outputs g.bm g.bn

/-- The cells that a kernel with these tiles may use. -/
def GemmCell.InBuffer (m n k bm bn bk : Nat) : GemmCell → Prop
  | .a i => i < m * k
  | .b i => i < k * n
  | .c i => i < m * n
  | .aTile _ row col => row < bm ∧ col < bk
  | .bTile _ row col => row < bk ∧ col < bn
  | .overflow => False

section Phases

variable {T F : Type} [Semiring F] (g : Tiling T) (x : GemmJob F) (blockIdx : Dim3)

namespace GemmJob

/-- The left factor, with zeros around it. -/
def aAt (row col : Nat) : F := if row < x.m ∧ col < x.k then x.a (row * x.k + col) else 0

/-- The right factor, with zeros around it. -/
def bAt (row col : Nat) : F := if row < x.k ∧ col < x.n then x.b (row * x.n + col) else 0

/-- An element of the product over the first `t` places of the inner dimension. -/
def upTo (t row col : Nat) : F := ∑ j ∈ Finset.range t, x.aAt row j * x.bAt j col

/-- An element of the product. -/
def dot (row col : Nat) : F :=
  ∑ j ∈ Finset.range x.k, x.a (row * x.k + j) * x.b (j * x.n + col)

/-- The memory holds the factors. -/
structure Holds (μ : GemmCell → F) : Prop where
  a : ∀ i, μ (.a i) = x.a i
  b : ∀ i, μ (.b i) = x.b i

def inputs : Set GemmCell := {y | (∃ i < x.m * x.k, y = .a i) ∨ ∃ i < x.k * x.n, y = .b i}

end GemmJob

namespace Tiling

def row (p : Nat × Nat) : Nat := blockIdx.y * g.bm + p.1

def col (p : Nat × Nat) : Nat := blockIdx.x * g.bn + p.2

/-- The tiles of turn `t` are in shared memory. -/
structure Filled (t : Nat) (μ : GemmCell → F) : Prop where
  a : ∀ r < g.bm, ∀ c < g.bk,
    μ (.aTile blockIdx r c) = x.aAt (blockIdx.y * g.bm + r) (t * g.bk + c)
  b : ∀ r < g.bk, ∀ c < g.bn,
    μ (.bTile blockIdx r c) = x.bAt (t * g.bk + r) (blockIdx.x * g.bn + c)

def fillPhase (t : Nat) : Footprint T GemmCell F where
  reads _ := x.inputs
  writes i :=
    ((g.aCells i).map fun p =>
      (.aTile blockIdx p.1 p.2, x.aAt (blockIdx.y * g.bm + p.1) (t * g.bk + p.2))) ++
    (g.bCells i).map fun p =>
      (.bTile blockIdx p.1 p.2, x.bAt (t * g.bk + p.1) (blockIdx.x * g.bn + p.2))

def tileCells : Set GemmCell :=
  {y | (∃ r < g.bm, ∃ c < g.bk, y = .aTile blockIdx r c) ∨
    ∃ r < g.bk, ∃ c < g.bn, y = .bTile blockIdx r c}

/-- What a thread stores for one of its outputs. -/
def storeOutput (p : Nat × Nat) (v : F) : List (GemmCell × F) :=
  if g.row blockIdx p < x.m ∧ g.col blockIdx p < x.n then
    [(.c (g.row blockIdx p * x.n + g.col blockIdx p), v)]
  else []

def storePhase : Footprint T GemmCell F where
  reads _ := ∅
  writes i := (g.outputs i).flatMap fun p =>
    g.storeOutput x blockIdx p (x.dot (g.row blockIdx p) (g.col blockIdx p))

/-- The number of turns. -/
def turns : Nat := (x.k + g.bk - 1) / g.bk

def phases : List (Footprint T GemmCell F) :=
  ((List.range (g.turns x)).flatMap fun t =>
    turnPhases (g.fillPhase x blockIdx t) fun _ => g.tileCells blockIdx) ++
      [g.storePhase x blockIdx]

end Tiling

end Phases

-- ============================================================================
-- Sums over the inner dimension
-- ============================================================================

section Sums

variable {F : Type} [Semiring F] {x : GemmJob F}

theorem upTo_zero (row col : Nat) : x.upTo 0 row col = 0 := rfl

theorem upTo_succ (t row col : Nat) :
    x.upTo (t + 1) row col = x.upTo t row col + x.aAt row t * x.bAt t col :=
  Finset.sum_range_succ _ t

/-- Beyond the inner dimension there is nothing to add. -/
theorem upTo_eq_dot {t row col : Nat} (ht : x.k ≤ t) (hrow : row < x.m) (hcol : col < x.n) :
    x.upTo t row col = x.dot row col := by
  have hsub : Finset.range x.k ⊆ Finset.range t := Finset.range_mono ht
  rw [GemmJob.upTo, ← Finset.sum_subset hsub]
  · refine Finset.sum_congr rfl fun j hj => ?_
    have hj := Finset.mem_range.mp hj
    rw [GemmJob.aAt, GemmJob.bAt, if_pos ⟨hrow, hj⟩, if_pos ⟨hj, hcol⟩]
  · intro j _ hj
    have hout : ¬ (row < x.m ∧ j < x.k) := fun h => hj (Finset.mem_range.mpr h.2)
    rw [GemmJob.aAt, if_neg hout, zero_mul]

omit [Semiring F] in
theorem le_turns {T : Type} (g : Tiling T) (hbk : 0 < g.bk) : x.k ≤ g.turns x * g.bk := by
  have hdiv := Nat.div_add_mod (x.k + g.bk - 1) g.bk
  have hmod := Nat.mod_lt (x.k + g.bk - 1) hbk
  rw [Nat.mul_comm] at hdiv
  unfold Tiling.turns
  omega

end Sums

end PassionProjects.Kernelforge
