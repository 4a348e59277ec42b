/-
  PassionProjects.Kernelforge.Norm.Rows

  The RMSNorm kernels (`rmsnorm_naive.cu`, `rmsnorm_warp_shuffle.cu`, `rmsnorm_vectorized.cu`).
  A block has a row.  Its threads take elements of the row, or groups of four of them, sum
  their squares, and scale them by what all threads find.
-/

import Mathlib.Algebra.Field.Basic
import PassionProjects.Kernelforge.Reduction.Rungs
import PassionProjects.Lib.Warps.Writers

namespace PassionProjects.Kernelforge

open Warps Warps.Program
open Footprint (readWrite)
open Kernels (strided mem_strided nodup_strided)

/-- The shared arrays: `sdata`, and `warp_partials` and `result` of `block_reduce_sum`. -/
inductive NormArray where
  | sdata
  | warpPartials
  | result
  deriving DecidableEq

/-- `sdata` has the bytes that the launch asks for. -/
def NormArray.length (sharedBytes : Nat) : NormArray → Nat
  | sdata => sharedBytes / 4
  | warpPartials => 32
  | result => 1

/-- The elements of `in`, `gamma` and `out`, and of the shared arrays of each block. -/
inductive NormCell where
  | input (j : Nat)
  | gamma (c : Nat)
  | output (j : Nat)
  | shared (b : Nat) (array : NormArray) (i : Nat)
  | overflow
  deriving DecidableEq

/-- The cells that the host can see. -/
def NormCell.IsGlobal : NormCell → Prop
  | .input _ | .gamma _ | .output _ => True
  | _ => False

/-- `row_in[c]` -/
def normIn (cols row c : Nat) : NormCell := .input (row * cols + c)

/-- `row_out[c]` -/
def normOut (cols row c : Nat) : NormCell := .output (row * cols + c)

variable {F : Type} [Field F]

abbrev NormThread (F R : Type) := Warps.Program (Access NormCell F) F R

-- ============================================================================
-- Kernels
-- ============================================================================

/-- `mean_sq` -/
def meanSq (cols : Nat) (sumSq : F) : F := if cols > 0 then sumSq / cols else 0

/-- `local_sum_sq` -/
def localSumSq (blockDim cols row tid : Nat) : NormThread F F :=
  foldStrided .overflow tid cols blockDim (fun localSumSq c => do
    let v ← load (normIn cols row c)
    pure (localSumSq + v * v)) 0

/-- The second pass. -/
def scaleRow (blockDim cols row tid : Nat) (invRms : F) : NormThread F Unit :=
  forStrided .overflow tid cols blockDim fun c => do
    let v ← load (normIn cols row c)
    let g ← load (.gamma c)
    store (normOut cols row c) (v * invRms * g)

/-- `rmsnorm_naive_kernel` -/
def rmsnormNaiveKernel (rsqrtf : F → F) (blockDim cols : Nat) (eps : F) (blockIdx tid : Nat) :
    NormThread F Unit := do
  let localSumSq ← localSumSq blockDim cols blockIdx tid
  store (.shared blockIdx .sdata tid) localSumSq
  barrier
  treeLoop (halvingsTo 1 blockDim) lowHalf (.shared blockIdx .sdata) (· + ·) tid
  let meanSq ← (if cols > 0 then do
    let s ← load (.shared blockIdx .sdata 0)
    pure (s / cols)
  else pure 0)
  let invRms := rsqrtf (meanSq + eps)
  barrier
  scaleRow blockDim cols blockIdx tid invRms

/-- `block_reduce_sum` -/
def normReduceSum (blockDim blockIdx tid : Nat) (val : F) : NormThread F F :=
  warpReduce blockDim (fun w => .one (.shared blockIdx .warpPartials w))
    (.one (.shared blockIdx .result 0)) (Block.reduceStep (· + ·)) 0 tid val

/-- `rmsnorm_warp_shuffle_kernel` -/
def rmsnormWarpShuffleKernel (rsqrtf : F → F) (blockDim cols : Nat) (eps : F) (blockIdx tid : Nat) :
    NormThread F Unit := do
  let localSumSq ← localSumSq blockDim cols blockIdx tid
  let sumSq ← normReduceSum blockDim blockIdx tid localSumSq
  let invRms := rsqrtf (meanSq cols sumSq + eps)
  scaleRow blockDim cols blockIdx tid invRms

/-- The `local_sum_sq` of `rmsnorm_vectorized_kernel`. -/
def localSumSq4 (blockDim cols row tid : Nat) : NormThread F F :=
  foldStrided .overflow tid (cols / 4) blockDim (fun localSumSq c4 => do
    let x ← load (normIn cols row (4 * c4))
    let y ← load (normIn cols row (4 * c4 + 1))
    let z ← load (normIn cols row (4 * c4 + 2))
    let w ← load (normIn cols row (4 * c4 + 3))
    pure (localSumSq + ((x * x + y * y) + (z * z + w * w)))) 0

/-- The second pass of `rmsnorm_vectorized_kernel`. -/
def scaleRow4 (blockDim cols row tid : Nat) (invRms : F) : NormThread F Unit :=
  forStrided .overflow tid (cols / 4) blockDim fun c4 => do
    let x ← load (normIn cols row (4 * c4))
    let y ← load (normIn cols row (4 * c4 + 1))
    let z ← load (normIn cols row (4 * c4 + 2))
    let w ← load (normIn cols row (4 * c4 + 3))
    let gx ← load (.gamma (4 * c4))
    let gy ← load (.gamma (4 * c4 + 1))
    let gz ← load (.gamma (4 * c4 + 2))
    let gw ← load (.gamma (4 * c4 + 3))
    store (normOut cols row (4 * c4)) (x * invRms * gx)
    store (normOut cols row (4 * c4 + 1)) (y * invRms * gy)
    store (normOut cols row (4 * c4 + 2)) (z * invRms * gz)
    store (normOut cols row (4 * c4 + 3)) (w * invRms * gw)

/-- `rmsnorm_vectorized_kernel` -/
def rmsnormVectorizedKernel (rsqrtf : F → F) (blockDim cols : Nat) (eps : F) (blockIdx tid : Nat) :
    NormThread F Unit := do
  let localSumSq ← localSumSq4 blockDim cols blockIdx tid
  let sumSq ← normReduceSum blockDim blockIdx tid localSumSq
  let invRms := rsqrtf (meanSq cols sumSq + eps)
  scaleRow4 blockDim cols blockIdx tid invRms

-- ============================================================================
-- Items
-- ============================================================================

/-- How the threads take a row: item `c` is the elements `elems c`. -/
structure Items (cols : Nat) where
  bound : Nat
  elems : Nat → List Nat
  owner : Nat → Nat
  owner_lt : ∀ j < cols, owner j < bound
  mem_elems : ∀ c < bound, ∀ j, j ∈ elems c ↔ j < cols ∧ owner j = c
  nodup : ∀ c, (elems c).Nodup
  sum_elems : ∀ {M : Type} [AddCommMonoid M] (g : Nat → M),
    ∑ c ∈ Finset.range bound, ((elems c).map g).sum = ∑ j ∈ Finset.range cols, g j

namespace Items

/-- One element at a time. -/
def single (cols : Nat) : Items cols where
  bound := cols
  elems c := [c]
  owner := id
  owner_lt _ hj := hj
  mem_elems c hc j := by
    rw [List.mem_singleton]
    exact ⟨fun heq => ⟨heq ▸ hc, heq⟩, fun h => h.2⟩
  nodup c := List.nodup_singleton c
  sum_elems g := by simp only [List.map_singleton, List.sum_singleton]

/-- The elements of a `float4` at a time. -/
def groups {cols : Nat} (hcols : cols % 4 = 0) : Items cols where
  bound := cols / 4
  elems := group
  owner j := j / 4
  owner_lt j hj := by omega
  mem_elems c hc j := by
    rw [mem_group]
    omega
  nodup c := by simp [group]
  sum_elems g := by
    have hsplit := Kernels.sum_range_mul g (cols / 4) 4
    rw [Nat.div_mul_cancel (Nat.dvd_of_mod_eq_zero hcols)] at hsplit
    rw [hsplit]
    apply Finset.sum_congr rfl
    intro c _
    simp only [group, List.map_cons, List.map_nil, List.sum_cons, List.sum_nil,
      Finset.sum_range_succ,
      Finset.sum_range_zero, Nat.mul_comm c 4, zero_add, add_zero, add_assoc]

end Items

-- ============================================================================
-- Threads
-- ============================================================================

/-- The cells that the threads of a row take: those of the row of `in`, and `gamma`. -/
def normCells (cols row : Nat) : Set NormCell :=
  {x | ∃ c < cols, x = normIn cols row c ∨ x = .gamma c}

/-- The square of an element. -/
def square (cols : Nat) (μ : NormCell → F) (row c : Nat) : F :=
  μ (normIn cols row c) * μ (normIn cols row c)

/-- What an element becomes. -/
def scaled (cols : Nat) (μ : NormCell → F) (row : Nat) (invRms : F) (c : Nat) : F :=
  μ (normIn cols row c) * invRms * μ (.gamma c)

namespace Items

variable {cols : Nat}

/-- The squares of the elements that a thread takes. -/
def squares (I : Items cols) (blockDim : Nat) (μ : NormCell → F) (row tid : Nat) : F :=
  ((strided tid I.bound blockDim).map fun c => ((I.elems c).map (square cols μ row)).sum).sum

/-- What a thread writes. -/
def writes (I : Items cols) (blockDim row : Nat) (v : Nat → F) (tid : Nat) : List (NormCell × F) :=
  (strided tid I.bound blockDim).flatMap fun c => (I.elems c).map fun j => (normOut cols row j, v j)

theorem sum_squares (I : Items cols) {blockDim : Nat} (hpos : 0 < blockDim) (μ : NormCell → F)
    (row : Nat) : ∑ i ∈ Finset.range blockDim, I.squares blockDim μ row i =
      ∑ c ∈ Finset.range cols, square cols μ row c :=
  (Kernels.sum_strided _ hpos).trans (I.sum_elems _)

end Items

section Loops

variable {blockDim cols row tid : Nat} {μ : NormCell → F}

theorem normIn_mem {c : Nat} (hc : c < cols) : normIn cols row c ∈ normCells cols row :=
  ⟨c, hc, .inl rfl⟩

theorem gamma_mem {c : Nat} (hc : c < cols) : NormCell.gamma c ∈ normCells cols row :=
  ⟨c, hc, .inr rfl⟩

/-- A loop that adds what its turns find. -/
theorem sumStrided_performs {bound : Nat} (hpos : 0 < blockDim) (hfits : bound + blockDim ≤ 2 ^ 31)
    {body : F → Nat → NormThread F F} {g : Nat → F} (hbody : ∀ a, ∀ c < bound,
      Performs (normCells cols row) μ (body a c) [] [] (.ret (a + g c))) :
    Performs (normCells cols row) μ (foldStrided .overflow tid bound blockDim body 0) [] []
      (.ret ((strided tid bound blockDim).map g).sum) := by
  have hfold : (strided tid bound blockDim).foldl (fun a c => a + g c) (id 0) =
      id (0 + ((strided tid bound blockDim).map g).sum) :=
    foldl_lift (fun a b => (rfl : id a + id b = id (a + b))) _ (fun _ _ _ => rfl) 0
  rw [zero_add] at hfold
  rw [← id_eq ((strided tid bound blockDim).map g).sum, ← hfold]
  apply Performs.foldStrided hpos hfits
  intro a c hc
  exact hbody a c (Kernels.lt_of_mem_strided hpos hc)

theorem localSumSq_performs (hpos : 0 < blockDim) (hfits : cols + blockDim ≤ 2 ^ 31) :
    Performs (normCells cols row) μ (localSumSq blockDim cols row tid) [] []
      (.ret ((Items.single cols).squares blockDim μ row tid)) := by
  apply sumStrided_performs hpos hfits
  intro a c hc
  rw [show (Items.single cols).elems c = [c] from rfl, List.map_singleton, List.sum_singleton]
  exact .read (normIn_mem hc) .here

theorem localSumSq4_performs (hcols : cols % 4 = 0) (hpos : 0 < blockDim)
    (hfits : cols / 4 + blockDim ≤ 2 ^ 31) :
    Performs (normCells cols row) μ (localSumSq4 blockDim cols row tid) [] []
      (.ret ((Items.groups hcols).squares blockDim μ row tid)) := by
  apply sumStrided_performs hpos hfits
  intro a c hc
  have hsum : ((group c).map (square cols μ row)).sum =
      (square cols μ row (4 * c) + square cols μ row (4 * c + 1)) +
        (square cols μ row (4 * c + 2) + square cols μ row (4 * c + 3)) := by
    simp only [group, List.map_cons, List.map_nil, List.sum_cons, List.sum_nil, add_zero, add_assoc]
  rw [show (Items.groups hcols).elems c = group c from rfl, hsum]
  exact .read (normIn_mem (by omega)) (.read (normIn_mem (by omega)) (.read (normIn_mem (by omega))
    (.read (normIn_mem (by omega)) .here)))

theorem scaled_congr {ν : NormCell → F} (hν : ∀ y ∈ normCells cols row, ν y = μ y) (invRms : F)
    {c : Nat} (hc : c < cols) : scaled cols μ row invRms c = scaled cols ν row invRms c := by
  unfold scaled
  rw [hν _ (normIn_mem hc), hν _ (gamma_mem hc)]

theorem normOut_not_mem (c : Nat) : normOut cols row c ∉ normCells cols row := by
  rintro ⟨c', -, heq | heq⟩
  · exact nomatch heq
  · exact nomatch heq

theorem scaleRow_performs (hpos : 0 < blockDim) (hfits : cols + blockDim ≤ 2 ^ 31) (invRms : F) :
    Performs (normCells cols row) μ (scaleRow blockDim cols row tid invRms)
      ((Items.single cols).writes blockDim row (scaled cols μ row invRms) tid) [] (.ret ()) := by
  apply Performs.forStrided hpos hfits
  · intro c hc ν hν
    have hlt : c < cols := Kernels.lt_of_mem_strided hpos hc
    rw [show (Items.single cols).elems c = [c] from rfl, List.map_singleton, scaled_congr hν _ hlt]
    exact .read (normIn_mem hlt) (.read (gamma_mem hlt) (.write .here))
  · intro c _ w hw
    obtain ⟨j, -, rfl⟩ := List.mem_map.mp hw
    exact normOut_not_mem j

theorem scaleRow4_performs (hcols : cols % 4 = 0) (hpos : 0 < blockDim)
    (hfits : cols / 4 + blockDim ≤ 2 ^ 31) (invRms : F) :
    Performs (normCells cols row) μ (scaleRow4 blockDim cols row tid invRms)
      ((Items.groups hcols).writes blockDim row (scaled cols μ row invRms) tid) [] (.ret ()) := by
  apply Performs.forStrided hpos hfits
  · intro c hc ν hν
    have hlt : c < cols / 4 := Kernels.lt_of_mem_strided hpos hc
    have hx : ∀ d < 4, normIn cols row (4 * c + d) ∈ normCells cols row := fun d hd =>
      normIn_mem (by omega)
    have hg : ∀ d < 4, NormCell.gamma (4 * c + d) ∈ normCells cols row := fun d hd =>
      gamma_mem (by omega)
    rw [show (Items.groups hcols).elems c = group c from rfl]
    simp only [group, List.map_cons, List.map_nil]
    rw [scaled_congr hν _ (by omega), scaled_congr hν _ (by omega), scaled_congr hν _ (by omega),
      scaled_congr hν _ (by omega)]
    apply Performs.read (hx 0 (by decide))
    apply Performs.read (hx 1 (by decide))
    apply Performs.read (hx 2 (by decide))
    apply Performs.read (hx 3 (by decide))
    apply Performs.read (hg 0 (by decide))
    apply Performs.read (hg 1 (by decide))
    apply Performs.read (hg 2 (by decide))
    apply Performs.read (hg 3 (by decide))
    exact .write (.write (.write (.write .here)))
  · intro c _ w hw
    obtain ⟨j, -, rfl⟩ := List.mem_map.mp hw
    exact normOut_not_mem j

end Loops

end PassionProjects.Kernelforge
