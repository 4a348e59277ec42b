/-
  PassionProjects.Flashlite.CudaOnlineSoftmax.RowsKernel

  The kernel that normalizes the rows of the scores in place, and the pairs of a maximum and
  a sum that its threads keep.  A pair that stands for no scores has the sentinel as its
  maximum.  The staged attention kernels keep the scores in a buffer of their own.
-/

import PassionProjects.Flashlite.CudaFused.AttentionFused
import PassionProjects.Flashlite.OnlineSoftmax
import PassionProjects.Lib.Kernels.Launch
import PassionProjects.Lib.Kernels.Tree

namespace PassionProjects.Flashlite

section Staged

open ExpField Kernels

/-- The elements of the five buffers, and of the shared memory of each block. -/
inductive StagedCell where
  | q (i : Nat)
  | k (i : Nat)
  | v (i : Nat)
  | scores (i : Nat)
  | out (i : Nat)
  | smem (blockIdx : Dim3) (i : Nat)
  deriving DecidableEq

/-- The cells that the host can see. -/
def StagedCell.IsGlobal : StagedCell → Prop
  | .smem _ _ => False
  | _ => True

namespace Staged

/-- A cell holds a real, or minus infinity. -/
abbrev Memory (F : Type) := StagedCell → WithBot F

abbrev Thread (F : Type) := Program (Access StagedCell (WithBot F)) (WithBot F)

variable {F : Type} [ExpField F]

/-- Reads a cell that holds a real. -/
def loadReal (x : StagedCell) : Thread F F := do
  let a ← load x
  pure (a.unbotD 0)

/-- `fmaxf(m, x)` -/
def fmaxf (m : F) : WithBot F → F
  | ⊥ => m
  | some a => max m a

end Staged

end Staged

section Kernel

open ExpField Kernels Staged

variable {F : Type} [ExpField F]

def kOnlineSoftmaxBlockSize : Nat := 256

namespace OnlineRows

/-- One score of the strided subset of a thread. -/
def foldScore (s : F × F) (x : WithBot F) : F × F :=
  let mNew := fmaxf s.1 x
  let correction := if s.1 = -fltMax then 0 else exp (s.1 - mNew)
  (mNew, s.2 * correction + expSub x mNew)

/-- Two threads' pairs. -/
def combinePairs (a b : F × F) : F × F :=
  let mNew := max a.1 b.1
  if mNew = -fltMax then
    (mNew, 0)
  else
    let ca := if a.1 = -fltMax then 0 else exp (a.1 - mNew)
    let cb := if b.1 = -fltMax then 0 else exp (b.1 - mNew)
    (mNew, a.2 * ca + b.2 * cb)

def smax (blockIdx : Dim3) (n : Nat) : StagedCell := .smem blockIdx n

def ssum (blockDim : Nat) (blockIdx : Dim3) (n : Nat) : StagedCell := .smem blockIdx (blockDim + n)

def row (S : Nat) (blockIdx : Dim3) (j : Nat) : StagedCell := .scores (blockIdx.x * S + j)

def reduceStep (blockDim : Nat) (blockIdx : Dim3) (tid stride : Nat) : Thread F Unit := do
  let mA ← loadReal (smax blockIdx tid)
  let lA ← loadReal (ssum blockDim blockIdx tid)
  let mB ← loadReal (smax blockIdx (tid + stride))
  let lB ← loadReal (ssum blockDim blockIdx (tid + stride))
  let p := combinePairs (mA, lA) (mB, lB)
  store (smax blockIdx tid) p.1
  store (ssum blockDim blockIdx tid) p.2

end OnlineRows

open OnlineRows

def onlineSoftmaxRowsKernel (S blockDim : Nat) (blockIdx threadIdx : Dim3) : Thread F Unit := do
  let tid := threadIdx.x
  let s ← (strided tid S blockDim).foldlM (fun s j => do
    let x ← load (row S blockIdx j)
    pure (foldScore s x)) (-fltMax, 0)
  store (smax blockIdx tid) s.1
  store (ssum blockDim blockIdx tid) s.2
  Program.barrier
  tree blockDim tid (reduceStep blockDim blockIdx tid)
  let rowMax ← loadReal (smax blockIdx 0)
  let rowSum ← loadReal (ssum blockDim blockIdx 0)
  Program.barrier
  (strided tid S blockDim).forM fun j => do
    let x ← load (row S blockIdx j)
    store (row S blockIdx j) ↑(expSub x rowMax / rowSum)

/-- The launch for some rows. -/
def onlineSoftmaxRowsLaunch (rowCount S : Nat) : Launch3 StagedCell (WithBot F) where
  grid := ⟨rowCount, 1, 1⟩
  block := ⟨kOnlineSoftmaxBlockSize, 1, 1⟩
  sharedBytes := 2 * kOnlineSoftmaxBlockSize * 4
  kernel := onlineSoftmaxRowsKernel S kOnlineSoftmaxBlockSize

-- ============================================================================
-- Pairs as running sums
-- ============================================================================

namespace OnlineRows

/-- The sentinel comes with no sum. -/
structure Valid (p : F × F) : Prop where
  le : -fltMax ≤ p.1
  empty : p.1 = -fltMax → p.2 = 0

/-- What a pair stands for. -/
def running (p : F × F) : Running F F :=
  if p.1 = -fltMax then 0 else ⟨p.1, p.2, fun h => absurd h WithBot.coe_ne_bot⟩

theorem running_sentinel {p : F × F} (h : p.1 = -fltMax) : running p = 0 := if_pos h

theorem running_max {p : F × F} (h : p.1 ≠ -fltMax) : (running p).max = p.1 := by
  rw [running, if_neg h]

theorem running_sum {p : F × F} (h : p.1 ≠ -fltMax) : (running p).sum = p.2 := by
  rw [running, if_neg h]

theorem valid_init : Valid ((-fltMax, 0) : F × F) := ⟨le_rfl, fun _ => rfl⟩

theorem running_expSub (p : F × F) (m : F) :
    expSub (running p).max m • (running p).sum =
      p.2 * (if p.1 = -fltMax then 0 else exp (p.1 - m)) := by
  split
  · rename_i h
    rw [running_sentinel h, Running.zero_sum, smul_zero, mul_zero]
  · rename_i h
    rw [running_max h, running_sum h, expSub_coe, smul_eq_mul, mul_comm]

theorem running_max_max {a b : F × F} (ha : Valid a) (hb : Valid b)
    (h : max a.1 b.1 ≠ -fltMax) :
    max (running a).max (running b).max = ((max a.1 b.1 : F) : WithBot F) := by
  by_cases hsa : a.1 = -fltMax
  · have hsb : b.1 ≠ -fltMax := fun hsb => h (by rw [hsa, hsb, max_self])
    rw [running_sentinel hsa, running_max hsb, Running.zero_max, hsa, max_eq_right hb.le,
      max_eq_right bot_le]
  · by_cases hsb : b.1 = -fltMax
    · rw [running_sentinel hsb, running_max hsa, Running.zero_max, hsb, max_eq_left ha.le,
        max_eq_left bot_le]
    · rw [running_max hsa, running_max hsb]
      rfl

theorem running_combinePairs {a b : F × F} (ha : Valid a) (hb : Valid b) :
    Valid (combinePairs a b) ∧ running (combinePairs a b) = running a + running b := by
  have hle : -fltMax ≤ max a.1 b.1 := ha.le.trans (le_max_left ..)
  unfold combinePairs
  dsimp only
  split
  · rename_i h
    have hsa : a.1 = -fltMax := le_antisymm (h ▸ le_max_left ..) ha.le
    have hsb : b.1 = -fltMax := le_antisymm (h ▸ le_max_right ..) hb.le
    refine ⟨⟨hle, fun _ => rfl⟩, ?_⟩
    rw [running_sentinel hsa, running_sentinel hsb, running_sentinel h, add_zero]
  · rename_i h
    refine ⟨⟨hle, fun hm => absurd hm h⟩, Running.ext ?_ ?_⟩
    · rw [running_max h, Running.add_max, running_max_max ha hb h]
    · rw [running_sum h, Running.add_sum, running_max_max ha hb h, running_expSub,
        running_expSub]

theorem foldScore_bot {s : F × F} (hs : Valid s) : foldScore s ⊥ = s := by
  refine Prod.ext rfl ?_
  show s.2 * (if s.1 = -fltMax then 0 else exp (s.1 - s.1)) + 0 = s.2
  split
  · rename_i h
    rw [hs.empty h, mul_zero, add_zero]
  · rw [sub_self, exp_zero, mul_one, add_zero]

/-- A score is a pair of its own. -/
theorem foldScore_coe (s : F × F) {a : F} (ha : -fltMax < a) :
    foldScore s a = combinePairs s (a, 1) := by
  have hm : max s.1 a ≠ -fltMax := (ha.trans_le (le_max_right ..)).ne'
  unfold foldScore combinePairs
  dsimp only
  rw [if_neg hm, if_neg ha.ne', one_mul]
  rfl

theorem running_one {a : F} (ha : -fltMax < a) :
    Valid ((a, 1) : F × F) ∧ running (a, 1) = Running.single (a : WithBot F) (1 : F) :=
  ⟨⟨ha.le, fun h => absurd h ha.ne'⟩, if_neg ha.ne'⟩

theorem single_bot : Running.single (⊥ : WithBot F) (1 : F) = 0 :=
  Running.ext_mass rfl (by rw [Running.single_mass, weight_bot, zero_smul, Running.zero_mass])

/-- The finite scores are above the sentinel. -/
def Above (xs : List (WithBot F)) : Prop := ∀ a : F, ↑a ∈ xs → -fltMax < a

theorem running_fold {xs : List (WithBot F)} (hxs : Above xs) {s : F × F} (hs : Valid s) :
    Valid (xs.foldl foldScore s) ∧
      running (xs.foldl foldScore s) = running s + Running.ofList (ones xs) := by
  induction xs generalizing s with
  | nil => exact ⟨hs, (add_zero _).symm⟩
  | cons x xs ih =>
      have hstep : Valid (foldScore s x) ∧
          running (foldScore s x) = running s + Running.single x 1 := by
        cases x with
        | bot =>
            rw [foldScore_bot hs, single_bot, add_zero]
            exact ⟨hs, rfl⟩
        | coe a =>
            have ha := hxs a List.mem_cons_self
            rw [foldScore_coe s ha, ← (running_one ha).2]
            exact running_combinePairs hs (running_one ha).1
      obtain ⟨hvalid, hsum⟩ := ih (fun a ha => hxs a (List.mem_cons_of_mem x ha)) hstep.1
      refine ⟨hvalid, ?_⟩
      rw [List.foldl_cons, hsum, hstep.2, add_assoc]
      rfl

end OnlineRows

end Kernel

end PassionProjects.Flashlite
