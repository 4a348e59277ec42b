/-
  PassionProjects.Kernelforge.LaunchValidate

  What the launchers of one-dimensional blocks check (`launch_validate.hpp`).
-/

import PassionProjects.Lib.Warps.Launches

namespace PassionProjects.Kernelforge

open Raising Raising.Prog Warps

inductive LaunchError where
  | invalidArgument (what : String)
  | cudaError
  deriving DecidableEq

variable {X V : Type}

def kMaxThreadsPerBlock1D : Int := 1024

def kMinPow2BlockSize : Int := 32

/-- `validate_block_size_1d` -/
def validateBlockSize1d (blockSize : Int) (launcherName : String) : Host LaunchError X V Unit :=
  check (¬ (blockSize < 1 ∨ blockSize > kMaxThreadsPerBlock1D))
    (.invalidArgument (launcherName ++ ": block_size (" ++ toString blockSize ++
      ") must satisfy 1 <= block_size <= " ++ toString kMaxThreadsPerBlock1D))

/-- `is_power_of_two` -/
def isPowerOfTwo (x : Int) : Bool := x > 0 ∧ x.toNat &&& (x.toNat - 1) = 0

/-- `validate_block_size_pow2_1d` -/
def validateBlockSizePow21d (blockSize : Int) (launcherName : String) :
    Host LaunchError X V Unit :=
  check (¬ (blockSize < kMinPow2BlockSize ∨ blockSize > kMaxThreadsPerBlock1D ∨
      ¬ isPowerOfTwo blockSize))
    (.invalidArgument (launcherName ++ ": block_size (" ++ toString blockSize ++
      ") must be a power of two in [" ++ toString kMinPow2BlockSize ++ ", " ++
      toString kMaxThreadsPerBlock1D ++
      "] (required by the tree-based reduction/scan addressing pattern and the " ++
      "warp-shuffle finalization step)."))

theorem isPowerOfTwo_two_pow (k : Nat) : isPowerOfTwo (2 ^ k : Nat) = true := by
  refine decide_eq_true ⟨Int.natCast_pos.mpr (Nat.two_pow_pos k), ?_⟩
  rw [Int.toNat_natCast, Nat.and_two_pow_sub_one_eq_mod, Nat.mod_self]

theorem two_pow_le {k : Nat} (hk : k ≤ 10) : 2 ^ k ≤ 1024 := Nat.pow_le_pow_right Nat.two_pos hk

theorem le_two_pow {k : Nat} (hk : 5 ≤ k) : 32 ≤ 2 ^ k := Nat.pow_le_pow_right Nat.two_pos hk

theorem check_ok {p : Prop} [Decidable p] (hp : p) (e : LaunchError) (cs : List (Command X V)) :
    (check p e : Host LaunchError X V Unit) cs = (.ok (), cs) := congrFun (if_pos hp) cs

theorem validateBlockSizePow21d_ok {k : Nat} (hk : 5 ≤ k) (hk' : k ≤ 10) (name : String)
    (cs : List (Command X V)) :
    (validateBlockSizePow21d (2 ^ k : Nat) name : Host LaunchError X V Unit) cs = (.ok (), cs) := by
  refine check_ok ?_ _ cs
  have hmin := le_two_pow hk
  have hmax := two_pow_le hk'
  rintro (hlt | hgt | hnot)
  · unfold kMinPow2BlockSize at hlt
    omega
  · unfold kMaxThreadsPerBlock1D at hgt
    omega
  · exact hnot (isPowerOfTwo_two_pow k)

theorem validateBlockSize1d_ok {blockSize : Int} (h : 1 ≤ blockSize) (h' : blockSize ≤ 1024)
    (name : String) (cs : List (Command X V)) :
    (validateBlockSize1d blockSize name : Host LaunchError X V Unit) cs = (.ok (), cs) := by
  refine check_ok ?_ _ cs
  unfold kMaxThreadsPerBlock1D
  omega

-- ============================================================================
-- Behind the checks
-- ============================================================================

/-- `if (zero_output)`: zeros are written to the cells of the result. -/
def zeroCells [Zero V] (zeroOutput : Bool) (xs : List X) : Host LaunchError X V Unit :=
  if zeroOutput then memset xs 0 else pure ()

theorem zeroCells_ok [Zero V] (zeroOutput : Bool) (xs : List X) (cs : List (Command X V)) :
    zeroCells zeroOutput xs cs =
      (.ok (), cs ++ if zeroOutput then [.memset xs 0] else []) := by
  cases zeroOutput
  · exact Prod.ext rfl (List.append_nil cs).symm
  · rfl

/-- The launch, unless there is nothing to do.  The answer is `out_grid` and `out_block`. -/
def launchUnless (nothing : Prop) [Decidable nothing] (l : Launch X V) :
    Host LaunchError X V (Nat × Nat) :=
  if nothing then
    pure (l.gridDim, l.blockDim)
  else do
    Launch.submit .cudaError l
    pure (l.gridDim, l.blockDim)

theorem launchUnless_ok {nothing : Prop} [Decidable nothing] {l : Launch X V}
    (h : ¬ nothing → l.Accepted) (cs : List (Command X V)) :
    launchUnless nothing l cs =
      (.ok (l.gridDim, l.blockDim), cs ++ if nothing then [] else [.launch l]) := by
  unfold launchUnless
  by_cases hnothing : nothing
  · rw [if_pos hnothing, if_pos hnothing, List.append_nil]
    rfl
  · rw [if_neg hnothing, if_neg hnothing, bind_ok (Launch.submit_ok (h hnothing) cs)]
    rfl

/-- `n == 0 ? 0 : (n + per_block - 1) / per_block`, in `size_t`. -/
def numBlocks (n perBlock : Nat) : Nat :=
  if n = 0 then 0 else (n + perBlock - 1) % 2 ^ 64 / perBlock

theorem numBlocks_eq {n perBlock : Nat} (hn : n ≠ 0) (h : n + perBlock ≤ 2 ^ 64) :
    numBlocks n perBlock = (n + perBlock - 1) / perBlock := by
  rw [numBlocks, if_neg hn, Nat.mod_eq_of_lt (by omega)]

theorem numBlocks_eq_zero {n perBlock : Nat} (hpos : 0 < perBlock) (h : n + perBlock ≤ 2 ^ 64) :
    numBlocks n perBlock = 0 ↔ n = 0 := by
  refine ⟨fun hzero => ?_, fun hn => if_pos hn⟩
  by_contra hn
  rw [numBlocks_eq hn h] at hzero
  exact (Nat.div_pos (by omega) hpos).ne' hzero

theorem le_blocks_mul {n perBlock : Nat} (h : 0 < perBlock) :
    n ≤ (n + perBlock - 1) / perBlock * perBlock := by
  have hdiv := Nat.div_add_mod (n + perBlock - 1) perBlock
  have hmod := Nat.mod_lt (n + perBlock - 1) h
  rw [Nat.mul_comm] at hdiv
  omega

end PassionProjects.Kernelforge
