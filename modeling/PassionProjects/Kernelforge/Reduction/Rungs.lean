/-
  PassionProjects.Kernelforge.Reduction.Rungs

  The reduction rungs with a tree: `reduce_naive_interleaved.cu`,
  `reduce_sequential_addressing.cu`, `reduce_warp_shuffle.cu` and
  `reduce_vectorized_coarsened.cu`.
-/

import PassionProjects.Kernelforge.Reduction.Reduce
import PassionProjects.Lib.Kernels.Loops

namespace PassionProjects.Kernelforge

open Raising Raising.Prog Warps Warps.Program
open Kernels (strided mem_strided nodup_strided)

variable {F : Type} [AddCommMonoid F]

-- ============================================================================
-- Kernels
-- ============================================================================

/-- `(i < n) ? in[i] : 0.0f` -/
def loadOne (n i : Nat) : SumThread F F := if i < n then load (.input i) else pure 0

/-- `reduce_naive_interleaved_kernel` -/
def reduceNaiveInterleavedKernel (blockDim n blockIdx tid : Nat) : SumThread F Unit :=
  fillThen (loadOne n (blockIdx * blockDim + tid))
    (treeTail (doublings blockDim) (interleaved blockDim) blockIdx tid) blockIdx tid

/-- `reduce_sequential_addressing_kernel` -/
def reduceSequentialAddressingKernel (blockDim n blockIdx tid : Nat) : SumThread F Unit :=
  fillThen (loadOne n (blockIdx * blockDim + tid))
    (treeTail (halvingsTo 1 blockDim) lowHalf blockIdx tid) blockIdx tid

/-- `reduce_warp_shuffle_kernel` -/
def reduceWarpShuffleKernel (blockDim n blockIdx tid : Nat) : SumThread F Unit :=
  fillThen (loadOne n (blockIdx * blockDim + tid)) (warpTail blockDim blockIdx tid) blockIdx tid

/-- `v = in4[idx]; (v.x + v.y) + (v.z + v.w)` -/
def loadGroup (idx : Nat) : SumThread F F := do
  let x ← load (.input (4 * idx))
  let y ← load (.input (4 * idx + 1))
  let z ← load (.input (4 * idx + 2))
  let w ← load (.input (4 * idx + 3))
  pure ((x + y) + (z + w))

/-- The loading phase of `reduce_vectorized_coarsened_kernel`. -/
def loadCoarsened (gridDim blockDim n blockIdx tid : Nat) : SumThread F F := do
  let n4 := n / 4
  let idx0 := blockIdx * blockDim + tid
  let stride4 := gridDim * blockDim
  let localSum ← (strided idx0 n4 stride4).foldlM (fun localSum idx => do
    let v ← loadGroup idx
    pure (localSum + v)) 0
  let tailStart := n4 * 4
  let tailCount := n - tailStart
  let flatTid := blockIdx * blockDim + tid
  if flatTid < tailCount then do
    let v ← load (.input (tailStart + flatTid))
    pure (localSum + v)
  else
    pure localSum

/-- `reduce_vectorized_coarsened_kernel` -/
def reduceVectorizedCoarsenedKernel (gridDim blockDim n blockIdx tid : Nat) : SumThread F Unit :=
  fillThen (loadCoarsened gridDim blockDim n blockIdx tid) (warpTail blockDim blockIdx tid)
    blockIdx tid

-- ============================================================================
-- Launchers
-- ============================================================================

/-- A launcher with a thread for each element.  The answer is `out_grid` and `out_block`. -/
def launchPerElement (name : String) (kernel : Nat → Nat → Nat → Nat → SumThread F Unit) (n : Nat)
    (blockSize : Int) (zeroOutput : Bool) : Host LaunchError SumCell F (Nat × Nat) := do
  validateBlockSizePow21d blockSize name
  zeroCells zeroOutput [.out]
  let block := blockSize.toNat
  let numBlocks := numBlocks n block
  launchUnless (numBlocks = 0) ⟨numBlocks % 2 ^ 32, block, block * 4, kernel block n⟩

/-- `reduce_naive_interleaved_launch` -/
def reduceNaiveInterleavedLaunch (n : Nat) (blockSize : Int) (zeroOutput : Bool) :
    Host LaunchError SumCell F (Nat × Nat) :=
  launchPerElement "reduce_naive_interleaved_launch" reduceNaiveInterleavedKernel n blockSize
    zeroOutput

/-- `reduce_sequential_addressing_launch` -/
def reduceSequentialAddressingLaunch (n : Nat) (blockSize : Int) (zeroOutput : Bool) :
    Host LaunchError SumCell F (Nat × Nat) :=
  launchPerElement "reduce_sequential_addressing_launch" reduceSequentialAddressingKernel n
    blockSize zeroOutput

/-- `reduce_warp_shuffle_launch` -/
def reduceWarpShuffleLaunch (n : Nat) (blockSize : Int) (zeroOutput : Bool) :
    Host LaunchError SumCell F (Nat × Nat) :=
  launchPerElement "reduce_warp_shuffle_launch" reduceWarpShuffleKernel n blockSize zeroOutput

def kMaxBlocks : Nat := 4096

/-- `desired_blocks` -/
def desiredBlocks (n blockSize : Nat) : Nat :=
  let n4 := n / 4
  let blocks := if n4 = 0 then 1 else (n4 + blockSize - 1) % 2 ^ 64 / blockSize
  let blocks := if blocks > kMaxBlocks then kMaxBlocks else blocks
  if blocks < 1 then 1 else blocks

/-- `reduce_vectorized_coarsened_launch` -/
def reduceVectorizedCoarsenedLaunch (n : Nat) (blockSize : Int) (zeroOutput : Bool) :
    Host LaunchError SumCell F (Nat × Nat) := do
  validateBlockSizePow21d blockSize "reduce_vectorized_coarsened_launch"
  zeroCells zeroOutput [.out]
  let block := blockSize.toNat
  if n = 0 then
    pure (0, block)
  else do
    let grid := desiredBlocks n block % 2 ^ 32
    Launch.submit .cudaError ⟨grid, block, block * 4, reduceVectorizedCoarsenedKernel grid block n⟩
    pure (grid, block)

-- ============================================================================
-- The elements of a thread
-- ============================================================================

/-- The thread with the element's number takes it. -/
def ownElement (n t : Nat) : List Nat := if t < n then [t] else []

/-- The elements of a `float4`. -/
def group (idx : Nat) : List Nat := [4 * idx, 4 * idx + 1, 4 * idx + 2, 4 * idx + 3]

/-- Of `threads` threads each takes every so many groups, and the first ones take what is left. -/
def coarsenedElements (threads n t : Nat) : List Nat :=
  (strided t (n / 4) threads).flatMap group ++
    if t < n - n / 4 * 4 then [n / 4 * 4 + t] else []

theorem ownElement_loads (blockDim n : Nat) :
    Loads (F := F) blockDim (ownElement n) fun b i => loadOne n (b * blockDim + i) := by
  intro b i μ
  by_cases hlt : b * blockDim + i < n
  · simp only [loadOne, share, ownElement, if_pos hlt, List.map_singleton, List.sum_singleton]
    exact .read ⟨_, List.mem_singleton_self _, rfl⟩ .here
  · simp only [loadOne, share, ownElement, if_neg hlt, List.map_nil, List.sum_nil]
    exact .here

theorem ownElement_partition {n threads : Nat} (h : n ≤ threads) :
    ((List.range threads).flatMap (ownElement n)).Perm (List.range n) := by
  refine Kernels.perm_range_of_owner id (fun t _ j => ?_) (fun t _ => ?_)
    fun j hj => Nat.lt_of_lt_of_le hj h
  · unfold ownElement
    split
    · simp only [List.mem_singleton, id]
      omega
    · simp only [List.not_mem_nil, id, false_iff]
      omega
  · unfold ownElement
    split
    · exact List.nodup_singleton t
    · exact List.nodup_nil

theorem mem_group {idx j : Nat} : j ∈ group idx ↔ j / 4 = idx := by
  simp only [group, List.mem_cons, List.not_mem_nil, or_false]
  omega

theorem mem_groups {threads n t j : Nat} (ht : t < threads) :
    j ∈ (strided t (n / 4) threads).flatMap group ↔ j / 4 < n / 4 ∧ j / 4 % threads = t := by
  rw [List.mem_flatMap]
  constructor
  · rintro ⟨idx, hidx, hj⟩
    rw [mem_group.mp hj]
    exact (mem_strided (Nat.zero_lt_of_lt ht) ht).mp hidx
  · intro h
    exact ⟨j / 4, (mem_strided (Nat.zero_lt_of_lt ht) ht).mpr h, mem_group.mpr rfl⟩

theorem nodup_groups {threads n t : Nat} (ht : t < threads) :
    ((strided t (n / 4) threads).flatMap group).Nodup := by
  refine List.nodup_flatMap.mpr ⟨fun idx _ => ?_, ?_⟩
  · simp [group]
  · refine (nodup_strided (Nat.zero_lt_of_lt ht)).pairwise_of_forall_ne ?_
    intro idx _ idx' _ hne j hj hj'
    exact hne ((mem_group.mp hj).symm.trans (mem_group.mp hj'))

/-- The thread that takes an element. -/
def coarsenedOwner (threads n j : Nat) : Nat :=
  if j / 4 < n / 4 then j / 4 % threads else j - n / 4 * 4

theorem mem_coarsenedElements {threads n t j : Nat} (ht : t < threads) :
    j ∈ coarsenedElements threads n t ↔ j < n ∧ coarsenedOwner threads n j = t := by
  unfold coarsenedElements coarsenedOwner
  rw [List.mem_append, mem_groups ht]
  by_cases hgroup : j / 4 < n / 4
  · rw [if_pos hgroup]
    have hlt : j < n := by omega
    have hnot : j ∉ (if t < n - n / 4 * 4 then [n / 4 * 4 + t] else []) := by
      split
      · rw [List.mem_singleton]
        omega
      · exact List.not_mem_nil
    simp [hgroup, hlt, hnot]
  · rw [if_neg hgroup]
    split
    · rw [List.mem_singleton]
      omega
    · simp only [List.not_mem_nil, or_false]
      omega

theorem coarsenedElements_partition {threads n : Nat} (h : 4 ≤ threads) :
    ((List.range threads).flatMap (coarsenedElements threads n)).Perm (List.range n) := by
  refine Kernels.perm_range_of_owner _ (fun t ht j => mem_coarsenedElements ht) (fun t ht => ?_)
    fun j hj => ?_
  · refine List.Nodup.append (nodup_groups ht) ?_ fun j hj hj' => ?_
    · split
      · exact List.nodup_singleton _
      · exact List.nodup_nil
    · have hgroup := ((mem_groups ht).mp hj).1
      split at hj'
      · rw [List.mem_singleton] at hj'
        omega
      · exact absurd hj' List.not_mem_nil
  · unfold coarsenedOwner
    split
    · exact Nat.mod_lt _ (by omega)
    · omega

theorem foldl_add_eq {ι : Type} (g : ι → F) (xs : List ι) (s : F) :
    xs.foldl (fun s x => s + g x) s = s + (xs.map g).sum := by
  rw [← foldl_plus, List.foldl_map]

theorem coarsenedElements_loads (gridDim blockDim n : Nat) :
    Loads (F := F) blockDim (coarsenedElements (gridDim * blockDim) n)
      (loadCoarsened gridDim blockDim n) := by
  intro b i μ
  have hgroup : ∀ s, ∀ idx ∈ strided (b * blockDim + i) (n / 4) (gridDim * blockDim),
      Performs {x | ∃ j ∈ coarsenedElements (gridDim * blockDim) n (b * blockDim + i), x = .input j}
        μ (loadGroup idx >>= fun v => pure (s + v)) [] []
        (.ret (s + ((group idx).map fun j => μ (.input j)).sum)) := by
    intro s idx hidx
    have hin : ∀ j ∈ group idx, SumCell.input j ∈ {x | ∃ j ∈ coarsenedElements
        (gridDim * blockDim) n (b * blockDim + i), x = .input j} := fun j hj =>
      ⟨j, List.mem_append_left _ (List.mem_flatMap.mpr ⟨idx, hidx, hj⟩), rfl⟩
    have hsum : ((group idx).map fun j => μ (.input j)).sum =
        (μ (.input (4 * idx)) + μ (.input (4 * idx + 1))) +
          (μ (.input (4 * idx + 2)) + μ (.input (4 * idx + 3))) := by
      simp only [group, List.map_cons, List.map_nil, List.sum_cons, List.sum_nil,
        add_zero, add_assoc]
    rw [hsum]
    exact .read (hin _ (by simp [group])) (.read (hin _ (by simp [group]))
      (.read (hin _ (by simp [group])) (.read (hin _ (by simp [group])) .here)))
  refine (Performs.foldlM_read hgroup).bind_read ?_
  rw [foldl_add_eq (fun idx => ((group idx).map fun j => μ (.input j)).sum), zero_add]
  have hshare : share blockDim (coarsenedElements (gridDim * blockDim) n) μ b i =
      ((strided (b * blockDim + i) (n / 4) (gridDim * blockDim)).map fun idx =>
        ((group idx).map fun j => μ (.input j)).sum).sum +
      ((if b * blockDim + i < n - n / 4 * 4 then [n / 4 * 4 + (b * blockDim + i)] else []).map
        fun j => μ (.input j)).sum := by
    rw [share, coarsenedElements, List.map_append, List.sum_append, List.map_flatMap,
      List.flatMap_def, List.sum_flatten, List.map_map]
    rfl
  rw [hshare]
  by_cases htail : b * blockDim + i < n - n / 4 * 4
  · simp only [if_pos htail, List.map_singleton, List.sum_singleton]
    refine .read ⟨_, List.mem_append_right _ ?_, rfl⟩ .here
    rw [if_pos htail]
    exact List.mem_singleton_self _
  · simp only [if_neg htail, List.map_nil, List.sum_nil, add_zero]
    exact .here

-- ============================================================================
-- The rungs
-- ============================================================================

theorem interleaved_addsSum {k : Nat} (hk : k ≤ 10) : AddsSum (F := F) (2 ^ k) 1
    (treeTail (doublings (2 ^ k)) (interleaved (2 ^ k))) := by
  refine treeTail_addsSum (Nat.two_pow_pos k) (fits_interleaved _) fun v => ?_
  rw [doublings_two_pow (by omega), foldl_interleaved v le_rfl (Nat.two_pow_pos k) (Nat.zero_mod _)]
  simp only [Nat.zero_add]

theorem lowHalf_addsSum (k : Nat) : AddsSum (F := F) (2 ^ k) 1
    (treeTail (halvingsTo 1 (2 ^ k)) lowHalf) := by
  refine treeTail_addsSum (Nat.two_pow_pos k) (fits_lowHalf k.zero_le le_rfl) fun v => ?_
  rw [← sum_foldl_lowHalf v k.zero_le]
  exact (Finset.sum_range_one _).symm

inductive ReduceRung where
  | naiveInterleaved
  | sequentialAddressing
  | warpShuffle
  | vectorizedCoarsened
  deriving DecidableEq

namespace ReduceRung

def launch : ReduceRung → Nat → Int → Bool → Host LaunchError SumCell F (Nat × Nat)
  | naiveInterleaved => reduceNaiveInterleavedLaunch
  | sequentialAddressing => reduceSequentialAddressingLaunch
  | warpShuffle => reduceWarpShuffleLaunch
  | vectorizedCoarsened => reduceVectorizedCoarsenedLaunch

/-- The number of blocks that `n` elements need. -/
def blocks : ReduceRung → Nat → Nat → Nat
  | vectorizedCoarsened, n, blockSize =>
      if n = 0 then 0 else min kMaxBlocks (max 1 ((n / 4 + blockSize - 1) / blockSize))
  | _, n, blockSize => (n + blockSize - 1) / blockSize

/-- What thread `t` of `threads` threads takes. -/
def elements : ReduceRung → Nat → Nat → Nat → List Nat
  | vectorizedCoarsened, threads, n, t => coarsenedElements threads n t
  | _, _, n, t => ownElement n t

end ReduceRung

theorem desiredBlocks_eq {n blockSize : Nat} (hn : n < 2 ^ 64) (hpos : 0 < blockSize)
    (hmax : blockSize ≤ 1024) : desiredBlocks n blockSize =
      min kMaxBlocks (max 1 ((n / 4 + blockSize - 1) / blockSize)) := by
  have hwrap : (n / 4 + blockSize - 1) % 2 ^ 64 = n / 4 + blockSize - 1 := by
    refine Nat.mod_eq_of_lt ?_
    omega
  have hzero : n / 4 = 0 → (n / 4 + blockSize - 1) / blockSize = 0 := fun h =>
    Nat.div_eq_of_lt (by omega)
  simp only [desiredBlocks, hwrap]
  generalize (n / 4 + blockSize - 1) / blockSize = blocks at hzero
  unfold kMaxBlocks
  split_ifs <;> omega

/-- What a launcher asks for: the zeros, and a launch where there is an element. -/
def asked (zeroOutput : Bool) (n : Nat) (l : Launch SumCell F) : List (Command SumCell F) :=
  (if zeroOutput then [.memset [.out] 0] else []) ++ if n = 0 then [] else [.launch l]

/-- The launcher hands a kernel that adds up `n` elements to the device. -/
def Asks (n grid block : Nat) (elements : Nat → List Nat) (zeroOutput : Bool)
    (launcher : Host LaunchError SumCell F (Nat × Nat)) : Prop :=
  ∃ l : Launch SumCell F, launcher [] = (.ok (grid, block), asked zeroOutput n l) ∧
    l.gridDim = grid ∧ l.blockDim = block ∧ (n ≠ 0 → SumsOnce n elements l)

omit [AddCommMonoid F] in
theorem accepted_of_le {grid block : Nat} {kernel : Nat → Nat → SumThread F Unit} (hgrid : 0 < grid)
    (hgrid' : grid < 2 ^ 31) (hblock : 0 < block) (hblock' : block ≤ 1024) :
    (⟨grid, block, block * 4, kernel⟩ : Launch SumCell F).Accepted := by
  refine ⟨⟨hgrid, hgrid'⟩, ⟨hblock, hblock'⟩, ?_⟩
  show block * 4 ≤ 49152
  omega

theorem launchPerElement_asks {k n reach : Nat} (hk : 5 ≤ k) (hk' : k ≤ 10)
    (hgrid : (n + 2 ^ k - 1) / 2 ^ k < 2 ^ 31) (zeroOutput : Bool) (name : String)
    {kernel : Nat → Nat → Nat → Nat → SumThread F Unit} {tail : Nat → Nat → SumThread F Unit}
    (hkernel : ∀ b i, kernel (2 ^ k) n b i =
      fillThen (loadOne n (b * 2 ^ k + i)) (tail b i) b i)
    (htail : AddsSum (2 ^ k) reach tail) (hreach : reach ≤ 2 ^ k) :
    Asks n ((n + 2 ^ k - 1) / 2 ^ k) (2 ^ k) (ownElement n) zeroOutput
      (launchPerElement name kernel n (2 ^ k : Nat) zeroOutput) := by
  have hpos := Nat.two_pow_pos k
  have hmax := two_pow_le hk'
  let l : Launch SumCell F := ⟨(n + 2 ^ k - 1) / 2 ^ k, 2 ^ k, 2 ^ k * 4, kernel (2 ^ k) n⟩
  have hsize : n + 2 ^ k ≤ 2 ^ 64 := by
    rw [Nat.div_lt_iff_lt_mul hpos] at hgrid
    omega
  have hblocks : numBlocks n (2 ^ k) = (n + 2 ^ k - 1) / 2 ^ k := by
    by_cases hn : n = 0
    · rw [hn, numBlocks, if_pos rfl]
      exact (Nat.div_eq_of_lt (by omega)).symm
    · exact numBlocks_eq hn hsize
  refine ⟨l, ?_, rfl, rfl, fun _ => sumsOnce hpos rfl hkernel (ownElement_loads _ n) htail hreach
    (ownElement_partition (le_blocks_mul hpos))⟩
  have hfits : numBlocks n (2 ^ k) % 2 ^ 32 = (n + 2 ^ k - 1) / 2 ^ k := by
    rw [hblocks, Nat.mod_eq_of_lt (by omega)]
  unfold launchPerElement
  rw [bind_ok (validateBlockSizePow21d_ok hk hk' name []), bind_ok (zeroCells_ok zeroOutput _ _)]
  simp only [Int.toNat_natCast, hfits, numBlocks_eq_zero hpos hsize]
  have haccepted : n ≠ 0 → l.Accepted := fun hn =>
    accepted_of_le (Nat.div_pos (by omega) hpos) hgrid hpos hmax
  exact launchUnless_ok haccepted _

theorem reduceVectorizedCoarsened_asks {k n : Nat} (hk : 5 ≤ k) (hk' : k ≤ 10) (hn : n < 2 ^ 64)
    (zeroOutput : Bool) :
    Asks (F := F) n (ReduceRung.vectorizedCoarsened.blocks n (2 ^ k)) (2 ^ k)
      (coarsenedElements (ReduceRung.vectorizedCoarsened.blocks n (2 ^ k) * 2 ^ k) n) zeroOutput
      (reduceVectorizedCoarsenedLaunch n (2 ^ k : Nat) zeroOutput) := by
  have hpos := Nat.two_pow_pos k
  have hmin := le_two_pow hk
  have hmax := two_pow_le hk'
  let grid := ReduceRung.vectorizedCoarsened.blocks n (2 ^ k)
  let l : Launch SumCell F :=
    ⟨grid, 2 ^ k, 2 ^ k * 4, reduceVectorizedCoarsenedKernel grid (2 ^ k) n⟩
  have hgrid : n ≠ 0 → grid = min kMaxBlocks (max 1 ((n / 4 + 2 ^ k - 1) / 2 ^ k)) :=
    fun h => if_neg h
  have hsome : n ≠ 0 → 0 < grid ∧ grid ≤ 4096 := by
    intro h
    rw [hgrid h, kMaxBlocks]
    omega
  refine ⟨l, ?_, rfl, rfl, fun h => sumsOnce hpos rfl (fun _ _ => rfl)
    (coarsenedElements_loads grid _ n) (warpTail_addsSum hk) hmin (coarsenedElements_partition ?_)⟩
  · unfold reduceVectorizedCoarsenedLaunch
    rw [bind_ok (validateBlockSizePow21d_ok hk hk' _ []), bind_ok (zeroCells_ok zeroOutput _ _)]
    simp only [Int.toNat_natCast]
    by_cases h : n = 0
    · have hnone : ReduceRung.vectorizedCoarsened.blocks n (2 ^ k) = 0 := if_pos h
      rw [if_pos h, asked, if_pos h, List.append_nil, hnone]
      rfl
    · have hfits : desiredBlocks n (2 ^ k) % 2 ^ 32 = grid := by
        rw [desiredBlocks_eq hn hpos hmax, ← hgrid h, Nat.mod_eq_of_lt (by have := hsome h; omega)]
      have haccepted : l.Accepted :=
        accepted_of_le (hsome h).1 (by have := hsome h; omega) hpos hmax
      rw [if_neg h, hfits, bind_ok (Launch.submit_ok haccepted _), asked, if_neg h]
      rfl
  · have hthreads : 1 * 2 ^ k ≤ grid * 2 ^ k := Nat.mul_le_mul_right _ (hsome h).1
    show 4 ≤ grid * 2 ^ k
    omega

theorem ReduceRung.launch_asks (rung : ReduceRung) {k n : Nat} (hk : 5 ≤ k) (hk' : k ≤ 10)
    (hn : n < 2 ^ 64) (hgrid : rung.blocks n (2 ^ k) < 2 ^ 31) (zeroOutput : Bool) :
    Asks (F := F) n (rung.blocks n (2 ^ k)) (2 ^ k)
      (rung.elements (rung.blocks n (2 ^ k) * 2 ^ k) n) zeroOutput
      (rung.launch n (2 ^ k : Nat) zeroOutput) := by
  have hone : 1 ≤ 2 ^ k := Nat.two_pow_pos k
  cases rung with
  | naiveInterleaved =>
      exact launchPerElement_asks hk hk' hgrid zeroOutput _ (fun _ _ => rfl)
        (interleaved_addsSum hk') hone
  | sequentialAddressing =>
      exact launchPerElement_asks hk hk' hgrid zeroOutput _ (fun _ _ => rfl)
        (lowHalf_addsSum k) hone
  | warpShuffle =>
      exact launchPerElement_asks hk hk' hgrid zeroOutput _ (fun _ _ => rfl) (warpTail_addsSum hk)
        (le_two_pow hk)
  | vectorizedCoarsened => exact reduceVectorizedCoarsened_asks hk hk' hn zeroOutput

/-- What the commands leave in `*out`. -/
theorem out_of_asked {n : Nat} {elements : Nat → List Nat} {l : Launch SumCell F}
    (zeroOutput : Bool)
    (h : n ≠ 0 → SumsOnce n elements l) {μ μ' : SumCell → F}
    (hcompletes : Completes plus SumCell.IsGlobal (asked zeroOutput n l) μ μ') :
    μ' .out = (if zeroOutput then 0 else μ .out) + ∑ j ∈ Finset.range n, μ (.input j) := by
  have hlaunch : ∀ ν : SumCell → F, Completes plus SumCell.IsGlobal
      (if n = 0 then [] else [.launch l]) ν μ' →
        μ' .out = ν .out + ∑ j ∈ Finset.range n, ν (.input j) := by
    intro ν hν
    by_cases hn : n = 0
    · rw [if_pos hn] at hν
      cases hν
      rw [hn, Finset.sum_range_zero, add_zero]
    · rw [if_neg hn] at hν
      cases hν with
      | launch hrun hc hnil =>
          cases hnil
          exact (h hn).output ν _ _ hrun hc
  cases zeroOutput with
  | false => exact hlaunch μ hcompletes
  | true =>
      cases hcompletes with
      | memset hrest => exact hlaunch _ hrest

/-- Every rung sums every element once: for a block size that is a power of two from 32 to 1024
    and a number of blocks that fits the grid, the launcher asks for threads that share out the
    elements and stay in their buffers under every schedule, and `*out` gets the sum. -/
theorem reduce_sums_once (rung : ReduceRung) {k n : Nat} (hk : 5 ≤ k) (hk' : k ≤ 10)
    (hn : n < 2 ^ 64) (hgrid : rung.blocks n (2 ^ k) < 2 ^ 31) (zeroOutput : Bool) :
    ∃ cs : List (Command SumCell F),
      rung.launch n (2 ^ k : Nat) zeroOutput [] = (.ok (rung.blocks n (2 ^ k), 2 ^ k), cs) ∧
      (∀ l, .launch l ∈ cs → l.gridDim = rung.blocks n (2 ^ k) ∧ l.blockDim = 2 ^ k ∧
        SumsOnce n (rung.elements (rung.blocks n (2 ^ k) * 2 ^ k) n) l) ∧
      ∀ μ μ', Completes plus SumCell.IsGlobal cs μ μ' →
        μ' .out = (if zeroOutput then 0 else μ .out) + ∑ j ∈ Finset.range n, μ (.input j) := by
  obtain ⟨l, hlaunch, hgridDim, hblockDim, hsums⟩ :=
    rung.launch_asks (F := F) hk hk' hn hgrid zeroOutput
  refine ⟨_, hlaunch, fun l' hl' => ?_, fun μ μ' h => out_of_asked zeroOutput hsums h⟩
  have heq : n ≠ 0 ∧ l' = l := by
    rcases List.mem_append.mp hl' with hmem | hmem
    · split at hmem
      · exact absurd (List.mem_singleton.mp hmem) nofun
      · exact absurd hmem List.not_mem_nil
    · split at hmem
      · exact absurd hmem List.not_mem_nil
      · rename_i hn
        exact ⟨hn, Command.launch.inj (List.mem_singleton.mp hmem)⟩
  exact heq.2 ▸ ⟨hgridDim, hblockDim, hsums heq.1⟩

theorem reduce_sums_once_seven : ∃ cs : List (Command SumCell Nat),
    reduceVectorizedCoarsenedLaunch 7 32 true [] = (.ok (1, 32), cs) ∧
      ∀ μ μ', Completes plus SumCell.IsGlobal cs μ μ' →
        μ' .out = ∑ j ∈ Finset.range 7, μ (.input j) := by
  obtain ⟨cs, hlaunch, -, hout⟩ :=
    reduce_sums_once (F := Nat) .vectorizedCoarsened (k := 5) (n := 7)
    (by decide) (by decide) (by decide) (by decide) true
  refine ⟨cs, hlaunch, fun μ μ' h => ?_⟩
  rw [hout μ μ' h, if_pos rfl, Nat.zero_add]

end PassionProjects.Kernelforge
