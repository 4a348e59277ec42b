/-
  PassionProjects.Kernelforge.Norm.Rungs

  The RMSNorm rungs equal `reference::rmsnorm_rows`.
-/

import Mathlib.Analysis.Real.Sqrt
import PassionProjects.Kernelforge.Norm.Rows

namespace PassionProjects.Kernelforge

open Raising Raising.Prog Warps Warps.Program
open Footprint (readWrite)
open Kernels (strided mem_strided nodup_strided)

variable {F : Type} [Field F]

-- ============================================================================
-- Blocks
-- ============================================================================

def normOwn (sharedBytes b : Nat) : Set NormCell :=
  {x | ∃ array i, i < NormArray.length sharedBytes array ∧ x = .shared b array i}

def normReadable (cols sharedBytes b _tid : Nat) : Set NormCell :=
  {x | x ∈ normCells cols b ∨ x ∈ normOwn sharedBytes b}

/-- The block of a row. -/
abbrev normBlock (l : Launch NormCell F) (cols : Nat) (μ : NormCell → F) (b : Nat) :
    Block NormCell F :=
  l.block (normReadable cols l.sharedBytes) (normOwn l.sharedBytes) μ b

/-- The sum that a row is scaled by. -/
def sumSquares (cols : Nat) (μ : NormCell → F) (row : Nat) : F :=
  ∑ c ∈ Finset.range cols, square cols μ row c

section Blocks

variable {l : Launch NormCell F} {cols : Nat} {μ : NormCell → F} {b : Nat} {I : Items cols}

theorem not_mem_normCells {sharedBytes : Nat} {x : NormCell} (hx : x ∈ normOwn sharedBytes b) :
    x ∉ normCells cols b := by
  obtain ⟨array, i, -, rfl⟩ := hx
  rintro ⟨c, -, heq | heq⟩
  · exact nomatch heq
  · exact nomatch heq

/-- The block comes to its second pass with what the row is to be scaled by. -/
def Scales (B : Block NormCell F) (cols b : Nat) (scale : Nat → NormThread F Unit) : Prop :=
  ∃ μ', B.Reading plus (B.readable 0) μ' scale ∧ ∀ x ∈ normCells cols b, μ' x = B.memory x

theorem normReduceSum_reduces (hpos : 0 < l.blockDim) (hwarps : l.blockDim % 32 = 0)
    (hmax : l.blockDim ≤ 1024) : (normBlock l cols μ b).Reduces (M := F) plus id
      (normOwn l.sharedBytes b) {.shared b .result 0} (normReduceSum l.blockDim b) := by
  let partials (w : Nat) : Place NormCell F F := .one (.shared b .warpPartials w)
  let result : Place NormCell F F := .one (.shared b .result 0)
  have hown : ∀ x ∈ Block.warpScratch l.blockDim partials result, x ∈ normOwn l.sharedBytes b := by
    rintro x (⟨w, hw, rfl⟩ | rfl)
    · refine ⟨.warpPartials, w, ?_, rfl⟩
      show w < 32
      omega
    · exact ⟨.result, 0, Nat.one_pos, rfl⟩
  have hop : ∀ a b : F, id a + id b = id (a + b) := fun _ _ => rfl
  have hwarp : (normBlock l cols μ b).Reduces (M := F) plus id
      (Block.warpScratch l.blockDim partials result) {.shared b .result 0}
        (normReduceSum l.blockDim b) := by
    apply Block.warpReduce_reduces hpos hwarps hmax (Block.exchanges_reduceStep hwarps (· + ·)) hop
    · intro w w' x hx hx'
      exact (NormCell.shared.inj (hx.symm.trans hx')).2.2
    · intro w x hx hx'
      exact absurd (NormCell.shared.inj (hx.symm.trans hx')).2.1 (by decide)
    · exact fun i _ x hx => .inr (hown x hx)
    · exact hown
  exact hwarp.mono hown

/-- A kernel whose block adds up through its warps. -/
theorem shuffle_scales {localSum : Nat → NormThread F F} (scale : Nat → F → NormThread F Unit)
    (inv : F → F) (hpos : 0 < l.blockDim) (hwarps : l.blockDim % 32 = 0) (hmax : l.blockDim ≤ 1024)
    (hlocal : ∀ i < l.blockDim, Performs (normCells cols b) μ (localSum i) [] []
      (.ret (I.squares l.blockDim μ b i)))
    (hkernel : ∀ i < l.blockDim, l.kernel b i = localSum i >>= fun s =>
      normReduceSum l.blockDim b i s >>= fun t => scale i (inv t)) :
    Scales (normBlock l cols μ b) cols b fun i => scale i (inv (sumSquares cols μ b)) := by
  have hstart : (normBlock l cols μ b).Reading plus (normCells cols b) μ (l.kernel b) :=
    (Block.Reading.of_empty .start).mono (Set.empty_subset _)
  have hsums := (hstart.congr hkernel).read (fun i hi => (hlocal i hi).bind_here)
    fun i _ x hx => ⟨hx, .inl hx⟩
  obtain ⟨μ', h', hkept⟩ := normReduceSum_reduces hpos hwarps hmax _ μ
    (fun i => I.squares l.blockDim μ b i) (fun i t => scale i (inv t))
    (fun x hx hown => not_mem_normCells hown hx) hsums
  have htotal : ∑ i ∈ Finset.range l.blockDim, I.squares l.blockDim μ b i = sumSquares cols μ b :=
    I.sum_squares hpos μ b
  have hgo : (normBlock l cols μ b).Reading plus {.shared b .result 0} μ' fun i =>
      scale i (inv (sumSquares cols μ b)) := by
    rw [← htotal]
    exact h'
  refine ⟨μ', hgo.mono ?_, fun x hx => hkept x fun hown => not_mem_normCells hown hx⟩
  rintro x rfl
  exact .inr ⟨.result, 0, Nat.one_pos, rfl⟩

/-- The block of `rmsnorm_naive_kernel` adds up in shared memory. -/
theorem naive_scales {k : Nat} {rsqrtf : F → F} {eps : F} (hsize : l.blockDim = 2 ^ k)
    (hbytes : l.sharedBytes = l.blockDim * 4) (hfits : cols + l.blockDim ≤ 2 ^ 31)
    (hkernel : l.kernel b = rmsnormNaiveKernel rsqrtf l.blockDim cols eps b) :
    Scales (normBlock l cols μ b) cols b fun i =>
      scaleRow l.blockDim cols b i (rsqrtf (meanSq cols (sumSquares cols μ b) + eps)) := by
  have hpos : 0 < l.blockDim := hsize ▸ Nat.two_pow_pos k
  let S (i : Nat) : F := (Items.single cols).squares l.blockDim μ b i
  have hown : ∀ j < l.blockDim, NormCell.shared b .sdata j ∈ normOwn l.sharedBytes b := by
    intro j hj
    refine ⟨.sdata, j, ?_, rfl⟩
    show j < l.sharedBytes / 4
    omega
  have hcell : ∀ i < l.blockDim, ∀ j < l.blockDim,
      NormCell.shared b .sdata i = .shared b .sdata j → i = j := fun _ _ _ _ heq =>
    (NormCell.shared.inj heq).2.2
  let last (i : Nat) : NormThread F Unit := do
    let m ← (if cols > 0 then do
      let s ← load (.shared b .sdata 0)
      pure (s / cols)
    else pure 0)
    barrier
    scaleRow l.blockDim cols b i (rsqrtf (m + eps))
  -- the sums of the threads are in shared memory
  have hstart : (normBlock l cols μ b).At plus μ .empty (l.kernel b) := .start
  obtain ⟨μ₁, h₁, hvals₁, hkept₁⟩ := hstart.exchange hpos (fun _ => normCells cols b)
    (fun i => [(.shared b .sdata i, S i)])
    (k := fun i => treeLoop (halvingsTo 1 l.blockDim) lowHalf (.shared b .sdata) (· + ·) i >>=
      fun _ => last i)
    (fun i _ => by
      rw [hkernel]
      exact (localSumSq_performs hpos hfits).bind_read (.write .here))
    (fun i _ x hx => .inl hx)
    (fun i (hi : i < l.blockDim) w hw => by
      rw [List.mem_singleton.mp hw]
      exact hown i hi)
    (fun i (hi : i < l.blockDim) j _ w hw hread => by
      rw [List.mem_singleton.mp hw] at hread
      exact absurd hread (not_mem_normCells (hown i hi)))
    (fun i (hi : i < l.blockDim) j (hj : j < l.blockDim) w hw w' hw' heq => by
      rw [List.mem_singleton.mp hw, List.mem_singleton.mp hw'] at heq
      obtain rfl := hcell i hi j hj heq
      rw [List.mem_singleton.mp hw, List.mem_singleton.mp hw']
      exact ⟨rfl, rfl⟩)
  -- the tree leaves their sum in the first cell
  have hop : ∀ a b : F, id a + id b = id (a + b) := fun _ _ => rfl
  have hvals : ∀ j < l.blockDim, μ₁ (.shared b .sdata j) = id (S j) := fun j hj =>
    hvals₁ j hj (.shared b .sdata j, S j) (List.mem_singleton_self _)
  have hstrides : Fits l.blockDim lowHalf (halvingsTo 1 l.blockDim) := by
    rw [hsize]
    exact fits_lowHalf k.zero_le le_rfl
  obtain ⟨μ₂, h₂, hvals₂, hkept₂⟩ := h₁.treeLoop hpos (fun _ _ => rfl) hcell
    (fun i _ j hj => .inr (hown j hj)) hown hstrides hvals
  have htotal : μ₂ (.shared b .sdata 0) = sumSquares cols μ b := by
    rw [hvals₂ 0 hpos, foldl_stage_lift hop, hsize]
    refine (Finset.sum_range_one _).symm.trans ((sum_foldl_lowHalf S k.zero_le).trans ?_)
    rw [← hsize]
    exact (Items.single cols).sum_squares hpos μ b
  -- the threads read it, where the row is not empty
  have hmean : ∀ i < l.blockDim, Performs {x | x = .shared b .sdata 0} μ₂ (last i) [] []
      (barrier >>= fun _ =>
        scaleRow l.blockDim cols b i (rsqrtf (meanSq cols (sumSquares cols μ b) + eps))) := by
    intro i _
    apply Performs.bind_here
    unfold meanSq
    split
    · rw [← htotal]
      exact .read rfl .here
    · exact .here
  obtain ⟨μ₃, h₃, -, hkept₃⟩ := h₂.exchange hpos (fun _ => {x | x = .shared b .sdata 0})
    (fun _ => []) hmean (fun i _ x hx => hx ▸ .inr (hown 0 hpos))
    (fun _ _ _ hw => absurd hw List.not_mem_nil) (fun _ _ _ _ _ hw => absurd hw List.not_mem_nil)
    fun _ _ _ _ _ hw => absurd hw List.not_mem_nil
  refine ⟨μ₃, (Block.Reading.of_empty h₃).mono (Set.empty_subset _), fun x hx => ?_⟩
  have hother : ∀ j < l.blockDim, NormCell.shared b .sdata j ≠ x := by
    rintro j hj rfl
    exact (not_mem_normCells (hown j hj)) hx
  rw [hkept₃ x fun _ _ _ hw => absurd hw List.not_mem_nil, hkept₂ x hother]
  refine hkept₁ x fun i (hi : i < l.blockDim) w hw => ?_
  rw [List.mem_singleton.mp hw]
  exact hother i hi

end Blocks

-- ============================================================================
-- What a launch writes
-- ============================================================================

namespace Items

variable {cols : Nat} (I : Items cols) {blockDim row tid : Nat} {v : Nat → F}

omit [Field F] in
theorem mem_writes (hpos : 0 < blockDim) (htid : tid < blockDim) {w : NormCell × F} :
    w ∈ I.writes blockDim row v tid ↔
      ∃ j < cols, I.owner j % blockDim = tid ∧ w = (normOut cols row j, v j) := by
  constructor
  · intro hw
    obtain ⟨c, hc, hw⟩ := List.mem_flatMap.mp hw
    obtain ⟨j, hj, rfl⟩ := List.mem_map.mp hw
    obtain ⟨hlt, hmod⟩ := (mem_strided hpos htid).mp hc
    obtain ⟨hcols, rfl⟩ := (I.mem_elems c hlt j).mp hj
    exact ⟨j, hcols, hmod, rfl⟩
  · rintro ⟨j, hj, hmod, rfl⟩
    have hlt := I.owner_lt j hj
    apply List.mem_flatMap.mpr
    refine ⟨I.owner j, (mem_strided hpos htid).mpr ⟨hlt, hmod⟩, List.mem_map.mpr ⟨j, ?_, rfl⟩⟩
    exact (I.mem_elems _ hlt j).mpr ⟨hj, rfl⟩

omit [Field F] in
theorem writes_congr (hpos : 0 < blockDim) {v' : Nat → F} (h : ∀ j < cols, v j = v' j) :
    I.writes blockDim row v tid = I.writes blockDim row v' tid := by
  apply List.flatMap_congr
  intro c hc
  apply List.map_congr_left
  intro j hj
  rw [h j ((I.mem_elems c (Kernels.lt_of_mem_strided hpos hc) j).mp hj).1]

theorem normOut_inj {r c r' c' : Nat} (hc : c < cols) (hc' : c' < cols)
    (h : normOut cols r c = normOut cols r' c') : r = r' ∧ c = c' :=
  Kernels.index_inj hc hc' (NormCell.output.inj h)

omit [Field F] in
theorem nodup_writes (hpos : 0 < blockDim) :
    ((I.writes blockDim row v tid).map Prod.fst).Nodup := by
  have hin : ∀ c ∈ strided tid I.bound blockDim, ∀ j ∈ I.elems c, j < cols ∧ I.owner j = c :=
    fun c hc j hj => (I.mem_elems c (Kernels.lt_of_mem_strided hpos hc) j).mp hj
  rw [Items.writes, List.map_flatMap]
  simp only [List.map_map]
  apply List.nodup_flatMap.mpr
  constructor
  · intro c hc
    refine (I.nodup c).map_on fun j hj j' hj' heq => ?_
    exact (normOut_inj (hin c hc j hj).1 (hin c hc j' hj').1 heq).2
  · refine (nodup_strided hpos).imp_of_mem fun {c c'} hc hc' hne x hx hx' => hne ?_
    obtain ⟨j, hj, rfl⟩ := List.mem_map.mp hx
    obtain ⟨j', hj', heq⟩ := List.mem_map.mp hx'
    obtain ⟨hlt, rfl⟩ := hin c hc j hj
    obtain ⟨hlt', rfl⟩ := hin c' hc' j' hj'
    rw [(normOut_inj hlt' hlt heq).2]

end Items

section Launches

variable {l : Launch NormCell F} {cols : Nat} {I : Items cols} {μ : NormCell → F}
  {v : Nat → Nat → F}

omit [Field F] in
/-- What the threads of all rows write. -/
theorem normWrites (I : Items cols) (hpos : 0 < l.blockDim) (v : Nat → Nat → F) :
    l.Writes NormCell.IsGlobal (normReadable cols l.sharedBytes) (normOwn l.sharedBytes)
      (normReadable cols l.sharedBytes) fun b => I.writes l.blockDim b (v b) := by
  constructor
  · rintro b _ x ⟨array, i, hi, rfl⟩
    refine ⟨id, fun b' _ => ⟨?_, ?_⟩⟩
    · rintro ⟨array', i', -, heq⟩
      exact (NormCell.shared.inj heq).1
    · rintro j _ (hrow | ⟨array', i', -, heq⟩)
      · obtain ⟨c, -, heq | heq⟩ := hrow
        · exact nomatch heq
        · exact nomatch heq
      · exact (NormCell.shared.inj heq).1
  · intro b _ i hi w hw
    obtain ⟨j, -, -, rfl⟩ := (I.mem_writes hpos hi).mp hw
    trivial
  · exact fun b _ i _ => subset_rfl
  · intro b _ i hi w hw b' _ j _ hread
    obtain ⟨c, -, -, rfl⟩ := (I.mem_writes hpos hi).mp hw
    rcases hread with hrow | hown
    · obtain ⟨c', -, heq | heq⟩ := hrow
      · exact nomatch heq
      · exact nomatch heq
    · obtain ⟨array, i', -, heq⟩ := hown
      exact nomatch heq
  · intro b _ i hi w hw b' _ j hj w' hw' heq
    obtain ⟨c, hc, rfl, rfl⟩ := (I.mem_writes hpos hi).mp hw
    obtain ⟨c', hc', rfl, rfl⟩ := (I.mem_writes hpos hj).mp hw'
    obtain ⟨rfl, rfl⟩ := Items.normOut_inj hc hc' heq
    exact ⟨rfl, rfl, rfl⟩
  · exact fun b _ i _ => I.nodup_writes hpos

/-- Where a thread of a launch for `rows` rows may go: to the row of its block, to `gamma`, and
    to the arrays of the block. -/
def NormCell.Inside (rows cols : Nat) (l : Launch NormCell F) (b _tid : Nat) : NormCell → Prop
  | .input j | .output j => j < rows * cols ∧ j / cols = b
  | .gamma c => c < cols
  | .shared b' array i => b' = b ∧ i < array.length l.sharedBytes
  | .overflow => False

theorem row_inside {rows b c : Nat} (hb : b < rows) (hc : c < cols) :
    b * cols + c < rows * cols ∧ (b * cols + c) / cols = b := by
  have hle := Nat.mul_le_mul_right cols (Nat.succ_le_of_lt hb)
  rw [Nat.succ_mul] at hle
  refine ⟨by omega, ?_⟩
  rw [Nat.mul_comm, Nat.mul_add_div (by omega), Nat.div_eq_of_lt hc, Nat.add_zero]

section Scaled

variable {inv : Nat → F}

/-- What the launch leaves behind, where each block comes to its second pass. -/
theorem ends_of_scales (hpos : 0 < l.blockDim) (scale : Nat → Nat → NormThread F Unit)
    (hinv : ∀ b, ∀ μ₀, (∀ x, NormCell.IsGlobal x → μ₀ x = μ x) →
      Scales (normBlock l cols μ₀ b) cols b (scale b))
    (hscale : ∀ b ν, ∀ i < l.blockDim, Performs (normCells cols b) ν (scale b i)
      (I.writes l.blockDim b (scaled cols ν b (inv b)) i) [] (.ret ())) :
    l.Ends plus NormCell.IsGlobal μ (normReadable cols l.sharedBytes) (normOwn l.sharedBytes)
      (fun b => readWrite (normReadable cols l.sharedBytes b)
        fun i => I.writes l.blockDim b (scaled cols μ b (inv b)) i) fun _ _ => True := by
  apply (normWrites I hpos fun b => scaled cols μ b (inv b)).ends
  intro μ₀ hμ₀ b _
  obtain ⟨μ', h', hkept⟩ := hinv b μ₀ hμ₀
  have hcells : ∀ x ∈ normCells cols b, μ' x = μ x := by
    intro x hx
    refine (hkept x hx).trans (hμ₀ x ?_)
    obtain ⟨c, -, rfl | rfl⟩ := hx
    · trivial
    · trivial
  have hwrites : I.writes l.blockDim b (scaled cols μ b (inv b)) =
      I.writes l.blockDim b (scaled cols μ' b (inv b)) :=
    funext fun i => I.writes_congr hpos fun j hj => scaled_congr hcells (inv b) hj
  have hlast := h'.written (hscale b μ') fun i _ x hx => ⟨.inl hx, .inl hx⟩
  refine ⟨μ', ?_⟩
  rw [hwrites]
  exact hlast.mono fun i _ x hx => hx.2

end Scaled

end Launches

-- ============================================================================
-- The rows
-- ============================================================================

/-- `reference::rmsnorm_rows` -/
def referenceRmsnormRows (sqrt : F → F) (x gamma : Nat → F) (cols : Nat) (eps : F)
    (r c : Nat) : F :=
  let sumSq := (List.range cols).foldl (fun sumSq c =>
    let v := x (r * cols + c)
    sumSq + v * v) 0
  let meanSq := if cols > 0 then sumSq / cols else 0
  let invRms := 1 / sqrt (meanSq + eps)
  x (r * cols + c) * invRms * gamma c

theorem scaled_eq {rsqrtf sqrt : F → F} (hrsqrt : ∀ v, rsqrtf v = 1 / sqrt v) (cols : Nat) (eps : F)
    (μ : NormCell → F) (r c : Nat) :
    scaled cols μ r (rsqrtf (meanSq cols (sumSquares cols μ r) + eps)) c =
      referenceRmsnormRows sqrt (fun j => μ (.input j)) (fun c => μ (.gamma c)) cols eps r c := by
  unfold scaled referenceRmsnormRows
  rw [hrsqrt]
  dsimp only
  rw [Kernels.foldl_add_eq_sum]
  rfl

-- ============================================================================
-- The rungs
-- ============================================================================

/-- `validate_cols_multiple_of_4` -/
def validateColsMultipleOf4 (cols : Nat) (launcherName : String) :
    Host LaunchError NormCell F Unit :=
  check (¬ cols % 4 ≠ 0)
    (.invalidArgument (launcherName ++ ": cols (" ++ toString cols ++
      ") must be a multiple of 4 -- every row must start 16-byte-aligned for this " ++
      "kernel's float4 loads (see this function's doc comment)."))

/-- A launcher with a block for each row, behind its checks.  The answer is `out_grid` and
    `out_block`. -/
def launchRows (smemBytes : Nat → Nat) (kernel : Nat → Nat → Nat → NormThread F Unit) (rows : Int)
    (blockSize : Int) : Host LaunchError NormCell F (Nat × Nat) :=
  let block := blockSize.toNat
  launchUnless (rows = 0) ⟨(rows % 2 ^ 32).toNat, block, smemBytes block, kernel block⟩

/-- `rmsnorm_naive_launch` -/
def rmsnormNaiveLaunch (rsqrtf : F → F) (rows : Int) (cols : Nat) (eps : F) (blockSize : Int) :
    Host LaunchError NormCell F (Nat × Nat) := do
  validateBlockSizePow21d blockSize "rmsnorm_naive_launch"
  launchRows (· * 4) (fun block => rmsnormNaiveKernel rsqrtf block cols eps) rows blockSize

/-- `rmsnorm_warp_shuffle_launch` -/
def rmsnormWarpShuffleLaunch (rsqrtf : F → F) (rows : Int) (cols : Nat) (eps : F)
    (blockSize : Int) :
    Host LaunchError NormCell F (Nat × Nat) := do
  validateBlockSizePow21d blockSize "rmsnorm_warp_shuffle_launch"
  launchRows (fun _ => 0) (fun block => rmsnormWarpShuffleKernel rsqrtf block cols eps)
    rows blockSize

/-- `rmsnorm_vectorized_launch` -/
def rmsnormVectorizedLaunch (rsqrtf : F → F) (rows : Int) (cols : Nat) (eps : F) (blockSize : Int) :
    Host LaunchError NormCell F (Nat × Nat) := do
  validateBlockSizePow21d blockSize "rmsnorm_vectorized_launch"
  validateColsMultipleOf4 cols "rmsnorm_vectorized_launch"
  launchRows (fun _ => 0) (fun block => rmsnormVectorizedKernel rsqrtf block cols eps)
    rows blockSize

inductive NormRung where
  | naive
  | warpShuffle
  | vectorized
  deriving DecidableEq

namespace NormRung

def launch (rsqrtf : F → F) :
    NormRung → Int → Nat → F → Int → Host LaunchError NormCell F (Nat × Nat)
  | naive => rmsnormNaiveLaunch rsqrtf
  | warpShuffle => rmsnormWarpShuffleLaunch rsqrtf
  | vectorized => rmsnormVectorizedLaunch rsqrtf

def smemBytes : NormRung → Nat → Nat
  | naive, block => block * 4
  | _, _ => 0

def kernel (rsqrtf : F → F) : NormRung → Nat → Nat → F → Nat → Nat → NormThread F Unit
  | naive => rmsnormNaiveKernel rsqrtf
  | warpShuffle => rmsnormWarpShuffleKernel rsqrtf
  | vectorized => rmsnormVectorizedKernel rsqrtf

/-- What the launcher hands to the device. -/
def asked (rung : NormRung) (rsqrtf : F → F) (rows cols : Nat) (eps : F) (k : Nat) :
    Launch NormCell F :=
  ⟨rows, 2 ^ k, rung.smemBytes (2 ^ k), rung.kernel rsqrtf (2 ^ k) cols eps⟩

/-- The rows that a rung takes: its loops end before the counter, an `int`, overflows. -/
def Takes (k cols : Nat) : NormRung → Prop
  | vectorized => cols % 4 = 0 ∧ cols < 2 ^ 31
  | _ => cols + 2 ^ k ≤ 2 ^ 31

end NormRung

section Rungs

variable {k cols : Nat} {rsqrtf : F → F} {eps : F}

omit [Field F] in
theorem launchRows_ok (hk' : k ≤ 10) (smemBytes : Nat → Nat) (hbytes : smemBytes (2 ^ k) ≤ 49152)
    (kernel : Nat → Nat → Nat → NormThread F Unit) {rows : Nat} (hrows : rows < 2 ^ 31) :
    launchRows smemBytes kernel rows (2 ^ k : Nat) [] = (.ok (rows, 2 ^ k),
      if rows = 0 then [] else [.launch ⟨rows, 2 ^ k, smemBytes (2 ^ k), kernel (2 ^ k)⟩]) := by
  have hmax := two_pow_le hk'
  have hgrid : ((rows : Int) % 2 ^ 32).toNat = rows := by omega
  unfold launchRows
  simp only [Int.toNat_natCast, hgrid, Int.natCast_eq_zero]
  exact launchUnless_ok (l := ⟨rows, 2 ^ k, smemBytes (2 ^ k), kernel (2 ^ k)⟩)
    (fun hzero => ⟨⟨Nat.pos_of_ne_zero hzero, hrows⟩, ⟨Nat.two_pow_pos k, hmax⟩, hbytes⟩) []

theorem NormRung.launch_ok (rung : NormRung) (hk : 5 ≤ k) (hk' : k ≤ 10) (hcols : rung.Takes k cols)
    {rows : Nat} (hrows : rows < 2 ^ 31) :
    rung.launch rsqrtf rows cols eps (2 ^ k : Nat) [] = (.ok (rows, 2 ^ k),
      if rows = 0 then [] else [.launch (rung.asked rsqrtf rows cols eps k)]) := by
  have hmax := two_pow_le hk'
  have hfour : 2 ^ k * 4 ≤ 49152 := by omega
  have hblock : ∀ name cs, (validateBlockSizePow21d (2 ^ k : Nat) name :
      Host LaunchError NormCell F Unit) cs = (.ok (), cs) := validateBlockSizePow21d_ok hk hk'
  cases rung with
  | naive => exact (bind_ok (hblock _ _)).trans (launchRows_ok hk' (· * 4) hfour _ hrows)
  | warpShuffle =>
      exact (bind_ok (hblock _ _)).trans (launchRows_ok hk' (fun _ => 0) (Nat.zero_le _) _ hrows)
  | vectorized =>
      have hfour : (validateColsMultipleOf4 cols "rmsnorm_vectorized_launch" :
          Host LaunchError NormCell F Unit) [] =
            (.ok (), []) := check_ok (not_not_intro hcols.1) _ _
      exact (bind_ok (hblock _ _)).trans ((bind_ok hfour).trans
        (launchRows_ok hk' (fun _ => 0) (Nat.zero_le _) _ hrows))

/-- How the threads of a rung take a row. -/
def NormRung.items : (rung : NormRung) → rung.Takes k cols → Items cols
  | .vectorized, h => .groups h.1
  | .naive, _ | .warpShuffle, _ => .single cols

/-- The blocks of a rung come to their second pass, and write the scaled rows there. -/
theorem NormRung.ends (rung : NormRung) (hk : 5 ≤ k) (hk' : k ≤ 10) (hcols : rung.Takes k cols)
    (rows : Nat) (μ : NormCell → F) :
    (rung.asked rsqrtf rows cols eps k).Ends plus NormCell.IsGlobal μ
      (normReadable cols (rung.smemBytes (2 ^ k))) (normOwn (rung.smemBytes (2 ^ k)))
      (fun b => readWrite (normReadable cols (rung.smemBytes (2 ^ k)) b) fun i =>
        (rung.items hcols).writes (2 ^ k) b
          (scaled cols μ b (rsqrtf (meanSq cols (sumSquares cols μ b) + eps))) i)
            fun _ _ => True := by
  have hpos := Nat.two_pow_pos k
  have hmax := two_pow_le hk'
  have hwarps : 2 ^ k % 32 = 0 := Nat.mod_eq_zero_of_dvd (pow_dvd_pow 2 hk)
  have hsum : ∀ μ₀ : NormCell → F, (∀ x, NormCell.IsGlobal x → μ₀ x = μ x) → ∀ b,
      sumSquares cols μ₀ b = sumSquares cols μ b := by
    intro μ₀ hμ₀ b
    apply Finset.sum_congr rfl
    intro c _
    unfold square
    rw [hμ₀ (normIn cols b c) trivial]
  cases rung with
  | naive =>
      apply ends_of_scales hpos fun b i => scaleRow (2 ^ k) cols b i _
      · intro b μ₀ hμ₀
        have hscales := naive_scales (l := NormRung.naive.asked rsqrtf rows cols eps k) (b := b)
          (μ := μ₀) rfl rfl hcols rfl
        rwa [hsum μ₀ hμ₀ b] at hscales
      · exact fun b ν i _ => scaleRow_performs hpos hcols _
  | warpShuffle =>
      apply ends_of_scales hpos fun b i => scaleRow (2 ^ k) cols b i _
      · intro b μ₀ hμ₀
        have hscales :=
          shuffle_scales (l := NormRung.warpShuffle.asked rsqrtf rows cols eps k) (b := b)
          (μ := μ₀) (scaleRow (2 ^ k) cols b)
          (fun s => rsqrtf (meanSq cols s + eps)) hpos hwarps hmax
          (fun i _ => localSumSq_performs hpos hcols) fun i _ => rfl
        rwa [hsum μ₀ hμ₀ b] at hscales
      · exact fun b ν i _ => scaleRow_performs hpos hcols _
  | vectorized =>
      obtain ⟨hfour, hint⟩ := hcols
      have hfits : cols / 4 + 2 ^ k ≤ 2 ^ 31 := by omega
      apply ends_of_scales hpos fun b i => scaleRow4 (2 ^ k) cols b i _
      · intro b μ₀ hμ₀
        have hscales :=
          shuffle_scales (l := NormRung.vectorized.asked rsqrtf rows cols eps k) (b := b)
          (μ := μ₀) (scaleRow4 (2 ^ k) cols b)
          (fun s => rsqrtf (meanSq cols s + eps)) hpos hwarps hmax
          (fun i _ => localSumSq4_performs hfour hpos hfits) fun i _ => rfl
        rwa [hsum μ₀ hμ₀ b] at hscales
      · exact fun b ν i _ => scaleRow4_performs hfour hpos hfits _

end Rungs

/-- Under every schedule the threads of a launch stay where they may be and the launch ends.
    Then every element of `out` was written once, and is that of the reference; `in` and
    `gamma` are as before. -/
structure ComputesNorm (sqrt : F → F) (rows cols : Nat) (eps : F) (l : Launch NormCell F)
    (μ : NormCell → F) : Prop where
  safe : Safe plus NormCell.IsGlobal (NormCell.Inside rows cols l) l μ
  output : ∀ tr c, Launched plus NormCell.IsGlobal l μ tr c → c.Finished →
    ∀ r < rows, ∀ j < cols, c.state (normOut cols r j) = referenceRmsnormRows sqrt
        (fun i => μ (.input i)) (fun i => μ (.gamma i)) cols eps r j ∧
      (atCell (normOut cols r j) (tr.filterMap Label.written)).length = 1
  kept : ∀ tr c, Launched plus NormCell.IsGlobal l μ tr c → c.Finished →
    ∀ j, c.state (.input j) = μ (.input j) ∧ c.state (.gamma j) = μ (.gamma j)

theorem NormRung.computesNorm (rung : NormRung) {k cols : Nat} (hk : 5 ≤ k) (hk' : k ≤ 10)
    (hcols : rung.Takes k cols) {rsqrtf sqrt : F → F} (hrsqrt : ∀ v, rsqrtf v = 1 / sqrt v)
    (rows : Nat) (eps : F) (μ : NormCell → F) :
    ComputesNorm sqrt rows cols eps (rung.asked rsqrtf rows cols eps k) μ := by
  let l : Launch NormCell F := rung.asked rsqrtf rows cols eps k
  have hpos : 0 < l.blockDim := Nat.two_pow_pos k
  have hends : (rung.asked rsqrtf rows cols eps k).Ends plus NormCell.IsGlobal μ _ _ _ _ :=
    rung.ends hk hk' hcols rows μ
  let I : Items cols := rung.items hcols
  let v (b : Nat) : Nat → F :=
    scaled cols μ b (rsqrtf (meanSq cols (sumSquares cols μ b) + eps))
  have hwrites := normWrites (l := l) I hpos v
  constructor
  · apply Launch.Writes.safe hends
    · rintro b hb i _ x (⟨c, hc, rfl | rfl⟩ | ⟨array, j, hj, rfl⟩)
      · exact row_inside hb hc
      · exact hc
      · exact ⟨rfl, hj⟩
    · rintro b _ i _ x ⟨array, j, hj, rfl⟩
      exact ⟨rfl, hj⟩
    · intro b hb i _ j hj w hw
      obtain ⟨c, hc, -, rfl⟩ := (I.mem_writes hpos hj).mp hw
      exact row_inside hb hc
  · intro tr c hrun hc r hr j hj
    have hlane := Nat.mod_lt (I.owner j) hpos
    obtain ⟨hstate, honce⟩ := hwrites.written hends hrun hc hr hlane
      ((I.mem_writes hpos hlane).mpr ⟨j, hj, rfl, rfl⟩)
    exact ⟨hstate.trans (scaled_eq hrsqrt cols eps μ r j), honce⟩
  · intro tr c hrun hc j
    have hkept : ∀ x, NormCell.IsGlobal x → (∀ i, x ≠ .output i) → c.state x = μ x := by
      intro x hx hout
      apply hwrites.kept hends hrun hc hx
      rintro b _ i hi w hw rfl
      obtain ⟨j', -, -, rfl⟩ := (I.mem_writes hpos hi).mp hw
      exact hout _ rfl
    constructor
    · apply hkept (.input j) trivial
      intro i heq
      cases heq
    · apply hkept (.gamma j) trivial
      intro i heq
      cases heq

/-- The RMSNorm rungs equal `reference::rmsnorm_rows`: for a block size that is a power of two
    from 32 to 1024, the launcher asks for a block for each row, and every schedule leaves the
    scaled rows in `out`.  The vectorized one refuses rows that it cannot take in groups of
    four. -/
theorem rmsnorm_rungs_compute_rows (rung : NormRung) {k cols : Nat} (hk : 5 ≤ k) (hk' : k ≤ 10)
    {rsqrtf sqrt : F → F} (hrsqrt : ∀ v, rsqrtf v = 1 / sqrt v) (eps : F) :
    (∀ rows : Nat, rows < 2 ^ 31 → rung.Takes k cols →
      rung.launch rsqrtf rows cols eps (2 ^ k : Nat) [] = (.ok (rows, 2 ^ k),
        if rows = 0 then [] else [.launch (rung.asked rsqrtf rows cols eps k)]) ∧
      ∀ μ, ComputesNorm sqrt rows cols eps (rung.asked rsqrtf rows cols eps k) μ) ∧
    ∀ rows : Int, cols % 4 ≠ 0 → ∃ what,
      rmsnormVectorizedLaunch rsqrtf rows cols eps (2 ^ k : Nat) [] =
        (.error (.invalidArgument what), []) := by
  refine ⟨fun rows hrows hcols => ⟨rung.launch_ok hk hk' hcols hrows, fun μ =>
    rung.computesNorm hk hk' hcols hrsqrt rows eps μ⟩, fun rows hfour => ?_⟩
  have hfails : ∀ name, (validateColsMultipleOf4 cols name : Host LaunchError NormCell F Unit) [] =
      (.error (.invalidArgument _), []) := fun name => congrFun (if_neg (not_not_intro hfour)) _
  exact ⟨_, (bind_ok (validateBlockSizePow21d_ok hk hk' _ [])).trans (bind_error (hfails _))⟩

/-- Rows of eight numbers, in blocks of 32 threads. -/
theorem rmsnorm_rungs_compute_rows_eight :
    rmsnormVectorizedLaunch (fun v => 1 / √v) 3 8 (1 / 10 : ℝ) 32 [] = (.ok (3, 32),
      [.launch (NormRung.vectorized.asked (fun v => 1 / √v) 3 8 (1 / 10) 5)]) ∧
    ∀ μ, ComputesNorm Real.sqrt 3 8 (1 / 10)
      (NormRung.vectorized.asked (fun v => 1 / √v) 3 8 (1 / 10) 5) μ :=
  (rmsnorm_rungs_compute_rows .vectorized (k := 5) (by decide) (by decide) (fun _ => rfl)
    (1 / 10)).1 3 (by decide) ⟨rfl, by decide⟩

end PassionProjects.Kernelforge
