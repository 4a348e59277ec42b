/-
  PassionProjects.Kernelforge.Histogram.Privatized

  Histograms with a private copy for each block (`histogram_privatized.cu` and
  `histogram_privatized_coarsened.cu`), and what a block leaves, whatever the sum of two
  counters is as long as it does not overflow.
-/

import Mathlib.Data.BitVec
import PassionProjects.Kernelforge.LaunchValidate
import PassionProjects.Lib.Kernels.Loops

namespace PassionProjects.Kernelforge

open Raising Raising.Prog Warps Warps.Program
open Kernels (strided mem_strided nodup_strided replay)

/-- Four bytes of memory: an `int` or a `float`. -/
abbrev Cell32 := BitVec 32

/-- The cells of `in`, of `hist`, and of the array `block_hist` of a block. -/
inductive HistCell where
  | input (i : Nat)
  | hist (b : Nat)
  | blockHist (block b : Nat)
  deriving DecidableEq

def HistCell.IsGlobal : HistCell → Prop
  | .blockHist _ _ => False
  | _ => True

abbrev HistThread := Warps.Program (Access HistCell Cell32) Cell32 Unit

/-- `histogram_bin_of`; `truncated` is `static_cast<int>(x * static_cast<float>(num_bins))`. -/
def histogramBinOf (truncated : Cell32 → Int → Int) (x : Cell32) (numBins : Int) : Int :=
  let bin := truncated x numBins
  let bin := if bin < 0 then 0 else bin
  if bin ≥ numBins then numBins - 1 else bin

theorem histogramBinOf_mem (truncated : Cell32 → Int → Int) (x : Cell32) {numBins : Int}
    (h : 0 < numBins) :
    0 ≤ histogramBinOf truncated x numBins ∧ histogramBinOf truncated x numBins < numBins := by
  simp only [histogramBinOf]
  split_ifs <;> omega

-- ============================================================================
-- Kernels
-- ============================================================================

section Kernels

variable (truncated : Cell32 → Int → Int)

/-- `block_hist[b] = 0` for every so many bins. -/
def clearBins (blockDim numBins blockIdx tid : Nat) : HistThread :=
  (strided tid numBins blockDim).forM fun b => store (.blockHist blockIdx b) 0

/-- The element is counted, if there is one. -/
def countElement (n numBins blockIdx i : Nat) : HistThread :=
  if i < n then do
    let x ← load (.input i)
    atomicAdd (.blockHist blockIdx (histogramBinOf truncated x numBins).toNat) 1
  else
    pure ()

/-- The counts of the block are added to `hist`. -/
def mergeBins (blockDim numBins blockIdx tid : Nat) : HistThread :=
  (strided tid numBins blockDim).forM fun b => do
    let count ← load (.blockHist blockIdx b)
    if count ≠ 0 then atomicAdd (.hist b) count else pure ()

/-- A thread of a block that counts the elements of `fill` in its own histogram. -/
def privatized (blockDim numBins : Nat) (fill : HistThread) (blockIdx tid : Nat) : HistThread := do
  clearBins blockDim numBins blockIdx tid
  Program.barrier
  fill
  Program.barrier
  mergeBins blockDim numBins blockIdx tid

/-- `histogram_privatized_kernel` -/
def histogramPrivatizedKernel (blockDim n numBins blockIdx tid : Nat) : HistThread :=
  privatized blockDim numBins
    (countElement truncated n numBins blockIdx (blockIdx * blockDim + tid))
    blockIdx tid

/-- `histogram_privatized_coarsened_kernel` -/
def histogramPrivatizedCoarsenedKernel (blockDim n numBins elemsPerThread blockIdx tid : Nat) :
    HistThread :=
  let blockStart := blockIdx * blockDim * elemsPerThread
  privatized blockDim numBins
    ((List.range elemsPerThread).forM fun e =>
      countElement truncated n numBins blockIdx (blockStart + e * blockDim + tid))
    blockIdx tid

end Kernels

-- ============================================================================
-- Launchers
-- ============================================================================

section Launchers

variable {X V : Type}

def kMaxSharedMemPerBlockBytes : Nat := 49152

/-- `validate_num_bins_fits_shared_mem` -/
def validateNumBinsFitsSharedMem (numBins : Int) (launcherName : String) :
    Host LaunchError X V Unit :=
  let needed := (numBins % 2 ^ 64).toNat * 4 % 2 ^ 64
  check (¬ (numBins ≤ 0 ∨ needed > kMaxSharedMemPerBlockBytes))
    (.invalidArgument (launcherName ++ ": num_bins (" ++ toString numBins ++
      ") must be > 0 and its private histogram (" ++ toString needed ++
      " bytes) must fit within kMaxSharedMemPerBlockBytes (" ++
      toString kMaxSharedMemPerBlockBytes ++ " bytes)."))

/-- `validate_n_fits_int_bin_counts` -/
def validateNFitsIntBinCounts (n : Nat) (launcherName : String) : Host LaunchError X V Unit :=
  let kMaxN := 2 ^ 31 - 1
  check (¬ n > kMaxN)
    (.invalidArgument (launcherName ++ ": n (" ++ toString n ++ ") exceeds " ++ toString kMaxN ++
      " (INT_MAX) -- a single bin's 32-bit atomicAdd counter could " ++
      "overflow if enough elements land in it (worst case: all of " ++
      "them, e.g. num_bins == 1). Reduce n or widen the histogram " ++
      "counter type (see this function's doc comment) before running " ++ "this size."))

/-- What the launchers do once their arguments are checked.  The answer is `out_grid` and
    `out_block`. -/
def launchPrivatized (kernel : Nat → Nat → HistThread) (n numBins block elemsPerBlock : Nat)
    (zeroOutput : Bool) : Host LaunchError HistCell Cell32 (Nat × Nat) := do
  zeroCells zeroOutput ((List.range numBins).map .hist)
  let numBlocks := numBlocks n elemsPerBlock
  launchUnless (numBlocks = 0) ⟨numBlocks % 2 ^ 32, block, numBins * 4, kernel⟩

variable (truncated : Cell32 → Int → Int)

/-- `histogram_privatized_launch` -/
def histogramPrivatizedLaunch (n : Nat) (numBins blockSize : Int) (zeroOutput : Bool) :
    Host LaunchError HistCell Cell32 (Nat × Nat) := do
  let name := "histogram_privatized_launch"
  validateBlockSize1d blockSize name
  validateNumBinsFitsSharedMem numBins name
  validateNFitsIntBinCounts n name
  let block := blockSize.toNat
  launchPrivatized (histogramPrivatizedKernel truncated block n numBins.toNat) n numBins.toNat block
    block zeroOutput

/-- `histogram_privatized_coarsened_launch` -/
def histogramPrivatizedCoarsenedLaunch (n : Nat) (numBins blockSize elemsPerThread : Int)
    (zeroOutput : Bool) : Host LaunchError HistCell Cell32 (Nat × Nat) := do
  let name := "histogram_privatized_coarsened_launch"
  validateBlockSize1d blockSize name
  validateNumBinsFitsSharedMem numBins name
  check (¬ elemsPerThread < 1) (.invalidArgument (name ++ ": elems_per_thread must be >= 1"))
  validateNFitsIntBinCounts n name
  let block := blockSize.toNat
  launchPrivatized
    (histogramPrivatizedCoarsenedKernel truncated block n numBins.toNat elemsPerThread.toNat) n
    numBins.toNat block (block * elemsPerThread.toNat) zeroOutput

end Launchers

-- ============================================================================
-- Sums of counters
-- ============================================================================

section Counters

/-- The sum of two counters is their sum as long as it does not overflow. -/
def CountsUp (plus : Cell32 → Cell32 → Cell32) : Prop :=
  ∀ a d : Cell32, a.toNat + d.toNat < 2 ^ 31 → (plus a d).toNat = a.toNat + d.toNat

variable {plus : Cell32 → Cell32 → Cell32}

theorem CountsUp.foldl (h : CountsUp plus) {a : Cell32} {ds : List Cell32}
    (hlt : a.toNat + (ds.map BitVec.toNat).sum < 2 ^ 31) :
    (ds.foldl plus a).toNat = a.toNat + (ds.map BitVec.toNat).sum := by
  induction ds generalizing a with
  | nil => rfl
  | cons d ds ih =>
      rw [List.map_cons, List.sum_cons] at hlt ⊢
      have hplus := h a d (by omega)
      rw [List.foldl_cons, ih (by omega), hplus, Nat.add_assoc]

/-- As many ones as a counter can have. -/
theorem CountsUp.foldl_ones (h : CountsUp plus) {ds : List Cell32} (hones : ∀ d ∈ ds, d = 1)
    (hlt : ds.length < 2 ^ 31) : (ds.foldl plus 0).toNat = ds.length := by
  have hds : ds.map BitVec.toNat = List.replicate ds.length 1 := by
    rw [← List.length_map BitVec.toNat]
    refine List.eq_replicate_of_mem fun k hk => ?_
    obtain ⟨d, hd, rfl⟩ := List.mem_map.mp hk
    rw [hones d hd]
    rfl
  have hsum : (ds.map BitVec.toNat).sum = ds.length := by simp [hds]
  have hzero : (0 : Cell32).toNat = 0 := rfl
  rw [h.foldl (by omega), hsum, hzero, Nat.zero_add]

end Counters

-- ============================================================================
-- Blocks
-- ============================================================================

section Blocks

/-- The bin of element `j`. -/
def binAt (truncated : Cell32 → Int → Int) (numBins : Nat) (μ : HistCell → Cell32)
    (j : Nat) : Nat :=
  (histogramBinOf truncated (μ (.input j)) numBins).toNat

/-- The elements of a block. -/
def blockElements (blockDim : Nat) (elements : Nat → List Nat) (b : Nat) : List Nat :=
  (List.range blockDim).flatMap fun i => elements (b * blockDim + i)

/-- How many elements of a block are in a bin. -/
def tally (blockDim : Nat) (elements : Nat → List Nat) (bin : Nat → Nat) (b β : Nat) : Nat :=
  (blockElements blockDim elements b).countP (bin · = β)

/-- A thread adds a one for each of its elements to the counter of its bin. -/
def Fills (truncated : Cell32 → Int → Int) (blockDim numBins : Nat) (elements : Nat → List Nat)
    (fill : Nat → Nat → HistThread) : Prop :=
  ∀ b, ∀ i < blockDim, ∀ μ : HistCell → Cell32, Performs
    {x | ∃ j ∈ elements (b * blockDim + i), x = .input j} μ (fill b i) []
    ((elements (b * blockDim + i)).map fun j =>
      (.blockHist b (binAt truncated numBins μ j), 1)) (.ret ())

/-- What thread `t` of the grid may read. -/
def histReadable (blockDim numBins : Nat) (elements : Nat → List Nat) (b i : Nat) : Set HistCell :=
  {x | (∃ j ∈ elements (b * blockDim + i), x = .input j) ∨ ∃ β < numBins, x = .blockHist b β}

def histOwn (numBins b : Nat) : Set HistCell := {x | ∃ β < numBins, x = .blockHist b β}

def mergeAdds (counts : Nat → Nat) (β : Nat) : List (HistCell × Cell32) :=
  if counts β = 0 then [] else [(.hist β, BitVec.ofNat 32 (counts β))]

/-- After the last barrier the threads read the counters of the block, and add those that are
    not zero. -/
def mergePhase (blockDim numBins : Nat) (counts : Nat → Nat → Nat) (b : Nat) :
    Footprint HistCell Cell32 where
  reads i := {x | ∃ β ∈ strided i numBins blockDim, x = .blockHist b β}
  writes _ := []
  adds i := (strided i numBins blockDim).flatMap (mergeAdds (counts b))

variable {truncated : Cell32 → Int → Int} {l : Launch HistCell Cell32} {numBins : Nat}
  {elements : Nat → List Nat} {fill : Nat → Nat → HistThread} {plus : Cell32 → Cell32 → Cell32}
  {B : Block HistCell Cell32} {μ : HistCell → Cell32} {k : Nat → HistThread}

theorem blockHist_inj {b β β' : Nat} (h : HistCell.blockHist b β = .blockHist b β') : β = β' := by
  injection h

/-- The counters of the block are zero. -/
theorem clearBins_at [RightCommutative plus] (hpos : 0 < B.size)
    (h : B.At plus μ .empty fun i => clearBins B.size numBins B.number i >>= fun _ =>
      Program.barrier >>= fun _ => k i)
    (hown : ∀ β < numBins, .blockHist B.number β ∈ B.own) :
    ∃ ν, B.At plus ν .empty k ∧ (∀ β < numBins, ν (.blockHist B.number β) = 0) ∧
      ∀ j, ν (.input j) = μ (.input j) := by
  let ws (i : Nat) : List (HistCell × Cell32) :=
    (strided i numBins B.size).flatMap fun β => [(.blockHist B.number β, 0)]
  have hmem : ∀ i < B.size, ∀ w ∈ ws i, ∃ β < numBins, β % B.size = i ∧
      w = (.blockHist B.number β, 0) := by
    intro i hi w hw
    obtain ⟨β, hβ, hw⟩ := List.mem_flatMap.mp hw
    obtain ⟨hlt, hmod⟩ := (mem_strided hpos hi).mp hβ
    exact ⟨β, hlt, hmod, List.mem_singleton.mp hw⟩
  have hqs : ∀ i < B.size, Performs ∅ μ (clearBins B.size numBins B.number i >>= fun _ =>
      Program.barrier >>= fun _ => k i) (ws i) [] (Program.barrier >>= fun _ => k i) := by
    intro i _
    have hclear : Performs ∅ μ (clearBins B.size numBins B.number i) (ws i)
        ((strided i numBins B.size).flatMap fun _ => []) (.ret ()) :=
      .forM (fun β _ ν _ => .store (HistCell.blockHist B.number β) 0) fun _ _ _ _ =>
        Set.notMem_empty _
    rw [List.flatMap_eq_nil_iff.mpr fun _ _ => rfl] at hclear
    exact hclear.bind_here
  have hrace : Footprint.RaceFree B.size ⟨fun _ => ∅, ws, fun _ => []⟩ := by
    constructor
    · intro i hi j hj hij w hw
      obtain ⟨β, -, hmod, rfl⟩ := hmem i hi w hw
      refine ⟨Set.notMem_empty _, fun w' hw' heq => ?_⟩
      obtain ⟨β', -, hmod', rfl⟩ := hmem j hj w' hw'
      exact hij (hmod.symm.trans (blockHist_inj heq ▸ hmod'))
    · exact fun i _ j _ a ha => absurd ha List.not_mem_nil
    · intro i hi w hw w' hw' _
      obtain ⟨β, -, -, rfl⟩ := hmem i hi w hw
      obtain ⟨β', -, -, rfl⟩ := hmem i hi w' hw'
      rfl
  refine ⟨_, h.phase hpos hqs hrace (fun i _ x hx => absurd hx (Set.notMem_empty x))
    (fun i hi w hw => ?_)
    (fun i _ a ha => absurd ha List.not_mem_nil), fun β hβ => ?_, fun j => ?_⟩
  · obtain ⟨β, hβ, -, rfl⟩ := hmem i hi w hw
    exact hown β hβ
  · refine hrace.after_written (w := (.blockHist B.number β, 0))
      (Footprint.mem_allWrites.mpr ⟨β % B.size, Nat.mod_lt _ hpos, ?_⟩)
    exact List.mem_flatMap.mpr ⟨β, (mem_strided hpos (Nat.mod_lt _ hpos)).mpr ⟨hβ, rfl⟩,
      List.mem_singleton_self _⟩
  · refine Footprint.after_kept ?_
    rintro (⟨w, hw, heq⟩ | ⟨a, ha, -⟩)
    · obtain ⟨i, hi, hw⟩ := Footprint.mem_allWrites.mp hw
      obtain ⟨β, -, -, rfl⟩ := hmem i hi w hw
      exact nomatch heq
    · obtain ⟨i, -, ha⟩ := Footprint.mem_allAdds.mp ha
      exact absurd ha List.not_mem_nil

theorem atCell_ones (b β : Nat) (bin : Nat → Nat) (js : List Nat) :
    atCell (.blockHist b β) (js.map fun j => ((.blockHist b (bin j) : HistCell), (1 : Cell32))) =
      List.replicate (js.countP (bin · = β)) 1 := by
  induction js with
  | nil => rfl
  | cons j js ih =>
      rw [List.map_cons, ← List.singleton_append, atCell_append, ih]
      by_cases hj : bin j = β
      · simp [atCell, hj, List.replicate_succ]
      · simp [atCell, hj]

/-- Each counter of the block has the number of its elements in that bin. -/
theorem fill_at [RightCommutative plus] (hplus : CountsUp plus) (hpos : 0 < B.size)
    (hbins : 0 < numBins) (hfill : Fills truncated B.size numBins elements fill)
    (h : B.At plus μ .empty fun i => fill B.number i >>= fun _ => Program.barrier >>= fun _ => k i)
    (hread : ∀ i < B.size, ∀ j ∈ elements (B.number * B.size + i), .input j ∈ B.readable i)
    (hown : ∀ β < numBins, .blockHist B.number β ∈ B.own)
    (hzero : ∀ β < numBins, μ (.blockHist B.number β) = 0)
    (hlt : (blockElements B.size elements B.number).length < 2 ^ 31) :
    ∃ ν, B.At plus ν .empty k ∧ ∀ β < numBins, (ν (.blockHist B.number β)).toNat =
      tally B.size elements (binAt truncated numBins μ) B.number β := by
  let C (i : Nat) : Set HistCell := {x | ∃ j ∈ elements (B.number * B.size + i), x = .input j}
  let as (i : Nat) : List (HistCell × Cell32) := (elements (B.number * B.size + i)).map fun j =>
    (.blockHist B.number (binAt truncated numBins μ j), 1)
  have hbin : ∀ j, binAt truncated numBins μ j < numBins := by
    intro j
    have hmem := histogramBinOf_mem truncated (μ (.input j)) (Int.natCast_pos.mpr hbins)
    unfold binAt
    omega
  have hmem : ∀ i, ∀ a ∈ as i, ∃ j, a = (.blockHist B.number (binAt truncated numBins μ j), 1) := by
    intro i a ha
    obtain ⟨j, -, rfl⟩ := List.mem_map.mp ha
    exact ⟨j, rfl⟩
  have hrace : Footprint.RaceFree B.size ⟨C, fun _ => [], as⟩ := by
    constructor
    · exact fun i _ j _ _ w hw => absurd hw List.not_mem_nil
    · intro i _ j _ a ha
      obtain ⟨e, rfl⟩ := hmem i a ha
      exact ⟨fun ⟨_, _, heq⟩ => absurd heq nofun, fun w hw => absurd hw List.not_mem_nil⟩
    · exact fun i _ w hw => absurd hw List.not_mem_nil
  refine ⟨_, h.phase hpos (fun i hi => (hfill B.number i hi μ).bind_here) hrace
    (fun i hi x ⟨j, hj, hx⟩ => hx ▸ hread i hi j hj) (fun i _ w hw => absurd hw List.not_mem_nil)
    (fun i _ a ha => ?_), fun β hβ => ?_⟩
  · obtain ⟨j, rfl⟩ := hmem i a ha
    exact hown _ (hbin j)
  · have hadds : Footprint.allAdds B.size ⟨C, fun _ => [], as⟩ =
        (blockElements B.size elements B.number).map fun j =>
          (.blockHist B.number (binAt truncated numBins μ j), 1) := by
      rw [blockElements, List.map_flatMap]
      rfl
    have hcell : atCell (.blockHist B.number β) (Footprint.allAdds B.size ⟨C, fun _ => [], as⟩) =
        List.replicate (tally B.size elements (binAt truncated numBins μ) B.number β) 1 := by
      rw [hadds]
      exact atCell_ones ..
    rw [Footprint.after_added fun w hw => ?_, hzero β hβ, hcell, hplus.foldl_ones]
    · exact List.length_replicate
    · exact fun d hd => List.eq_of_mem_replicate hd
    · rw [List.length_replicate]
      exact Nat.lt_of_le_of_lt List.countP_le_length hlt
    · obtain ⟨i, -, hw⟩ := Footprint.mem_allWrites.mp hw
      exact absurd hw List.not_mem_nil

theorem mem_mergeAdds {counts : Nat → Nat} {β : Nat} {a : HistCell × Cell32}
    (h : a ∈ mergeAdds counts β) : counts β ≠ 0 ∧ a = (.hist β, BitVec.ofNat 32 (counts β)) := by
  unfold mergeAdds at h
  split at h
  · exact absurd h List.not_mem_nil
  · rename_i hne
    exact ⟨hne, List.mem_singleton.mp h⟩

theorem mem_mergePhase {blockDim b i : Nat} {counts : Nat → Nat → Nat} (hi : i < blockDim)
    {a : HistCell × Cell32} (h : a ∈ (mergePhase blockDim numBins counts b).adds i) :
    ∃ β < numBins, a = (.hist β, BitVec.ofNat 32 (counts b β)) := by
  obtain ⟨β, hβ, ha⟩ := List.mem_flatMap.mp h
  exact ⟨β, ((mem_strided (Nat.zero_lt_of_lt hi) hi).mp hβ).1, (mem_mergeAdds ha).2⟩

theorem mergePhase_raceFree (blockDim numBins : Nat) (counts : Nat → Nat → Nat) (b : Nat) :
    (mergePhase blockDim numBins counts b).RaceFree blockDim := by
  constructor
  · exact fun i _ j _ _ w hw => absurd hw List.not_mem_nil
  · intro i hi j _ a ha
    obtain ⟨β, -, rfl⟩ := mem_mergePhase hi ha
    exact ⟨fun ⟨_, _, heq⟩ => absurd heq nofun, fun w hw => absurd hw List.not_mem_nil⟩
  · exact fun i _ w hw => absurd hw List.not_mem_nil

theorem updates_mergePhase {blockDim b : Nat} {counts : Nat → Nat → Nat} {x : HistCell}
    (h : (mergePhase blockDim numBins counts b).Updates blockDim x) :
    ∃ β < numBins, x = .hist β := by
  rcases h with ⟨w, hw, rfl⟩ | ⟨a, ha, rfl⟩
  · obtain ⟨i, -, hw⟩ := Footprint.mem_allWrites.mp hw
    exact absurd hw List.not_mem_nil
  · obtain ⟨i, hi, ha⟩ := Footprint.mem_allAdds.mp ha
    obtain ⟨β, hβ, rfl⟩ := mem_mergePhase hi ha
    exact ⟨β, hβ, rfl⟩

/-- The counters go to `hist`. -/
theorem mergeBins_at {counts : Nat → Nat → Nat}
    (h : B.At plus μ .empty (mergeBins B.size numBins B.number))
    (hlt : ∀ β < numBins, counts B.number β < 2 ^ 31)
    (hcounts : ∀ β < numBins, (μ (.blockHist B.number β)).toNat = counts B.number β) :
    B.At plus μ (mergePhase B.size numBins counts B.number) fun _ => .ret () := by
  have hmerge :
      ∀ i < B.size, Performs {x | ∃ β ∈ strided i numBins B.size, x = .blockHist B.number β}
      μ (mergeBins B.size numBins B.number i) [] ((strided i numBins B.size).flatMap
        (mergeAdds (counts B.number))) (.ret ()) := by
    intro i hi
    have hturn : ∀ β ∈ strided i numBins B.size, ∀ ν : HistCell → Cell32,
        (∀ x ∈ {x | ∃ β ∈ strided i numBins B.size, x = HistCell.blockHist B.number β}, ν x = μ x) →
          Performs {x | ∃ β ∈ strided i numBins B.size, x = .blockHist B.number β} ν
            (load (.blockHist B.number β) >>= fun count =>
              if count ≠ 0 then atomicAdd (.hist β) count else pure ()) []
            (mergeAdds (counts B.number) β) (.ret ()) := by
      intro β hβ ν hν
      have hlt' := ((mem_strided (Nat.zero_lt_of_lt hi) hi).mp hβ).1
      have hvalue : ν (.blockHist B.number β) = BitVec.ofNat 32 (counts B.number β) := by
        rw [hν _ ⟨β, hβ, rfl⟩, ← hcounts β hlt', BitVec.ofNat_toNat, BitVec.setWidth_eq]
      refine .read ⟨β, hβ, rfl⟩ ?_
      change Performs _ ν (if ν (.blockHist B.number β) ≠ 0 then
        atomicAdd (.hist β) (ν (.blockHist B.number β)) else pure ()) _ _ _
      rw [hvalue]
      unfold mergeAdds
      by_cases hzero : counts B.number β = 0
      · rw [if_pos hzero, hzero, if_neg fun hne : BitVec.ofNat 32 0 ≠ (0 : Cell32) => hne rfl]
        exact .here
      · have hne : BitVec.ofNat 32 (counts B.number β) ≠ 0 := by
          intro heq
          have hmod : counts B.number β % 2 ^ 32 = 0 := congrArg BitVec.toNat heq
          have := hlt β hlt'
          omega
        rw [if_neg hzero, if_pos hne]
        exact .add .here
    exact .forM_add hturn
  have hlast := h.perform hmerge
  rwa [Footprint.empty_extend] at hlast

theorem binAt_congr {μ ν : HistCell → Cell32} (h : ∀ j, ν (.input j) = μ (.input j)) :
    binAt truncated numBins ν = binAt truncated numBins μ := by
  funext j
  rw [binAt, binAt, h j]

theorem privatized_ends [RightCommutative plus] (hplus : CountsUp plus) (hpos : 0 < l.blockDim)
    (hbins : 0 < numBins)
    (hkernel : ∀ b i, l.kernel b i = privatized l.blockDim numBins (fill b i) b i)
    (hfill : Fills truncated l.blockDim numBins elements fill)
    (hlt : ∀ b < l.gridDim, (blockElements l.blockDim elements b).length < 2 ^ 31)
    (μ : HistCell → Cell32) :
    l.Ends plus HistCell.IsGlobal μ (histReadable l.blockDim numBins elements) (histOwn numBins)
      (mergePhase l.blockDim numBins (tally l.blockDim elements (binAt truncated numBins μ)))
      fun b ν => ∀ β < numBins, (ν (.blockHist b β)).toNat =
        tally l.blockDim elements (binAt truncated numBins μ) b β := by
  intro μ₀ hμ₀
  constructor
  · exact fun _ _ => rfl
  · exact fun _ _ => rfl
  · exact fun _ _ => rfl
  · intro b hb
    let B := l.block (histReadable l.blockDim numBins elements) (histOwn numBins) μ₀ b
    have hstart : B.At plus μ₀ .empty fun i => clearBins B.size numBins b i >>= fun _ =>
        Program.barrier >>= fun _ => fill b i >>= fun _ => Program.barrier >>= fun _ =>
          mergeBins B.size numBins b i :=
      Block.At.start.congr fun i _ => hkernel b i
    obtain ⟨μ₁, h₁, hzero, hinput⟩ := clearBins_at hpos hstart fun β hβ => ⟨β, hβ, rfl⟩
    have hbin : binAt truncated numBins μ₁ = binAt truncated numBins μ :=
      binAt_congr fun j => (hinput j).trans (hμ₀ (.input j) trivial)
    obtain ⟨ν, h₂, hcounts⟩ := fill_at hplus hpos hbins hfill h₁
      (fun i _ j hj => .inl ⟨j, hj, rfl⟩) (fun β hβ => ⟨β, hβ, rfl⟩) hzero (hlt b hb)
    rw [hbin] at hcounts
    refine ⟨ν, mergeBins_at h₂ (fun β _ => ?_) hcounts, mergePhase_raceFree ..,
      fun i hi x hx => ?_, hcounts⟩
    · exact Nat.lt_of_le_of_lt List.countP_le_length (hlt b hb)
    · obtain ⟨β, hβ, rfl⟩ := hx
      exact .inr ⟨β, ((mem_strided hpos hi).mp hβ).1, rfl⟩
  · rintro b _ b' _ hne x hx i _ hread
    rcases hread with ⟨j, -, rfl⟩ | ⟨β, -, rfl⟩
    · rcases hx with ⟨β, -, heq⟩ | hx
      · exact nomatch heq
      · obtain ⟨β, -, heq⟩ := updates_mergePhase hx
        exact nomatch heq
    · rcases hx with ⟨β', -, heq⟩ | hx
      · exact hne (HistCell.blockHist.inj heq).1.symm
      · obtain ⟨β', -, heq⟩ := updates_mergePhase hx
        exact nomatch heq
  · rintro b _ b' _ hne x ⟨β, -, rfl⟩
    refine ⟨fun ⟨β', _, heq⟩ => hne (HistCell.blockHist.inj heq).1, fun hx => ?_⟩
    obtain ⟨β', -, heq⟩ := updates_mergePhase hx
    exact nomatch heq
  · intro b _ b' _ _ w hw
    obtain ⟨i, -, hw⟩ := Footprint.mem_allWrites.mp hw
    exact absurd hw List.not_mem_nil

end Blocks

end PassionProjects.Kernelforge
