/-
  PassionProjects.Kernelforge.Histogram.Rungs

  The privatized histograms equal `reference::histogram` wherever their launchers take the
  arguments.
-/

import PassionProjects.Kernelforge.Histogram.Counts

namespace PassionProjects.Kernelforge

open Raising Raising.Prog Warps Warps.Program
open Kernels (replay replay_of_mem replay_of_not_mem)

/-- `reference::histogram` -/
def referenceHistogram (truncated : Cell32 → Int → Int) (input : Nat → Cell32) (n : Nat)
    (numBins : Int) : Except LaunchError (Nat → Cell32) :=
  if numBins ≤ 0 then
    .error (.invalidArgument ("kernelforge::reference::histogram: num_bins (" ++ toString numBins ++
      ") must be > 0"))
  else
    .ok ((List.range n).foldl (fun hist i =>
      let bin := (histogramBinOf truncated (input i) numBins).toNat
      Function.update hist bin (hist bin + 1)) fun _ => 0)

theorem foldl_count (bin : Nat → Nat) (js : List Nat) (hist : Nat → Cell32) (β : Nat) :
    js.foldl (fun hist j => Function.update hist (bin j) (hist (bin j) + 1)) hist β =
      hist β + BitVec.ofNat 32 (js.countP (bin · = β)) := by
  induction js generalizing hist with
  | nil => exact (BitVec.add_zero _).symm
  | cons j js ih =>
      rw [List.foldl_cons, ih, List.countP_cons]
      by_cases hj : bin j = β
      · subst hj
        rw [Function.update_self, if_pos (decide_eq_true rfl), BitVec.ofNat_add, BitVec.add_assoc,
          BitVec.add_comm 1]
        rfl
      · rw [Function.update_of_ne (Ne.symm hj), if_neg (by simpa using hj), Nat.add_zero]

theorem referenceHistogram_eq (truncated : Cell32 → Int → Int) {numBins : Nat} (hbins : 0 < numBins)
    (μ : HistCell → Cell32) (n : Nat) :
    ∃ hist, referenceHistogram truncated (fun i => μ (.input i)) n numBins = .ok hist ∧
      ∀ β, hist β = BitVec.ofNat 32 ((List.range n).countP (binAt truncated numBins μ · = β)) := by
  refine ⟨_, if_neg (by omega), fun β => ?_⟩
  exact (foldl_count (binAt truncated numBins μ) (List.range n) (fun _ => 0) β).trans
    (BitVec.zero_add _)

/-- The privatized histograms. -/
inductive HistogramRung where
  | privatized
  | privatizedCoarsened (elemsPerThread : Int)

namespace HistogramRung

def launch (truncated : Cell32 → Int → Int) :
    HistogramRung → Nat → Int → Int → Bool → Host LaunchError HistCell Cell32 (Nat × Nat)
  | privatized, n, numBins, blockSize, zeroOutput =>
      histogramPrivatizedLaunch truncated n numBins blockSize zeroOutput
  | privatizedCoarsened elemsPerThread, n, numBins, blockSize, zeroOutput =>
      histogramPrivatizedCoarsenedLaunch truncated n numBins blockSize elemsPerThread zeroOutput

def elemsPerThread : HistogramRung → Int
  | privatized => 1
  | privatizedCoarsened elemsPerThread => elemsPerThread

/-- The arguments that the launcher takes. -/
structure Accepts (rung : HistogramRung) (n : Nat) (numBins blockSize : Int) : Prop where
  block : 1 ≤ blockSize ∧ blockSize ≤ 1024
  bins : 0 < numBins ∧ numBins ≤ 12288
  elems : 1 ≤ rung.elemsPerThread
  few : n < 2 ^ 31

end HistogramRung

variable {truncated : Cell32 → Int → Int}

/-- What a launcher does behind a check. -/
theorem of_check {X V R : Type} {p : Prop} [Decidable p] {e : LaunchError}
    {m : Host LaunchError X V R}
    {r : R} {cs cs' : List (Command X V)}
    (h : ((check p e : Host LaunchError X V Unit) >>= fun _ => m) cs = (.ok r, cs')) :
    p ∧ m cs = (.ok r, cs') := by
  by_cases hp : p
  · rw [bind_ok (check_ok hp e cs)] at h
    exact ⟨hp, h⟩
  · have hfails : (check p e : Host LaunchError X V Unit) cs = (.error e, cs) :=
      congrFun (if_neg hp) cs
    rw [bind_error hfails] at h
    exact nomatch h

theorem bins_of_check {numBins : Int} (hint : numBins < 2 ^ 31)
    (h : ¬ (numBins ≤ 0 ∨ (numBins % 2 ^ 64).toNat * 4 % 2 ^ 64 > kMaxSharedMemPerBlockBytes)) :
    0 < numBins ∧ numBins ≤ 12288 := by
  unfold kMaxSharedMemPerBlockBytes at h
  omega

theorem HistogramRung.accepts_of_launch {rung : HistogramRung} {n : Nat} {numBins blockSize : Int}
    {zeroOutput : Bool} {dims : Nat × Nat} {cs cs' : List (Command HistCell Cell32)}
    (hint : numBins < 2 ^ 31)
    (h : rung.launch truncated n numBins blockSize zeroOutput cs = (.ok dims, cs')) :
    rung.Accepts n numBins blockSize := by
  cases rung with
  | privatized =>
      obtain ⟨hblock, h⟩ := of_check h
      obtain ⟨hbins, h⟩ := of_check h
      obtain ⟨hn, -⟩ := of_check h
      unfold kMaxThreadsPerBlock1D at hblock
      exact ⟨by omega, bins_of_check hint hbins, le_rfl, by omega⟩
  | privatizedCoarsened elemsPerThread =>
      obtain ⟨hblock, h⟩ := of_check h
      obtain ⟨hbins, h⟩ := of_check h
      obtain ⟨helems, h⟩ := of_check h
      obtain ⟨hn, -⟩ := of_check h
      unfold kMaxThreadsPerBlock1D at hblock
      exact ⟨by omega, bins_of_check hint hbins, by show 1 ≤ elemsPerThread; omega, by omega⟩

/-- What a launcher asks for: the zeros, and a launch where there is an element. -/
def histAsked (n numBins : Nat) (l : Launch HistCell Cell32) : List (Command HistCell Cell32) :=
  .memset ((List.range numBins).map .hist) 0 :: if n = 0 then [] else [.launch l]

theorem launchPrivatized_ok (kernel : Nat → Nat → HistThread) (n numBins block elemsPerThread : Nat)
    (hblock : 0 < block) (hblock' : block ≤ 1024) (hbins : numBins ≤ 12288)
    (helems : 0 < elemsPerThread) (helems' : elemsPerThread < 2 ^ 31) (hn : n < 2 ^ 31) :
    ∃ grid, n ≤ grid * (block * elemsPerThread) ∧
      launchPrivatized kernel n numBins block (block * elemsPerThread) true [] =
        (.ok (grid, block), histAsked n numBins ⟨grid, block, numBins * 4, kernel⟩) := by
  have hpos : 0 < block * elemsPerThread := Nat.mul_pos hblock helems
  have hbound : block * elemsPerThread ≤ 1024 * 2 ^ 31 := Nat.mul_le_mul hblock' helems'.le
  have hsize : n + block * elemsPerThread ≤ 2 ^ 64 := by omega
  have hfew : (n + block * elemsPerThread - 1) / (block * elemsPerThread) < 2 ^ 31 := by
    rw [Nat.div_lt_iff_lt_mul hpos]
    have hle := Nat.le_mul_of_pos_right (2 ^ 31 - 1) hpos
    rw [Nat.sub_mul] at hle
    omega
  have hblocks : numBlocks n (block * elemsPerThread) % 2 ^ 32 =
      numBlocks n (block * elemsPerThread) := by
    by_cases h : n = 0
    · rw [show numBlocks n (block * elemsPerThread) = 0 from if_pos h, Nat.zero_mod]
    · rw [numBlocks_eq h hsize, Nat.mod_eq_of_lt (by omega)]
  refine ⟨numBlocks n (block * elemsPerThread), ?_, ?_⟩
  · by_cases h : n = 0
    · omega
    · rw [numBlocks_eq h hsize]
      exact le_blocks_mul hpos
  · unfold launchPrivatized histAsked
    rw [bind_ok (zeroCells_ok true _ [])]
    simp only [hblocks, numBlocks_eq_zero hpos hsize]
    refine launchUnless_ok (fun h => ⟨?_, ⟨hblock, hblock'⟩, ?_⟩) _
    · show 0 < numBlocks n _ ∧ numBlocks n _ < 2 ^ 31
      rw [numBlocks_eq h hsize]
      exact ⟨Nat.div_pos (by omega) hpos, hfew⟩
    · show numBins * 4 ≤ 49152
      omega

/-- What the checks let pass. -/
theorem validateBins_ok {X V : Type} {numBins : Int} (h : 0 < numBins) (h' : numBins ≤ 12288)
    (name : String) (cs : List (Command X V)) :
    (validateNumBinsFitsSharedMem numBins name : Host LaunchError X V Unit) cs = (.ok (), cs) := by
  refine check_ok ?_ _ cs
  unfold kMaxSharedMemPerBlockBytes
  omega

theorem validateN_ok {X V : Type} {n : Nat} (h : n < 2 ^ 31) (name : String)
    (cs : List (Command X V)) :
    (validateNFitsIntBinCounts n name : Host LaunchError X V Unit) cs = (.ok (), cs) :=
  check_ok (by omega) _ cs

theorem countChunks_privatizes {n numBins grid block elemsPerThread : Nat} (hblock : 0 < block)
    (hbins : 0 < numBins) (helems : 0 < elemsPerThread) (hn : n < 2 ^ 31)
    (hgrid : n ≤ grid * (block * elemsPerThread)) {kernel : Nat → Nat → HistThread}
    (hkernel : ∀ b i, kernel b i =
      histogramPrivatizedCoarsenedKernel truncated block n numBins elemsPerThread b i) :
    Privatizes truncated n numBins (chunkElements block elemsPerThread n)
      (fun b i => (List.range elemsPerThread).forM fun e =>
        countElement truncated n numBins b (b * block * elemsPerThread + e * block + i))
      ⟨grid, block, numBins * 4, kernel⟩ where
  threads := hblock
  bins := hbins
  bytes := rfl
  few := hn
  kernel := hkernel
  fills := chunkElements_fills n
  counting _ _ := .forM fun _ _ => countElement_counting hbins _
  partition := chunkElements_partition hblock helems hgrid

theorem HistogramRung.launch_asks (rung : HistogramRung) (truncated : Cell32 → Int → Int) {n : Nat}
    {numBins blockSize : Int} (h : rung.Accepts n numBins blockSize)
    (hint : rung.elemsPerThread < 2 ^ 31) :
    ∃ dims l, rung.launch truncated n numBins blockSize true [] =
        (.ok dims, histAsked n numBins.toNat l) ∧
      CountsOnce truncated n numBins.toNat
        (chunkElements blockSize.toNat rung.elemsPerThread.toNat n) l := by
  obtain ⟨⟨hblock, hblock'⟩, ⟨hbins, hbins'⟩, helems, hn⟩ := h
  cases rung with
  | privatized =>
      obtain ⟨grid, hgrid, hlaunch⟩ := launchPrivatized_ok
        (histogramPrivatizedKernel truncated blockSize.toNat n numBins.toNat) n numBins.toNat
        blockSize.toNat 1 (by omega) (by omega) (by omega) Nat.one_pos (by decide) hn
      refine ⟨(grid, blockSize.toNat), _, ?_,
        (countChunks_privatizes (by omega) (by omega) Nat.one_pos hn hgrid
        fun _ _ => histogramPrivatizedKernel_eq ..).countsOnce⟩
      show histogramPrivatizedLaunch truncated n numBins blockSize true [] = _
      unfold histogramPrivatizedLaunch
      rw [Nat.mul_one] at hlaunch
      rw [bind_ok (validateBlockSize1d_ok hblock hblock' _ []),
        bind_ok (validateBins_ok hbins hbins' _ []), bind_ok (validateN_ok hn _ [])]
      exact hlaunch
  | privatizedCoarsened elemsPerThread =>
      have helems : 1 ≤ elemsPerThread := helems
      have hint : elemsPerThread < 2 ^ 31 := hint
      obtain ⟨grid, hgrid, hlaunch⟩ := launchPrivatized_ok
        (histogramPrivatizedCoarsenedKernel truncated blockSize.toNat n numBins.toNat
          elemsPerThread.toNat) n numBins.toNat blockSize.toNat elemsPerThread.toNat (by omega)
        (by omega) (by omega) (by omega) (by omega) hn
      refine ⟨(grid, blockSize.toNat), _, ?_,
        (countChunks_privatizes (by omega) (by omega) (by omega) hn hgrid
        fun _ _ => rfl).countsOnce⟩
      show histogramPrivatizedCoarsenedLaunch truncated n numBins blockSize
        elemsPerThread true [] = _
      unfold histogramPrivatizedCoarsenedLaunch
      rw [bind_ok (validateBlockSize1d_ok hblock hblock' _ []),
        bind_ok (validateBins_ok hbins hbins' _ []), bind_ok (check_ok (by omega) _ []),
        bind_ok (validateN_ok hn _ [])]
      exact hlaunch

/-- What the commands leave in `hist`. -/
theorem hist_of_asked {n numBins : Nat} {elements : Nat → List Nat} {l : Launch HistCell Cell32}
    (h : CountsOnce truncated n numBins elements l) {μ μ' : HistCell → Cell32}
    (hcompletes : Completes (· + ·) HistCell.IsGlobal (histAsked n numBins l) μ μ') {β : Nat}
    (hβ : β < numBins) :
    (μ' (.hist β)).toNat = (List.range n).countP (binAt truncated numBins μ · = β) := by
  cases hcompletes with
  | memset hrest =>
      have hzero : ∀ β < numBins, replay (((List.range numBins).map .hist).map (·, 0)) μ
          (.hist β) = 0 := by
        intro β hβ
        refine replay_of_mem (fun w hw _ => ?_) ⟨(.hist β, 0), ?_, rfl⟩ μ
        · obtain ⟨x, -, rfl⟩ := List.mem_map.mp hw
          rfl
        · exact List.mem_map_of_mem (List.mem_map_of_mem (List.mem_range.mpr hβ))
      have hinput : ∀ j, replay (((List.range numBins).map .hist).map (·, 0)) μ (.input j) =
          μ (.input j) := by
        intro j
        refine replay_of_not_mem (fun w hw heq => ?_) μ
        obtain ⟨x, hx, rfl⟩ := List.mem_map.mp hw
        obtain ⟨β, -, rfl⟩ := List.mem_map.mp hx
        exact nomatch heq
      by_cases hn : n = 0
      · rw [if_pos hn] at hrest
        cases hrest
        rw [hzero β hβ, hn]
        rfl
      · rw [if_neg hn] at hrest
        cases hrest with
        | launch hrun hc hnil =>
            cases hnil
            rw [h.output _ _ _ hzero hrun hc β hβ, binAt_congr hinput]

/-- The privatized histograms equal the reference counts: where a launcher takes its arguments, the
    threads take each element once and stay in their buffers under every schedule, no counter
    overflows, and `hist` gets for each bin the number of its elements. -/
theorem histogram_counts_once (truncated : Cell32 → Int → Int) (rung : HistogramRung) {n : Nat}
    {numBins blockSize : Int}
    {dims : Nat × Nat} {cs : List (Command HistCell Cell32)} (hbins : numBins < 2 ^ 31)
    (helems : rung.elemsPerThread < 2 ^ 31)
    (h : rung.launch truncated n numBins blockSize true [] = (.ok dims, cs)) :
    (∀ l, .launch l ∈ cs → CountsOnce truncated n numBins.toNat
      (chunkElements blockSize.toNat rung.elemsPerThread.toNat n) l) ∧
    ∀ μ μ', Completes (· + ·) HistCell.IsGlobal cs μ μ' →
      ∃ hist, referenceHistogram truncated (fun i => μ (.input i)) n numBins = .ok hist ∧
        ∀ β < numBins.toNat, μ' (.hist β) = hist β ∧
          (μ' (.hist β)).toNat = (List.range n).countP (binAt truncated numBins.toNat μ · = β) := by
  have haccepts := rung.accepts_of_launch hbins h
  obtain ⟨dims', l, hlaunch, hcounts⟩ := rung.launch_asks truncated haccepts helems
  obtain ⟨-, rfl⟩ := Prod.mk.inj (h.symm.trans hlaunch)
  refine ⟨fun l' hl' => ?_, fun μ μ' hcompletes => ?_⟩
  · rcases List.mem_cons.mp hl' with heq | hl'
    · exact nomatch heq
    · split at hl'
      · exact absurd hl' List.not_mem_nil
      · rw [Command.launch.inj (List.mem_singleton.mp hl')]
        exact hcounts
  · have hpos : 0 < numBins.toNat := by
      have := haccepts.bins.1
      omega
    obtain ⟨hist, hreference, hvalue⟩ := referenceHistogram_eq truncated hpos μ n
    rw [Int.toNat_of_nonneg haccepts.bins.1.le] at hreference
    refine ⟨hist, hreference, fun β hβ => ?_⟩
    have hcount := hist_of_asked hcounts hcompletes hβ
    refine ⟨?_, hcount⟩
    rw [hvalue β, ← hcount, BitVec.ofNat_toNat, BitVec.setWidth_eq]

/-- Three elements in two bins. -/
theorem histogram_counts_once_three : ∃ cs : List (Command HistCell Cell32),
    histogramPrivatizedCoarsenedLaunch (fun x _ => x.toInt) 3 2 64 8 true [] = (.ok (1, 64), cs) ∧
      ∀ μ μ', Completes (· + ·) HistCell.IsGlobal cs μ μ' →
        ∃ hist, referenceHistogram (fun x _ => x.toInt) (fun i => μ (.input i)) 3 2 = .ok hist ∧
          ∀ β < 2, μ' (.hist β) = hist β ∧ (μ' (.hist β)).toNat =
            (List.range 3).countP (binAt (fun x _ => x.toInt) 2 μ · = β) := by
  have hlaunch : (HistogramRung.privatizedCoarsened 8).launch (fun x _ => x.toInt) 3 2 64 true [] =
      (.ok (1, 64),
        (histogramPrivatizedCoarsenedLaunch (fun x _ => x.toInt) 3 2 64 8 true []).2) := rfl
  exact ⟨_, hlaunch, (histogram_counts_once _ _ (by decide) (by decide) hlaunch).2⟩

end PassionProjects.Kernelforge
