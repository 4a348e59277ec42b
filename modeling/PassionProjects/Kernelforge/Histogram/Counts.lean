/-
  PassionProjects.Kernelforge.Histogram.Counts

  The privatized histograms count every element once, and no counter overflows.
-/

import Mathlib.Algebra.BigOperators.Group.Finset.Piecewise
import Mathlib.Tactic.Ring
import PassionProjects.Kernelforge.Histogram.Privatized

namespace PassionProjects.Kernelforge

open Raising Raising.Prog Warps Warps.Program
open Kernels (strided mem_strided nodup_strided)

-- ============================================================================
-- The elements of a thread
-- ============================================================================

section Elements

/-- The elements of thread `t`: every so many of the chunk of its block. -/
def chunkElements (blockDim elemsPerThread n t : Nat) : List Nat :=
  ((List.range elemsPerThread).map fun e =>
    t / blockDim * blockDim * elemsPerThread + e * blockDim + t % blockDim).filter (· < n)

/-- The thread that takes an element. -/
def chunkOwner (blockDim elemsPerThread j : Nat) : Nat :=
  j / (blockDim * elemsPerThread) * blockDim + j % blockDim

variable {blockDim elemsPerThread n : Nat}

theorem mem_chunkElements (hblock : 0 < blockDim) {t j : Nat} :
    j ∈ chunkElements blockDim elemsPerThread n t ↔
      j < n ∧ 0 < elemsPerThread ∧ chunkOwner blockDim elemsPerThread j = t := by
  unfold chunkElements chunkOwner
  rw [List.mem_filter, List.mem_map, and_comm]
  refine and_congr (by simp) ⟨?_, ?_⟩
  · rintro ⟨e, he, rfl⟩
    have he := List.mem_range.mp he
    have hoffset : e * blockDim + t % blockDim < blockDim * elemsPerThread := by
      have hle := Nat.mul_le_mul_left blockDim (Nat.succ_le_of_lt he)
      have hmod := Nat.mod_lt t hblock
      rw [Nat.mul_succ, Nat.mul_comm blockDim e] at hle
      omega
    have hchunk : t / blockDim * blockDim * elemsPerThread + e * blockDim + t % blockDim =
        e * blockDim + t % blockDim + t / blockDim * (blockDim * elemsPerThread) := by ring
    have hthread : t / blockDim * blockDim * elemsPerThread + e * blockDim + t % blockDim =
        t % blockDim + (t / blockDim * elemsPerThread + e) * blockDim := by ring
    refine ⟨Nat.zero_lt_of_lt he, ?_⟩
    rw [hchunk, Nat.add_mul_div_right _ _ (Nat.zero_lt_of_lt hoffset), Nat.div_eq_of_lt hoffset,
      Nat.zero_add, ← hchunk, hthread, Nat.add_mul_mod_self_right, Nat.mod_mod, Nat.mul_comm]
    exact Nat.div_add_mod t blockDim
  · rintro ⟨helems, rfl⟩
    have hpos : 0 < blockDim * elemsPerThread := Nat.mul_pos hblock helems
    refine ⟨j % (blockDim * elemsPerThread) / blockDim, List.mem_range.mpr ?_, ?_⟩
    · exact Nat.div_lt_of_lt_mul (Nat.mod_lt j hpos)
    · have hdiv : (j / (blockDim * elemsPerThread) * blockDim + j % blockDim) / blockDim =
          j / (blockDim * elemsPerThread) := by
        rw [Nat.add_comm, Nat.add_mul_div_right _ _ hblock,
          Nat.div_eq_of_lt (Nat.mod_lt j hblock), Nat.zero_add]
      have hmod : (j / (blockDim * elemsPerThread) * blockDim + j % blockDim) % blockDim =
          j % blockDim := by
        rw [Nat.add_comm, Nat.add_mul_mod_self_right, Nat.mod_mod]
      have hoffset : j % (blockDim * elemsPerThread) / blockDim * blockDim + j % blockDim =
          j % (blockDim * elemsPerThread) := by
        rw [← Nat.mod_mul_right_mod j blockDim elemsPerThread, Nat.mul_comm]
        exact Nat.div_add_mod _ _
      rw [hdiv, hmod, Nat.add_assoc, hoffset, Nat.mul_assoc, Nat.mul_comm]
      exact Nat.div_add_mod j _

theorem chunkElements_partition (hblock : 0 < blockDim) (helems : 0 < elemsPerThread)
    {gridDim : Nat}
    (h : n ≤ gridDim * (blockDim * elemsPerThread)) :
    ((List.range (gridDim * blockDim)).flatMap (chunkElements blockDim elemsPerThread n)).Perm
      (List.range n) := by
  refine Kernels.perm_range_of_owner (chunkOwner blockDim elemsPerThread)
    (fun t _ j => ?_) (fun t _ => ?_) fun j hj => ?_
  · rw [mem_chunkElements hblock]
    simp [helems]
  · refine (List.Nodup.map (fun e e' heq => ?_) List.nodup_range).filter _
    refine Nat.eq_of_mul_eq_mul_right hblock ?_
    omega
  · have hchunk : j / (blockDim * elemsPerThread) < gridDim :=
      Nat.div_lt_of_lt_mul (by rw [Nat.mul_comm]; omega)
    have hle := Nat.mul_le_mul_right blockDim (Nat.succ_le_of_lt hchunk)
    have hmod := Nat.mod_lt j hblock
    rw [Nat.succ_mul] at hle
    unfold chunkOwner
    omega

variable {truncated : Cell32 → Int → Int} {numBins : Nat}

theorem flatMap_ite {α β : Type} (p : Nat → Prop) [DecidablePred p] (g : α → Nat) (h : Nat → β)
    (xs : List α) : (xs.flatMap fun e => if p (g e) then [h (g e)] else []) =
      ((xs.map g).filter (p ·)).map h := by
  induction xs with
  | nil => rfl
  | cons e xs ih =>
      rw [List.flatMap_cons, ih, List.map_cons]
      by_cases he : p (g e)
      · simp [he]
      · simp [he]

/-- A thread counts its elements. -/
theorem chunkElements_fills (n : Nat) : Fills truncated blockDim numBins
    (chunkElements blockDim elemsPerThread n) fun b i => (List.range elemsPerThread).forM fun e =>
      countElement truncated n numBins b (b * blockDim * elemsPerThread + e * blockDim + i) := by
  intro b i hi μ
  have hdiv : (b * blockDim + i) / blockDim = b := by
    rw [Nat.add_comm, Nat.add_mul_div_right _ _ (Nat.zero_lt_of_lt hi), Nat.div_eq_of_lt hi,
      Nat.zero_add]
  have hmod : (b * blockDim + i) % blockDim = i := by
    rw [Nat.add_comm, Nat.add_mul_mod_self_right, Nat.mod_eq_of_lt hi]
  let place (e : Nat) : Nat := b * blockDim * elemsPerThread + e * blockDim + i
  have helements : chunkElements blockDim elemsPerThread n (b * blockDim + i) =
      ((List.range elemsPerThread).map place).filter (· < n) := by
    simp only [chunkElements, hdiv, hmod, place]
  have hturn : ∀ e ∈ List.range elemsPerThread, ∀ ν : HistCell → Cell32,
      (∀ x ∈ {x | ∃ j ∈ chunkElements blockDim elemsPerThread n (b * blockDim + i),
        x = HistCell.input j}, ν x = μ x) →
      Performs {x | ∃ j ∈ chunkElements blockDim elemsPerThread n (b * blockDim + i), x = .input j}
        ν (countElement truncated n numBins b (place e)) []
        (if place e < n then [(.blockHist b (binAt truncated numBins μ (place e)), 1)] else [])
        (.ret ()) := by
    intro e he ν hν
    unfold countElement
    by_cases hlt : place e < n
    · have hmem : place e ∈ chunkElements blockDim elemsPerThread n (b * blockDim + i) := by
        rw [helements]
        exact List.mem_filter.mpr ⟨List.mem_map_of_mem he, decide_eq_true hlt⟩
      rw [if_pos hlt, if_pos hlt, binAt, ← hν _ ⟨_, hmem, rfl⟩]
      exact .read ⟨_, hmem, rfl⟩ (.add .here)
    · rw [if_neg hlt, if_neg hlt]
      exact .here
  have hloop := Performs.forM_add hturn
  rw [flatMap_ite (· < n) place
    fun j => (HistCell.blockHist b (binAt truncated numBins μ j), (1 : Cell32)),
    ← helements] at hloop
  exact hloop

/-- With one element for each thread, the coarsened kernel is the other one. -/
theorem histogramPrivatizedKernel_eq (n b i : Nat) :
    histogramPrivatizedKernel truncated blockDim n numBins b i =
      histogramPrivatizedCoarsenedKernel truncated blockDim n numBins 1 b i := by
  have hone : (List.range 1).forM (fun e =>
      countElement truncated n numBins b (b * blockDim * 1 + e * blockDim + i)) =
        countElement truncated n numBins b (b * blockDim + i) := by
    show (countElement truncated n numBins b (b * blockDim * 1 + 0 * blockDim + i) >>= fun _ =>
      pure ()) = _
    rw [Nat.mul_one, Nat.zero_mul, Nat.add_zero]
    exact bind_ret _
  exact congrArg (fun fill => privatized blockDim numBins fill b i) hone.symm

end Elements

-- ============================================================================
-- What reaches the histogram
-- ============================================================================

section Totals

variable {blockDim gridDim n numBins : Nat} {elements : Nat → List Nat} {bin : Nat → Nat}
  {counts : Nat → Nat → Nat}

/-- The blocks share out the elements. -/
theorem flatMap_blockElements (elements : Nat → List Nat) (gridDim blockDim : Nat) :
    (List.range gridDim).flatMap (blockElements blockDim elements) =
      (List.range (gridDim * blockDim)).flatMap elements := by
  induction gridDim with
  | zero => simp
  | succ gridDim ih =>
      rw [List.range_succ, List.flatMap_append, ih, List.flatMap_singleton, Nat.succ_mul,
        List.range_add, List.flatMap_append, List.flatMap_map]
      rfl

theorem length_blockElements_le
    (h : ((List.range (gridDim * blockDim)).flatMap elements).Perm (List.range n)) {b : Nat}
    (hb : b < gridDim) : (blockElements blockDim elements b).length ≤ n := by
  have hsub : (blockElements blockDim elements b).Sublist
      ((List.range gridDim).flatMap (blockElements blockDim elements)) := by
    rw [List.flatMap_def]
    exact List.sublist_flatten_of_mem (List.mem_map_of_mem (List.mem_range.mpr hb))
  have hlength := hsub.length_le
  rwa [flatMap_blockElements, h.length_eq, List.length_range] at hlength

/-- Together the blocks count what there is to count. -/
theorem sum_tally (h : ((List.range (gridDim * blockDim)).flatMap elements).Perm (List.range n))
    (β : Nat) : ((List.range gridDim).map fun b => tally blockDim elements bin b β).sum =
      (List.range n).countP (bin · = β) := by
  rw [← h.countP_eq, ← flatMap_blockElements, List.countP_flatMap]
  rfl

/-- What a block adds to a bin. -/
theorem sum_mergeAdds {b β : Nat} (hblock : 0 < blockDim) (hβ : β < numBins)
    (hlt : counts b β < 2 ^ 31) :
    ((atCell (.hist β) ((mergePhase blockDim numBins counts b).allAdds blockDim)).map
      BitVec.toNat).sum = counts b β := by
  have hperm : ((mergePhase blockDim numBins counts b).allAdds blockDim).Perm
      ((List.range numBins).flatMap (mergeAdds (counts b))) := by
    have hbins : ((List.range blockDim).flatMap fun i => strided i numBins blockDim).Perm
        (List.range numBins) :=
      Kernels.perm_range_of_owner (· % blockDim)
        (fun i hi β => mem_strided hblock hi) (fun _ _ => nodup_strided hblock)
        fun β _ => Nat.mod_lt β hblock
    have hflat := hbins.flatMap_right (mergeAdds (counts b))
    rw [List.flatMap_assoc] at hflat
    exact hflat
  rw [((perm_atCell hperm).map _).sum_eq, atCell_flatMap, List.map_flatMap, List.flatMap_def,
    List.sum_flatten, List.map_map]
  have hvalue : (List.sum ∘ fun β' => (atCell (HistCell.hist β) (mergeAdds (counts b) β')).map
      BitVec.toNat) = fun β' => if β' = β then counts b β else 0 := by
    funext β'
    unfold mergeAdds
    by_cases hzero : counts b β' = 0
    · by_cases heq : β' = β
      · simp [atCell, ← heq, hzero]
      · simp [atCell, heq, hzero]
    · by_cases heq : β' = β
      · subst heq
        have hfits : counts b β' < 4294967296 := by omega
        simp [atCell, hzero, hfits]
      · simp [atCell, heq, hzero]
  rw [hvalue]
  exact (Finset.sum_ite_eq' (Finset.range numBins) β fun _ => counts b β).trans
    (if_pos (Finset.mem_range.mpr hβ))

end Totals

-- ============================================================================
-- No counter overflows
-- ============================================================================

section Overflow

/-- Addition that remembers an overflow: from then on the counter is negative. -/
def checkedAdd (a d : Cell32) : Cell32 :=
  if a.toNat + d.toNat < 2 ^ 31 then a + d else BitVec.allOnes 32

theorem countsUp_add : CountsUp (· + ·) := fun _ _ h => BitVec.toNat_add_of_lt (h.trans (by decide))

theorem countsUp_checkedAdd : CountsUp checkedAdd := by
  intro a d h
  rw [checkedAdd, if_pos h]
  exact countsUp_add a d h

theorem toNat_checkedAdd (a d : Cell32) : (checkedAdd a d).toNat =
    if a.toNat + d.toNat < 2 ^ 31 then a.toNat + d.toNat else 2 ^ 32 - 1 := by
  split
  · rename_i h
    exact countsUp_checkedAdd a d h
  · rename_i h
    rw [checkedAdd, if_neg h]
    rfl

instance : RightCommutative checkedAdd where
  right_comm a d e := by
    refine BitVec.toNat_inj.mp ?_
    simp only [toNat_checkedAdd]
    split_ifs <;> omega

/-- A counter that overflowed stays so. -/
theorem le_foldl_checkedAdd {a : Cell32} (h : 2 ^ 31 ≤ a.toNat) (ds : List Cell32) :
    2 ^ 31 ≤ (ds.foldl checkedAdd a).toNat := by
  induction ds generalizing a with
  | nil => exact h
  | cons d ds ih =>
      refine ih ?_
      rw [toNat_checkedAdd]
      split_ifs <;> omega

theorem fits_of_foldl {a d : Cell32} (ds : List Cell32)
    (h : (ds.foldl checkedAdd (checkedAdd a d)).toNat < 2 ^ 31) : a.toNat + d.toNat < 2 ^ 31 := by
  by_contra hnot
  have hover : 2 ^ 31 ≤ (checkedAdd a d).toNat := by
    rw [toNat_checkedAdd, if_neg hnot]
    decide
  exact absurd h (Nat.not_lt.mpr (le_foldl_checkedAdd hover ds))

end Overflow

-- ============================================================================
-- Launches
-- ============================================================================

section Counting

/-- Where a thread of a launch may go: to its elements, to the bins of `hist`, and to the
    counters of its block. -/
def HistCell.Inside (n numBins : Nat) (elements : Nat → List Nat) (l : Launch HistCell Cell32)
    (b i : Nat) : HistCell → Prop
  | .input j => j ∈ elements (b * l.blockDim + i) ∧ j < n
  | .hist β => β < numBins
  | .blockHist b' β => b' = b ∧ 4 * β + 4 ≤ l.sharedBytes

/-- Under every schedule, a counter has room for what a thread is about to add to it. -/
def NoOverflow (l : Launch HistCell Cell32) (μ : HistCell → Cell32) : Prop :=
  ∀ tr c, Launched (· + ·) HistCell.IsGlobal l μ tr c → ∀ b i x d k,
    c.threads b i = .act (.add x d) k → (c.state x).toNat + d.toNat < 2 ^ 31

/-- The threads of a launch take each of the first `n` elements once, no counter overflows, and
    `hist` gets the counts. -/
structure CountsOnce (truncated : Cell32 → Int → Int) (n numBins : Nat) (elements : Nat → List Nat)
    (l : Launch HistCell Cell32) : Prop where
  partition : ((List.range (l.gridDim * l.blockDim)).flatMap elements).Perm (List.range n)
  safe : ∀ μ, Safe (· + ·) HistCell.IsGlobal (HistCell.Inside n numBins elements l) l μ
  fits : ∀ μ, (∀ β < numBins, μ (.hist β) = 0) → NoOverflow l μ
  output : ∀ μ tr c, (∀ β < numBins, μ (.hist β) = 0) →
    Launched (· + ·) HistCell.IsGlobal l μ tr c → c.Finished → ∀ β < numBins,
      (c.state (.hist β)).toNat = (List.range n).countP (binAt truncated numBins μ · = β)

/-- What the threads of block `b` do. -/
def Touches (numBins b : Nat) : Access HistCell Cell32 → Prop
  | .read _ => True
  | .write x _ => ∃ β, x = .blockHist b β
  | .add x _ => (∃ β < numBins, x = .blockHist b β) ∨ ∃ β < numBins, x = .hist β

/-- The thread reads, and adds to the counters of its block. -/
def Counting (numBins b : Nat) (p : HistThread) : Prop :=
  p.All fun a => (∃ x, a = .read x) ∨ ∃ β < numBins, a = .add (.blockHist b β) 1

variable {truncated : Cell32 → Int → Int} {n numBins blockDim elemsPerThread b i : Nat}

theorem countElement_counting (hbins : 0 < numBins) (j : Nat) :
    Counting numBins b (countElement truncated n numBins b j) := by
  unfold countElement Counting
  split
  · refine ⟨.inl ⟨_, rfl⟩, fun x => ⟨.inr ⟨_, ?_, rfl⟩, fun _ => trivial⟩⟩
    have hmem := histogramBinOf_mem truncated x (Int.natCast_pos.mpr hbins)
    omega
  · trivial

theorem mergeBins_all {P : Access HistCell Cell32 → Prop} (hread : ∀ x, P (.read x))
    (hadd : ∀ β ∈ strided i numBins blockDim, ∀ d, P (.add (.hist β) d)) :
    (mergeBins blockDim numBins b i).All P := by
  refine .forM fun β hβ => ⟨hread _, fun count => ?_⟩
  show (if count ≠ 0 then atomicAdd (.hist β) count else pure () : HistThread).All P
  split
  · exact ⟨hadd β hβ count, fun _ => trivial⟩
  · trivial

theorem privatized_all {fill : HistThread} (hi : i < blockDim) (hfill : Counting numBins b fill) :
    (privatized blockDim numBins fill b i).All (Touches numBins b) := by
  refine Program.All.bind (.forM fun β _ => ⟨⟨β, rfl⟩, fun _ => trivial⟩) fun _ => ?_
  refine Program.All.bind (fun _ => trivial) fun _ => ?_
  refine Program.All.bind (hfill.mono ?_) fun _ => .bind (fun _ => trivial) fun _ =>
    mergeBins_all (fun _ => trivial) fun β hβ d => .inr ⟨β, ?_, rfl⟩
  · rintro a (⟨x, rfl⟩ | ⟨β, hβ, rfl⟩)
    · trivial
    · exact .inl ⟨β, hβ, rfl⟩
  · exact ((mem_strided (Nat.zero_lt_of_lt hi) hi).mp hβ).1

/-- Threads that clear some cells up to their first barrier. -/
theorem phased_stores {P Q : Access HistCell Cell32 → Prop} {cell : Nat → HistCell} {v : Cell32}
    (hP : ∀ β, P (.write (cell β) v)) {p : HistThread} (hp : p.All Q) (xs : List Nat) :
    ((xs.forM fun β => store (cell β) v) >>= fun _ =>
      Program.barrier >>= fun _ => p).Phased P Q := by
  induction xs with
  | nil => exact ⟨rfl, fun _ => hp⟩
  | cons β xs ih => exact ⟨hP β, fun _ => ih⟩

theorem privatized_phased {fill : HistThread} (hfill : Counting numBins b fill) :
    (privatized blockDim numBins fill b i).Phased (fun a => ∀ x d, a ≠ .add x d)
      fun a => ∀ x v, a ≠ .write x v := by
  refine phased_stores (fun _ _ _ => nofun) ?_ _
  refine Program.All.bind (hfill.mono ?_) fun _ => .bind (fun _ => trivial) fun _ =>
    mergeBins_all (fun _ _ _ => nofun) fun _ _ _ _ _ => nofun
  rintro a (⟨x, rfl⟩ | ⟨β, -, rfl⟩)
  · exact fun _ _ => nofun
  · exact fun _ _ => nofun

end Counting

section Launches

variable {truncated : Cell32 → Int → Int} {l : Launch HistCell Cell32} {n numBins : Nat}
  {elements : Nat → List Nat} {fill : Nat → Nat → HistThread} {plus : Cell32 → Cell32 → Cell32}
  {μ : HistCell → Cell32} {tr : List (Label (Access HistCell Cell32) Cell32)}
  {c : Config (Access HistCell Cell32) Cell32 (HistCell → Cell32)}

/-- The threads of the launch clear the counters of their block, count their elements with
    `fill`, and bring the counts to `hist`. -/
structure Privatizes (truncated : Cell32 → Int → Int) (n numBins : Nat) (elements : Nat → List Nat)
    (fill : Nat → Nat → HistThread) (l : Launch HistCell Cell32) : Prop where
  threads : 0 < l.blockDim
  bins : 0 < numBins
  bytes : l.sharedBytes = numBins * 4
  few : n < 2 ^ 31
  kernel : ∀ b i, l.kernel b i = privatized l.blockDim numBins (fill b i) b i
  fills : Fills truncated l.blockDim numBins elements fill
  counting : ∀ b i, Counting numBins b (fill b i)
  partition : ((List.range (l.gridDim * l.blockDim)).flatMap elements).Perm (List.range n)

theorem histOwn_local : ∀ b < l.gridDim, ∀ x ∈ histOwn numBins b, ¬ HistCell.IsGlobal x := by
  rintro b - x ⟨β, -, rfl⟩
  exact id

theorem mergePhase_unwritten {blockDim : Nat} {counts : Nat → Nat → Nat} {x : HistCell} (b : Nat) :
    ∀ w ∈ (mergePhase blockDim numBins counts b).allWrites blockDim, w.1 ≠ x := by
  intro w hw
  obtain ⟨i, -, hw⟩ := Footprint.mem_allWrites.mp hw
  exact absurd hw List.not_mem_nil

namespace Privatizes

theorem ends (h : Privatizes truncated n numBins elements fill l) [RightCommutative plus]
    (hplus : CountsUp plus) (μ : HistCell → Cell32) :
    l.Ends plus HistCell.IsGlobal μ (histReadable l.blockDim numBins elements) (histOwn numBins)
      (mergePhase l.blockDim numBins (tally l.blockDim elements (binAt truncated numBins μ)))
      fun b ν => ∀ β < numBins, (ν (.blockHist b β)).toNat =
        tally l.blockDim elements (binAt truncated numBins μ) b β :=
  privatized_ends hplus h.threads h.bins h.kernel h.fills
    (fun _ hb => Nat.lt_of_le_of_lt (length_blockElements_le h.partition hb) h.few) μ

/-- What the blocks bring to a bin, where it is zero at first. -/
theorem foldl_merged (h : Privatizes truncated n numBins elements fill l) (hplus : CountsUp plus)
    (bin : Nat → Nat) {β : Nat} (hβ : β < numBins) :
    (((List.range l.gridDim).flatMap fun b => atCell (.hist β)
      ((mergePhase l.blockDim numBins (tally l.blockDim elements bin) b).allAdds l.blockDim)).foldl
        plus 0).toNat = (List.range n).countP (bin · = β) := by
  have hcounted : (List.range n).countP (bin · = β) < 2 ^ 31 :=
    Nat.lt_of_le_of_lt (List.countP_le_length.trans_eq List.length_range) h.few
  have hsum : (((List.range l.gridDim).flatMap fun b => atCell (HistCell.hist β)
      ((mergePhase l.blockDim numBins (tally l.blockDim elements bin) b).allAdds
        l.blockDim)).map BitVec.toNat).sum = (List.range n).countP (bin · = β) := by
    rw [← sum_tally h.partition β, List.map_flatMap, List.flatMap_def,
      List.sum_flatten, List.map_map]
    refine congrArg List.sum (List.map_congr_left fun b hb => ?_)
    refine sum_mergeAdds h.threads hβ (Nat.lt_of_le_of_lt List.countP_le_length ?_)
    exact Nat.lt_of_le_of_lt (length_blockElements_le h.partition (List.mem_range.mp hb)) h.few
  have hzero : (0 : Cell32).toNat = 0 := rfl
  rw [hplus.foldl (by rw [hzero, hsum]; omega), hzero, hsum, Nat.zero_add]

theorem touches (h : Privatizes truncated n numBins elements fill l)
    (hrun : Launched plus HistCell.IsGlobal l μ tr c) (b i : Nat) :
    (c.threads b i).All (Touches numBins b) := by
  refine hrun.all fun i hi => ?_
  rw [h.kernel]
  exact privatized_all hi (h.counting b i)

/-- Where a thread is about to add, no thread of its block writes any more. -/
theorem passed (h : Privatizes truncated n numBins elements fill l)
    (hrun : Launched plus HistCell.IsGlobal l μ tr c) {b i : Nat} {x : HistCell} {d : Cell32}
    {k : Cell32 → HistThread} (hadd : c.threads b i = .act (.add x d) k) (j : Nat) :
    (c.threads b j).All fun a => ∀ x v, a ≠ .write x v := by
  refine hrun.passed (P := fun a => ∀ x d, a ≠ .add x d) (fun j _ => ?_) hadd
    (fun hnot => hnot x d rfl) j
  rw [h.kernel]
  exact privatized_phased (h.counting b j)

/-- With checked additions a counter has room for what is about to be added to it: the end of
    the launch would show an overflow. -/
theorem pending_fits (h : Privatizes truncated n numBins elements fill l)
    (hzero : ∀ β < numBins, μ (.hist β) = 0) (hrun : Launched checkedAdd HistCell.IsGlobal l μ tr c)
    {b i : Nat} {x : HistCell} {d : Cell32} {k : Cell32 → HistThread}
    (hadd : c.threads b i = .act (.add x d) k) : (c.state x).toNat + d.toNat < 2 ^ 31 := by
  have hends := h.ends countsUp_checkedAdd μ
  have hcounted : ∀ (bin : Nat → Nat) (β : Nat), (List.range n).countP (bin · = β) < 2 ^ 31 :=
    fun bin β => Nat.lt_of_le_of_lt (List.countP_le_length.trans_eq List.length_range) h.few
  have htouch := h.touches hrun b i
  rw [hadd] at htouch
  obtain ⟨⟨β, hβ, rfl⟩ | ⟨β, hβ, rfl⟩, -⟩ := htouch
  · -- the counters of a block are written by its own threads only
    have hkept : ∀ b' j, (c.threads b' j).All fun a => ∀ v, a ≠ .write (.blockHist b β) v := by
      intro b' j
      by_cases hb : b' = b
      · rw [hb]
        exact (h.passed hrun hadd j).mono fun a ha v => ha _ v
      · refine (h.touches hrun b' j).mono ?_
        rintro a ha v rfl
        obtain ⟨β', heq⟩ := ha
        exact hb (HistCell.blockHist.inj heq).1.symm
    have hin := hrun.of_act hadd
    obtain ⟨ν, ds, hcounts, hν⟩ := hends.reaches_own hrun hadd hkept hin.1 ⟨β, hβ, rfl⟩
      fun hupdates => by
        obtain ⟨β', -, heq⟩ := updates_mergePhase hupdates
        exact nomatch heq
    refine fits_of_foldl ds ?_
    rw [← hν, hcounts β hβ]
    refine Nat.lt_of_le_of_lt List.countP_le_length ?_
    exact Nat.lt_of_le_of_lt (length_blockElements_le h.partition hin.1) h.few
  · have hkept : ∀ b' j, (c.threads b' j).All fun a => ∀ v, a ≠ .write (.hist β) v := by
      intro b' j
      refine (h.touches hrun b' j).mono ?_
      rintro a ha v rfl
      obtain ⟨β', heq⟩ := ha
      exact nomatch heq
    obtain ⟨ds, hds⟩ := hends.reaches_global histOwn_local hrun hadd hkept trivial
      fun b _ => mergePhase_unwritten b
    refine fits_of_foldl ds ?_
    rw [← hds, hzero β hβ, h.foldl_merged countsUp_checkedAdd _ hβ]
    exact hcounted _ β

/-- As no counter overflows, checked additions come to what the device computes. -/
theorem noOverflow (h : Privatizes truncated n numBins elements fill l)
    (hzero : ∀ β < numBins, μ (.hist β) = 0) : NoOverflow l μ := by
  have hagrees : Agrees checkedAdd (· + ·) HistCell.IsGlobal l μ := by
    intro tr c hrun b i x d k hadd
    exact (if_pos (h.pending_fits hzero hrun hadd)).symm
  intro tr c hrun b i x d k hadd
  exact h.pending_fits hzero (hagrees.launched hrun) hadd

theorem countsOnce (h : Privatizes truncated n numBins elements fill l) :
    CountsOnce truncated n numBins elements l := by
  refine ⟨h.partition, fun μ => ?_, fun μ => h.noOverflow, fun μ tr c hzero hrun hc β hβ => ?_⟩
  · refine (h.ends countsUp_add μ).safe ?_ ?_ ?_
    · rintro b hb i hi x (⟨j, hj, rfl⟩ | ⟨β, hβ, rfl⟩)
      · refine ⟨hj, List.mem_range.mp (h.partition.subset (List.mem_flatMap.mpr ⟨_, ?_, hj⟩))⟩
        have hle := Nat.mul_le_mul_right l.blockDim (Nat.succ_le_of_lt hb)
        rw [Nat.succ_mul] at hle
        exact List.mem_range.mpr (by omega)
      · exact ⟨rfl, by have := h.bytes; omega⟩
    · rintro b - i - x ⟨β, hβ, rfl⟩
      exact ⟨rfl, by have := h.bytes; omega⟩
    · rintro b - i - x hx
      obtain ⟨β, hβ, rfl⟩ := updates_mergePhase hx
      exact hβ
  · rw [(h.ends countsUp_add μ).added (x := HistCell.hist β) histOwn_local hrun hc trivial
      fun b _ => mergePhase_unwritten b, hzero β hβ]
    exact h.foldl_merged countsUp_add _ hβ

end Privatizes

end Launches

end PassionProjects.Kernelforge
