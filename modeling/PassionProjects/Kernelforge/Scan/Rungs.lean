/-
  PassionProjects.Kernelforge.Scan.Rungs

  The scans of many blocks equal `reference::inclusive_scan`, for as many elements as two
  levels reach.
-/

import PassionProjects.Kernelforge.Scan.Multilevel

namespace PassionProjects.Kernelforge

open Raising Raising.Prog Warps Warps.Program
open Footprint (readWrite)

variable {F : Type} [AddCommGroup F]

-- ============================================================================
-- Where the threads go
-- ============================================================================

/-- What an array holds: `d_in` and `d_out` the elements, the others what `ScanScratch` has
    for them. -/
def ScanArray.length (n : Nat) (scratch : ScanScratch) : ScanArray → Nat
  | input | output => n
  | blockSums => scratch.dBlockSums
  | blockSumsScanned => scratch.dBlockSumsScanned
  | blockOffsets => scratch.dBlockOffsets
  | level2DummySums => scratch.dLevel2DummySums

/-- Where a thread of a launch may go: to the elements of the arrays, and to the shared memory
    of its block. -/
def ScanCell.Inside (n : Nat) (scratch : ScanScratch) (l : Launch ScanCell F) (b _tid : Nat) :
    ScanCell → Prop
  | .array x j => j < x.length n scratch
  | .shared b' i => b' = b ∧ 4 * i + 4 ≤ l.sharedBytes
  | .blockTotal b' => b' = b

/-- The grid has a thread for each of the elements, and no block without one. -/
structure Covers (l : Launch ScanCell F) (n : Nat) : Prop where
  threads : 0 < l.blockDim
  all : n ≤ l.gridDim * l.blockDim
  none_empty : (l.gridDim - 1) * l.blockDim < n

-- ============================================================================
-- A pass
-- ============================================================================

section Pass

variable {dIn dOut dBlockSums : ScanArray} {n : Nat} {l : Launch ScanCell F} {μ : ScanCell → F}

/-- The arrays of a pass are different. -/
structure PassArrays (dIn dOut dBlockSums : ScanArray) : Prop where
  out : dOut ≠ dIn
  sums : dBlockSums ≠ dIn
  apart : dOut ≠ dBlockSums

/-- The launch of a pass. -/
structure IsPass (strategy : ScanStrategy) (dIn dOut dBlockSums : ScanArray) (n : Nat)
    (l : Launch ScanCell F) : Prop extends PassArrays dIn dOut dBlockSums, Covers l n where
  bytes : l.sharedBytes = strategy.smemBytes l.blockDim
  kernel : l.kernel = strategy.kernel dIn dOut dBlockSums n l.blockDim

theorem mem_scanWrites {b i : Nat} {w : ScanCell × F}
    (hw : w ∈ scanWrites dIn dOut dBlockSums n l.blockDim μ b i) :
    (b * l.blockDim + i < n ∧ w = (.array dOut (b * l.blockDim + i),
      chunkSum dIn n l.blockDim μ b (i + 1))) ∨
    (i = l.blockDim - 1 ∧ w = (.array dBlockSums b, chunkSum dIn n l.blockDim μ b l.blockDim)) := by
  rcases List.mem_append.mp hw with hw | hw
  · split at hw
    · rename_i hlt
      exact .inl ⟨hlt, List.mem_singleton.mp hw⟩
    · exact absurd hw List.not_mem_nil
  · split at hw
    · rename_i hlast
      exact .inr ⟨hlast, List.mem_singleton.mp hw⟩
    · exact absurd hw List.not_mem_nil

omit [AddCommGroup F] in
theorem mem_scanOwn {b : Nat} {x : ScanCell} (hx : x ∈ scanOwn l.sharedBytes b) :
    ¬ ScanCell.IsGlobal x ∧ ∀ b', x ∈ scanOwn l.sharedBytes b' → b = b' := by
  rcases hx with ⟨j, -, rfl⟩ | rfl
  · refine ⟨id, fun b' hx' => ?_⟩
    rcases hx' with ⟨j', -, heq⟩ | heq
    · injection heq
    · exact nomatch heq
  · refine ⟨id, fun b' hx' => ?_⟩
    rcases hx' with ⟨j', -, heq⟩ | heq
    · exact nomatch heq
    · injection heq

/-- What the threads of a pass write. -/
theorem IsPass.writes {strategy : ScanStrategy} (h : IsPass strategy dIn dOut dBlockSums n l) :
    l.Writes ScanCell.IsGlobal (scanReadable dIn n l.blockDim l.sharedBytes) (scanOwn l.sharedBytes)
      (scanReads l.sharedBytes) (scanWrites dIn dOut dBlockSums n l.blockDim μ) := by
  constructor
  · intro b _ x hx
    obtain ⟨hlocal, hblock⟩ := mem_scanOwn hx
    refine ⟨hlocal, fun b' _ => ⟨hblock b', fun i _ hread => ?_⟩⟩
    rcases hread with ⟨-, rfl⟩ | hown
    · exact absurd trivial hlocal
    · exact hblock b' hown
  · intro b _ i _ w hw
    rcases mem_scanWrites hw with ⟨-, rfl⟩ | ⟨-, rfl⟩
    · trivial
    · trivial
  · exact fun b _ i _ x hx => .inr hx
  · intro b _ i _ w hw b' _ j _ hread
    rcases mem_scanWrites hw with ⟨-, rfl⟩ | ⟨-, rfl⟩
    · rcases hread with ⟨-, heq⟩ | hown
      · exact absurd (ScanCell.array.inj heq).1 h.out
      · exact absurd hown (array_not_mem_scanOwn dOut _)
    · rcases hread with ⟨-, heq⟩ | hown
      · exact absurd (ScanCell.array.inj heq).1 h.sums
      · exact absurd hown (array_not_mem_scanOwn dBlockSums _)
  · intro b _ i hi w hw b' _ j hj w' hw' heq
    rcases mem_scanWrites hw with ⟨-, rfl⟩ | ⟨hlast, rfl⟩
    · rcases mem_scanWrites hw' with ⟨-, rfl⟩ | ⟨-, rfl⟩
      · obtain ⟨rfl, rfl⟩ := Kernels.index_inj hi hj (ScanCell.array.inj heq).2
        exact ⟨rfl, rfl, rfl⟩
      · exact absurd (ScanCell.array.inj heq).1 h.apart
    · rcases mem_scanWrites hw' with ⟨-, rfl⟩ | ⟨hlast', rfl⟩
      · exact absurd (ScanCell.array.inj heq).1.symm h.apart
      · obtain rfl := (ScanCell.array.inj heq).2
        exact ⟨rfl, hlast.trans hlast'.symm, rfl⟩
  · intro b _ i _
    unfold scanWrites
    split
    · split
      · refine List.nodup_cons.mpr ⟨fun hmem => ?_, List.nodup_singleton _⟩
        exact h.apart (ScanCell.array.inj (List.mem_singleton.mp hmem)).1
      · exact List.nodup_singleton _
    · split
      · exact List.nodup_singleton _
      · exact List.nodup_nil

theorem chunkSum_congr {μ₀ : ScanCell → F} (hμ₀ : ∀ x, ScanCell.IsGlobal x → μ₀ x = μ x) :
    chunkSum dIn n l.blockDim μ₀ = chunkSum dIn n l.blockDim μ := by
  funext b m
  apply Finset.sum_congr rfl
  intro j _
  unfold padded
  rw [hμ₀ (.array dIn (b * l.blockDim + j)) trivial]

theorem IsPass.ends {strategy : ScanStrategy}
    (h : IsPass strategy dIn dOut dBlockSums n l) {k : Nat}
    (hk : k ≤ 31) (hsize : l.blockDim = 2 ^ k) :
    l.Ends plus ScanCell.IsGlobal μ (scanReadable dIn n l.blockDim l.sharedBytes)
      (scanOwn l.sharedBytes) (fun b => readWrite (scanReads l.sharedBytes b)
        (scanWrites dIn dOut dBlockSums n l.blockDim μ b)) fun _ _ => True := by
  apply h.writes.ends
  intro μ₀ hμ₀ b _
  have hwrites : scanWrites dIn dOut dBlockSums n l.blockDim μ b =
      scanWrites dIn dOut dBlockSums n l.blockDim μ₀ b := by
    unfold scanWrites
    rw [chunkSum_congr hμ₀]
  rw [hwrites]
  have hkernel : l.kernel b = strategy.kernel dIn dOut dBlockSums n l.blockDim b :=
    congrFun h.kernel b
  cases strategy with
  | hillisSteele => exact hillisSteele_block hk hsize h.bytes hkernel
  | blelloch => exact blelloch_block hk hsize h.bytes hkernel

/-- The arrays of a pass hold what it reads and writes. -/
structure PassFits (N : Nat) (scratch : ScanScratch) (dIn dOut dBlockSums : ScanArray) (n : Nat)
    (l : Launch ScanCell F) : Prop where
  input : n ≤ dIn.length N scratch
  out : n ≤ dOut.length N scratch
  sums : l.gridDim ≤ dBlockSums.length N scratch

theorem IsPass.safe {strategy : ScanStrategy}
    (h : IsPass strategy dIn dOut dBlockSums n l) {k N : Nat}
    (hk : k ≤ 31) (hsize : l.blockDim = 2 ^ k) {scratch : ScanScratch}
    (hfits : PassFits N scratch dIn dOut dBlockSums n l) :
    Safe plus ScanCell.IsGlobal (ScanCell.Inside N scratch l) l μ := by
  have hown : ∀ b i, ∀ x ∈ scanOwn l.sharedBytes b, ScanCell.Inside N scratch l b i x := by
    rintro b i x (⟨j, hj, rfl⟩ | rfl)
    · exact ⟨rfl, hj⟩
    · exact rfl
  apply Launch.Writes.safe (h.ends hk hsize)
  · rintro b _ i _ x (⟨hlt, rfl⟩ | hx)
    · exact Nat.lt_of_lt_of_le hlt hfits.input
    · exact hown b i x hx
  · exact fun b _ i _ x hx => hown b i x hx
  · intro b hb i _ j _ w hw
    rcases mem_scanWrites hw with ⟨hlt, rfl⟩ | ⟨-, rfl⟩
    · exact Nat.lt_of_lt_of_le hlt hfits.out
    · exact Nat.lt_of_lt_of_le hb hfits.sums

variable {tr : List (Label (Access ScanCell F) F)} {c : Config (Access ScanCell F) F (ScanCell → F)}

/-- What a pass leaves in the arrays. -/
structure Passed (dIn dOut dBlockSums : ScanArray) (n blockDim gridDim : Nat)
    (μ μ' : ScanCell → F) : Prop where
  out : ∀ j < n, μ' (.array dOut j) = chunkSum dIn n blockDim μ (j / blockDim) (j % blockDim + 1)
  sums : ∀ b < gridDim, μ' (.array dBlockSums b) = chunkSum dIn n blockDim μ b blockDim
  kept : ∀ x, x ≠ dOut → x ≠ dBlockSums → ∀ j, μ' (.array x j) = μ (.array x j)

theorem IsPass.passed {strategy : ScanStrategy}
    (h : IsPass strategy dIn dOut dBlockSums n l) {k : Nat}
    (hk : k ≤ 31) (hsize : l.blockDim = 2 ^ k)
    (hrun : Launched plus ScanCell.IsGlobal l μ tr c) (hc : c.Finished) :
    Passed dIn dOut dBlockSums n l.blockDim l.gridDim μ c.state := by
  have hends := h.ends (μ := μ) hk hsize
  constructor
  · intro j hj
    have hb : j / l.blockDim < l.gridDim :=
      (Nat.div_lt_iff_lt_mul h.threads).mpr (Nat.lt_of_lt_of_le hj h.all)
    have hi := Nat.mod_lt j h.threads
    have hindex : j / l.blockDim * l.blockDim + j % l.blockDim = j := Nat.div_add_mod' j l.blockDim
    refine (h.writes.written hends hrun hc hb hi (w := (.array dOut j, _)) ?_).1
    apply List.mem_append_left
    rw [hindex, if_pos hj]
    exact List.mem_singleton_self _
  · intro b hb
    have hlast := Nat.sub_lt h.threads Nat.one_pos
    refine (h.writes.written hends hrun hc hb hlast (w := (.array dBlockSums b, _)) ?_).1
    apply List.mem_append_right
    rw [if_pos rfl]
    exact List.mem_singleton_self _
  · intro x hout hsums j
    apply h.writes.kept hends hrun hc (x := .array x j) trivial
    intro b _ i _ w hw heq
    rcases mem_scanWrites hw with ⟨-, rfl⟩ | ⟨-, rfl⟩
    · exact hout (ScanCell.array.inj heq).1.symm
    · exact hsums (ScanCell.array.inj heq).1.symm

end Pass

-- ============================================================================
-- Between the levels
-- ============================================================================

section Glue

variable {l : Launch ScanCell F} {μ : ScanCell → F} {n N : Nat} {dOut : ScanArray}
  {v : Nat → Nat → F} {readable : Nat → Nat → Set ScanCell} {scratch : ScanScratch}

/-- A thread writes its element of an array. -/
def elementWrites (dOut : ScanArray) (n blockDim : Nat) (v : Nat → Nat → F) (b i : Nat) :
    List (ScanCell × F) :=
  if b * blockDim + i < n then [(.array dOut (b * blockDim + i), v b i)] else []

omit [AddCommGroup F] in
theorem mem_elementWrites {blockDim b i : Nat} {w : ScanCell × F} :
    w ∈ elementWrites dOut n blockDim v b i ↔
      b * blockDim + i < n ∧ w = (.array dOut (b * blockDim + i), v b i) := by
  unfold elementWrites
  split
  · rename_i hlt
    rw [List.mem_singleton]
    exact ⟨fun hw => ⟨hlt, hw⟩, fun hw => hw.2⟩
  · rename_i hnot
    exact ⟨fun hw => absurd hw List.not_mem_nil, fun hw => absurd hw.1 hnot⟩

/-- Each thread of `l` reads some cells, of the array it writes at most its element, and writes
    `v b i`. -/
structure IsElementwise (dOut : ScanArray) (n : Nat) (v : Nat → Nat → F)
    (readable : Nat → Nat → Set ScanCell) (μ : ScanCell → F) (l : Launch ScanCell F) : Prop
    extends Covers l n where
  reads_own : ∀ b i j, .array dOut j ∈ readable b i → j = b * l.blockDim + i
  performs : ∀ μ₀, (∀ x, ScanCell.IsGlobal x → μ₀ x = μ x) → ∀ b < l.gridDim, ∀ i < l.blockDim,
    Performs (readable b i) μ₀ (l.kernel b i) (elementWrites dOut n l.blockDim v b i) [] (.ret ())

/-- The first elements of an array are new. -/
structure Stored (dOut : ScanArray) (n : Nat) (val : Nat → F) (μ μ' : ScanCell → F) : Prop where
  out : ∀ j < n, μ' (.array dOut j) = val j
  kept : ∀ x, x ≠ dOut → ∀ j, μ' (.array x j) = μ (.array x j)

namespace IsElementwise

omit [AddCommGroup F] in
theorem writes (h : IsElementwise dOut n v readable μ l) :
    l.Writes ScanCell.IsGlobal readable (fun _ => ∅) readable
      (elementWrites dOut n l.blockDim v) := by
  constructor
  · exact fun b _ x hx => absurd hx (Set.notMem_empty x)
  · intro b _ i _ w hw
    rw [(mem_elementWrites.mp hw).2]
    trivial
  · exact fun b _ i _ => subset_rfl
  · intro b _ i hi w hw b' _ j hj hmem
    rw [(mem_elementWrites.mp hw).2] at hmem
    obtain ⟨hb, hij⟩ := Kernels.index_inj hi hj (h.reads_own b' j _ hmem)
    exact ⟨hb, fun _ => hij⟩
  · intro b _ i hi w hw b' _ j hj w' hw' heq
    obtain ⟨-, rfl⟩ := mem_elementWrites.mp hw
    obtain ⟨-, rfl⟩ := mem_elementWrites.mp hw'
    obtain ⟨rfl, rfl⟩ := Kernels.index_inj hi hj (ScanCell.array.inj heq).2
    exact ⟨rfl, rfl, rfl⟩
  · intro b _ i _
    unfold elementWrites
    split
    · exact List.nodup_singleton _
    · exact List.nodup_nil

theorem safe (h : IsElementwise dOut n v readable μ l) (hlength : n ≤ dOut.length N scratch)
    (hread : ∀ b < l.gridDim, ∀ i < l.blockDim, ∀ x ∈ readable b i,
      ScanCell.Inside N scratch l b i x) :
    Safe plus ScanCell.IsGlobal (ScanCell.Inside N scratch l) l μ := by
  apply Launch.Writes.safe (h.writes.ends_of_performs h.performs) hread
  · exact fun b _ i _ x hx => absurd hx (Set.notMem_empty x)
  · intro b _ i _ j _ w hw
    obtain ⟨hlt, rfl⟩ := mem_elementWrites.mp hw
    exact Nat.lt_of_lt_of_le hlt hlength

/-- What the launch leaves in the arrays. -/
theorem stored (h : IsElementwise dOut n v readable μ l)
    {tr : List (Label (Access ScanCell F) F)} {c : Config (Access ScanCell F) F (ScanCell → F)}
    (hrun : Launched plus ScanCell.IsGlobal l μ tr c) (hc : c.Finished) {val : Nat → F}
    (hval : ∀ j < n, v (j / l.blockDim) (j % l.blockDim) = val j) :
    Stored dOut n val μ c.state := by
  have hends : l.Ends plus ScanCell.IsGlobal μ _ _ _ _ := h.writes.ends_of_performs h.performs
  constructor
  · intro j hj
    have hb : j / l.blockDim < l.gridDim :=
      (Nat.div_lt_iff_lt_mul h.threads).mpr (Nat.lt_of_lt_of_le hj h.all)
    have hindex : j / l.blockDim * l.blockDim + j % l.blockDim = j := Nat.div_add_mod' j l.blockDim
    rw [← hval j hj]
    refine (h.writes.written hends hrun hc hb (Nat.mod_lt j h.threads)
      (w := (.array dOut j, _)) ?_).1
    apply mem_elementWrites.mpr
    rw [hindex]
    exact ⟨hj, rfl⟩
  · intro x hx j
    apply h.writes.kept hends hrun hc (x := .array x j) trivial
    intro b _ i _ w hw heq
    rw [(mem_elementWrites.mp hw).2] at heq
    exact hx (ScanCell.array.inj heq).1.symm

end IsElementwise

/-- `scan_compute_block_offsets_kernel` takes the sum of a block from the sums up to it. -/
theorem offsetsLaunch_elementwise {numBlocks blockDim : Nat}
    (hcovers : Covers (offsetsLaunch (F := F) numBlocks blockDim) numBlocks) (μ : ScanCell → F) :
    IsElementwise .blockOffsets numBlocks
      (fun b i => μ (.array .blockSumsScanned (b * blockDim + i)) -
        μ (.array .blockSums (b * blockDim + i)))
      (fun b i => {x | b * blockDim + i < numBlocks ∧
        (x = .array .blockSumsScanned (b * blockDim + i) ∨
          x = .array .blockSums (b * blockDim + i))})
      μ (offsetsLaunch numBlocks blockDim) where
  toCovers := hcovers
  reads_own b i j hmem := by
    rcases hmem.2 with heq | heq
    · exact absurd (ScanCell.array.inj heq).1 (by decide)
    · exact absurd (ScanCell.array.inj heq).1 (by decide)
  performs μ₀ hμ₀ b _ i _ := by
    apply Performs.when
    intro hlt
    dsimp only
    rw [← hμ₀ (.array .blockSumsScanned (b * blockDim + i)) trivial,
      ← hμ₀ (.array .blockSums (b * blockDim + i)) trivial]
    exact .read ⟨hlt, .inl rfl⟩ (.read ⟨hlt, .inr rfl⟩ (.write .here))

/-- `scan_add_block_offsets_kernel` adds what lies before a chunk to its elements. -/
theorem addLaunch_elementwise {numBlocks blockSize : Nat}
    (hcovers : Covers (addLaunch (F := F) n numBlocks blockSize) n) (μ : ScanCell → F) :
    IsElementwise .output n
      (fun b i => μ (.array .output (b * blockSize + i)) + μ (.array .blockOffsets b))
      (fun b i => {x | b * blockSize + i < n ∧
        (x = .array .output (b * blockSize + i) ∨ x = .array .blockOffsets b)})
      μ (addLaunch n numBlocks blockSize) where
  toCovers := hcovers
  reads_own b i j hmem := by
    rcases hmem.2 with heq | heq
    · exact (ScanCell.array.inj heq).2
    · exact absurd (ScanCell.array.inj heq).1 (by decide)
  performs μ₀ hμ₀ b _ i _ := by
    apply Performs.when
    intro hlt
    dsimp only
    rw [← hμ₀ (.array .output (b * blockSize + i)) trivial, ← hμ₀ (.array .blockOffsets b) trivial]
    exact .read ⟨hlt, .inl rfl⟩ (.read ⟨hlt, .inr rfl⟩ (.write .here))

section Stored

variable {tr : List (Label (Access ScanCell F) F)} {c : Config (Access ScanCell F) F (ScanCell → F)}
  {numBlocks blockDim : Nat}

theorem offsetsLaunch_stored
    (hcovers : Covers (offsetsLaunch (F := F) numBlocks blockDim) numBlocks)
    (hrun : Launched plus ScanCell.IsGlobal (offsetsLaunch numBlocks blockDim) μ tr c)
    (hc : c.Finished) : Stored .blockOffsets numBlocks
      (fun b => μ (.array .blockSumsScanned b) - μ (.array .blockSums b)) μ c.state := by
  apply (offsetsLaunch_elementwise hcovers μ).stored hrun hc
  intro j _
  have hindex : j / blockDim * blockDim + j % blockDim = j := Nat.div_add_mod' j blockDim
  show μ (.array _ (j / blockDim * blockDim + j % blockDim)) -
    μ (.array _ (j / blockDim * blockDim + j % blockDim)) = _
  rw [hindex]

theorem addLaunch_stored (hcovers : Covers (addLaunch (F := F) n numBlocks blockDim) n)
    (hrun : Launched plus ScanCell.IsGlobal (addLaunch n numBlocks blockDim) μ tr c)
    (hc : c.Finished) : Stored .output n
      (fun j => μ (.array .output j) + μ (.array .blockOffsets (j / blockDim))) μ c.state := by
  apply (addLaunch_elementwise hcovers μ).stored hrun hc
  intro j _
  have hindex : j / blockDim * blockDim + j % blockDim = j := Nat.div_add_mod' j blockDim
  show μ (.array _ (j / blockDim * blockDim + j % blockDim)) + μ (.array _ _) = _
  rw [hindex]
  rfl

end Stored

end Glue

-- ============================================================================
-- Sums
-- ============================================================================

/-- `reference::inclusive_scan` -/
def referenceInclusiveScan (input : Nat → F) (n : Nat) (out : Nat → F) : Nat → F :=
  ((List.range n).foldl (fun s i =>
    let acc := s.1 + input i
    (acc, Function.update s.2 i acc)) ((0 : F), out)).2

theorem referenceInclusiveScan_eq (input : Nat → F) (n : Nat) (out : Nat → F) {j : Nat}
    (hj : j < n) :
    referenceInclusiveScan input n out j = ∑ i ∈ Finset.range (j + 1), input i := by
  have hstate : ∀ m, ((List.range m).foldl (fun s i =>
      let acc := s.1 + input i
      (acc, Function.update s.2 i acc)) ((0 : F), out)).1 = ∑ i ∈ Finset.range m, input i ∧
      (j < m → ((List.range m).foldl (fun s i =>
        let acc := s.1 + input i
        (acc, Function.update s.2 i acc)) ((0 : F), out)).2 j =
          ∑ i ∈ Finset.range (j + 1), input i) := by
    intro m
    induction m with
    | zero => exact ⟨rfl, fun hlt => absurd hlt (Nat.not_lt_zero j)⟩
    | succ m ih =>
        rw [List.range_succ, List.foldl_append, List.foldl_cons, List.foldl_nil]
        dsimp only
        rw [ih.1, ← Finset.sum_range_succ]
        refine ⟨rfl, fun hlt => ?_⟩
        by_cases heq : j = m
        · rw [heq, Function.update_self]
        · rw [Function.update_of_ne heq]
          exact ih.2 (by omega)
  exact (hstate n).2 hj

section Sums

variable {dIn : ScanArray} {n B : Nat} {μ : ScanCell → F}

theorem sum_padded {m : Nat} (h : m ≤ n) :
    ∑ j ∈ Finset.range m, padded dIn n μ j = ∑ j ∈ Finset.range m, μ (.array dIn j) := by
  apply Finset.sum_congr rfl
  intro j hj
  have hlt := Finset.mem_range.mp hj
  exact if_pos (by omega)

/-- What lies before an element is in its chunk or in those before. -/
theorem sum_chunks (b m : Nat) :
    ∑ b' ∈ Finset.range b, chunkSum dIn n B μ b' B + chunkSum dIn n B μ b m =
      ∑ j ∈ Finset.range (b * B + m), padded dIn n μ j := by
  have hchunks : ∑ b' ∈ Finset.range b, chunkSum dIn n B μ b' B =
      ∑ j ∈ Finset.range (b * B), padded dIn n μ j := (Kernels.sum_range_mul _ b B).symm
  rw [hchunks, Finset.sum_range_add]
  rfl

theorem sum_before {j : Nat} (hj : j < n) :
    ∑ b ∈ Finset.range (j / B), chunkSum dIn n B μ b B + chunkSum dIn n B μ (j / B) (j % B + 1) =
      ∑ i ∈ Finset.range (j + 1), μ (.array dIn i) := by
  rw [sum_chunks, ← Nat.add_assoc, Nat.div_add_mod', sum_padded hj]

/-- The sums of a chunk in front of which there is nothing. -/
theorem chunkSum_zero {m : Nat} (hm : m ≤ n) :
    chunkSum dIn n B μ 0 m = ∑ i ∈ Finset.range m, μ (.array dIn i) := by
  unfold chunkSum
  simp only [Nat.zero_mul, Nat.zero_add]
  exact sum_padded hm

variable {μ' ν₁ ν₂ ν₃ : ScanCell → F} {numBlocks B₂ : Nat}

/-- The four launches one after another. -/
theorem sums_of_levels (hB : 0 < B) (hblocks : n ≤ numBlocks * B) (hB₂ : numBlocks ≤ B₂)
    (h₁ : Passed .input .output .blockSums n B numBlocks μ ν₁)
    (h₂ : Passed .blockSums .blockSumsScanned .level2DummySums numBlocks B₂ 1 ν₁ ν₂)
    (h₃ : Stored .blockOffsets numBlocks
      (fun b => ν₂ (.array .blockSumsScanned b) - ν₂ (.array .blockSums b)) ν₂ ν₃)
    (h₄ : Stored .output n
      (fun j => ν₃ (.array .output j) + ν₃ (.array .blockOffsets (j / B))) ν₃ μ') {j : Nat}
        (hj : j < n) :
    μ' (.array .output j) = ∑ i ∈ Finset.range (j + 1), μ (.array .input i) := by
  have hchunk : ∀ b < numBlocks, ν₁ (.array .blockSums b) = chunkSum .input n B μ b B := h₁.sums
  have hscanned : ∀ b < numBlocks, ν₂ (.array .blockSumsScanned b) =
      ∑ b' ∈ Finset.range (b + 1), chunkSum .input n B μ b' B := by
    intro b hb
    have hsmall : b < B₂ := Nat.lt_of_lt_of_le hb hB₂
    rw [h₂.out b hb, Nat.div_eq_of_lt hsmall, Nat.mod_eq_of_lt hsmall, chunkSum_zero hb]
    apply Finset.sum_congr rfl
    intro b' hb'
    have hlt := Finset.mem_range.mp hb'
    exact hchunk b' (by omega)
  have hoffset : ∀ b < numBlocks, ν₃ (.array .blockOffsets b) =
      ∑ b' ∈ Finset.range b, chunkSum .input n B μ b' B := by
    intro b hb
    rw [h₃.out b hb, hscanned b hb, h₂.kept .blockSums (by decide) (by decide), hchunk b hb,
      Finset.sum_range_succ, add_sub_cancel_right]
  have hlt : j / B < numBlocks := (Nat.div_lt_iff_lt_mul hB).mpr (Nat.lt_of_lt_of_le hj hblocks)
  have hkept : ν₃ (.array .output j) = chunkSum .input n B μ (j / B) (j % B + 1) := by
    rw [h₃.kept .output (by decide), h₂.kept .output (by decide) (by decide), h₁.out j hj]
  rw [h₄.out j hj, hkept, hoffset _ hlt, add_comm, sum_before hj]

end Sums

-- ============================================================================
-- What the launchers ask for
-- ============================================================================

section Asked

variable {k n : Nat}

theorem scanBlocks_eq {B : Nat} (h : n + B ≤ 2 ^ 64) : scanBlocks n B = (n + B - 1) / B := by
  rw [scanBlocks, Nat.mod_eq_of_lt (by omega)]

omit [AddCommGroup F] in
/-- The grid that a launcher asks for. -/
theorem scanBlocks_covers {B : Nat} (hB : 0 < B) (hn : 0 < n) (h : n + B ≤ 2 ^ 64)
    {l : Launch ScanCell F}
    (hgrid : l.gridDim = scanBlocks n B) (hblock : l.blockDim = B) : Covers l n := by
  have hle := Nat.div_mul_le_self (n + B - 1) B
  have hblocks := scanBlocks_eq h
  constructor
  · rwa [hblock]
  · rw [hgrid, hblock, hblocks]
    exact le_blocks_mul hB
  · rw [hgrid, hblock, hblocks, Nat.sub_mul]
    omega

theorem scanBlocks_pos {B : Nat} (hB : 0 < B) (hn : 0 < n) (h : n + B ≤ 2 ^ 64) :
    0 < scanBlocks n B := by
  rw [scanBlocks_eq h]
  exact Nat.div_pos (by omega) hB

theorem scanBlocks_le {B M : Nat} (hB : 0 < B) (hn : 0 < n) (h : n + B ≤ 2 ^ 64) :
    scanBlocks n B ≤ M ↔ n ≤ M * B := by
  rw [scanBlocks_eq h, ← Nat.lt_succ_iff, Nat.div_lt_iff_lt_mul hB, Nat.succ_mul]
  omega

/-- `next_pow2_at_least` finds a power of two that is large enough. -/
theorem nextPow2AtLeast_eq {x m : Nat} (hmk : m ≤ k) (hx : x ≤ 2 ^ k) :
    ∃ m', m ≤ m' ∧ m' ≤ k ∧ x ≤ 2 ^ m' ∧ nextPow2AtLeast x (2 ^ m) = 2 ^ m' := by
  induction hd : k - m generalizing m with
  | zero =>
      obtain rfl : m = k := by omega
      refine ⟨m, le_rfl, le_rfl, hx, ?_⟩
      rw [nextPow2AtLeast, if_neg (by omega)]
  | succ d ih =>
      rw [nextPow2AtLeast]
      split
      · obtain ⟨m', hm', hk', hle, heq⟩ := ih (m := m + 1) (by omega) (by omega)
        refine ⟨m', by omega, hk', hle, ?_⟩
        rw [← heq, Nat.pow_succ, Nat.mul_comm]
      · rename_i hnot
        have hpos := Nat.two_pow_pos m
        exact ⟨m, le_rfl, hmk, by omega, rfl⟩

/-- The first level. -/
def ScanStrategy.level1 (strategy : ScanStrategy) (n B : Nat) : Launch ScanCell F :=
  strategy.launch .input .output .blockSums n (scanBlocks n B) B

/-- The second level, in one block. -/
def ScanStrategy.level2 (strategy : ScanStrategy) (numBlocks B : Nat) : Launch ScanCell F :=
  strategy.launch .blockSums .blockSumsScanned .level2DummySums numBlocks (scanBlocks numBlocks B) B

/-- What `scan_multilevel_launch` asks for. -/
def ScanStrategy.asked (strategy : ScanStrategy) (n B : Nat) : List (Launch ScanCell F) :=
  let numBlocks := scanBlocks n B
  let level2BlockSize := nextPow2AtLeast numBlocks kMinPow2BlockSize.toNat
  if n = 0 then []
  else if numBlocks = 1 then [strategy.level1 n B]
  else [strategy.level1 n B, strategy.level2 numBlocks level2BlockSize,
    offsetsLaunch numBlocks level2BlockSize, addLaunch n numBlocks B]

/-- The arguments that two levels are enough for. -/
structure TwoLevels (n k : Nat) : Prop where
  least : 5 ≤ k
  most : k ≤ 10
  some : 0 < n
  few : n ≤ 2 ^ k * 2 ^ k

namespace TwoLevels

theorem no_overflow (h : TwoLevels n k) : n + 2 ^ k ≤ 2 ^ 64 := by
  have hmax := two_pow_le h.most
  have hmul := Nat.mul_le_mul hmax hmax
  have hfew := h.few
  omega

theorem blocks_pos (h : TwoLevels n k) : 0 < scanBlocks n (2 ^ k) :=
  scanBlocks_pos (Nat.two_pow_pos k) h.some h.no_overflow

theorem blocks_le (h : TwoLevels n k) : scanBlocks n (2 ^ k) ≤ 2 ^ k :=
  (scanBlocks_le (Nat.two_pow_pos k) h.some h.no_overflow).mpr h.few

/-- One block is enough for the totals. -/
theorem level2 (h : TwoLevels n k) : ∃ m, TwoLevels (scanBlocks n (2 ^ k)) m ∧ m ≤ k ∧
    nextPow2AtLeast (scanBlocks n (2 ^ k)) kMinPow2BlockSize.toNat = 2 ^ m ∧
      scanBlocks (scanBlocks n (2 ^ k)) (2 ^ m) = 1 := by
  obtain ⟨m, hm, hmk, hle, heq⟩ := nextPow2AtLeast_eq h.least h.blocks_le
  have htwo : TwoLevels (scanBlocks n (2 ^ k)) m :=
    ⟨hm, hmk.trans h.most, h.blocks_pos, hle.trans (Nat.le_mul_self _)⟩
  have hone :=
    (scanBlocks_le (M := 1) (Nat.two_pow_pos m) htwo.some htwo.no_overflow).mpr (by omega)
  exact ⟨m, htwo, hmk, heq, Nat.le_antisymm hone htwo.blocks_pos⟩

end TwoLevels

theorem offsetsLaunch_submit {m : Nat} (hm : m ≤ 10) (numBlocks : Nat) (e : ScanError)
    (cs : List (Command ScanCell F)) :
    Launch.submit e (offsetsLaunch numBlocks (2 ^ m)) cs =
      (.ok (), cs ++ [.launch (offsetsLaunch numBlocks (2 ^ m))]) :=
  Launch.submit_ok
    ⟨⟨Nat.one_pos, Nat.one_lt_two_pow (by decide)⟩, ⟨Nat.two_pow_pos m, two_pow_le hm⟩,
      Nat.zero_le _⟩ cs

theorem addLaunch_submit (h : TwoLevels n k) (e : ScanError) (cs : List (Command ScanCell F)) :
    Launch.submit e (addLaunch n (scanBlocks n (2 ^ k)) (2 ^ k)) cs =
      (.ok (), cs ++ [.launch (addLaunch n (scanBlocks n (2 ^ k)) (2 ^ k))]) := by
  have hmax := two_pow_le h.most
  have hpos := h.blocks_pos
  have hle := h.blocks_le
  have hmod : scanBlocks n (2 ^ k) % 2 ^ 32 = scanBlocks n (2 ^ k) := Nat.mod_eq_of_lt (by omega)
  apply Launch.submit_ok
  refine ⟨⟨?_, ?_⟩, ⟨Nat.two_pow_pos k, hmax⟩, Nat.zero_le _⟩
  · show 0 < scanBlocks n (2 ^ k) % 2 ^ 32
    omega
  · show scanBlocks n (2 ^ k) % 2 ^ 32 < 2 ^ 31
    omega

/-- What `scan_multilevel_launch` does where two levels are enough. -/
theorem scan_ok (strategy : ScanStrategy) (h : TwoLevels n k) (cs : List (Command ScanCell F)) :
    strategy.scan n (2 ^ k : Nat) cs =
      (.ok (scanBlocks n (2 ^ k), 2 ^ k), cs ++ (strategy.asked n (2 ^ k)).map .launch) := by
  have hmax := two_pow_le h.most
  have hpos := h.blocks_pos
  have hle := h.blocks_le
  have hgrid : scanBlocks n (2 ^ k) % 2 ^ 32 = scanBlocks n (2 ^ k) := Nat.mod_eq_of_lt (by omega)
  have hfew : (check (¬ scanBlocks n (2 ^ k) > 2 ^ k)
      (tooManyBlocks n (2 ^ k) (scanBlocks n (2 ^ k))) : ScanHost F Unit) cs = (.ok (), cs) :=
    congrFun (if_pos (by omega)) cs
  obtain ⟨m, hm, -, hblock, -⟩ := h.level2
  rw [strategy.scan_eq]
  unfold scanMultilevelLaunch ScanStrategy.asked
  rw [bind_ok (ofLaunchError_validate h.least h.most _ cs)]
  simp only [Int.toNat_natCast, if_neg h.some.ne', hgrid, hblock]
  rw [bind_ok hfew, bind_ok (blockPass_ok strategy h.least h.most _ _ _ hpos (by omega) cs)]
  by_cases hone : scanBlocks n (2 ^ k) = 1
  · rw [if_pos hone, if_pos hone]
    rfl
  · have hmax' := two_pow_le hm.most
    have hle' := hm.blocks_le
    rw [if_neg hone, if_neg hone,
      bind_ok (blockPass_ok strategy hm.least hm.most _ _ _ hm.blocks_pos
      (by omega) _), bind_ok (offsetsLaunch_submit hm.most _ _ _), bind_ok (addLaunch_submit h _ _)]
    simp only [List.append_assoc, List.map_cons, List.map_nil, List.cons_append, List.nil_append]
    rfl

/-- Where there is nothing to scan. -/
theorem scan_none (strategy : ScanStrategy) (hk : 5 ≤ k) (hk' : k ≤ 10)
    (cs : List (Command ScanCell F)) :
    strategy.scan 0 (2 ^ k : Nat) cs = (.ok (scanBlocks 0 (2 ^ k), 2 ^ k), cs) := by
  have hmax := two_pow_le hk'
  have hpos := Nat.two_pow_pos k
  have hnone : scanBlocks 0 (2 ^ k) = 0 := by
    rw [scanBlocks_eq (by omega)]
    exact Nat.div_eq_of_lt (by omega)
  rw [strategy.scan_eq, hnone]
  unfold scanMultilevelLaunch
  rw [bind_ok (ofLaunchError_validate hk hk' _ cs)]
  rfl

/-- More elements than two levels reach are refused, before anything is asked for. -/
theorem scan_error (strategy : ScanStrategy) (hk : 5 ≤ k) (hk' : k ≤ 10) (hmany : 2 ^ k * 2 ^ k < n)
    (h : n + 2 ^ k ≤ 2 ^ 64) (cs : List (Command ScanCell F)) :
    strategy.scan n (2 ^ k : Nat) cs =
      (.error (tooManyBlocks n (2 ^ k) (scanBlocks n (2 ^ k))), cs) := by
  have hn : 0 < n := Nat.zero_lt_of_lt hmany
  have hblocks : ¬ scanBlocks n (2 ^ k) ≤ 2 ^ k := fun hle =>
    Nat.not_le_of_lt hmany ((scanBlocks_le (Nat.two_pow_pos k) hn h).mp hle)
  have hfails : (check (¬ scanBlocks n (2 ^ k) > 2 ^ k)
      (tooManyBlocks n (2 ^ k) (scanBlocks n (2 ^ k))) : ScanHost F Unit) cs =
        (.error (tooManyBlocks n (2 ^ k) (scanBlocks n (2 ^ k))), cs) :=
    congrFun (if_neg (by omega)) cs
  rw [strategy.scan_eq]
  unfold scanMultilevelLaunch
  rw [bind_ok (ofLaunchError_validate hk hk' _ cs)]
  simp only [Int.toNat_natCast, if_neg hn.ne']
  exact bind_error hfails

end Asked

-- ============================================================================
-- The rungs
-- ============================================================================

section Rungs

variable {k n : Nat} {μ μ' : ScanCell → F}

theorem ScanStrategy.isPass (strategy : ScanStrategy) {dIn dOut dBlockSums : ScanArray}
    (harrays : PassArrays dIn dOut dBlockSums) (h : TwoLevels n k) :
    IsPass strategy dIn dOut dBlockSums n
      (strategy.launch (F := F) dIn dOut dBlockSums n (scanBlocks n (2 ^ k)) (2 ^ k)) where
  toPassArrays := harrays
  toCovers := scanBlocks_covers (Nat.two_pow_pos k) h.some h.no_overflow rfl rfl
  bytes := rfl
  kernel := rfl

theorem level1_arrays : PassArrays .input .output .blockSums := ⟨by decide, by decide, by decide⟩

theorem level2_arrays : PassArrays .blockSums .blockSumsScanned .level2DummySums :=
  ⟨by decide, by decide, by decide⟩

omit [AddCommGroup F] in
theorem scanAllocScratch_ok (hk : 5 ≤ k) (hk' : k ≤ 10) (cs : List (Command ScanCell F)) :
    scanAllocScratch (2 ^ k : Nat) cs = (.ok (scratchOf (2 ^ k)), cs) := by
  unfold scanAllocScratch
  rw [bind_ok (ofLaunchError_validate hk hk' _ cs)]
  rfl

/-- The threads of all launches stay inside the arrays. -/
theorem ScanStrategy.asked_safe (strategy : ScanStrategy) (h : TwoLevels n k)
    {l : Launch ScanCell F} (hl : l ∈ strategy.asked n (2 ^ k)) (μ : ScanCell → F) :
    Safe plus ScanCell.IsGlobal (ScanCell.Inside n (scratchOf (2 ^ k)) l) l μ := by
  have hle := h.blocks_le
  have hk := h.most
  have hmax := two_pow_le hk
  obtain ⟨m, hm, -, hblock, hone⟩ := h.level2
  have hlevel1 : Safe plus ScanCell.IsGlobal (ScanCell.Inside n (scratchOf (2 ^ k))
      (strategy.level1 (F := F) n (2 ^ k))) (strategy.level1 n (2 ^ k)) μ :=
    (strategy.isPass level1_arrays h).safe (by omega) rfl ⟨le_rfl, le_rfl, hle⟩
  unfold ScanStrategy.asked at hl
  simp only [if_neg h.some.ne', hblock] at hl
  split at hl
  · rw [List.mem_singleton.mp hl]
    exact hlevel1
  · simp only [List.mem_cons, List.not_mem_nil, or_false] at hl
    have hm10 := hm.most
    rcases hl with rfl | rfl | rfl | rfl
    · exact hlevel1
    · refine (strategy.isPass level2_arrays hm).safe (by omega) rfl ⟨hle, hle, ?_⟩
      exact hone.le
    · refine (offsetsLaunch_elementwise ?_ μ).safe hle fun b _ i _ x hx => ?_
      · exact scanBlocks_covers (Nat.two_pow_pos m) hm.some hm.no_overflow hone.symm rfl
      · rcases hx with ⟨hlt, rfl | rfl⟩
        · exact Nat.lt_of_lt_of_le hlt hle
        · exact Nat.lt_of_lt_of_le hlt hle
    · refine (addLaunch_elementwise ?_ μ).safe le_rfl fun b hb i _ x hx => ?_
      · exact scanBlocks_covers (Nat.two_pow_pos k) h.some h.no_overflow
          (Nat.mod_eq_of_lt (by omega)) rfl
      · rcases hx with ⟨hlt, rfl | rfl⟩
        · exact hlt
        · exact Nat.lt_of_lt_of_le (Nat.lt_of_lt_of_le hb (Nat.mod_le _ _)) hle

/-- What a launch leaves behind. -/
theorem Completes.launch_one {l : Launch ScanCell F} {cs : List (Command ScanCell F)}
    {P : (ScanCell → F) → Prop} (hrun : Completes plus ScanCell.IsGlobal (.launch l :: cs) μ μ')
    (hl : ∀ tr c, Launched plus ScanCell.IsGlobal l μ tr c → c.Finished → P c.state) :
    ∃ ν, P ν ∧ Completes plus ScanCell.IsGlobal cs ν μ' := by
  cases hrun with
  | launch hlaunched hfinished hrest => exact ⟨_, hl _ _ hlaunched hfinished, hrest⟩

/-- After all launches every element of `d_out` is the sum of the elements up to it. -/
theorem ScanStrategy.asked_output (strategy : ScanStrategy) (h : TwoLevels n k)
    (hrun : Completes plus ScanCell.IsGlobal ((strategy.asked n (2 ^ k)).map .launch) μ μ') :
    (∀ j < n, μ' (.array .output j) = ∑ i ∈ Finset.range (j + 1), μ (.array .input i)) ∧
      ∀ j, μ' (.array .input j) = μ (.array .input j) := by
  have hpos := Nat.two_pow_pos k
  have hk := h.most
  have hmax := two_pow_le hk
  have hle := h.blocks_le
  obtain ⟨m, hm, -, hblock, hone⟩ := h.level2
  have hpass := strategy.isPass (F := F) level1_arrays h
  have hlevel1 : ∀ tr c, Launched plus ScanCell.IsGlobal (strategy.level1 n (2 ^ k)) μ tr c →
      c.Finished → Passed .input .output .blockSums n (2 ^ k) (scanBlocks n (2 ^ k)) μ c.state :=
    fun tr c hlaunched hc => hpass.passed (by omega) rfl hlaunched hc
  have hall : n ≤ scanBlocks n (2 ^ k) * 2 ^ k := hpass.all
  unfold ScanStrategy.asked at hrun
  simp only [if_neg h.some.ne', hblock] at hrun
  split at hrun
  · rename_i hsingle
    obtain ⟨ν, h₁, hrun⟩ := Completes.launch_one hrun hlevel1
    cases hrun
    refine ⟨fun j hj => ?_, h₁.kept .input (by decide) (by decide)⟩
    have hsmall : j < 2 ^ k := by
      rw [hsingle, Nat.one_mul] at hall
      omega
    rw [h₁.out j hj, Nat.div_eq_of_lt hsmall, Nat.mod_eq_of_lt hsmall, chunkSum_zero hj]
  · have hm10 := hm.most
    obtain ⟨ν₁, h₁, hrun⟩ := Completes.launch_one hrun hlevel1
    obtain ⟨ν₂, h₂, hrun⟩ := Completes.launch_one (P := Passed .blockSums .blockSumsScanned
      .level2DummySums (scanBlocks n (2 ^ k)) (2 ^ m) 1 ν₁) hrun fun tr c hlaunched hc => by
        rw [← hone]
        exact (strategy.isPass level2_arrays hm).passed (by omega) rfl hlaunched hc
    obtain ⟨ν₃, h₃, hrun⟩ := Completes.launch_one hrun fun tr c hlaunched hc =>
      offsetsLaunch_stored (scanBlocks_covers (Nat.two_pow_pos m) hm.some hm.no_overflow
        hone.symm rfl) hlaunched hc
    obtain ⟨ν₄, h₄, hrun⟩ := Completes.launch_one hrun fun tr c hlaunched hc =>
      addLaunch_stored
        (scanBlocks_covers hpos h.some h.no_overflow (Nat.mod_eq_of_lt (by omega)) rfl)
        hlaunched hc
    cases hrun
    refine ⟨fun j hj => ?_, fun j => ?_⟩
    · apply sums_of_levels hpos hall _ h₁ h₂ h₃ h₄ hj
      rw [← Nat.one_mul (2 ^ m), ← hone]
      exact (strategy.isPass (F := F) level2_arrays hm).all
    · rw [h₄.kept .input (by decide), h₃.kept .input (by decide),
        h₂.kept .input (by decide) (by decide), h₁.kept .input (by decide) (by decide)]

end Rungs

/-- Under every schedule the threads of the launches stay inside the arrays, and no two of
    them conflict.  The launches can be run to the end, and then `d_out` is the reference
    scan of `d_in`, which is as before. -/
structure ComputesScan (n : Nat) (scratch : ScanScratch)
    (ls : List (Launch ScanCell F)) : Prop where
  safe : ∀ l ∈ ls, ∀ μ, Safe plus ScanCell.IsGlobal (ScanCell.Inside n scratch l) l μ
  ends : ∀ μ, ∃ μ', Completes plus ScanCell.IsGlobal (ls.map .launch) μ μ'
  output : ∀ μ μ', Completes plus ScanCell.IsGlobal (ls.map .launch) μ μ' → ∀ j < n,
    μ' (.array .output j) =
        referenceInclusiveScan (fun i => μ (.array .input i)) n (fun i => μ (.array .output i)) j ∧
      μ' (.array .input j) = μ (.array .input j)

/-- The Hillis-Steele and the Blelloch scan equal `reference::inclusive_scan`: for a block size
    that is a power of two from 32 to 1024, and at most as many elements as its square, the
    launchers ask for one launch, or for four, that compute the scan under every schedule.
    More elements are refused, and nothing is asked for. -/
theorem scan_rungs_compute_scan (strategy : ScanStrategy) {k : Nat} (hk : 5 ≤ k) (hk' : k ≤ 10)
    (n : Nat) (cs : List (Command ScanCell F)) :
    scanAllocScratch (2 ^ k : Nat) cs = (.ok (scratchOf (2 ^ k)), cs) ∧
    (n ≤ 2 ^ k * 2 ^ k → strategy.scan n (2 ^ k : Nat) cs =
        (.ok (scanBlocks n (2 ^ k), 2 ^ k), cs ++ (strategy.asked n (2 ^ k)).map .launch) ∧
      ComputesScan (F := F) n (scratchOf (2 ^ k)) (strategy.asked n (2 ^ k))) ∧
    (2 ^ k * 2 ^ k < n → n + 2 ^ k ≤ 2 ^ 64 → strategy.scan n (2 ^ k : Nat) cs =
      (.error (tooManyBlocks n (2 ^ k) (scanBlocks n (2 ^ k))), cs)) := by
  refine ⟨scanAllocScratch_ok hk hk' cs, fun hfew => ?_, fun hmany h => ?_⟩
  · by_cases hn : n = 0
    · subst hn
      refine ⟨?_, fun l hl => absurd hl List.not_mem_nil, fun μ => ⟨μ, .nil⟩,
        fun μ μ' _ j hj => absurd hj (Nat.not_lt_zero j)⟩
      rw [scan_none strategy hk hk' cs]
      exact congrArg (Prod.mk _) (List.append_nil cs).symm
    · have h : TwoLevels n k := ⟨hk, hk', Nat.pos_of_ne_zero hn, hfew⟩
      refine ⟨scan_ok strategy h cs, fun l hl μ => strategy.asked_safe h hl μ, fun μ => ?_,
        fun μ μ' hrun j hj => ?_⟩
      · apply exists_completes
        intro l hl
        obtain ⟨l', hl', heq⟩ := List.mem_map.mp hl
        obtain rfl : l' = l := by injection heq
        exact ⟨_, strategy.asked_safe h hl'⟩
      · obtain ⟨houtput, hinput⟩ := strategy.asked_output h hrun
        exact ⟨(houtput j hj).trans (referenceInclusiveScan_eq _ n _ hj).symm, hinput j⟩
  · exact scan_error strategy hk hk' hmany h cs

/-- A thousand elements in blocks of 32. -/
theorem scan_rungs_compute_scan_thousand :
    scanBlellochLaunch 1000 32 [] = (.ok (32, 32),
      ((ScanStrategy.blelloch.asked 1000 32).map .launch : List (Command ScanCell ℤ))) ∧
    ComputesScan (F := ℤ) 1000 (scratchOf 32) (ScanStrategy.blelloch.asked 1000 32) :=
  (scan_rungs_compute_scan .blelloch (k := 5) (by decide) (by decide) 1000 []).2.1 (by decide)

end PassionProjects.Kernelforge
