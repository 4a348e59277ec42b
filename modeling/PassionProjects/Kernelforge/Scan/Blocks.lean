/-
  PassionProjects.Kernelforge.Scan.Blocks

  The scan kernels (`scan_hillis_steele.cu`, `scan_blelloch.cu`).  A block makes the prefix
  sums of a chunk of the elements, with zeros behind the last one, and keeps the total.
-/

import PassionProjects.Kernelforge.Reduction.Reduce
import PassionProjects.Lib.Warps.Scans

namespace PassionProjects.Kernelforge

open Warps Warps.Program
open Footprint (readWrite)

/-- `d_in`, `d_out`, and the arrays of a `ScanScratch`. -/
inductive ScanArray where
  | input
  | output
  | blockSums
  | blockSumsScanned
  | blockOffsets
  | level2DummySums
  deriving DecidableEq

/-- The elements of the arrays, and the shared memory of each block. -/
inductive ScanCell where
  | array (array : ScanArray) (j : Nat)
  | shared (b i : Nat)
  | blockTotal (b : Nat)
  deriving DecidableEq

def ScanCell.IsGlobal : ScanCell → Prop
  | .array _ _ => True
  | _ => False

variable {F : Type} [AddCommGroup F]

abbrev ScanThread (F R : Type) := Warps.Program (Access ScanCell F) F R

-- ============================================================================
-- Kernels
-- ============================================================================

/-- `(gidx < n) ? in[gidx] : 0.0f` -/
def loadPadded (dIn : ScanArray) (n gidx : Nat) : ScanThread F F :=
  if gidx < n then load (.array dIn gidx) else pure 0

/-- `scan_hillis_steele_block_kernel` -/
def scanHillisSteeleBlockKernel (dIn dOut dBlockSums : ScanArray) (n blockDim blockIdx tid : Nat) :
    ScanThread F Unit := do
  let gidx := blockIdx * blockDim + tid
  let x ← loadPadded dIn n gidx
  store (.shared blockIdx tid) x
  barrier
  let halves ← (doublings blockDim).foldlM (doublingStep (.shared blockIdx) tid) (0, blockDim)
  let src := halves.1
  (if gidx < n then do
    let v ← load (.shared blockIdx (src + tid))
    store (.array dOut gidx) v
  else pure ())
  (if tid = blockDim - 1 then do
    let v ← load (.shared blockIdx (src + tid))
    store (.array dBlockSums blockIdx) v
  else pure ())

/-- `scan_blelloch_block_kernel` -/
def scanBlellochBlockKernel (dIn dOut dBlockSums : ScanArray) (n blockDim blockIdx tid : Nat) :
    ScanThread F Unit := do
  let gidx := blockIdx * blockDim + tid
  let orig ← loadPadded dIn n gidx
  store (.shared blockIdx tid) orig
  barrier
  sweepLoop blockDim (.shared blockIdx) gather (doublings blockDim) tid
  (if tid = 0 then do
    let total ← load (.shared blockIdx (blockDim - 1))
    store (.blockTotal blockIdx) total
    store (.shared blockIdx (blockDim - 1)) 0
  else pure ())
  barrier
  sweepLoop blockDim (.shared blockIdx) spread (halvingsTo 1 blockDim) tid
  let v ← load (.shared blockIdx tid)
  let inclusive := v + orig
  (if gidx < n then store (.array dOut gidx) inclusive else pure ())
  (if tid = blockDim - 1 then do
    let total ← load (.blockTotal blockIdx)
    store (.array dBlockSums blockIdx) total
  else pure ())

inductive ScanStrategy where
  | hillisSteele
  | blelloch
  deriving DecidableEq

namespace ScanStrategy

def kernel : ScanStrategy → ScanArray → ScanArray → ScanArray → Nat → Nat → Nat → Nat →
    ScanThread F Unit
  | hillisSteele => scanHillisSteeleBlockKernel
  | blelloch => scanBlellochBlockKernel

/-- `smem_bytes` -/
def smemBytes : ScanStrategy → Nat → Nat
  | hillisSteele, blockSize => 2 * blockSize * 4
  | blelloch, blockSize => blockSize * 4

end ScanStrategy

-- ============================================================================
-- Chunks
-- ============================================================================

/-- An element, or zero behind the last one. -/
def padded (dIn : ScanArray) (n : Nat) (μ : ScanCell → F) (j : Nat) : F :=
  if j < n then μ (.array dIn j) else 0

/-- The sum of the first elements of a chunk. -/
def chunkSum (dIn : ScanArray) (n blockDim : Nat) (μ : ScanCell → F) (b m : Nat) : F :=
  ∑ j ∈ Finset.range m, padded dIn n μ (b * blockDim + j)

/-- What a thread writes at the end. -/
def scanWrites (dIn dOut dBlockSums : ScanArray) (n blockDim : Nat) (μ : ScanCell → F) (b i : Nat) :
    List (ScanCell × F) :=
  (if b * blockDim + i < n then
    [(.array dOut (b * blockDim + i), chunkSum dIn n blockDim μ b (i + 1))] else []) ++
  (if i = blockDim - 1 then [(.array dBlockSums b, chunkSum dIn n blockDim μ b blockDim)] else [])

def scanOwn (smemBytes b : Nat) : Set ScanCell :=
  {x | (∃ j, 4 * j + 4 ≤ smemBytes ∧ x = .shared b j) ∨ x = .blockTotal b}

def scanReadable (dIn : ScanArray) (n blockDim smemBytes b i : Nat) : Set ScanCell :=
  {x | (b * blockDim + i < n ∧ x = .array dIn (b * blockDim + i)) ∨ x ∈ scanOwn smemBytes b}

theorem shared_inj' {b i j : Nat} (h : ScanCell.shared b i = .shared b j) : i = j := by
  injection h

/-- The cells that a thread reads at the end are those of its block. -/
def scanReads (smemBytes b _i : Nat) : Set ScanCell := scanOwn smemBytes b

section Blocks

variable {dIn dOut dBlockSums : ScanArray} {n blockDim : Nat} {μ : ScanCell → F}

theorem loadPadded_performs (b i : Nat) :
    Performs {x | b * blockDim + i < n ∧ x = .array dIn (b * blockDim + i)} μ
      (loadPadded dIn n (b * blockDim + i)) [] [] (.ret (padded dIn n μ (b * blockDim + i))) := by
  unfold loadPadded padded
  split
  · rename_i hlt
    exact .load ⟨hlt, rfl⟩
  · exact .here

/-- The block of a chunk. -/
abbrev chunkBlock (l : Launch ScanCell F) (dIn : ScanArray) (n : Nat) (μ : ScanCell → F) (b : Nat) :
    Block ScanCell F :=
  l.block (scanReadable dIn n l.blockDim l.sharedBytes) (scanOwn l.sharedBytes) μ b

variable {l : Launch ScanCell F} {b : Nat}

theorem shared_own {smemBytes j : Nat} (hj : 4 * j + 4 ≤ smemBytes) :
    ScanCell.shared b j ∈ scanOwn smemBytes b := .inl ⟨j, hj, rfl⟩

/-- The chunk is in shared memory. -/
theorem chunk_loaded {tail : Nat → F → ScanThread F Unit} (hpos : 0 < l.blockDim)
    (hbytes : l.blockDim * 4 ≤ l.sharedBytes)
    (hkernel : ∀ i < l.blockDim, l.kernel b i = loadPadded dIn n (b * l.blockDim + i) >>= fun x =>
      store (.shared b i) x >>= fun _ => barrier >>= fun _ => tail i x) :
    ∃ μ', (chunkBlock l dIn n μ b).At plus μ' .empty
        (fun i => tail i (padded dIn n μ (b * l.blockDim + i))) ∧
      ∀ i < l.blockDim, μ' (.shared b i) = padded dIn n μ (b * l.blockDim + i) := by
  let x (i : Nat) : F := padded dIn n μ (b * l.blockDim + i)
  let D (i : Nat) : Set ScanCell :=
    {c | b * l.blockDim + i < n ∧ c = .array dIn (b * l.blockDim + i)}
  let ws (i : Nat) : List (ScanCell × F) := [(.shared b i, x i)]
  have hstart : (chunkBlock l dIn n μ b).At plus μ .empty (l.kernel b) := .start
  have hperforms : ∀ i < l.blockDim, Performs (D i) μ (l.kernel b i) (ws i) []
      (barrier >>= fun _ => tail i (x i)) := by
    intro i hi
    rw [hkernel i hi]
    exact (loadPadded_performs b i).bind_read (.write .here)
  obtain ⟨μ', h', hwritten, -⟩ := hstart.exchange hpos D ws hperforms
    (fun i _ c hc => .inl hc)
    (fun i (hi : i < l.blockDim) w hw => by
      rw [List.mem_singleton.mp hw]
      exact shared_own (by omega))
    (fun i _ j _ w hw hread => by
      rw [List.mem_singleton.mp hw] at hread
      exact nomatch hread.2)
    (fun i _ j _ w hw w' hw' heq => by
      rw [List.mem_singleton.mp hw, List.mem_singleton.mp hw'] at heq
      obtain rfl := shared_inj' heq
      rw [List.mem_singleton.mp hw, List.mem_singleton.mp hw']
      exact ⟨rfl, rfl⟩)
  exact ⟨μ', h', fun i hi => hwritten i hi _ (List.mem_singleton_self _)⟩

/-- A thread writes the results. -/
theorem results_perform {D : Set ScanCell} {ν : ScanCell → F} {b i : Nat}
    {p q : ScanThread F Unit} (hp : b * blockDim + i < n → Performs D ν p
      [(.array dOut (b * blockDim + i), chunkSum dIn n blockDim μ b (i + 1))] [] (.ret ()))
    (hq : i = blockDim - 1 → Performs D ν q
      [(.array dBlockSums b, chunkSum dIn n blockDim μ b blockDim)] [] (.ret ()))
    (hD : ∀ j, ScanCell.array dOut j ∉ D) :
    Performs D ν ((if b * blockDim + i < n then p else pure ()) >>= fun _ =>
        if i = blockDim - 1 then q else pure ())
      (scanWrites dIn dOut dBlockSums n blockDim μ b i) [] (.ret ()) := by
  apply (Performs.when _ hp).bind_apart (.when _ hq)
  intro w hw
  split at hw
  · rw [List.mem_singleton.mp hw]
    exact hD _
  · exact absurd hw List.not_mem_nil

omit [AddCommGroup F] in
theorem array_not_mem_scanOwn {smemBytes : Nat} (array : ScanArray) (j : Nat) :
    ScanCell.array array j ∉ scanOwn smemBytes b := by
  rintro (⟨i, -, heq⟩ | heq)
  · exact nomatch heq
  · exact nomatch heq

/-- The blocks of `scan_hillis_steele_block_kernel`. -/
theorem hillisSteele_block {k : Nat} (hk : k ≤ 31) (hsize : l.blockDim = 2 ^ k)
    (hbytes : l.sharedBytes = 2 * l.blockDim * 4)
    (hkernel : l.kernel b = scanHillisSteeleBlockKernel dIn dOut dBlockSums n l.blockDim b) :
    ∃ μ', (chunkBlock l dIn n μ b).At plus μ'
      (readWrite (scanReads l.sharedBytes b) (scanWrites dIn dOut dBlockSums n l.blockDim μ b))
        fun _ => .ret () := by
  have hpos : 0 < l.blockDim := hsize ▸ Nat.two_pow_pos k
  let x (i : Nat) : F := padded dIn n μ (b * l.blockDim + i)
  let last (i : Nat) (halves : Nat × Nat) : ScanThread F Unit :=
    (if b * l.blockDim + i < n then do
      let v ← load (.shared b (halves.1 + i))
      store (.array dOut (b * l.blockDim + i)) v
    else pure ()) >>= fun _ =>
    if i = l.blockDim - 1 then do
      let v ← load (.shared b (halves.1 + i))
      store (.array dBlockSums b) v
    else pure ()
  let tail (i : Nat) (_ : F) : ScanThread F Unit :=
    (doublings l.blockDim).foldlM (doublingStep (.shared b) i) (0, l.blockDim) >>= last i
  obtain ⟨μ₁, h₁, hchunk⟩ := @chunk_loaded F _ dIn n μ l b tail hpos (by omega)
    fun i _ => congrFun hkernel i
  have hvals : ∀ j < l.blockDim, μ₁ (.shared b (0 + j)) = x j := by
    intro j hj
    rw [Nat.zero_add]
    exact hchunk j hj
  obtain ⟨μ₂, h₂, hsums, -⟩ := h₁.doublingLoop hpos (.inl rfl) (fun _ _ => rfl)
    (fun _ _ _ _ heq => shared_inj' heq)
    (fun i _ j (hj : j < 2 * l.blockDim) => .inr (shared_own (by omega)))
    (fun j (hj : j < 2 * l.blockDim) => shared_own (by omega)) hvals
  let src : Nat := (Block.swapped (doublings l.blockDim) (0, l.blockDim)).1
  have hsrc : src + l.blockDim ≤ 2 * l.blockDim := by
    have hhalves : Block.Halves l.blockDim (Block.swapped (doublings l.blockDim) (0, l.blockDim)) :=
      Block.Halves.swapped (.inl rfl) _
    rcases hhalves with heq | heq
    · show (Block.swapped _ _).1 + _ ≤ _
      rw [heq]
      omega
    · show (Block.swapped _ _).1 + _ ≤ _
      rw [heq]
      omega
  have hprefix : ∀ i < l.blockDim,
      μ₂ (.shared b (src + i)) = chunkSum dIn n l.blockDim μ b (i + 1) := by
    intro i hi
    refine (hsums i hi).trans ?_
    have hfold := foldl_doublings hk x (hsize ▸ hi)
    rwa [← hsize] at hfold
  refine ⟨μ₂, h₂.last fun i (hi : i < l.blockDim) => ?_⟩
  have hmem : ScanCell.shared b (src + i) ∈ scanReads l.sharedBytes b i := shared_own (by omega)
  apply results_perform
  · intro _
    rw [← hprefix i hi]
    exact .read hmem (.write .here)
  · intro hlast
    have htotal := hprefix i hi
    rw [show i + 1 = l.blockDim by omega] at htotal
    rw [← htotal]
    exact .read hmem (.write .here)
  · exact array_not_mem_scanOwn dOut

/-- The blocks of `scan_blelloch_block_kernel`. -/
theorem blelloch_block {k : Nat} (hk : k ≤ 31) (hsize : l.blockDim = 2 ^ k)
    (hbytes : l.sharedBytes = l.blockDim * 4)
    (hkernel : l.kernel b = scanBlellochBlockKernel dIn dOut dBlockSums n l.blockDim b) :
    ∃ μ', (chunkBlock l dIn n μ b).At plus μ'
      (readWrite (scanReads l.sharedBytes b) (scanWrites dIn dOut dBlockSums n l.blockDim μ b))
        fun _ => .ret () := by
  have hpos : 0 < l.blockDim := hsize ▸ Nat.two_pow_pos k
  let x (i : Nat) : F := padded dIn n μ (b * l.blockDim + i)
  let last (i : Nat) (orig : F) : ScanThread F Unit :=
    load (.shared b i) >>= fun v =>
      (if b * l.blockDim + i < n then store (.array dOut (b * l.blockDim + i)) (v + orig)
        else pure ()) >>= fun _ =>
      if i = l.blockDim - 1 then do
        let total ← load (.blockTotal b)
        store (.array dBlockSums b) total
      else pure ()
  let down (i : Nat) (orig : F) : ScanThread F Unit :=
    sweepLoop l.blockDim (.shared b) spread (halvingsTo 1 l.blockDim) i >>= fun _ => last i orig
  let clear (i : Nat) (orig : F) : ScanThread F Unit :=
    (if i = 0 then do
      let total ← load (.shared b (l.blockDim - 1))
      store (.blockTotal b) total
      store (.shared b (l.blockDim - 1)) 0
    else pure ()) >>= fun _ => barrier >>= fun _ => down i orig
  let tail (i : Nat) (orig : F) : ScanThread F Unit :=
    sweepLoop l.blockDim (.shared b) gather (doublings l.blockDim) i >>= fun _ => clear i orig
  have hread : ∀ i < l.blockDim, ∀ j < l.blockDim, ScanCell.shared b j ∈
      scanReadable dIn n l.blockDim l.sharedBytes b i :=
        fun i _ j hj => .inr (shared_own (by omega))
  have hown : ∀ j < l.blockDim, ScanCell.shared b j ∈ scanOwn l.sharedBytes b :=
    fun j hj => shared_own (by omega)
  have hcell : ∀ i < l.blockDim, ∀ j < l.blockDim,
      ScanCell.shared b i = .shared b j → i = j := fun _ _ _ _ heq => shared_inj' heq
  obtain ⟨μ₁, h₁, hchunk⟩ := @chunk_loaded F _ dIn n μ l b tail hpos (by omega)
    fun i _ => congrFun hkernel i
  -- up the tree
  have hup : Block.Paired l.blockDim (doublings l.blockDim) := by
    rw [hsize]
    exact Block.paired_doublings hk
  obtain ⟨μ₂, h₂, hgathered, -⟩ := h₁.sweepLoop hpos Block.rewrites_gather hup (fun _ _ => rfl)
    hcell hread hown hchunk
  let up : Nat → F := (doublings l.blockDim).foldl (sweepStage gathered) x
  have hup : ∀ j < l.blockDim, μ₂ (.shared b j) = up j := hgathered
  have htotal : up (l.blockDim - 1) = chunkSum dIn n l.blockDim μ b l.blockDim := by
    have hfold := foldl_gathered_last hk x
    rwa [← hsize] at hfold
  -- the first thread takes the total, and clears the last cell
  let D (i : Nat) : Set ScanCell := {c | i = 0 ∧ c = .shared b (l.blockDim - 1)}
  let ws (i : Nat) : List (ScanCell × F) :=
    if i = 0 then [(.blockTotal b, up (l.blockDim - 1)), (.shared b (l.blockDim - 1), 0)] else []
  have hws : ∀ i, ∀ w ∈ ws i, i = 0 ∧
      (w = (.blockTotal b, up (l.blockDim - 1)) ∨ w = (.shared b (l.blockDim - 1), 0)) := by
    intro i w hw
    by_cases hi : i = 0
    · simp only [ws, if_pos hi] at hw
      exact ⟨hi, List.mem_pair.mp hw⟩
    · simp only [ws, if_neg hi] at hw
      exact absurd hw List.not_mem_nil
  have hclear : ∀ i < l.blockDim, Performs (D i) μ₂ (clear i (x i)) (ws i) []
      (barrier >>= fun _ => down i (x i)) := by
    intro i _
    apply Performs.bind_here
    apply Performs.when
    rintro rfl
    rw [← hup (l.blockDim - 1) (Nat.sub_lt hpos Nat.one_pos)]
    exact .read ⟨rfl, rfl⟩ (.write (.write .here))
  obtain ⟨μ₃, h₃, hcleared, hkept⟩ := h₂.exchange hpos D ws hclear
    (fun i (hi : i < l.blockDim) c hc => by
      rw [hc.2]
      exact hread i hi _ (by omega))
    (fun i _ w hw => by
      rcases (hws i w hw).2 with rfl | rfl
      · exact .inr rfl
      · exact hown _ (by omega))
    (fun i _ j _ w hw hc => (hws i w hw).1.trans hc.1.symm)
    (fun i _ j _ w hw w' hw' heq => by
      refine ⟨(hws i w hw).1.trans (hws j w' hw').1.symm, ?_⟩
      rcases (hws i w hw).2 with rfl | rfl <;> rcases (hws j w' hw').2 with rfl | rfl
      · rfl
      · exact nomatch heq
      · exact nomatch heq
      · rfl)
  have htotalCell : μ₃ (.blockTotal b) = chunkSum dIn n l.blockDim μ b l.blockDim :=
    (hcleared 0 hpos (.blockTotal b, up (l.blockDim - 1)) (by simp [ws])).trans htotal
  have hstart : ∀ j < l.blockDim,
      μ₃ (.shared b j) = Function.update up (l.blockDim - 1) 0 j := by
    intro j hj
    by_cases hlast : j = l.blockDim - 1
    · rw [hlast, Function.update_self]
      exact hcleared 0 hpos (.shared b (l.blockDim - 1), 0) (by simp [ws])
    · rw [Function.update_of_ne hlast, ← hup j hj]
      apply hkept
      intro i _ w hw heq
      rcases (hws i w hw).2 with rfl | rfl
      · exact nomatch heq
      · exact hlast (shared_inj' heq).symm
  -- down the tree
  have hdown : Block.Paired l.blockDim (halvingsTo 1 l.blockDim) := by
    rw [hsize]
    exact Block.paired_halvings le_rfl
  obtain ⟨μ₄, h₄, hspread, hkept'⟩ := h₃.sweepLoop hpos Block.rewrites_spread hdown
    (fun _ _ => rfl) hcell hread hown hstart
  have hbefore : ∀ i < l.blockDim, μ₄ (.shared b i) = chunkSum dIn n l.blockDim μ b i := by
    intro i hi
    rw [hspread i hi]
    have hfold := foldl_sweeps hk x (hsize ▸ hi)
    rwa [← hsize] at hfold
  have htotalKept : μ₄ (.blockTotal b) = chunkSum dIn n l.blockDim μ b l.blockDim :=
    (hkept' (.blockTotal b) fun j _ heq => nomatch heq).trans htotalCell
  refine ⟨μ₄, h₄.last fun i (hi : i < l.blockDim) => ?_⟩
  apply Performs.read (shared_own (by omega))
  rw [hbefore i hi]
  apply results_perform
  · intro _
    have hnext : chunkSum dIn n l.blockDim μ b (i + 1) = chunkSum dIn n l.blockDim μ b i + x i :=
      Finset.sum_range_succ ..
    rw [hnext]
    exact .write .here
  · intro _
    rw [← htotalKept]
    exact .read (.inr rfl) (.write .here)
  · exact array_not_mem_scanOwn dOut

end Blocks

end PassionProjects.Kernelforge
