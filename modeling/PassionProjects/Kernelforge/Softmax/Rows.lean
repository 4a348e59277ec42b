/-
  PassionProjects.Kernelforge.Softmax.Rows

  The softmax kernels (`softmax_naive.cu`, `softmax_warp_shuffle.cu`, `softmax_fused_online.cu`).
  A block has a row; its threads take every so many of the elements, and put together what
  they find.
-/

import PassionProjects.Kernelforge.Reduction.Reduce
import PassionProjects.Lib.Exponential
import PassionProjects.Lib.Warps.Reductions

namespace PassionProjects.Kernelforge

open ExpField Warps Warps.Program
open Kernels (strided mem_strided)

/-- The shared arrays: `sdata`, and `warp_partials` and `result` of the two reductions, and
    `warp_m`, `warp_l`, `result_m` and `result_l` of the combination of pairs. -/
inductive SoftmaxArray where
  | sdata
  | maxPartials
  | maxResult
  | sumPartials
  | sumResult
  | warpM
  | warpL
  | resultM
  | resultL
  deriving DecidableEq

/-- `sdata` has the bytes that the launch asks for. -/
def SoftmaxArray.length (sharedBytes : Nat) : SoftmaxArray → Nat
  | sdata => sharedBytes / 4
  | maxPartials | sumPartials | warpM | warpL => 32
  | maxResult | sumResult | resultM | resultL => 1

/-- The elements of `in` and `out`, and of the shared arrays of each block. -/
inductive SoftmaxCell where
  | input (j : Nat)
  | output (j : Nat)
  | shared (b : Nat) (array : SoftmaxArray) (i : Nat)
  | overflow
  deriving DecidableEq

/-- The cells that the host can see. -/
def SoftmaxCell.IsGlobal : SoftmaxCell → Prop
  | .input _ | .output _ => True
  | _ => False

/-- `row_in[c]`.  The index is a `size_t`, which holds it. -/
def rowIn (cols row c : Nat) : SoftmaxCell := .input (row * cols + c)

/-- `row_out[c]` -/
def rowOut (cols row c : Nat) : SoftmaxCell := .output (row * cols + c)

variable {F : Type} [ExpField F]

abbrev SoftmaxThread (F R : Type) := Warps.Program (Access SoftmaxCell F) F R

/-- `-FLT_MAX` -/
def negFltMax : F := -((2 ^ 24 - 1) * 2 ^ 104 : Nat)

-- ============================================================================
-- Kernels
-- ============================================================================

/-- `local_max` -/
def localMax (blockDim cols row tid : Nat) : SoftmaxThread F F :=
  foldStrided .overflow tid cols blockDim (fun localMax c => do
    let x ← load (rowIn cols row c)
    pure (max localMax x)) negFltMax

/-- `local_sum` -/
def localSum (blockDim cols row tid : Nat) (rowMax : F) : SoftmaxThread F F :=
  foldStrided .overflow tid cols blockDim (fun localSum c => do
    let x ← load (rowIn cols row c)
    pure (localSum + exp (x - rowMax))) 0

/-- The last pass of each kernel. -/
def normalize (blockDim cols row tid : Nat) (rowMax rowSum : F) : SoftmaxThread F Unit :=
  forStrided .overflow tid cols blockDim fun c => do
    let x ← load (rowIn cols row c)
    store (rowOut cols row c) (exp (x - rowMax) / rowSum)

/-- A kernel that reads its row three times. -/
def threePasses (reduceMax reduceSum : Nat → F → SoftmaxThread F F) (blockDim cols row tid : Nat) :
    SoftmaxThread F Unit := do
  let localMax ← localMax blockDim cols row tid
  let rowMax ← reduceMax tid localMax
  let localSum ← localSum blockDim cols row tid rowMax
  let rowSum ← reduceSum tid localSum
  normalize blockDim cols row tid rowMax rowSum

/-- `softmax_naive_kernel` -/
def softmaxNaiveKernel (blockDim cols blockIdx tid : Nat) : SoftmaxThread F Unit :=
  threePasses (treeReduce blockDim (.shared blockIdx .sdata) max)
    (treeReduce blockDim (.shared blockIdx .sdata) (· + ·)) blockDim cols blockIdx tid

/-- `block_reduce_max` -/
def blockReduceMax (blockDim blockIdx tid : Nat) (val : F) : SoftmaxThread F F :=
  warpReduce blockDim (fun w => .one (.shared blockIdx .maxPartials w))
    (.one (.shared blockIdx .maxResult 0)) (Block.reduceStep max) negFltMax tid val

/-- `block_reduce_sum` -/
def blockReduceSum (blockDim blockIdx tid : Nat) (val : F) : SoftmaxThread F F :=
  warpReduce blockDim (fun w => .one (.shared blockIdx .sumPartials w))
    (.one (.shared blockIdx .sumResult 0)) (Block.reduceStep (· + ·)) 0 tid val

/-- `softmax_warp_shuffle_kernel` -/
def softmaxWarpShuffleKernel (blockDim cols blockIdx tid : Nat) : SoftmaxThread F Unit :=
  threePasses (blockReduceMax blockDim blockIdx) (blockReduceSum blockDim blockIdx) blockDim cols
    blockIdx tid

/-- `online_combine` -/
def onlineCombine (p other : F × F) : F × F :=
  let mNew := max p.1 other.1
  (mNew, p.2 * exp (p.1 - mNew) + other.2 * exp (other.1 - mNew))

/-- `block_combine_online` -/
def blockCombineOnline (blockDim blockIdx tid : Nat) (p : F × F) : SoftmaxThread F (F × F) :=
  warpReduce blockDim (fun w => .two (.shared blockIdx .warpM w) (.shared blockIdx .warpL w) nofun)
    (.two (.shared blockIdx .resultM 0) (.shared blockIdx .resultL 0) nofun)
    (reducePairStep onlineCombine) (negFltMax, 0) tid p

/-- The first pass of `softmax_fused_online_kernel`. -/
def localPair (blockDim cols row tid : Nat) : SoftmaxThread F (F × F) :=
  foldStrided .overflow tid cols blockDim (fun p c => do
    let x ← load (rowIn cols row c)
    pure (onlineCombine p (x, 1))) (negFltMax, 0)

/-- `softmax_fused_online_kernel` -/
def softmaxFusedOnlineKernel (blockDim cols blockIdx tid : Nat) : SoftmaxThread F Unit := do
  let p ← localPair blockDim cols blockIdx tid
  let (rowMax, rowSum) ← blockCombineOnline blockDim blockIdx tid p
  normalize blockDim cols blockIdx tid rowMax rowSum

-- ============================================================================
-- Threads
-- ============================================================================

theorem onlineCombine_above (lowest : F) (s t : Running F F) :
    onlineCombine (Running.above lowest s) (Running.above lowest t) =
      Running.above lowest (s + t) := by
  unfold onlineCombine Running.above
  dsimp only
  rw [rescale rfl, rescale rfl, Running.add_max, Running.level_max, Running.add_mass, mul_add]

theorem max_above (lowest : F) (s t : Running F F) :
    max (Running.above lowest s).1 (Running.above lowest t).1 = (Running.above lowest (s + t)).1 :=
  congrArg Prod.fst (onlineCombine_above lowest s t)

/-- The scores of a row. -/
def scores (cols : Nat) (μ : SoftmaxCell → F) (row c : Nat) : F := μ (rowIn cols row c)

/-- The cells of a row of `in`. -/
def rowCells (cols row : Nat) : Set SoftmaxCell := {x | ∃ c < cols, x = rowIn cols row c}

/-- What the elements that a thread takes come to. -/
def strideSum {M : Type} [AddCommMonoid M] (blockDim cols tid : Nat) (g : Nat → M) : M :=
  ((strided tid cols blockDim).map g).sum

/-- An element of a row with its weight. -/
def counted (cols : Nat) (μ : SoftmaxCell → F) (row c : Nat) : Running F F :=
  .single (scores cols μ row c : F) 1

section Loops

variable {blockDim cols row tid : Nat} {μ : SoftmaxCell → F}

omit [ExpField F] in
/-- A loop over the elements of a thread. -/
theorem foldRow_performs {A M : Type} [AddCommMonoid M] (lift : M → A) {op : A → A → A}
    (hpos : 0 < blockDim) (hfits : cols + blockDim ≤ 2 ^ 31)
    (hop : ∀ a b, op (lift a) (lift b) = lift (a + b)) {s : A} (hs : s = lift 0) {f : A → F → A}
    {g : Nat → M} (hf : ∀ a, ∀ c < cols, f a (scores cols μ row c) = op a (lift (g c))) :
    Performs (rowCells cols row) μ (foldStrided .overflow tid cols blockDim (fun a c => do
      let x ← load (rowIn cols row c)
      pure (f a x)) s) [] [] (.ret (lift (strideSum blockDim cols tid g))) := by
  have hin : ∀ c ∈ strided tid cols blockDim, c < cols := fun c hc =>
    Kernels.lt_of_mem_strided hpos hc
  have hfold := foldl_lift hop (strided tid cols blockDim) (fun a c hc => hf a c (hin c hc)) 0
  rw [zero_add] at hfold
  rw [strideSum, ← hfold, hs]
  refine Performs.foldStrided hpos hfits (fun a c hc => ?_) (lift 0)
  exact .read ⟨c, hin c hc, rfl⟩ .here

theorem localMax_performs (hpos : 0 < blockDim) (hfits : cols + blockDim ≤ 2 ^ 31)
    (hlow : ∀ c < cols, negFltMax ≤ scores cols μ row c) : Performs (rowCells cols row) μ
      (localMax blockDim cols row tid) [] []
        (.ret (Running.above negFltMax (strideSum blockDim cols tid (counted cols μ row))).1) := by
  refine foldRow_performs (fun s => (Running.above negFltMax s).1) hpos hfits (max_above negFltMax)
    ?_ fun a c hc => ?_
  · rw [Running.above_zero]
  · rw [counted, Running.above_single (hlow c hc)]

theorem localPair_performs (hpos : 0 < blockDim) (hfits : cols + blockDim ≤ 2 ^ 31)
    (hlow : ∀ c < cols, negFltMax ≤ scores cols μ row c) : Performs (rowCells cols row) μ
      (localPair blockDim cols row tid) [] []
        (.ret (Running.above negFltMax (strideSum blockDim cols tid (counted cols μ row)))) := by
  refine foldRow_performs (Running.above negFltMax) hpos hfits (onlineCombine_above negFltMax)
    (Running.above_zero negFltMax).symm fun a c hc => ?_
  rw [counted, Running.above_single (hlow c hc)]

theorem localSum_performs (hpos : 0 < blockDim) (hfits : cols + blockDim ≤ 2 ^ 31) (m : F) :
    Performs (rowCells cols row) μ (localSum blockDim cols row tid m) [] []
      (.ret (strideSum blockDim cols tid fun c => exp (scores cols μ row c - m))) :=
  foldRow_performs id hpos hfits (fun _ _ => rfl) rfl fun _ _ _ => rfl

/-- What a thread writes. -/
def rowWrites (blockDim cols row : Nat) (v : Nat → F) (tid : Nat) : List (SoftmaxCell × F) :=
  (strided tid cols blockDim).map fun c => (rowOut cols row c, v c)

theorem normalize_performs (hpos : 0 < blockDim) (hfits : cols + blockDim ≤ 2 ^ 31) (m s : F) :
    Performs (rowCells cols row) μ (normalize blockDim cols row tid m s)
      (rowWrites blockDim cols row (fun c => exp (scores cols μ row c - m) / s) tid) []
      (.ret ()) := by
  unfold rowWrites
  rw [List.map_eq_flatMap]
  refine Performs.forStrided hpos hfits (fun c hc ν hν => ?_) fun c hc w hw => ?_
  · have hin : rowIn cols row c ∈ rowCells cols row := ⟨c, Kernels.lt_of_mem_strided hpos hc, rfl⟩
    have hscore : scores cols μ row c = ν (rowIn cols row c) := (hν _ hin).symm
    beta_reduce
    rw [hscore]
    exact .read hin (.write .here)
  · rw [List.mem_singleton.mp hw]
    exact fun ⟨_, _, heq⟩ => nomatch heq

end Loops

-- ============================================================================
-- Blocks
-- ============================================================================

/-- The cells that no thread has written before its last pass. -/
def notOutput : Set SoftmaxCell := {x | ∀ j, x ≠ .output j}

/-- The cells of some arrays of a block. -/
def arrayCells (b : Nat) (arrays : Set SoftmaxArray) : Set SoftmaxCell :=
  {x | ∃ array ∈ arrays, ∃ i, x = .shared b array i}

theorem not_mem_arrayCells {cols row b : Nat} {arrays : Set SoftmaxArray} {x : SoftmaxCell}
    (hx : x ∈ rowCells cols row) : x ∉ arrayCells b arrays := by
  obtain ⟨c, -, rfl⟩ := hx
  exact fun ⟨_, _, _, heq⟩ => nomatch heq

section Blocks

variable {B : Block SoftmaxCell F} {cols b : Nat} {m : F}

/-- The largest score and the sum of the exponentials relative to it. -/
theorem sum_strideSum (hpos : 0 < B.size) {μ : SoftmaxCell → F}
    (hlow : ∀ c < cols, negFltMax ≤ scores cols μ b c)
    (hm : IsGreatest (scores cols μ b '' Set.Iio cols) m) :
    Running.above negFltMax
        (∑ i ∈ Finset.range B.size, strideSum B.size cols i (counted cols μ b)) =
      (m, ∑ c ∈ Finset.range cols, exp (scores cols μ b c - m)) := by
  have hsum := Running.above_sum hlow hm fun _ => 1
  simp only [one_mul] at hsum
  rw [← hsum]
  exact congrArg _ (Kernels.sum_strided _ hpos)

/-- The block comes to its last pass with what it takes from the row. -/
def Prepares (B : Block SoftmaxCell F) (cols b : Nat) (m : F) : Prop :=
  ∃ μ', B.Reading plus notOutput μ' (fun i => normalize B.size cols b i m
    (∑ c ∈ Finset.range cols, exp (scores cols B.memory b c - m))) ∧
      ∀ x ∈ rowCells cols b, μ' x = B.memory x

theorem threePasses_prepares {reduceMax reduceSum : Nat → F → SoftmaxThread F F}
    {arrays₁ arrays₂ : Set SoftmaxArray} {result₁ result₂ : Set SoftmaxCell} (hpos : 0 < B.size)
    (hfits : cols + B.size ≤ 2 ^ 31) (hread : ∀ i < B.size, ∀ x ∈ rowCells cols b, x ∈ B.readable i)
    (hlow : ∀ c < cols, negFltMax ≤ scores cols B.memory b c)
    (hm : IsGreatest (scores cols B.memory b '' Set.Iio cols) m)
    (hmax : B.Reduces plus (fun s : Running F F => (Running.above negFltMax s).1)
      (arrayCells b arrays₁) result₁ reduceMax)
    (hsum : B.Reduces (M := F) plus id (arrayCells b arrays₂) result₂ reduceSum)
    (hresult₁ : ∀ x ∈ result₁, x ∉ arrayCells b arrays₂) (hresult₂ : result₂ ⊆ notOutput)
    (hprogram : ∀ i < B.size, B.program i = threePasses reduceMax reduceSum B.size cols b i) :
    Prepares B cols b m := by
  have hkept : ∀ x ∈ rowCells cols b, ∀ arrays, x ∉ arrayCells b arrays := fun x hx _ =>
    not_mem_arrayCells hx
  -- the largest score
  have hstart : B.Reading plus (rowCells cols b) B.memory B.program :=
    (Block.Reading.of_empty .start).mono (Set.empty_subset _)
  have hfirst := (hstart.congr hprogram).read
    (fun i _ => (localMax_performs hpos hfits hlow).bind_here) fun i hi x hx =>
      ⟨hx, hread i hi x hx⟩
  obtain ⟨μ₁, h₁, hμ₁⟩ := hmax _ _ _ _ (fun x hx => hkept x hx _) hfirst
  simp only [sum_strideSum hpos hlow hm] at h₁
  -- the sum of the exponentials
  have hscores : ∀ c < cols, scores cols μ₁ b c = scores cols B.memory b c := fun c hc =>
    hμ₁ _ (hkept _ ⟨c, hc, rfl⟩ _)
  have hsecond := (h₁.mono (Set.subset_union_left (t := rowCells cols b))).read
    (fun i _ => (localSum_performs hpos hfits m).bind_here) fun i hi x hx =>
      ⟨.inr hx, hread i hi x hx⟩
  let share (i : Nat) : F := strideSum B.size cols i fun c => exp (scores cols μ₁ b c - m)
  obtain ⟨μ₂, h₂, hμ₂⟩ := hsum _ _ share _
    (fun x hx => hx.elim (hresult₁ x) fun hrow => hkept x hrow _) hsecond
  have htotal : ∑ i ∈ Finset.range B.size, share i =
      ∑ c ∈ Finset.range cols, exp (scores cols B.memory b c - m) := by
    refine (Kernels.sum_strided _ hpos).trans (Finset.sum_congr rfl fun c hc => ?_)
    rw [hscores c (Finset.mem_range.mp hc)]
  simp only [htotal, id_eq] at h₂
  refine ⟨μ₂, h₂.mono hresult₂, fun x hx => ?_⟩
  rw [hμ₂ x (hkept x hx _), hμ₁ x (hkept x hx _)]

theorem fused_prepares {combine : Nat → F × F → SoftmaxThread F (F × F)} {arrays : Set SoftmaxArray}
    {result : Set SoftmaxCell} (hpos : 0 < B.size) (hfits : cols + B.size ≤ 2 ^ 31)
    (hread : ∀ i < B.size, ∀ x ∈ rowCells cols b, x ∈ B.readable i)
    (hlow : ∀ c < cols, negFltMax ≤ scores cols B.memory b c)
    (hm : IsGreatest (scores cols B.memory b '' Set.Iio cols) m)
    (hcombine : B.Reduces plus (Running.above negFltMax) (arrayCells b arrays) result combine)
    (hresult : result ⊆ notOutput)
    (hprogram : ∀ i < B.size, B.program i = localPair B.size cols b i >>= fun p =>
      combine i p >>= fun q => normalize B.size cols b i q.1 q.2) : Prepares B cols b m := by
  have hstart : B.Reading plus (rowCells cols b) B.memory B.program :=
    (Block.Reading.of_empty .start).mono (Set.empty_subset _)
  have hpairs := (hstart.congr hprogram).read
    (fun i _ => (localPair_performs hpos hfits hlow).bind_here) fun i hi x hx =>
      ⟨hx, hread i hi x hx⟩
  obtain ⟨μ', h', hμ'⟩ := hcombine _ _ _ _ (fun x hx => not_mem_arrayCells hx) hpairs
  simp only [sum_strideSum hpos hlow hm] at h'
  exact ⟨μ', h'.mono hresult, fun x hx => hμ' x (not_mem_arrayCells hx)⟩

end Blocks

-- ============================================================================
-- Reductions
-- ============================================================================

def softmaxOwn (sharedBytes b : Nat) : Set SoftmaxCell :=
  {x | ∃ array i, i < SoftmaxArray.length sharedBytes array ∧ x = .shared b array i}

def softmaxReadable (cols sharedBytes b _tid : Nat) : Set SoftmaxCell :=
  {x | x ∈ rowCells cols b ∨ x ∈ softmaxOwn sharedBytes b}

/-- The block of a row. -/
abbrev rowBlock (l : Launch SoftmaxCell F) (cols : Nat) (μ : SoftmaxCell → F) (b : Nat) :
    Block SoftmaxCell F :=
  l.block (softmaxReadable cols l.sharedBytes) (softmaxOwn l.sharedBytes) μ b

section Reductions

variable {l : Launch SoftmaxCell F} {cols : Nat} {μ : SoftmaxCell → F} {b : Nat} {M : Type}
  [AddCommMonoid M]

theorem tree_reduces {k : Nat} (hsize : l.blockDim = 2 ^ k)
    (hbytes : l.sharedBytes = l.blockDim * 4)
    {lift : M → F} {op : F → F → F} (hop : ∀ a b, op (lift a) (lift b) = lift (a + b)) :
    (rowBlock l cols μ b).Reduces plus lift (arrayCells b {.sdata}) ∅
      (treeReduce l.blockDim (.shared b .sdata) op) := by
  have hown : ∀ j < l.blockDim, SoftmaxCell.shared b .sdata j ∈ softmaxOwn l.sharedBytes b := by
    intro j hj
    refine ⟨.sdata, j, ?_, rfl⟩
    show j < l.sharedBytes / 4
    omega
  have htree :
      (rowBlock l cols μ b).Reduces plus lift {x | ∃ j < l.blockDim, x = .shared b .sdata j} ∅
      (treeReduce l.blockDim (.shared b .sdata) op) := Block.treeReduce_reduces hsize hop
    (fun _ _ heq => (SoftmaxCell.shared.inj heq).2.2) (fun i _ j hj => .inr (hown j hj)) hown
  exact htree.mono fun x ⟨j, _, hx⟩ => ⟨.sdata, rfl, j, hx⟩

/-- Two levels of shuffles, each of which has some arrays. -/
theorem warp_reduces {σ : Type} (arrays arrays' : Set SoftmaxArray) (lift : M → σ)
    (hpos : 0 < l.blockDim) (hwarps : l.blockDim % 32 = 0) (hmax : l.blockDim ≤ 1024)
    {op : σ → σ → σ} {step : Nat → σ → Nat → SoftmaxThread F σ}
    {partials : Nat → Place SoftmaxCell F σ} {result : Place SoftmaxCell F σ}
    (hstep : (rowBlock l cols μ b).Exchanges plus op step)
    (hop : ∀ a b, op (lift a) (lift b) = lift (a + b))
    (hpartials : ∀ w, ∀ x ∈ (partials w).cells, ∃ array ∈ arrays, x = .shared b array w)
    (hresult : ∀ x ∈ result.cells, ∃ array ∈ arrays', x = .shared b array 0)
    (hlong : ∀ array ∈ arrays, array ∉ arrays' ∧ array.length l.sharedBytes = 32)
    (hone : ∀ array ∈ arrays', array.length l.sharedBytes = 1) {empty : σ}
    (hempty : lift 0 = empty) : (rowBlock l cols μ b).Reduces plus lift
      (arrayCells b (arrays ∪ arrays')) result.cells
        (warpReduce l.blockDim partials result step empty) := by
  subst hempty
  have hown :
      ∀ x ∈ Block.warpScratch l.blockDim partials result, x ∈ softmaxOwn l.sharedBytes b := by
    rintro x (⟨w, hw, hx⟩ | hx)
    · obtain ⟨array, harray, rfl⟩ := hpartials w x hx
      refine ⟨array, w, ?_, rfl⟩
      rw [(hlong array harray).2]
      omega
    · obtain ⟨array, harray, rfl⟩ := hresult x hx
      exact ⟨array, 0, hone array harray ▸ Nat.one_pos, rfl⟩
  have hwarp := Block.warpReduce_reduces (B := rowBlock l cols μ b) hpos hwarps hmax hstep hop
    (fun w w' x hx hx' => ?_) (fun w x hx hx' => ?_) (fun i _ x hx => .inr (hown x hx)) hown
  · refine hwarp.mono ?_
    rintro x (⟨w, -, hx⟩ | hx)
    · obtain ⟨array, harray, rfl⟩ := hpartials w x hx
      exact ⟨array, .inl harray, w, rfl⟩
    · obtain ⟨array, harray, rfl⟩ := hresult x hx
      exact ⟨array, .inr harray, 0, rfl⟩
  · obtain ⟨array, -, rfl⟩ := hpartials w x hx
    obtain ⟨array', -, heq⟩ := hpartials w' _ hx'
    exact (SoftmaxCell.shared.inj heq).2.2
  · obtain ⟨array, harray, rfl⟩ := hpartials w x hx
    obtain ⟨array', harray', heq⟩ := hresult _ hx'
    exact (hlong array harray).1 ((SoftmaxCell.shared.inj heq).2.1 ▸ harray')

end Reductions

end PassionProjects.Kernelforge
