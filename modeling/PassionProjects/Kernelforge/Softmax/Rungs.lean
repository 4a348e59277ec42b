/-
  PassionProjects.Kernelforge.Softmax.Rungs

  The softmax rungs: what the block-wide reductions of each kernel give, the launchers, and the
  row-wise softmax that a launch leaves in `out` (`reference::softmax_rows`).
-/

import PassionProjects.Kernelforge.Softmax.Rows

namespace PassionProjects.Kernelforge

open ExpField Raising Raising.Prog Warps Warps.Program
open Kernels (strided mem_strided nodup_strided)

variable {F : Type} [ExpField F]

-- ============================================================================
-- Block-wide reductions
-- ============================================================================

section Reductions

variable {l : Launch SoftmaxCell F} {cols : Nat} {μ : SoftmaxCell → F} {b : Nat}

/-- A reduction of one number for each thread. -/
theorem numbers_reduces {M : Type} [AddCommMonoid M] {lift : M → F} {op : F → F → F} {empty : F}
    {partials result : SoftmaxArray} (hpos : 0 < l.blockDim) (hwarps : l.blockDim % 32 = 0)
    (hmax : l.blockDim ≤ 1024) (hop : ∀ a b, op (lift a) (lift b) = lift (a + b))
    (hempty : lift 0 = empty) (hne : partials ≠ result)
    (hpartials : partials.length l.sharedBytes = 32) (hresult : result.length l.sharedBytes = 1) :
    (rowBlock l cols μ b).Reduces plus lift (arrayCells b ({partials} ∪ {result}))
      {.shared b result 0} (warpReduce l.blockDim (fun w => .one (.shared b partials w))
        (.one (.shared b result 0)) (Block.reduceStep op) empty) := by
  refine warp_reduces {partials} {result} lift hpos hwarps hmax
    (Block.exchanges_reduceStep hwarps op) hop (fun w x hx => ?_) (fun x hx => ?_) ?_ ?_ hempty
  · exact ⟨partials, rfl, hx⟩
  · exact ⟨result, rfl, hx⟩
  · rintro array rfl
    exact ⟨hne, hpartials⟩
  · rintro array rfl
    exact hresult

theorem blockReduceMax_reduces (hpos : 0 < l.blockDim) (hwarps : l.blockDim % 32 = 0)
    (hmax : l.blockDim ≤ 1024) :
    (rowBlock l cols μ b).Reduces plus (fun s : Running F F => (Running.above negFltMax s).1)
      (arrayCells b ({.maxPartials} ∪ {.maxResult})) {.shared b .maxResult 0}
      (blockReduceMax l.blockDim b) := by
  refine numbers_reduces hpos hwarps hmax (max_above negFltMax) ?_ nofun rfl rfl
  rw [Running.above_zero]

theorem blockReduceSum_reduces (hpos : 0 < l.blockDim) (hwarps : l.blockDim % 32 = 0)
    (hmax : l.blockDim ≤ 1024) :
    (rowBlock l cols μ b).Reduces (M := F) plus id (arrayCells b ({.sumPartials} ∪ {.sumResult}))
      {.shared b .sumResult 0} (blockReduceSum l.blockDim b) :=
  numbers_reduces hpos hwarps hmax (fun _ _ => rfl) rfl nofun rfl rfl

/-- Every thread gets the largest score of all pairs, and the sum relative to it. -/
theorem blockCombineOnline_reduces (hpos : 0 < l.blockDim) (hwarps : l.blockDim % 32 = 0)
    (hmax : l.blockDim ≤ 1024) :
    (rowBlock l cols μ b).Reduces plus (Running.above (negFltMax : F))
      (arrayCells b ({.warpM, .warpL} ∪ {.resultM, .resultL}))
      {.shared b .resultM 0, .shared b .resultL 0} (blockCombineOnline l.blockDim b) := by
  refine warp_reduces {.warpM, .warpL} {.resultM, .resultL} _ hpos hwarps hmax
    (Block.exchanges_reducePairStep hwarps onlineCombine) (onlineCombine_above negFltMax)
    (fun w x hx => ?_) (fun x hx => ?_) ?_ ?_ (Running.above_zero negFltMax)
  · rcases hx with rfl | rfl
    · exact ⟨.warpM, .inl rfl, rfl⟩
    · exact ⟨.warpL, .inr rfl, rfl⟩
  · rcases hx with rfl | rfl
    · exact ⟨.resultM, .inl rfl, rfl⟩
    · exact ⟨.resultL, .inr rfl, rfl⟩
  · rintro array (rfl | rfl)
    · exact ⟨by simp, rfl⟩
    · exact ⟨by simp, rfl⟩
  · rintro array (rfl | rfl)
    · rfl
    · rfl

end Reductions

-- ============================================================================
-- Launches
-- ============================================================================

/-- The block's last phase. -/
def lastWrites (cols sharedBytes : Nat) (ws : Nat → Nat → List (SoftmaxCell × F)) (b : Nat) :
    Footprint SoftmaxCell F :=
  .writing (softmaxReadable cols sharedBytes b) notOutput (ws b)

/-- The threads of a block write cells of its row of `out`, each cell once. -/
structure WritesRows (l : Launch SoftmaxCell F) (cols : Nat)
    (ws : Nat → Nat → List (SoftmaxCell × F)) : Prop where
  row : ∀ b < l.gridDim, ∀ i < l.blockDim, ∀ w ∈ ws b i, ∃ c < cols, w.1 = rowOut cols b c
  distinct : ∀ b < l.gridDim, Footprint.Distinct l.blockDim (ws b)
  nodup : ∀ b < l.gridDim, ∀ i < l.blockDim, ((ws b i).map Prod.fst).Nodup

theorem rowOut_inj {cols b b' c c' : Nat} (hc : c < cols) (hc' : c' < cols)
    (h : rowOut cols b c = rowOut cols b' c') : b = b' ∧ c = c' :=
  Kernels.index_inj hc hc' (SoftmaxCell.output.inj h)

section Launches

variable {l : Launch SoftmaxCell F} {cols : Nat} {μ : SoftmaxCell → F}
  {ws : Nat → Nat → List (SoftmaxCell × F)}

omit [ExpField F] in
theorem updates_lastWrites (hws : WritesRows l cols ws) {b : Nat} (hb : b < l.gridDim)
    {x : SoftmaxCell} (hx : (lastWrites cols l.sharedBytes ws b).Updates l.blockDim x) :
    ∃ c < cols, x = rowOut cols b c := by
  obtain ⟨i, hi, w, hw, rfl⟩ := Footprint.updates_writing.mp hx
  exact hws.row b hb i hi w hw

theorem ends_of_writes (hws : WritesRows l cols ws)
    (hblocks : ∀ μ₀, (∀ x, SoftmaxCell.IsGlobal x → μ₀ x = μ x) → ∀ b < l.gridDim,
      ∃ μ', (rowBlock l cols μ₀ b).At plus μ' (lastWrites cols l.sharedBytes ws b)
        fun _ => .ret ()) :
    l.Ends plus SoftmaxCell.IsGlobal μ (softmaxReadable cols l.sharedBytes)
      (softmaxOwn l.sharedBytes) (lastWrites cols l.sharedBytes ws) fun _ _ => True := by
  intro μ₀ hμ₀
  constructor
  · exact fun _ _ => rfl
  · exact fun _ _ => rfl
  · exact fun _ _ => rfl
  · intro b hb
    obtain ⟨μ', h'⟩ := hblocks μ₀ hμ₀ b hb
    refine ⟨μ', h', Footprint.raceFree_writing (fun i hi w hw hmem => ?_) (hws.distinct b hb),
      fun _ _ _ hx => hx.2, trivial⟩
    obtain ⟨c, -, heq⟩ := hws.row b hb i hi w hw
    exact hmem _ heq
  · rintro b hb b' _ hne x (⟨array, j, -, rfl⟩ | hx) i _ hread
    · rcases hread with ⟨c, -, heq⟩ | ⟨array', j', -, heq⟩
      · exact nomatch heq
      · exact hne (SoftmaxCell.shared.inj heq).1
    · obtain ⟨c, -, rfl⟩ := updates_lastWrites hws hb hx
      rcases hread with ⟨c', -, heq⟩ | ⟨array', j', -, heq⟩
      · exact nomatch heq
      · exact nomatch heq
  · rintro b _ b' hb' hne x ⟨array, j, -, rfl⟩
    refine ⟨fun ⟨_, _, _, heq⟩ => hne (SoftmaxCell.shared.inj heq).1, fun hx => ?_⟩
    obtain ⟨c, -, heq⟩ := updates_lastWrites hws hb' hx
    exact nomatch heq
  · intro b hb b' hb' hne w hw hx
    obtain ⟨i, hi, hw⟩ := Footprint.mem_allWrites.mp hw
    obtain ⟨c, hc, heq⟩ := hws.row b hb i hi w hw
    obtain ⟨c', hc', heq'⟩ := updates_lastWrites hws hb' hx
    exact hne (rowOut_inj hc hc' (heq.symm.trans heq')).1

/-- Where a thread of a launch for `rows` rows may go: to the row of its block, and to the
    arrays of the block. -/
def SoftmaxCell.Inside (rows cols : Nat) (l : Launch SoftmaxCell F) (b _tid : Nat) :
    SoftmaxCell → Prop
  | .input j | .output j => j < rows * cols ∧ j / cols = b
  | .shared b' array i => b' = b ∧ i < array.length l.sharedBytes
  | .overflow => False

omit [ExpField F] in
theorem inside_row {b c i : Nat} (hb : b < l.gridDim) (hc : c < cols) :
    SoftmaxCell.Inside l.gridDim cols l b i (rowIn cols b c) ∧
      SoftmaxCell.Inside l.gridDim cols l b i (rowOut cols b c) := by
  have hle := Nat.mul_le_mul_right cols (Nat.succ_le_of_lt hb)
  rw [Nat.succ_mul] at hle
  have hlt : b * cols + c < l.gridDim * cols := by omega
  have hrow : (b * cols + c) / cols = b := by
    rw [Nat.add_comm, Nat.add_mul_div_right _ _ (by omega), Nat.div_eq_of_lt hc, Nat.zero_add]
  exact ⟨⟨hlt, hrow⟩, hlt, hrow⟩

theorem safe_of_ends (hws : WritesRows l cols ws)
    (hends : l.Ends plus SoftmaxCell.IsGlobal μ (softmaxReadable cols l.sharedBytes)
      (softmaxOwn l.sharedBytes) (lastWrites cols l.sharedBytes ws) fun _ _ => True) :
    Safe plus SoftmaxCell.IsGlobal (SoftmaxCell.Inside l.gridDim cols l) l μ := by
  refine hends.safe ?_ ?_ ?_
  · rintro b hb i - x (⟨c, hc, rfl⟩ | ⟨array, j, hj, rfl⟩)
    · exact (inside_row hb hc).1
    · exact ⟨rfl, hj⟩
  · rintro b - i - x ⟨array, j, hj, rfl⟩
    exact ⟨rfl, hj⟩
  · intro b hb i _ x hx
    obtain ⟨c, hc, rfl⟩ := updates_lastWrites hws hb hx
    exact (inside_row hb hc).2

theorem written_of_ends (hws : WritesRows l cols ws)
    (hends : l.Ends plus SoftmaxCell.IsGlobal μ (softmaxReadable cols l.sharedBytes)
      (softmaxOwn l.sharedBytes) (lastWrites cols l.sharedBytes ws) fun _ _ => True)
    {tr : List (Label (Access SoftmaxCell F) F)}
    {c : Config (Access SoftmaxCell F) F (SoftmaxCell → F)}
    (hrun : Launched plus SoftmaxCell.IsGlobal l μ tr c) (hc : c.Finished) {b i : Nat}
    (hb : b < l.gridDim) (hi : i < l.blockDim) {w : SoftmaxCell × F} (hw : w ∈ ws b i) :
    c.state w.1 = w.2 ∧ (atCell w.1 (tr.filterMap Label.written)).length = 1 := by
  have hown : ∀ b < l.gridDim, ∀ x ∈ softmaxOwn l.sharedBytes b, ¬ SoftmaxCell.IsGlobal x := by
    rintro b - x ⟨array, j, -, rfl⟩
    exact id
  have hglobal : SoftmaxCell.IsGlobal w.1 := by
    obtain ⟨c, -, heq⟩ := hws.row b hb i hi w hw
    rw [heq]
    trivial
  obtain ⟨hstate, hcount⟩ := hends.written hown hrun hc hglobal hb
    (v := w.2) (Footprint.mem_allWrites.mpr ⟨i, hi, hw⟩)
  refine ⟨hstate, hcount.trans ?_⟩
  rw [lastWrites, Footprint.atCell_writing (hws.distinct b hb) (hws.nodup b hb) hi hw]
  rfl

omit [ExpField F] in
/-- What the last pass writes. -/
theorem rowWrites_writesRows (hpos : 0 < l.blockDim) (v : Nat → Nat → F) :
    WritesRows l cols fun b => rowWrites l.blockDim cols b (v b) := by
  have hmem : ∀ b, ∀ i < l.blockDim, ∀ w ∈ rowWrites l.blockDim cols b (v b) i,
      ∃ c < cols, c % l.blockDim = i ∧ w = (rowOut cols b c, v b c) := by
    intro b i hi w hw
    obtain ⟨c, hc, rfl⟩ := List.mem_map.mp hw
    obtain ⟨hlt, hmod⟩ := (mem_strided hpos hi).mp hc
    exact ⟨c, hlt, hmod, rfl⟩
  constructor
  · intro b _ i hi w hw
    obtain ⟨c, hc, -, rfl⟩ := hmem b i hi w hw
    exact ⟨c, hc, rfl⟩
  · intro b _ i hi j hj w hw w' hw' heq
    obtain ⟨c, hc, rfl, rfl⟩ := hmem b i hi w hw
    obtain ⟨c', hc', rfl, rfl⟩ := hmem b j hj w' hw'
    obtain ⟨-, rfl⟩ := rowOut_inj hc hc' heq
    exact ⟨rfl, rfl⟩
  · intro b _ i _
    rw [rowWrites, List.map_map]
    refine (nodup_strided hpos).map_on fun c hc c' hc' heq => ?_
    exact (rowOut_inj (Kernels.lt_of_mem_strided hpos hc)
      (Kernels.lt_of_mem_strided hpos hc') heq).2

end Launches

-- ============================================================================
-- The rows
-- ============================================================================

/-- `reference::softmax_rows` -/
def softmaxRows (x : Nat → F) (cols r c : Nat) : F :=
  let rowMax : WithBot F := (List.range cols).foldl (fun rowMax c =>
    if rowMax < x (r * cols + c) then ↑(x (r * cols + c)) else rowMax) ⊥
  let sum := (List.range cols).foldl (fun sum c => sum + expSub (x (r * cols + c)) rowMax) 0
  expSub (x (r * cols + c)) rowMax / sum

theorem foldl_larger (x : Nat → WithBot F) (n : Nat) :
    (List.range n).foldl (fun m c => if m < x c then x c else m) ⊥ = (Finset.range n).sup x := by
  induction n with
  | zero => rfl
  | succ n ih =>
      rw [List.range_succ, List.foldl_append, ih, Finset.range_add_one, Finset.sup_insert, sup_comm]
      exact (max_def_lt ..).symm

theorem foldl_sum (g : Nat → F) (n : Nat) :
    (List.range n).foldl (fun sum c => sum + g c) 0 = ∑ c ∈ Finset.range n, g c := by
  induction n with
  | zero => rfl
  | succ n ih =>
      rw [List.range_succ, List.foldl_append, ih, Finset.sum_range_succ]
      rfl

theorem softmaxRows_eq {x : Nat → F} {cols r : Nat} {m : F}
    (hm : IsGreatest ((fun c => x (r * cols + c)) '' Set.Iio cols) m) (c : Nat) :
    softmaxRows x cols r c = exp (x (r * cols + c) - m) /
      ∑ c ∈ Finset.range cols, exp (x (r * cols + c) - m) := by
  have hmax := (foldl_larger (fun c => (x (r * cols + c) : WithBot F)) cols).trans
    (Running.sup_coe hm)
  rw [softmaxRows, hmax]
  simp only [expSub_coe, foldl_sum]

theorem exists_largest {cols : Nat} (hcols : 1 ≤ cols) (x : Nat → F) :
    ∃ m, IsGreatest (x '' Set.Iio cols) m := by
  obtain ⟨c₀, hc₀, hle⟩ := Finset.exists_max_image (Finset.range cols) x
    (Finset.nonempty_range_iff.mpr (by omega))
  refine ⟨x c₀, ⟨c₀, Finset.mem_range.mp hc₀, rfl⟩, ?_⟩
  rintro y ⟨c, hc, rfl⟩
  exact hle c (Finset.mem_range.mpr hc)

-- ============================================================================
-- The rungs
-- ============================================================================

/-- A launcher with a block for each row.  The answer is `out_grid` and `out_block`. -/
def launchPerRow (name : String) (sharedBytes : Nat → Nat)
    (kernel : Nat → Nat → Nat → Nat → SoftmaxThread F Unit) (rows cols : Nat) (blockSize : Int) :
    Host LaunchError SoftmaxCell F (Nat × Nat) := do
  validateBlockSizePow21d blockSize name
  let block := blockSize.toNat
  launchUnless (rows = 0) ⟨rows % 2 ^ 32, block, sharedBytes block, kernel block cols⟩

/-- `softmax_naive_launch` -/
def softmaxNaiveLaunch (rows cols : Nat) (blockSize : Int) :
    Host LaunchError SoftmaxCell F (Nat × Nat) :=
  launchPerRow "softmax_naive_launch" (· * 4) softmaxNaiveKernel rows cols blockSize

/-- `softmax_warp_shuffle_launch` -/
def softmaxWarpShuffleLaunch (rows cols : Nat) (blockSize : Int) :
    Host LaunchError SoftmaxCell F (Nat × Nat) :=
  launchPerRow "softmax_warp_shuffle_launch"
    (fun _ => 0) softmaxWarpShuffleKernel rows cols blockSize

/-- `softmax_fused_online_launch` -/
def softmaxFusedOnlineLaunch (rows cols : Nat) (blockSize : Int) :
    Host LaunchError SoftmaxCell F (Nat × Nat) :=
  launchPerRow "softmax_fused_online_launch"
    (fun _ => 0) softmaxFusedOnlineKernel rows cols blockSize

inductive SoftmaxRung where
  | naive
  | warpShuffle
  | fusedOnline
  deriving DecidableEq

namespace SoftmaxRung

def launch : SoftmaxRung → Nat → Nat → Int → Host LaunchError SoftmaxCell F (Nat × Nat)
  | naive => softmaxNaiveLaunch
  | warpShuffle => softmaxWarpShuffleLaunch
  | fusedOnline => softmaxFusedOnlineLaunch

def sharedBytes : SoftmaxRung → Nat → Nat
  | naive, blockDim => blockDim * 4
  | _, _ => 0

def kernel : SoftmaxRung → Nat → Nat → Nat → Nat → SoftmaxThread F Unit
  | naive => softmaxNaiveKernel
  | warpShuffle => softmaxWarpShuffleKernel
  | fusedOnline => softmaxFusedOnlineKernel

/-- What the launcher hands to the device. -/
def asked (rung : SoftmaxRung) (rows cols k : Nat) : Launch SoftmaxCell F :=
  ⟨rows, 2 ^ k, rung.sharedBytes (2 ^ k), rung.kernel (2 ^ k) cols⟩

end SoftmaxRung

section Rungs

variable {k rows cols : Nat}

omit [ExpField F] in
theorem launchPerRow_ok (hk : 5 ≤ k) (hk' : k ≤ 10) (hrows : rows < 2 ^ 31) (name : String)
    (sharedBytes : Nat → Nat) (hbytes : sharedBytes (2 ^ k) ≤ 49152)
    (kernel : Nat → Nat → Nat → Nat → SoftmaxThread F Unit) :
    launchPerRow name sharedBytes kernel rows cols (2 ^ k : Nat) [] = (.ok (rows, 2 ^ k),
      if rows = 0 then [] else
        [.launch ⟨rows, 2 ^ k, sharedBytes (2 ^ k), kernel (2 ^ k) cols⟩]) := by
  have hmod : rows % 2 ^ 32 = rows := Nat.mod_eq_of_lt (by omega)
  have hmax := two_pow_le hk'
  unfold launchPerRow
  rw [bind_ok (validateBlockSizePow21d_ok hk hk' name [])]
  simp only [Int.toNat_natCast, hmod]
  exact launchUnless_ok (l := ⟨rows, 2 ^ k, sharedBytes (2 ^ k), kernel (2 ^ k) cols⟩)
    (fun hzero => ⟨⟨Nat.pos_of_ne_zero hzero, hrows⟩, ⟨Nat.two_pow_pos k, hmax⟩, hbytes⟩) []

theorem SoftmaxRung.launch_ok (rung : SoftmaxRung) (hk : 5 ≤ k) (hk' : k ≤ 10)
    (hrows : rows < 2 ^ 31) : rung.launch rows cols (2 ^ k : Nat) [] = (.ok (rows, 2 ^ k),
      if rows = 0 then [] else [.launch (rung.asked (F := F) rows cols k)]) := by
  have hmax := two_pow_le hk'
  have hfour : 2 ^ k * 4 ≤ 49152 := by omega
  cases rung with
  | naive => exact launchPerRow_ok hk hk' hrows _ (· * 4) hfour _
  | warpShuffle => exact launchPerRow_ok hk hk' hrows _ (fun _ => 0) (Nat.zero_le _) _
  | fusedOnline => exact launchPerRow_ok hk hk' hrows _ (fun _ => 0) (Nat.zero_le _) _

/-- The block of each rung comes to its last pass with the largest score and the sum. -/
theorem SoftmaxRung.prepares (rung : SoftmaxRung) (hk : 5 ≤ k) (hk' : k ≤ 10)
    (hcols : cols ≤ 2 ^ 31 - 1025) {μ : SoftmaxCell → F} {b : Nat} {m : F}
    (hlow : ∀ c < cols, negFltMax ≤ scores cols μ b c)
    (hm : IsGreatest (scores cols μ b '' Set.Iio cols) m) :
    Prepares (rowBlock (rung.asked rows cols k) cols μ b) cols b m := by
  have hpos := Nat.two_pow_pos k
  have hmax := two_pow_le hk'
  have hfits : cols + 2 ^ k ≤ 2 ^ 31 := by omega
  have hwarps : 2 ^ k % 32 = 0 := Nat.mod_eq_zero_of_dvd (pow_dvd_pow 2 hk)
  have hread : ∀ i < 2 ^ k, ∀ x ∈ rowCells cols b,
      x ∈ (rowBlock (rung.asked rows cols k) cols μ b).readable i := fun _ _ _ hx => .inl hx
  cases rung with
  | naive =>
      exact threePasses_prepares hpos hfits hread hlow hm
        (tree_reduces rfl rfl (max_above negFltMax)) (tree_reduces rfl rfl fun _ _ => rfl)
        (fun x hx => absurd hx (Set.notMem_empty x)) (Set.empty_subset _) fun _ _ => rfl
  | warpShuffle =>
      refine threePasses_prepares hpos hfits hread hlow hm
        (blockReduceMax_reduces hpos hwarps hmax) (blockReduceSum_reduces hpos hwarps hmax) ?_ ?_
        fun _ _ => rfl
      · rintro x rfl ⟨array, harray, i, heq⟩
        obtain ⟨-, rfl, -⟩ := SoftmaxCell.shared.inj heq
        simp at harray
      · rintro x rfl j heq
        exact nomatch heq
  | fusedOnline =>
      refine fused_prepares hpos hfits hread hlow hm
        (blockCombineOnline_reduces hpos hwarps hmax) ?_
        fun _ _ => rfl
      rintro x (rfl | rfl) j heq
      · exact nomatch heq
      · exact nomatch heq

end Rungs

/-- Under every schedule the threads of a launch stay where they may be, and every element of
    `out` is written once, with the softmax of its row. -/
structure ComputesRows (rows cols : Nat) (l : Launch SoftmaxCell F)
    (μ : SoftmaxCell → F) : Prop where
  safe : Safe plus SoftmaxCell.IsGlobal (SoftmaxCell.Inside rows cols l) l μ
  output : ∀ tr c, Launched plus SoftmaxCell.IsGlobal l μ tr c → c.Finished →
    ∀ r < rows, ∀ j < cols,
      c.state (rowOut cols r j) = softmaxRows (fun i => μ (.input i)) cols r j ∧
        (atCell (rowOut cols r j) (tr.filterMap Label.written)).length = 1

theorem SoftmaxRung.computesRows (rung : SoftmaxRung) {k rows cols : Nat} (hk : 5 ≤ k)
    (hk' : k ≤ 10)
    (hcols : 1 ≤ cols) (hcols' : cols ≤ 2 ^ 31 - 1025) {μ : SoftmaxCell → F}
    (hlow : ∀ j < rows * cols, negFltMax ≤ μ (.input j)) :
    ComputesRows rows cols (rung.asked rows cols k) μ := by
  have hpos := Nat.two_pow_pos k
  have hmax := two_pow_le hk'
  let l : Launch SoftmaxCell F := rung.asked rows cols k
  let v (b c : Nat) : F := softmaxRows (fun i => μ (.input i)) cols b c
  let ws (b : Nat) : Nat → List (SoftmaxCell × F) := rowWrites (2 ^ k) cols b (v b)
  have hws : WritesRows l cols ws := rowWrites_writesRows hpos v
  have hends := ends_of_writes (μ := μ) hws fun μ₀ hμ₀ b hb => by
    have hscores : scores cols μ₀ b = scores cols μ b :=
      funext fun c => hμ₀ (rowIn cols b c) trivial
    obtain ⟨m, hm⟩ := exists_largest hcols (scores cols μ b)
    have hrow : ∀ c < cols, negFltMax ≤ scores cols μ b c := by
      intro c hc
      have hle := Nat.mul_le_mul_right cols (Nat.succ_le_of_lt hb)
      rw [Nat.succ_mul] at hle
      exact hlow _ (Nat.lt_of_lt_of_le (Nat.add_lt_add_left hc _) hle)
    have hprepares : Prepares (rowBlock l cols μ₀ b) cols b m :=
      rung.prepares hk hk' hcols' (hscores ▸ hrow) (hscores ▸ hm)
    obtain ⟨μ', h', hkept⟩ := hprepares
    have hwrites : ∀ i, rowWrites (2 ^ k) cols b (fun c => exp (scores cols μ' b c - m) /
        ∑ c ∈ Finset.range cols, exp (scores cols μ₀ b c - m)) i = ws b i := by
      refine fun i => List.map_congr_left fun c hc => ?_
      have hscore : scores cols μ' b c = scores cols μ b c :=
        (hkept _ ⟨c, Kernels.lt_of_mem_strided hpos hc, rfl⟩).trans (congrFun hscores c)
      dsimp only [v]
      rw [hscore, hscores, softmaxRows_eq hm]
      rfl
    refine ⟨μ', h'.written (fun i hi => ?_) fun i _ x hx => ⟨?_, .inl hx⟩⟩
    · rw [← hwrites i]
      exact normalize_performs hpos (by omega) m _
    · obtain ⟨c, -, rfl⟩ := hx
      exact fun j => nofun
  refine ⟨safe_of_ends hws hends, fun tr c hrun hc r hr j hj => ?_⟩
  have hlane : j ∈ strided (j % 2 ^ k) cols (2 ^ k) :=
    (mem_strided hpos (Nat.mod_lt j hpos)).mpr ⟨hj, rfl⟩
  exact written_of_ends hws hends hrun hc hr (Nat.mod_lt j hpos) (List.mem_map.mpr ⟨j, hlane, rfl⟩)

/-- Threads that bring a pair each to `block_combine_online`, and keep what they get. -/
def combinePairs (gridDim blockDim : Nat) (p : Nat → Nat → F × F) : Launch SoftmaxCell F where
  gridDim := gridDim
  blockDim := blockDim
  sharedBytes := 0
  kernel b i := do
    let q ← blockCombineOnline blockDim b i (p b i)
    store (rowOut (2 * blockDim) b (2 * i)) q.1
    store (rowOut (2 * blockDim) b (2 * i + 1)) q.2

/-- Under every schedule each thread gets the largest first half of the pairs of its block, and
    the sum of the second ones relative to it. -/
structure CombinesPairs (gridDim blockDim : Nat) (p : Nat → Nat → F × F) (μ : SoftmaxCell → F) :
    Prop where
  safe : Safe plus SoftmaxCell.IsGlobal (SoftmaxCell.Inside gridDim (2 * blockDim)
    (combinePairs gridDim blockDim p)) (combinePairs gridDim blockDim p) μ
  output : ∀ tr c, Launched plus SoftmaxCell.IsGlobal (combinePairs gridDim blockDim p) μ tr c →
    c.Finished → ∀ b < gridDim, ∀ m, IsGreatest ((fun i => (p b i).1) '' Set.Iio blockDim) m →
      ∀ i < blockDim, c.state (rowOut (2 * blockDim) b (2 * i)) = m ∧
        c.state (rowOut (2 * blockDim) b (2 * i + 1)) =
          ∑ i ∈ Finset.range blockDim, (p b i).2 * exp ((p b i).1 - m)

theorem combinesPairs {k : Nat} (hk : 5 ≤ k) (hk' : k ≤ 10) {gridDim : Nat} {p : Nat → Nat → F × F}
    (hlow : ∀ b < gridDim, ∀ i < 2 ^ k, negFltMax ≤ (p b i).1) (μ : SoftmaxCell → F) :
    CombinesPairs gridDim (2 ^ k) p μ := by
  have hpos := Nat.two_pow_pos k
  have hmax := two_pow_le hk'
  have hwarps : 2 ^ k % 32 = 0 := Nat.mod_eq_zero_of_dvd (pow_dvd_pow 2 hk)
  let l : Launch SoftmaxCell F := combinePairs gridDim (2 ^ k) p
  let total (b : Nat) : Running F F :=
    ∑ i ∈ Finset.range (2 ^ k), Running.single ((p b i).1 : F) (p b i).2
  let q (b : Nat) : F × F := Running.above negFltMax (total b)
  let ws (b i : Nat) : List (SoftmaxCell × F) :=
    [(rowOut (2 * 2 ^ k) b (2 * i), (q b).1), (rowOut (2 * 2 ^ k) b (2 * i + 1), (q b).2)]
  have hcells : ∀ b, ∀ i < 2 ^ k, ∀ w ∈ ws b i, ∃ c < 2 * 2 ^ k, c / 2 = i ∧
      w = (rowOut (2 * 2 ^ k) b c, if c % 2 = 0 then (q b).1 else (q b).2) := by
    intro b i hi w hw
    rcases List.mem_pair.mp hw with rfl | rfl
    · refine ⟨2 * i, by omega, by omega, ?_⟩
      rw [if_pos (Nat.mul_mod_right 2 i)]
    · refine ⟨2 * i + 1, by omega, by omega, ?_⟩
      rw [if_neg (by omega)]
  have hws : WritesRows l (2 * 2 ^ k) ws := by
    constructor
    · intro b _ i hi w hw
      obtain ⟨c, hc, -, rfl⟩ := hcells b i hi w hw
      exact ⟨c, hc, rfl⟩
    · intro b _ i hi j hj w hw w' hw' heq
      obtain ⟨c, hc, rfl, rfl⟩ := hcells b i hi w hw
      obtain ⟨c', hc', rfl, rfl⟩ := hcells b j hj w' hw'
      obtain ⟨-, rfl⟩ := rowOut_inj hc hc' heq
      exact ⟨rfl, rfl⟩
    · intro b _ i hi
      have hi : i < 2 ^ k := hi
      refine List.nodup_cons.mpr ⟨fun hmem => ?_, List.nodup_singleton _⟩
      have heq := (rowOut_inj (by omega) (by omega) (List.mem_singleton.mp hmem)).2
      omega
  have hends := ends_of_writes (μ := μ) hws fun μ₀ _ b hb => by
    have hstart : (rowBlock l (2 * 2 ^ k) μ₀ b).Reading plus ∅ μ₀ (l.kernel b) := .of_empty .start
    have hpairs : ∀ i < 2 ^ k, l.kernel b i = blockCombineOnline (2 ^ k) b i
        (Running.above negFltMax (.single ((p b i).1 : F) (p b i).2)) >>= fun q =>
          store (rowOut (2 * 2 ^ k) b (2 * i)) q.1 >>= fun _ =>
            store (rowOut (2 * 2 ^ k) b (2 * i + 1)) q.2 := by
      intro i hi
      rw [Running.above_single (hlow b hb i hi)]
      rfl
    obtain ⟨μ', h', -⟩ := blockCombineOnline_reduces hpos hwarps hmax ∅ μ₀
      (fun i => .single ((p b i).1 : F) (p b i).2) _ (fun x hx => absurd hx (Set.notMem_empty x))
      (hstart.congr hpairs)
    have hresult :
        ({.shared b .resultM 0, .shared b .resultL 0} : Set SoftmaxCell) ⊆ notOutput := by
      rintro x (rfl | rfl) j heq
      · exact nomatch heq
      · exact nomatch heq
    exact ⟨μ', (h'.mono hresult).written (fun _ _ => .write (.write .here))
      fun _ _ x hx => absurd hx (Set.notMem_empty x)⟩
  refine ⟨safe_of_ends hws hends, fun tr c hrun hc b hb m hm i hi => ?_⟩
  have hq : q b = (m, ∑ i ∈ Finset.range (2 ^ k), (p b i).2 * exp ((p b i).1 - m)) :=
    Running.above_sum (hlow b hb) hm fun i => (p b i).2
  have hfirst := written_of_ends hws hends hrun hc hb hi (List.mem_cons_self ..)
  have hsecond := written_of_ends hws hends hrun hc hb hi
    (List.mem_cons_of_mem _ (List.mem_singleton_self _))
  dsimp only at hfirst hsecond
  rw [hq] at hfirst hsecond
  exact ⟨hfirst.1, hsecond.1⟩

/-- The softmax rungs compute the row softmax: for a block size that is a power of two from 32 to
    1024, the launcher asks for a block for each row, and where no score is below `-FLT_MAX`,
    every schedule writes every element of `out` once, with its exponential relative to the
    largest score over the sum of those of its row.  In `block_combine_online` every thread gets
    what the pairs of all threads come to. -/
theorem softmax_rungs_compute_rows (rung : SoftmaxRung) {k rows cols : Nat} (hk : 5 ≤ k)
    (hk' : k ≤ 10) (hrows : rows < 2 ^ 31) (hcols : 1 ≤ cols) (hcols' : cols ≤ 2 ^ 31 - 1025) :
    rung.launch rows cols (2 ^ k : Nat) [] = (.ok (rows, 2 ^ k),
      if rows = 0 then [] else [.launch (rung.asked (F := F) rows cols k)]) ∧
    (∀ μ : SoftmaxCell → F, (∀ j < rows * cols, negFltMax ≤ μ (.input j)) →
      ComputesRows rows cols (rung.asked rows cols k) μ) ∧
    (∀ (x : Nat → F) (r : Nat), ∃ m, IsGreatest ((fun c => x (r * cols + c)) '' Set.Iio cols) m ∧
      ∀ c, softmaxRows x cols r c = exp (x (r * cols + c) - m) /
        ∑ c ∈ Finset.range cols, exp (x (r * cols + c) - m)) ∧
    ∀ (gridDim : Nat) (p : Nat → Nat → F × F),
      (∀ b < gridDim, ∀ i < 2 ^ k, negFltMax ≤ (p b i).1) →
        ∀ μ, CombinesPairs gridDim (2 ^ k) p μ := by
  refine ⟨rung.launch_ok hk hk' hrows, fun μ hlow => ?_, fun x r => ?_, fun _ _ hlow μ => ?_⟩
  · exact rung.computesRows hk hk' hcols hcols' hlow
  · obtain ⟨m, hm⟩ := exists_largest hcols fun c => x (r * cols + c)
    exact ⟨m, hm, softmaxRows_eq hm⟩
  · exact combinesPairs hk hk' hlow μ

theorem softmax_rungs_compute_rows_two :
    softmaxFusedOnlineLaunch 2 3 32 [] = (.ok (2, 32),
      [.launch (SoftmaxRung.fusedOnline.asked (F := ℝ) 2 3 5)]) ∧
    ∀ μ : SoftmaxCell → ℝ, (∀ j < 6, 0 ≤ μ (.input j)) →
      ComputesRows 2 3 (SoftmaxRung.fusedOnline.asked 2 3 5) μ := by
  obtain ⟨hlaunch, hrows, -⟩ := @softmax_rungs_compute_rows ℝ _ .fusedOnline 5 2 3 (by decide)
    (by decide) (by decide) (by decide) (by decide)
  refine ⟨hlaunch, fun μ hμ => hrows μ fun j hj => le_trans ?_ (hμ j hj)⟩
  unfold negFltMax
  norm_num

end PassionProjects.Kernelforge
