/-
  PassionProjects.Kernelforge.Reduction.Reduce

  What the reduction kernels share: each thread puts the sum of some elements into shared
  memory, the block puts these sums together, and its first thread adds the result to `*out`.
-/

import PassionProjects.Kernelforge.LaunchValidate
import PassionProjects.Lib.Warps.Trees

namespace PassionProjects.Kernelforge

open Warps Warps.Program

/-- The cells of `in`, of `*out`, and of the array `sdata` of block `b`. -/
inductive SumCell where
  | input (j : Nat)
  | out
  | shared (b i : Nat)
  deriving DecidableEq

def SumCell.IsGlobal : SumCell → Prop
  | .shared _ _ => False
  | _ => True

variable {F : Type} [AddCommMonoid F]

abbrev SumThread (F R : Type) := Warps.Program (Access SumCell F) F R

/-- `atomicAdd` on exact numbers. -/
abbrev plus (a b : F) : F := a + b

/-- A thread of a block whose threads load `fill` each and go on with `tail`. -/
def fillThen (fill : SumThread F F) (tail : SumThread F Unit) (blockIdx tid : Nat) :
    SumThread F Unit := do
  let v ← fill
  store (.shared blockIdx tid) v
  Program.barrier
  tail

/-- A tree over all of `sdata`; the first thread adds what it comes to. -/
def treeTail (strides : List Nat) (active : Nat → Nat → Bool) (blockIdx tid : Nat) :
    SumThread F Unit := do
  treeLoop strides active (.shared blockIdx) (· + ·) tid
  if tid = 0 then do
    let s ← load (.shared blockIdx 0)
    atomicAdd .out s
  else
    pure ()

/-- A tree down to 32 cells, which the first warp puts together by shuffles. -/
def warpTail (blockDim blockIdx tid : Nat) : SumThread F Unit := do
  treeLoop (halvingsTo 32 blockDim) lowHalf (.shared blockIdx) (· + ·) tid
  if tid < 32 then do
    let val ← load (.shared blockIdx tid)
    let val ← warpLoop (Block.reduceStep (· + ·) tid) val
    if tid = 0 then atomicAdd .out val else pure ()
  else
    pure ()

-- ============================================================================
-- Blocks
-- ============================================================================

/-- What thread `t` of the grid may read. -/
def sumReadable (blockDim : Nat) (elements : Nat → List Nat) (b i : Nat) : Set SumCell :=
  {x | (∃ j ∈ elements (b * blockDim + i), x = .input j) ∨ ∃ j < blockDim, x = .shared b j}

def sumOwn (blockDim b : Nat) : Set SumCell := {x | ∃ j < blockDim, x = .shared b j}

/-- After the last barrier the first threads read their cells, and the first one adds the sum. -/
def lastPhase (reach : Nat) (s : Nat → F) (b : Nat) : Footprint SumCell F where
  reads i := {x | i < reach ∧ x = .shared b i}
  writes _ := []
  adds i := if i = 0 then [(.out, s b)] else []

/-- What follows the loads adds the sum of what they left in `sdata`. -/
def AddsSum (blockDim reach : Nat) (tail : Nat → Nat → SumThread F Unit) : Prop :=
  ∀ (B : Block SumCell F) (μ : SumCell → F) (v : Nat → F), B.size = blockDim →
    (∀ i < blockDim, ∀ j < blockDim, .shared B.number j ∈ B.readable i) →
      (∀ j < blockDim, .shared B.number j ∈ B.own) →
      (∀ j < blockDim, μ (.shared B.number j) = v j) →
        B.At plus μ .empty (tail B.number) → ∃ μ', B.At plus μ'
          (lastPhase reach (fun _ => ∑ i ∈ Finset.range blockDim, v i) B.number) fun _ => .ret ()

theorem shared_inj {b i j : Nat} (h : SumCell.shared b i = .shared b j) : i = j := by
  injection h

/-- The first thread adds to `*out`. -/
def sumAdds (s : F) (i : Nat) : List (SumCell × F) := if i = 0 then [(.out, s)] else []

theorem treeTail_addsSum {blockDim : Nat} (hpos : 0 < blockDim) {strides : List Nat}
    {active : Nat → Nat → Bool} (hfits : Fits blockDim active strides)
    (hsum : ∀ v : Nat → F, strides.foldl (stage (· + ·) active) v 0 =
      ∑ i ∈ Finset.range blockDim, v i) :
    AddsSum (F := F) blockDim 1 (treeTail strides active) := by
  rintro B μ v rfl hread hown hv hat
  obtain ⟨μ', h', hvals, -⟩ := hat.treeLoop hpos (fun _ _ => rfl) (fun _ _ _ _ => shared_inj)
    hread hown hfits hv
  have hadd : ∀ i < B.size, Performs {x | i < 1 ∧ x = .shared B.number i} μ'
      (if i = 0 then load (.shared B.number 0) >>= fun s => atomicAdd .out s else pure ()) []
      (sumAdds (∑ i ∈ Finset.range B.size, v i) i) (.ret ()) := by
    intro i hi
    unfold sumAdds
    split
    · rename_i hzero
      subst hzero
      rw [← hsum v, ← hvals 0 hi]
      exact .read ⟨Nat.one_pos, rfl⟩ (.add .here)
    · exact .here
  have hlast := h'.perform hadd
  rw [Footprint.empty_extend] at hlast
  exact ⟨μ', hlast⟩

theorem warpTail_addsSum {k : Nat} (hk : 5 ≤ k) :
    AddsSum (F := F) (2 ^ k) 32 (warpTail (2 ^ k)) := by
  rintro B μ v hsize hread hown hv hat
  have hwarp := le_two_pow hk
  have hdvd : B.size % 32 = 0 := by
    rw [hsize]
    exact Nat.mod_eq_zero_of_dvd (pow_dvd_pow 2 hk)
  obtain ⟨μ', h', hvals, -⟩ := hat.treeLoop (by omega) (fun _ _ => rfl)
    (fun _ _ _ _ => shared_inj) (hsize ▸ hread) (hsize ▸ hown) (hsize ▸ fits_lowHalf hk le_rfl)
    (hsize ▸ hv)
  have hthirtytwo : ∀ j < 32, μ' (.shared B.number j) =
      (halvingsTo (2 ^ 5) (2 ^ k)).foldl (stage (· + ·) lowHalf) v j := fun j hj =>
    hvals j (by omega)
  -- what the first warp does with the values `val`
  let add (i : Nat) (val : F) : SumThread F Unit := if i = 0 then atomicAdd .out val else pure ()
  let shuffle (i : Nat) (val : F) : SumThread F Unit :=
    warpLoop (Block.reduceStep (· + ·) i) val >>= add i
  have hload : ∀ i < B.size, Performs {x | i < 32 ∧ x = .shared B.number i} μ'
      (if i < 32 then load (.shared B.number i) >>= shuffle i else pure ()) [] []
      (if i < 32 then shuffle i (μ' (.shared B.number i)) else pure ()) := by
    intro i hi
    split
    · rename_i hlane
      exact .read ⟨hlane, rfl⟩ .here
    · exact .here
  have hloaded := h'.perform hload
  have hshuffled := hloaded.warpLoop (Block.exchanges_reduceStep hdvd (· + ·)) (· = 0) (k := add)
    (s := fun i => μ' (.shared B.number i)) fun i _ hzero => if_pos (by omega)
  have htotal : warpFold (· + ·) (fun i => μ' (.shared B.number i)) 0 =
      ∑ i ∈ Finset.range (2 ^ k), v i := by
    refine (warpFold_eq id (fun _ _ => rfl) (fun i => μ' (.shared B.number i)) 0).trans ?_
    rw [← sum_foldl_lowHalf v hk]
    refine Finset.sum_congr rfl fun j hj => ?_
    rw [Nat.mul_zero, Nat.zero_add]
    exact hthirtytwo j (Finset.mem_range.mp hj)
  have hadd : ∀ i < B.size, Performs ∅ μ'
      (if i / 32 = 0 then add i (warpFold (· + ·) (fun i => μ' (.shared B.number i)) i)
        else if i < 32 then shuffle i (μ' (.shared B.number i)) else pure ()) []
      (sumAdds (∑ i ∈ Finset.range (2 ^ k), v i) i) (.ret ()) := by
    intro i _
    by_cases hzero : i = 0
    · subst hzero
      rw [← htotal]
      exact .add .here
    · by_cases hlane : i < 32
      · have hidle : ∀ val, add i val = pure () := fun _ => if_neg hzero
        rw [if_pos (by omega), hidle, sumAdds, if_neg hzero]
        exact .here
      · rw [if_neg (by omega), if_neg hlane, sumAdds, if_neg hzero]
        exact .here
  have hlast := hshuffled.perform hadd
  refine ⟨μ', ?_⟩
  have hphase : (Footprint.empty.extend (fun i => {x | i < 32 ∧ x = SumCell.shared B.number i})
      (fun _ => []) fun _ => []).extend (fun _ => ∅) (fun _ => [])
        (sumAdds (∑ i ∈ Finset.range (2 ^ k), v i)) =
      lastPhase 32 (fun _ => ∑ i ∈ Finset.range (2 ^ k), v i) B.number := by
    simp [Footprint.extend, Footprint.empty, lastPhase, sumAdds]
  rwa [hphase] at hlast

-- ============================================================================
-- Launches
-- ============================================================================

/-- What thread `i` of block `b` adds up. -/
def share (blockDim : Nat) (elements : Nat → List Nat) (μ : SumCell → F) (b i : Nat) : F :=
  ((elements (b * blockDim + i)).map fun j => μ (.input j)).sum

/-- The threads add up their elements. -/
def Loads (blockDim : Nat) (elements : Nat → List Nat) (fill : Nat → Nat → SumThread F F) : Prop :=
  ∀ b i (μ : SumCell → F), Performs {x | ∃ j ∈ elements (b * blockDim + i), x = .input j} μ
    (fill b i) [] [] (.ret (share blockDim elements μ b i))

variable {l : Launch SumCell F} {elements : Nat → List Nat} {fill : Nat → Nat → SumThread F F}
  {tail : Nat → Nat → SumThread F Unit} {reach : Nat}

theorem share_congr {μ ν : SumCell → F} (h : ∀ x, SumCell.IsGlobal x → ν x = μ x)
    (blockDim : Nat) (elements : Nat → List Nat) :
    share blockDim elements ν = share blockDim elements μ := by
  funext b i
  exact congrArg List.sum (List.map_congr_left fun j _ => h (.input j) trivial)

omit [AddCommMonoid F] in
theorem eq_of_mem_lastPhase {s : Nat → F} {b i : Nat} {a : SumCell × F}
    (h : a ∈ (lastPhase reach s b).adds i) : i = 0 ∧ a = (.out, s b) := by
  simp only [lastPhase] at h
  split at h
  · rename_i hi
    exact ⟨hi, List.mem_singleton.mp h⟩
  · exact absurd h List.not_mem_nil

omit [AddCommMonoid F] in
theorem lastPhase_raceFree (n : Nat) (s : Nat → F) (b : Nat) :
    (lastPhase reach s b).RaceFree n := by
  constructor
  · exact fun i _ j _ _ w hw => absurd hw List.not_mem_nil
  · intro i _ j _ a ha
    obtain ⟨-, rfl⟩ := eq_of_mem_lastPhase ha
    exact ⟨fun hread => absurd hread.2 nofun, fun w hw => absurd hw List.not_mem_nil⟩
  · exact fun i _ w hw => absurd hw List.not_mem_nil

omit [AddCommMonoid F] in
/-- The first thread adds the sum. -/
theorem allAdds_lastPhase {n : Nat} (hn : 0 < n) (s : Nat → F) (b : Nat) :
    (lastPhase reach s b).allAdds n = [(.out, s b)] := by
  obtain ⟨m, rfl⟩ := Nat.exists_eq_succ_of_ne_zero hn.ne'
  have hnil : (List.range' 1 m).flatMap (lastPhase reach s b).adds = [] :=
    List.flatMap_eq_nil_iff.mpr fun i hi => if_neg (by have := List.mem_range'_1.mp hi; omega)
  rw [Footprint.allAdds, List.range_eq_range', List.range'_succ, List.flatMap_cons, hnil]
  rfl

omit [AddCommMonoid F] in
theorem updates_lastPhase {n : Nat} {s : Nat → F} {b : Nat} {x : SumCell}
    (h : (lastPhase reach s b).Updates n x) : x = .out := by
  rcases h with ⟨w, hw, rfl⟩ | ⟨a, ha, rfl⟩
  · obtain ⟨i, -, hw⟩ := Footprint.mem_allWrites.mp hw
    exact absurd hw List.not_mem_nil
  · obtain ⟨i, -, ha⟩ := Footprint.mem_allAdds.mp ha
    rw [(eq_of_mem_lastPhase ha).2]

/-- Threads that load their elements, and put the sums together. -/
theorem sumKernel_ends (hpos : 0 < l.blockDim)
    (hkernel : ∀ b i, l.kernel b i = fillThen (fill b i) (tail b i) b i)
    (hfill : Loads l.blockDim elements fill) (htail : AddsSum l.blockDim reach tail)
    (hreach : reach ≤ l.blockDim) (μ : SumCell → F) :
    l.Ends plus SumCell.IsGlobal μ (sumReadable l.blockDim elements) (sumOwn l.blockDim)
      (lastPhase reach fun b => ∑ i ∈ Finset.range l.blockDim, share l.blockDim elements μ b i)
      fun _ _ => True := by
  intro μ₀ hμ₀
  rw [← share_congr hμ₀]
  constructor
  · exact fun _ _ => rfl
  · exact fun _ _ => rfl
  · exact fun _ _ => rfl
  · intro b _
    let B := l.block (sumReadable l.blockDim elements) (sumOwn l.blockDim) μ₀ b
    let C (i : Nat) : Set SumCell := {x | ∃ j ∈ elements (b * l.blockDim + i), x = .input j}
    let ws (i : Nat) : List (SumCell × F) := [(.shared b i, share l.blockDim elements μ₀ b i)]
    have hqs : ∀ i < B.size, Performs (C i) B.memory (B.program i) (ws i) []
        (Program.barrier >>= fun _ => tail b i) := by
      intro i _
      show Performs (C i) μ₀ (l.kernel b i) (ws i) [] _
      rw [hkernel]
      exact (hfill b i μ₀).bind_read (.write .here)
    have hrace : Footprint.RaceFree B.size ⟨C, ws, fun _ => []⟩ := by
      constructor
      · intro i _ j _ hij w hw
        obtain rfl := List.mem_singleton.mp hw
        refine ⟨fun ⟨_, _, heq⟩ => (nomatch heq), fun w' hw' heq => ?_⟩
        obtain rfl := List.mem_singleton.mp hw'
        exact hij (shared_inj heq)
      · exact fun i _ j _ a ha => absurd ha List.not_mem_nil
      · intro i _ w hw w' hw' _
        rw [List.mem_singleton.mp hw, List.mem_singleton.mp hw']
    have hstart : B.At plus B.memory .empty B.program := .start
    have hloaded := hstart.phase hpos hqs hrace
      (fun i _ x ⟨j, hj, hx⟩ => .inl ⟨j, hj, hx⟩)
      (fun i hi w hw => List.mem_singleton.mp hw ▸ ⟨i, hi, rfl⟩)
      fun i _ a ha => absurd ha List.not_mem_nil
    obtain ⟨μ', h'⟩ := htail B _ (share l.blockDim elements μ₀ b) rfl
      (fun i _ j hj => .inr ⟨j, hj, rfl⟩) (fun j hj => ⟨j, hj, rfl⟩)
      (fun j hj => hrace.after_written (w := (.shared b j, share l.blockDim elements μ₀ b j))
        (Footprint.mem_allWrites.mpr ⟨j, hj, List.mem_singleton_self _⟩)) hloaded
    exact ⟨μ', h', lastPhase_raceFree _ _ _,
      fun i hi x hx => .inr ⟨i, Nat.lt_of_lt_of_le hx.1 hreach, hx.2⟩, trivial⟩
  · rintro b _ b' _ hne x hx i _ hread
    rcases hx with ⟨j, -, rfl⟩ | hx
    · rcases hread with ⟨j', -, heq⟩ | ⟨j', -, heq⟩
      · exact nomatch heq
      · exact hne (SumCell.shared.inj heq).1
    · obtain rfl := updates_lastPhase hx
      rcases hread with ⟨j', -, heq⟩ | ⟨j', -, heq⟩
      · exact nomatch heq
      · exact nomatch heq
  · rintro b _ b' _ hne x ⟨j, -, rfl⟩
    refine ⟨fun ⟨j', _, heq⟩ => hne (SumCell.shared.inj heq).1, fun hx => ?_⟩
    exact nomatch updates_lastPhase hx
  · intro b _ b' _ _ w hw
    obtain ⟨i, -, hw⟩ := Footprint.mem_allWrites.mp hw
    exact absurd hw List.not_mem_nil

/-- Where a thread of a launch may go: to its elements, to `*out`, and to the cells of its
    block. -/
def SumCell.Inside (n : Nat) (elements : Nat → List Nat) (l : Launch SumCell F) (b i : Nat) :
    SumCell → Prop
  | .input j => j ∈ elements (b * l.blockDim + i) ∧ j < n
  | .out => True
  | .shared b' j => b' = b ∧ 4 * j + 4 ≤ l.sharedBytes

/-- The threads of a launch take each of the first `n` elements once, and under every schedule
    `*out` gets their sum. -/
structure SumsOnce (n : Nat) (elements : Nat → List Nat) (l : Launch SumCell F) : Prop where
  partition : ((List.range (l.gridDim * l.blockDim)).flatMap elements).Perm (List.range n)
  safe : ∀ μ, Safe plus SumCell.IsGlobal (SumCell.Inside n elements l) l μ
  output : ∀ μ tr c, Launched plus SumCell.IsGlobal l μ tr c → c.Finished →
    c.state .out = μ .out + ∑ j ∈ Finset.range n, μ (.input j)

theorem foldl_plus (s : F) (vs : List F) : vs.foldl plus s = s + vs.sum := by
  induction vs generalizing s with
  | nil => exact (add_zero s).symm
  | cons v vs ih => rw [List.foldl_cons, ih, List.sum_cons, add_assoc]

theorem sumsOnce {n : Nat} (hpos : 0 < l.blockDim) (hbytes : l.sharedBytes = l.blockDim * 4)
    (hkernel : ∀ b i, l.kernel b i = fillThen (fill b i) (tail b i) b i)
    (hfill : Loads l.blockDim elements fill) (htail : AddsSum l.blockDim reach tail)
    (hreach : reach ≤ l.blockDim)
    (hpartition : ((List.range (l.gridDim * l.blockDim)).flatMap elements).Perm (List.range n)) :
    SumsOnce n elements l := by
  have hends := sumKernel_ends hpos hkernel hfill htail hreach
  have hown : ∀ b < l.gridDim, ∀ x ∈ sumOwn l.blockDim b, ¬ SumCell.IsGlobal x := by
    rintro b - x ⟨j, -, rfl⟩
    exact id
  have hthread :
      ∀ b < l.gridDim, ∀ i < l.blockDim, b * l.blockDim + i < l.gridDim * l.blockDim := by
    intro b hb i hi
    have hle := Nat.mul_le_mul_right l.blockDim (Nat.succ_le_of_lt hb)
    rw [Nat.succ_mul] at hle
    omega
  refine ⟨hpartition, fun μ => (hends μ).safe ?_ ?_ ?_, fun μ tr c hrun hc => ?_⟩
  · rintro b hb i hi x (⟨j, hj, rfl⟩ | ⟨j, hj, rfl⟩)
    · refine ⟨hj, List.mem_range.mp (hpartition.subset ?_)⟩
      exact List.mem_flatMap.mpr ⟨_, List.mem_range.mpr (hthread b hb i hi), hj⟩
    · exact ⟨rfl, by omega⟩
  · rintro b - i - x ⟨j, hj, rfl⟩
    exact ⟨rfl, by omega⟩
  · rintro b - i - x hx
    rw [updates_lastPhase hx]
    trivial
  · rw [(hends μ).added (x := SumCell.out) hown hrun hc trivial fun b _ w hw => ?_]
    · have hadds : ∀ b, atCell .out ((lastPhase reach
          (fun b => ∑ i ∈ Finset.range l.blockDim, share l.blockDim elements μ b i) b).allAdds
            l.blockDim) = [∑ i ∈ Finset.range l.blockDim, share l.blockDim elements μ b i] := by
        intro b
        rw [allAdds_lastPhase hpos]
        rfl
      rw [List.flatMap_congr fun b _ => hadds b, ← List.map_eq_flatMap, foldl_plus]
      refine congrArg (μ .out + ·) ?_
      exact (Kernels.sum_range_mul _ l.gridDim l.blockDim).symm.trans
        (Kernels.sum_of_perm_range hpartition fun j => μ (.input j))
    · obtain ⟨i, -, hw⟩ := Footprint.mem_allWrites.mp hw
      exact absurd hw List.not_mem_nil

end PassionProjects.Kernelforge
