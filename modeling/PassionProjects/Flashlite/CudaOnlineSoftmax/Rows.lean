/-
  PassionProjects.Flashlite.CudaOnlineSoftmax.Rows

  A block of the row kernel from barrier to barrier: its threads fold their strided subsets
  of a row, put their pairs together in a tree, and normalize the row.
-/

import PassionProjects.Flashlite.CudaOnlineSoftmax.RowsKernel

namespace PassionProjects.Flashlite

open ExpField Kernels Staged

variable {F : Type} [ExpField F]

namespace OnlineRows

theorem smax_ne_ssum {blockDim n n' : Nat} {blockIdx : Dim3} (h : n < blockDim) :
    smax blockIdx n ≠ ssum blockDim blockIdx n' := fun heq => by
  have hcell := (StagedCell.smem.inj heq).2
  omega

/-- The pairs that the threads keep in shared memory. -/
def slots (F : Type) [Zero F] (blockDim : Nat) (blockIdx : Dim3) :
    Slots StagedCell (WithBot F) (F × F) where
  size := blockDim
  cells n := {smax blockIdx n, ssum blockDim blockIdx n}
  get μ n := ((μ (smax blockIdx n)).unbotD 0, (μ (ssum blockDim blockIdx n)).unbotD 0)
  put n p := [(smax blockIdx n, p.1), (ssum blockDim blockIdx n, p.2)]
  apart := by
    rintro n n' x hn hn' (rfl | rfl) (h | h)
    · exact (StagedCell.smem.inj h).2
    · exact absurd h (smax_ne_ssum hn)
    · exact absurd h.symm (smax_ne_ssum hn')
    · exact Nat.add_left_cancel (StagedCell.smem.inj h).2
  put_cells := by
    intro n p w hw
    rcases List.mem_cons.mp hw with rfl | hw
    · exact .inl rfl
    · rw [List.mem_singleton.mp hw]
      exact .inr rfl
  put_inj := by
    intro n p w w' hn hw hw' heq
    rcases List.mem_cons.mp hw with rfl | hw <;> rcases List.mem_cons.mp hw' with rfl | hw'
    · rfl
    · rw [List.mem_singleton.mp hw'] at heq
      exact absurd heq (smax_ne_ssum hn)
    · rw [List.mem_singleton.mp hw] at heq
      exact absurd heq.symm (smax_ne_ssum hn)
    · rw [List.mem_singleton.mp hw, List.mem_singleton.mp hw']
  get_put := by
    intro n p μ hμ
    rw [hμ (smax blockIdx n, p.1) (by simp), hμ (ssum blockDim blockIdx n, p.2) (by simp)]
    rfl

theorem reduceStep_steps (blockDim : Nat) (blockIdx : Dim3) :
    (slots F blockDim blockIdx).Steps combinePairs (reduceStep blockDim blockIdx) := by
  intro n stride μ
  have hmem : ∀ m, m = n ∨ m = n + stride →
      smax blockIdx m ∈ {x | x ∈ (slots F blockDim blockIdx).cells n ∨
        x ∈ (slots F blockDim blockIdx).cells (n + stride)} ∧
      ssum blockDim blockIdx m ∈ {x | x ∈ (slots F blockDim blockIdx).cells n ∨
        x ∈ (slots F blockDim blockIdx).cells (n + stride)} := by
    rintro m (rfl | rfl)
    · exact ⟨.inl (.inl rfl), .inl (.inr rfl)⟩
    · exact ⟨.inr (.inl rfl), .inr (.inr rfl)⟩
  refine .read (hmem n (.inl rfl)).1 (.read (hmem n (.inl rfl)).2 (.read (hmem _ (.inr rfl)).1
    (.read (hmem _ (.inr rfl)).2 ?_)))
  exact .store_bind (.store _ _)

-- ============================================================================
-- The phases of a block
-- ============================================================================

section Block

variable {T : Type} (idx : T → Dim3) (S k : Nat) (blockIdx : Dim3) (xs : Nat → WithBot F)

/-- The pair of a thread after its strided subset of the row `xs`. -/
def threadPair (n : Nat) : F × F :=
  ((strided n S (2 ^ k)).map xs).foldl foldScore (-fltMax, 0)

/-- The pair of the row. -/
def rowPair : F × F := Slots.total combinePairs k (threadPair S k xs)

def foldFootprint : Footprint T StagedCell (WithBot F) where
  reads _ := {x | ∃ j < S, x = row S blockIdx j}
  writes i := (slots F (2 ^ k) blockIdx).put (idx i).x (threadPair S k xs (idx i).x)

def readFootprint : Footprint T StagedCell (WithBot F) where
  reads _ := (slots F (2 ^ k) blockIdx).cells 0
  writes _ := []

def normalizeFootprint : Footprint T StagedCell (WithBot F) where
  reads i := {x | ∃ j ∈ strided (idx i).x S (2 ^ k), x = row S blockIdx j}
  writes i := (strided (idx i).x S (2 ^ k)).flatMap fun j =>
    [(row S blockIdx j, ↑(expSub (xs j) (rowPair S k xs).1 / (rowPair S k xs).2))]

/-- The phases before the row is written. -/
def reducePhases : List (Footprint T StagedCell (WithBot F)) :=
  foldFootprint idx S k blockIdx xs ::
    ((slots F (2 ^ k) blockIdx).phases (fun i => (idx i).x) combinePairs k (threadPair S k xs) ++
      [readFootprint k blockIdx])

def rowPhases : List (Footprint T StagedCell (WithBot F)) :=
  reducePhases idx S k blockIdx xs ++ [normalizeFootprint idx S k blockIdx xs]

/-- The threads are numbered along the block. -/
structure Numbered (idx : T → Dim3) (n : Nat) : Prop where
  inj : Function.Injective fun i => (idx i).x
  lt : ∀ i, (idx i).x < n
  surj : ∀ m < n, ∃ i, (idx i).x = m

variable {idx S k blockIdx xs} {μ : Memory F}

omit [ExpField F] in
theorem row_ne_slot [Zero F] {j n : Nat} {x : StagedCell}
    (hx : x ∈ (slots F (2 ^ k) blockIdx).cells n) :
    x ≠ row S blockIdx j := by
  rcases hx with rfl | rfl <;> exact StagedCell.noConfusion

theorem fold_raceFree (hidx : Numbered idx (2 ^ k)) :
    (foldFootprint idx S k blockIdx xs).RaceFree := by
  intro i j hij w hw
  have hcell := (slots F (2 ^ k) blockIdx).put_cells hw
  refine ⟨?_, fun w' hw' heq => hij (hidx.inj ?_)⟩
  · rintro ⟨m, -, heq⟩
    exact row_ne_slot hcell heq
  · exact (slots F (2 ^ k) blockIdx).apart (hidx.lt i) (hidx.lt j) hcell
      (heq ▸ (slots F (2 ^ k) blockIdx).put_cells hw')

theorem fold_performs (hμ : ∀ j < S, μ (row S blockIdx j) = xs j) (hidx : Numbered idx (2 ^ k))
    (i : T) {f : Thread F Unit} :
    Performs ((foldFootprint idx S k blockIdx xs).reads i) μ
      ((strided (idx i).x S (2 ^ k)).foldlM (fun s j => do
        let x ← load (row S blockIdx j)
        pure (foldScore s x)) (-fltMax, 0) >>= fun s =>
          store (smax blockIdx (idx i).x) s.1 >>= fun _ =>
            store (ssum (2 ^ k) blockIdx (idx i).x) s.2 >>= fun _ => .sync f)
      ((foldFootprint idx S k blockIdx xs).writes i) (.sync f) := by
  have hfold : Performs ((foldFootprint idx S k blockIdx xs).reads i) μ
      ((strided (idx i).x S (2 ^ k)).foldlM (fun s j => do
        let x ← load (row S blockIdx j)
        pure (foldScore s x)) (-fltMax, 0)) [] (.ret (threadPair S k xs (idx i).x)) := by
    unfold threadPair
    rw [List.foldl_map]
    refine Performs.foldlM_read fun s j hj => ?_
    have hlt : j < S := ((mem_strided (Nat.two_pow_pos k) (hidx.lt i)).mp hj).1
    have hmem : row S blockIdx j ∈ (foldFootprint idx S k blockIdx xs).reads i := ⟨j, hlt, rfl⟩
    refine .load_bind hmem ?_
    rw [hμ j hlt]
    exact .here
  exact hfold.bind_read (.write (.write .here))

theorem mem_normalize_writes {i : T} {w : StagedCell × WithBot F} :
    w ∈ (normalizeFootprint idx S k blockIdx xs).writes i ↔
      ∃ j ∈ strided (idx i).x S (2 ^ k), w = (row S blockIdx j,
        ↑(expSub (xs j) (rowPair S k xs).1 / (rowPair S k xs).2)) := by
  simp only [normalizeFootprint, List.mem_flatMap, List.mem_singleton]

theorem row_inj {j j' : Nat} (h : row S blockIdx j = row S blockIdx j') : j = j' :=
  Nat.add_left_cancel (StagedCell.scores.inj h)

/-- No two threads have a score in common. -/
theorem strided_thread (hidx : Numbered idx (2 ^ k)) {i i' : T} {j : Nat}
    (hj : j ∈ strided (idx i).x S (2 ^ k)) (hj' : j ∈ strided (idx i').x S (2 ^ k)) : i = i' := by
  have h := ((mem_strided (Nat.two_pow_pos k) (hidx.lt i)).mp hj).2
  have h' := ((mem_strided (Nat.two_pow_pos k) (hidx.lt i')).mp hj').2
  exact hidx.inj (h.symm.trans h')

theorem normalize_raceFree (hidx : Numbered idx (2 ^ k)) :
    (normalizeFootprint idx S k blockIdx xs).RaceFree := by
  intro i i' hi w hw
  obtain ⟨j, hj, rfl⟩ := mem_normalize_writes.mp hw
  constructor
  · rintro ⟨j', hj', heq⟩
    exact hi (strided_thread hidx hj (row_inj heq ▸ hj'))
  · intro w' hw' heq
    obtain ⟨j', hj', rfl⟩ := mem_normalize_writes.mp hw'
    exact hi (strided_thread hidx hj (row_inj heq ▸ hj'))

theorem normalize_self {i : T} : ∀ w ∈ (normalizeFootprint idx S k blockIdx xs).writes i,
    ∀ w' ∈ (normalizeFootprint idx S k blockIdx xs).writes i, w.1 = w'.1 → w = w' := by
  intro w hw w' hw' heq
  obtain ⟨j, hj, rfl⟩ := mem_normalize_writes.mp hw
  obtain ⟨j', hj', rfl⟩ := mem_normalize_writes.mp hw'
  rw [row_inj heq]

theorem normalize_performs (hμ : ∀ j < S, μ (row S blockIdx j) = xs j)
    (hidx : Numbered idx (2 ^ k)) (i : T) :
    Performs ((normalizeFootprint idx S k blockIdx xs).reads i) μ
      ((strided (idx i).x S (2 ^ k)).forM fun j => do
        let x ← load (row S blockIdx j)
        store (row S blockIdx j) ↑(expSub x (rowPair S k xs).1 / (rowPair S k xs).2))
      ((normalizeFootprint idx S k blockIdx xs).writes i) (.ret ()) := by
  refine Performs.forM_own (fun j => {row S blockIdx j})
    (nodup_strided (Nat.two_pow_pos k)) (fun j hj ν hν => ?_) fun j hj j' hj' hne w hw => ?_
  · have hmem : row S blockIdx j ∈ (normalizeFootprint idx S k blockIdx xs).reads i := ⟨j, hj, rfl⟩
    refine .load_bind hmem ?_
    rw [hν _ rfl, hμ j ((mem_strided (Nat.two_pow_pos k) (hidx.lt i)).mp hj).1]
    exact .store _ _
  · rw [List.mem_singleton.mp hw]
    exact fun heq => hne (row_inj heq)

/-- What follows the fold. -/
def afterFold (S k : Nat) (blockIdx : Dim3) (tid : Nat) : Thread F Unit := do
  tree (2 ^ k) tid (reduceStep (2 ^ k) blockIdx tid)
  let rowMax ← loadReal (smax blockIdx 0)
  let rowSum ← loadReal (ssum (2 ^ k) blockIdx 0)
  Program.barrier
  (strided tid S (2 ^ k)).forM fun j => do
    let x ← load (row S blockIdx j)
    store (row S blockIdx j) ↑(expSub x rowMax / rowSum)

/-- The pair of the row, once the tree is done. -/
theorem read_performs (hμ : (slots F (2 ^ k) blockIdx).get μ 0 = rowPair S k xs) {tid : Nat} :
    Performs ((slots F (2 ^ k) blockIdx).cells 0) μ
      (loadReal (smax blockIdx 0) >>= fun rowMax =>
        loadReal (ssum (2 ^ k) blockIdx 0) >>= fun rowSum => Program.barrier >>= fun _ =>
          (strided tid S (2 ^ k)).forM fun j => do
            let x ← load (row S blockIdx j)
            store (row S blockIdx j) ↑(expSub x rowMax / rowSum)) []
      (.sync ((strided tid S (2 ^ k)).forM fun j => do
        let x ← load (row S blockIdx j)
        store (row S blockIdx j) ↑(expSub x (rowPair S k xs).1 / (rowPair S k xs).2))) := by
  rw [← hμ]
  exact .read (.inl rfl) (.read (.inr rfl) .here)

/-- A block of the kernel. -/
theorem block_performs (blockIdx : Dim3) (xs : Nat → WithBot F)
    (hμ : ∀ j < S, μ (row S blockIdx j) = xs j)
    (hidx : Numbered idx (2 ^ k)) :
    ∃ μ', BlockPerforms μ (fun i => onlineSoftmaxRowsKernel S (2 ^ k) blockIdx (idx i))
      (rowPhases idx S k blockIdx xs) μ' ∧
        ∀ j < S, μ' (row S blockIdx j) =
          ↑(expSub (xs j) (rowPair S k xs).1 / (rowPair S k xs).2) := by
  have hrace : (foldFootprint idx S k blockIdx xs).RaceFree := fold_raceFree hidx
  obtain ⟨μ₁, hleads⟩ := hrace.leads
    (fun i w hw w' hw' => (slots F (2 ^ k) blockIdx).put_inj (hidx.lt i) hw hw') μ
  have hhold : (slots F (2 ^ k) blockIdx).Hold (2 ^ k) (threadPair S k xs) μ₁ := by
    intro n hn
    obtain ⟨i, rfl⟩ := hidx.surj n hn
    exact (slots F (2 ^ k) blockIdx).get_put (hleads.written i)
  have hrow₁ : ∀ j < S, μ₁ (row S blockIdx j) = xs j := fun j hj =>
    (hleads.kept _ fun i w hw heq =>
      row_ne_slot ((slots F (2 ^ k) blockIdx).put_cells hw) heq).trans (hμ j hj)
  obtain ⟨μ₂, htree, hget, hkept⟩ := Slots.tree_returns (reduceStep_steps (2 ^ k) blockIdx)
    hidx.inj le_rfl hidx.surj hhold
  have hrow₂ : ∀ j < S, μ₂ (row S blockIdx j) = xs j := fun j hj =>
    (hkept _ fun n _ hcell => row_ne_slot hcell rfl).trans (hrow₁ j hj)
  obtain ⟨hread, hself⟩ := Footprint.leads_self
    (f := readFootprint (T := T) (F := F) k blockIdx) (fun _ => rfl) μ₂
  have hnormalize : (normalizeFootprint idx S k blockIdx xs).RaceFree := normalize_raceFree hidx
  obtain ⟨μ₃, hleads₃⟩ := hnormalize.leads (fun i => normalize_self) μ₂
  have hreaches : BlockReaches μ (fun i => onlineSoftmaxRowsKernel S (2 ^ k) blockIdx (idx i))
      (reducePhases idx S k blockIdx xs) μ₂ (fun i =>
        (strided (idx i).x S (2 ^ k)).forM fun j => do
          let x ← load (row S blockIdx j)
          store (row S blockIdx j) ↑(expSub x (rowPair S k xs).1 / (rowPair S k xs).2)) :=
    .next (k := fun i => afterFold S k blockIdx (idx i).x) (fun i => fold_performs hμ hidx i)
      hrace hleads (htree.andThen (.next (fun i => read_performs hget) hread hself .here))
  refine ⟨μ₃, hreaches.performs (.last (normalize_performs hrow₂ hidx) hnormalize hleads₃),
    fun j hj => ?_⟩
  obtain ⟨i, hi⟩ := hidx.surj (j % 2 ^ k) (Nat.mod_lt j (Nat.two_pow_pos k))
  exact hleads₃.written i _ (mem_normalize_writes.mpr
    ⟨j, (mem_strided (Nat.two_pow_pos k) (hidx.lt i)).mpr ⟨hj, hi.symm⟩, rfl⟩)

end Block

-- ============================================================================
-- The pair of a row
-- ============================================================================

theorem rowPair_running {S k : Nat} {xs : Nat → WithBot F}
    (hxs : Above ((List.range S).map xs)) :
    Valid (rowPair S k xs) ∧
      running (rowPair S k xs) = Running.ofList (ones ((List.range S).map xs)) := by
  have hpair : ∀ n < 2 ^ k, Valid (threadPair S k xs n) ∧ running (threadPair S k xs n) =
      ((strided n S (2 ^ k)).map fun j => Running.single (xs j) (1 : F)).sum := by
    intro n hn
    have habove : Above ((strided n S (2 ^ k)).map xs) := by
      intro a ha
      obtain ⟨j, hj, heq⟩ := List.mem_map.mp ha
      have hlt := ((mem_strided (Nat.two_pow_pos k) hn).mp hj).1
      exact hxs a (heq ▸ List.mem_map_of_mem (List.mem_range.mpr hlt))
    obtain ⟨hvalid, hsum⟩ := running_fold habove valid_init
    refine ⟨hvalid, hsum.trans ?_⟩
    rw [running_sentinel rfl, zero_add, Running.ofList, ones, List.map_map, List.map_map]
    rfl
  obtain ⟨hvalid, hsum⟩ := Slots.total_eq_sum (M := Running F F)
    (fun a b => running_combinePairs) k fun n hn => (hpair n hn).1
  refine ⟨hvalid, hsum.trans ?_⟩
  rw [Finset.sum_congr rfl fun n hn => (hpair n (Finset.mem_range.mp hn)).2,
    sum_strided _ (Nat.two_pow_pos k), Running.ofList, ones, List.map_map, List.map_map,
    ← List.sum_toFinset _ List.nodup_range, List.toFinset_range]
  rfl

theorem rowPair_ne_sentinel {S k : Nat} {xs : Nat → WithBot F}
    (hxs : Above ((List.range S).map xs)) (hfin : ∃ j < S, xs j ≠ ⊥) :
    (rowPair S k xs).1 ≠ -fltMax := by
  obtain ⟨j₀, hj₀, hne⟩ := hfin
  have hmem : xs j₀ ∈ (List.range S).map xs := List.mem_map_of_mem (List.mem_range.mpr hj₀)
  have hmax : (Running.ofList (ones ((List.range S).map xs))).max ≠ ⊥ := by
    rw [← maxOf_eq]
    obtain ⟨a, ha⟩ := WithBot.ne_bot_iff_exists.mp hne
    exact maxOf_ne_bot ⟨a, ha ▸ hmem⟩
  intro h
  rw [← (rowPair_running (k := k) hxs).2, running_sentinel h] at hmax
  exact hmax rfl

/-- The pair of a row is that of any tiling. -/
theorem rowPair_stats {S k : Nat} {xs : Nat → WithBot F}
    (hxs : Above ((List.range S).map xs)) (hfin : ∃ j < S, xs j ≠ ⊥) :
    statsOf ((List.range S).map xs) = (↑(rowPair S k xs).1, (rowPair S k xs).2) := by
  have hsentinel := rowPair_ne_sentinel (k := k) hxs hfin
  unfold statsOf
  rw [← (rowPair_running (k := k) hxs).2, running_max hsentinel, running_sum hsentinel]

/-- The row is normalized to its softmax. -/
theorem rowPair_softmax {S k : Nat} {xs : Nat → WithBot F}
    (hxs : Above ((List.range S).map xs)) (hfin : ∃ j < S, xs j ≠ ⊥) (j : Nat) :
    expSub (xs j) (rowPair S k xs).1 / (rowPair S k xs).2 = softmax S xs j := by
  have hsentinel := rowPair_ne_sentinel (k := k) hxs hfin
  obtain ⟨-, hrunning⟩ := rowPair_running (k := k) hxs
  have hmass := Running.ofList_mass (ones ((List.range S).map xs))
  rw [← hrunning, Running.mass, running_max hsentinel, running_sum hsentinel, weight_coe, ones,
    List.map_map, List.map_map] at hmass
  have htotal : exp (rowPair S k xs).1 * (rowPair S k xs).2 =
      ∑ j ∈ Finset.range S, weight (xs j) := by
    rw [← List.toFinset_range, List.sum_toFinset _ List.nodup_range]
    refine hmass.trans (congrArg List.sum (List.map_congr_left fun j _ => mul_one _))
  have hinv : exp (rowPair S k xs).1 * exp (-(rowPair S k xs).1) = 1 := by
    rw [← exp_add, add_neg_cancel, exp_zero]
  rw [softmax, ← htotal, ← mul_div_mul_left _ _ (exp_ne_zero (rowPair S k xs).1),
    expSub_coe_right, ← mul_assoc, hinv, one_mul]

theorem fold_sentinel {xs : List (WithBot F)} (hxs : ∀ x ∈ xs, x ≤ ((-fltMax : F) : WithBot F))
    {s : F × F} (hs : s.1 = -fltMax) : (xs.foldl foldScore s).1 = -fltMax := by
  induction xs generalizing s with
  | nil => exact hs
  | cons x xs ih =>
      refine ih (fun y hy => hxs y (List.mem_cons_of_mem x hy)) ?_
      have hx := hxs x List.mem_cons_self
      cases x with
      | bot => exact hs
      | coe a =>
          show max s.1 a = -fltMax
          rw [hs, max_eq_left (WithBot.coe_le_coe.mp hx)]

theorem combinePairs_sentinel {a b : F × F} (ha : a.1 = -fltMax) (hb : b.1 = -fltMax) :
    combinePairs a b = (-fltMax, 0) := by
  unfold combinePairs
  dsimp only
  rw [ha, hb, max_self, if_pos rfl]

theorem total_sentinel {k : Nat} {vals : Nat → F × F} (h : ∀ n, vals n = (-fltMax, 0)) :
    Slots.total combinePairs k vals = (-fltMax, 0) := by
  induction k generalizing vals with
  | zero => exact h 0
  | succ k ih =>
      refine ih fun n => combinePairs_sentinel ?_ ?_
      · rw [h]
      · rw [h]

/-- A row with no score above the sentinel is taken for an empty one. -/
theorem rowPair_sentinel {S : Nat} (k : Nat) {xs : Nat → WithBot F}
    (hxs : ∀ j < S, xs j ≤ ((-fltMax : F) : WithBot F)) :
    rowPair S (k + 1) xs = (-fltMax, 0) := by
  have hthread : ∀ n, (threadPair S (k + 1) xs n).1 = -fltMax := by
    intro n
    refine fold_sentinel (fun x hx => ?_) rfl
    obtain ⟨j, hj, rfl⟩ := List.mem_map.mp hx
    exact hxs j (lt_of_mem_strided (Nat.two_pow_pos _) hj)
  exact total_sentinel (k := k) fun n => combinePairs_sentinel (hthread n) (hthread _)

end OnlineRows

end PassionProjects.Flashlite
