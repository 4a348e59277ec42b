/-
  PassionProjects.Flashlite.CudaFused.Blocks

  A block of the fused kernel from barrier to barrier: its threads load a tile, use it, and
  go on to the next one; after the last tile each thread stores its row.
-/

import PassionProjects.Flashlite.CudaFused.Rows

namespace PassionProjects.Flashlite

open ExpField Kernels FusedAttention

variable {F : Type} [ExpField F]

instance : Nonempty (Fin kFusedTileDim) := ⟨⟨0, by decide⟩⟩

/-- What the kernel is launched on. -/
structure FusedJob (F : Type) where
  H : Nat
  S : Nat
  D : Nat
  scale : F
  causal : Bool
  q : Nat → F
  k : Nat → F
  v : Nat → F

namespace FusedJob

variable (a : FusedJob F) (total : Nat) (blockIdx : Nat × Nat)

def base : Nat := (blockIdx.2 / a.H * a.H + blockIdx.2 % a.H) * a.S * a.D

def rowOf (i : Fin kFusedTileDim) : Nat := blockIdx.1 * kFusedTileDim + i

/-- The state of a row before tile `t`. -/
def threadState (i : Fin kFusedTileDim) (t : Nat) : RowState F :=
  if rowOf blockIdx i < a.S then
    .after a.D (rowScore a.q a.k a.D (a.base blockIdx) a.scale (rowOf blockIdx i))
      (valueRow a.v a.D (a.base blockIdx))
      (min (t * kFusedTileDim) (visible a.S a.causal (rowOf blockIdx i)))
  else
    .init

/-- The loop body of the kernel. -/
def turn (i : Fin kFusedTileDim) (qReg : Nat → F) (s : RowState F) (t : Nat) :
    Thread F (RowState F) := do
  loadTile a.S a.D (a.base blockIdx) blockIdx i (t * kFusedTileDim)
  Program.barrier
  let s ← FusedAttention.absorbTile a.S a.D a.scale a.causal blockIdx (rowOf blockIdx i)
    (t * kFusedTileDim)
    qReg s
  Program.barrier
  pure s

/-- The end of the kernel. -/
def finish (i : Fin kFusedTileDim) (s : RowState F) : Thread F Unit :=
  if rowOf blockIdx i < a.S then storeRow a.D (a.base blockIdx) (rowOf blockIdx i) s else pure ()

def queryOf (i : Fin kFusedTileDim) : Nat → F :=
  if rowOf blockIdx i < a.S then queryRow a.q a.D (a.base blockIdx) (rowOf blockIdx i)
  else fun _ => 0

-- ============================================================================
-- What the threads do between two barriers
-- ============================================================================

def loadFootprint (t : Nat) : Footprint (Fin kFusedTileDim) Cell F where
  reads _ := inputCells total
  writes i := tileWrites a.S a.D (a.base blockIdx) blockIdx (t * kFusedTileDim) a.k a.v i

def absorbFootprint : Footprint (Fin kFusedTileDim) Cell F where
  reads _ := sharedCells a.D blockIdx
  writes _ := []

def storeFootprint (t : Nat) : Footprint (Fin kFusedTileDim) Cell F where
  reads _ := ∅
  writes i :=
    if rowOf blockIdx i < a.S then
      rowWrites a.D (a.base blockIdx) (rowOf blockIdx i) (a.threadState blockIdx i t)
    else
      []

variable {a total blockIdx}

theorem mem_tileWrites {t : Nat} {i : Fin kFusedTileDim} {w : Cell × F} :
    w ∈ (a.loadFootprint total blockIdx t).writes i ↔
      ∃ idx, (idx < kFusedTileDim * a.D ∧ idx % kFusedTileDim = i) ∧
        (w = (kTile blockIdx idx,
            tileEntry a.S a.D (a.base blockIdx) (t * kFusedTileDim) a.k idx) ∨
          w = (vTile a.D blockIdx idx,
            tileEntry a.S a.D (a.base blockIdx) (t * kFusedTileDim) a.v idx)) := by
  simp only [loadFootprint, tileWrites, List.mem_flatMap, mem_strided (by decide) i.isLt,
    List.mem_cons, List.not_mem_nil, or_false]

/-- No two threads load one element, and none loads it twice. -/
theorem tileWrites_inj {t : Nat} {i j : Fin kFusedTileDim} {w w' : Cell × F}
    (hw : w ∈ (a.loadFootprint total blockIdx t).writes i)
    (hw' : w' ∈ (a.loadFootprint total blockIdx t).writes j) (heq : w.1 = w'.1) :
    i = j ∧ w = w' := by
  obtain ⟨idx, ⟨hlt, hi⟩, hw⟩ := mem_tileWrites.mp hw
  obtain ⟨idx', ⟨hlt', hj⟩, hw'⟩ := mem_tileWrites.mp hw'
  rcases hw with rfl | rfl <;> rcases hw' with rfl | rfl
  · obtain rfl : idx = idx' := (Cell.smem.inj heq).2
    exact ⟨Fin.ext (hi.symm.trans hj), rfl⟩
  · have hcell : idx = kFusedTileDim * a.D + idx' := (Cell.smem.inj heq).2
    omega
  · have hcell : kFusedTileDim * a.D + idx = idx' := (Cell.smem.inj heq).2
    omega
  · obtain rfl : idx = idx' := Nat.add_left_cancel (Cell.smem.inj heq).2
    exact ⟨Fin.ext (hi.symm.trans hj), rfl⟩

theorem load_raceFree (t : Nat) : (a.loadFootprint total blockIdx t).RaceFree := by
  intro i j hij w hw
  refine ⟨?_, fun w' hw' heq => hij (tileWrites_inj hw hw' heq).1⟩
  obtain ⟨idx, -, rfl | rfl⟩ := mem_tileWrites.mp hw
  · rintro ⟨n, -, h | h | h⟩ <;> cases h
  · rintro ⟨n, -, h | h | h⟩ <;> cases h

/-- After the load, shared memory holds the tile. -/
theorem load_leads {t : Nat} {μ μ' : Cell → F}
    (h : (a.loadFootprint total blockIdx t).Leads μ μ') :
    TileHolds a.S a.D (a.base blockIdx) blockIdx (t * kFusedTileDim) a.k a.v μ' ∧
      (Holds a.q a.k a.v μ → Holds a.q a.k a.v μ') := by
  have hwritten : ∀ idx < kFusedTileDim * a.D, ∀ w,
      (w = (kTile blockIdx idx, tileEntry a.S a.D (a.base blockIdx) (t * kFusedTileDim) a.k idx) ∨
        w = (vTile a.D blockIdx idx,
          tileEntry a.S a.D (a.base blockIdx) (t * kFusedTileDim) a.v idx)) → μ' w.1 = w.2 :=
    fun idx hidx w hw => h.written ⟨idx % kFusedTileDim, Nat.mod_lt _ (by decide)⟩ w
      (mem_tileWrites.mpr ⟨idx, ⟨hidx, rfl⟩, hw⟩)
  have hkept : ∀ x, (∀ n, x ≠ .smem blockIdx n) → μ' x = μ x := by
    intro x hx
    refine h.kept x fun i w hw heq => ?_
    obtain ⟨idx, -, rfl | rfl⟩ := mem_tileWrites.mp hw
    · exact hx _ heq.symm
    · exact hx _ heq.symm
  refine ⟨⟨fun idx hidx => hwritten idx hidx _ (.inl rfl),
    fun idx hidx => hwritten idx hidx _ (.inr rfl)⟩, fun hμ => ⟨fun n => ?_, fun n => ?_,
      fun n => ?_⟩⟩
  · rw [hkept _ (by simp), hμ.q]
  · rw [hkept _ (by simp), hμ.k]
  · rw [hkept _ (by simp), hμ.v]

omit [ExpField F] in
theorem base_eq : a.base blockIdx = blockIdx.2 * a.S * a.D := by
  rw [base, Nat.div_add_mod']

/-- An element of a row of the output belongs to one head, one row and one coordinate. -/
theorem out_index_inj {S D bh bh' row row' d d' : Nat} (hrow : row < S) (hrow' : row' < S)
    (hd : d < D) (hd' : d' < D)
    (heq : bh * S * D + row * D + d = bh' * S * D + row' * D + d') :
    bh = bh' ∧ row = row' ∧ d = d' := by
  have hsplit : ∀ bh row d : Nat, bh * S * D + row * D + d = (bh * S + row) * D + d := by
    intro bh row d
    rw [Nat.add_mul]
  rw [hsplit, hsplit] at heq
  obtain ⟨hrows, hd⟩ := index_inj hd hd' heq
  obtain ⟨hheads, hrow⟩ := index_inj hrow hrow' hrows
  exact ⟨hheads, hrow, hd⟩

/-- What a thread stores for coordinate `d`. -/
def output (a : FusedJob F) (blockIdx : Nat × Nat) (i : Fin kFusedTileDim) (t d : Nat) : F :=
  (a.threadState blockIdx i t).acc d *
    (if (a.threadState blockIdx i t).l > 0 then 1 / (a.threadState blockIdx i t).l else 0)

theorem mem_storeWrites {t : Nat} {i : Fin kFusedTileDim} {w : Cell × F} :
    w ∈ (a.storeFootprint blockIdx t).writes i ↔ rowOf blockIdx i < a.S ∧ ∃ d < a.D,
      w = (.out (blockIdx.2 * a.S * a.D + rowOf blockIdx i * a.D + d),
        a.output blockIdx i t d) := by
  unfold storeFootprint rowWrites
  dsimp only
  rw [base_eq]
  split
  · rename_i hrow
    simp [hrow, output]
  · rename_i hrow
    simp [hrow]

theorem storeWrites_inj {t : Nat} {i j : Fin kFusedTileDim} {w w' : Cell × F}
    (hw : w ∈ (a.storeFootprint blockIdx t).writes i)
    (hw' : w' ∈ (a.storeFootprint blockIdx t).writes j) (heq : w.1 = w'.1) :
    i = j ∧ w = w' := by
  obtain ⟨hrow, d, hd, rfl⟩ := mem_storeWrites.mp hw
  obtain ⟨hrow', d', hd', rfl⟩ := mem_storeWrites.mp hw'
  obtain ⟨-, hij, rfl⟩ := out_index_inj hrow hrow' hd hd' (Cell.out.inj heq)
  obtain rfl : i = j := Fin.ext (Nat.add_left_cancel hij)
  exact ⟨rfl, rfl⟩

theorem store_raceFree (t : Nat) : (a.storeFootprint blockIdx t).RaceFree :=
  fun _ _ hij _ hw => ⟨fun hread => hread, fun _ hw' heq => hij (storeWrites_inj hw hw' heq).1⟩

-- ============================================================================
-- A block from barrier to barrier
-- ============================================================================

/-- The phases that are left before the `n`-th tile. -/
def phasesFrom (a : FusedJob F) (total : Nat) (blockIdx : Nat × Nat) (t : Nat) :
    Nat → List (Footprint (Fin kFusedTileDim) Cell F)
  | 0 => [a.storeFootprint blockIdx t]
  | n + 1 => a.loadFootprint total blockIdx t :: a.absorbFootprint blockIdx ::
      phasesFrom a total blockIdx (t + 1) n

theorem finish_performs (t : Nat) (μ : Cell → F) (i : Fin kFusedTileDim) :
    Performs ((a.storeFootprint blockIdx t).reads i) μ
      (a.finish blockIdx i (a.threadState blockIdx i t))
      ((a.storeFootprint blockIdx t).writes i) (.ret ()) := by
  unfold finish storeFootprint
  dsimp only
  split
  · exact storeRow_performs _ _ _ _ _ _ fun n h => h
  · exact .here

theorem absorb_performs {t : Nat} {μ : Cell → F} (htile : t * kFusedTileDim < a.S)
    (hμ : TileHolds a.S a.D (a.base blockIdx) blockIdx (t * kFusedTileDim) a.k a.v μ)
    (i : Fin kFusedTileDim) :
    Performs ((a.absorbFootprint blockIdx).reads i) μ
      (FusedAttention.absorbTile a.S a.D a.scale a.causal blockIdx (rowOf blockIdx i)
        (t * kFusedTileDim)
        (a.queryOf blockIdx i) (a.threadState blockIdx i t)) []
      (.ret (a.threadState blockIdx i (t + 1))) := by
  unfold queryOf threadState
  split
  · rename_i hrow
    rw [Nat.succ_mul]
    exact absorbTile_performs hμ hrow htile a.scale a.causal
  · rename_i hrow
    rw [FusedAttention.absorbTile, if_neg fun h => hrow h.1]
    exact .here

/-- The barriers of a turn of the loop. -/
theorem turn_bind (i : Fin kFusedTileDim) (qReg : Nat → F) (s : RowState F) (t n : Nat)
    (f : RowState F → Thread F Unit) :
    (List.range' t (n + 1)).foldlM (a.turn blockIdx i qReg) s >>= f =
      loadTile a.S a.D (a.base blockIdx) blockIdx i (t * kFusedTileDim) >>= fun _ =>
        .sync (FusedAttention.absorbTile a.S a.D a.scale a.causal blockIdx (rowOf blockIdx i)
          (t * kFusedTileDim) qReg s >>= fun s => .sync
            ((List.range' (t + 1) n).foldlM (a.turn blockIdx i qReg) s >>= f)) := by
  simp only [List.range'_succ, List.foldlM_cons, turn, bind_assoc, Program.barrier_bind,
    Program.sync_bind, pure_bind]

/-- From the `t`-th tile on. -/
theorem tiles_perform (hbase : a.base blockIdx + a.S * a.D ≤ total) (hD : 0 < a.D) {n t : Nat}
    (hn : ∀ t', t' < t + n → t' * kFusedTileDim < a.S) {μ : Cell → F} (hμ : Holds a.q a.k a.v μ) :
    ∃ μ', BlockPerforms μ
      (fun i => (List.range' t n).foldlM (a.turn blockIdx i (a.queryOf blockIdx i))
        (a.threadState blockIdx i t) >>= a.finish blockIdx i)
      (a.phasesFrom total blockIdx t n) μ' ∧
        ∀ i, ∀ w ∈ (a.storeFootprint blockIdx (t + n)).writes i, μ' w.1 = w.2 := by
  induction n generalizing t μ with
  | zero =>
      have hrace : (a.storeFootprint blockIdx t).RaceFree := store_raceFree t
      obtain ⟨μ', hleads⟩ := hrace.leads
        (fun i w hw w' hw' heq => (storeWrites_inj hw hw' heq).2) μ
      exact ⟨μ', .last (finish_performs t μ) hrace hleads, hleads.written⟩
  | succ n ih =>
      have hrace : (a.loadFootprint total blockIdx t).RaceFree := load_raceFree t
      obtain ⟨μ₁, hleads⟩ := hrace.leads
        (fun i w hw w' hw' heq => (tileWrites_inj hw hw' heq).2) μ
      obtain ⟨htile, hholds⟩ := load_leads hleads
      obtain ⟨μ', hrest, hout⟩ := ih (t := t + 1) (fun t' ht' => hn t' (by omega)) (hholds hμ)
      have hkept : (a.absorbFootprint blockIdx).Leads μ₁ μ₁ :=
        ⟨fun i w hw => absurd hw (List.not_mem_nil), fun x _ => rfl⟩
      have hreads : (a.absorbFootprint blockIdx).RaceFree :=
        fun i j _ w hw => absurd hw List.not_mem_nil
      have habsorb := absorb_performs (hn t (by omega)) htile
      simp only [turn_bind]
      refine ⟨μ',
        BlockPerforms.next
          (k := fun i => FusedAttention.absorbTile a.S a.D a.scale a.causal blockIdx
          (rowOf blockIdx i) (t * kFusedTileDim) (a.queryOf blockIdx i)
          (a.threadState blockIdx i t) >>= fun s => .sync
            ((List.range' (t + 1) n).foldlM (a.turn blockIdx i (a.queryOf blockIdx i)) s >>=
              a.finish blockIdx i))
        (fun i => (loadTile_performs hμ hbase hD i _).bind_here) hrace hleads
          (.next (fun i => (habsorb i).bind_here) hreads hkept hrest), ?_⟩
      rw [show t + (n + 1) = t + 1 + n by omega]
      exact hout

theorem threadState_zero (i : Fin kFusedTileDim) : a.threadState blockIdx i 0 = .init := by
  unfold threadState
  rw [Nat.zero_mul, Nat.zero_min, RowState.after, ite_self]

/-- A block of the kernel.  Before its first tile each thread reads its query row. -/
theorem block_performs (hbase : a.base blockIdx + a.S * a.D ≤ total) (hD : 0 < a.D) (hS : 0 < a.S)
    {μ : Cell → F} (hμ : Holds a.q a.k a.v μ) :
    ∃ μ', BlockPerforms μ
      (fun i : Fin kFusedTileDim =>
        fusedAttentionKernel a.H a.S a.D a.scale a.causal blockIdx i)
      (a.phasesFrom total blockIdx 0 ((a.S + kFusedTileDim - 1) / kFusedTileDim)) μ' ∧
        ∀ i, ∀ w ∈ (a.storeFootprint blockIdx
          ((a.S + kFusedTileDim - 1) / kFusedTileDim)).writes i, μ' w.1 = w.2 := by
  have htiles : ∀ t, t < (a.S + kFusedTileDim - 1) / kFusedTileDim → t * kFusedTileDim < a.S := by
    intro t ht
    simp only [kFusedTileDim] at ht ⊢
    omega
  obtain ⟨μ', hblock, hout⟩ := tiles_perform (n := (a.S + kFusedTileDim - 1) / kFusedTileDim)
    (t := 0) hbase hD (by simpa using htiles) hμ
  rw [Nat.zero_add] at hout
  obtain ⟨n, hn⟩ : ∃ n, (a.S + kFusedTileDim - 1) / kFusedTileDim = n + 1 :=
    Nat.exists_eq_add_one.mpr (by simp only [kFusedTileDim]; omega)
  refine ⟨μ', ?_, hout⟩
  rw [hn] at hblock
  have hquery : ∀ i : Fin kFusedTileDim, Performs (inputCells total) μ
      (if rowOf blockIdx i < a.S then
        loadQuery a.D (a.base blockIdx) (rowOf blockIdx i) else pure fun _ => 0) []
      (.ret (a.queryOf blockIdx i)) := by
    intro i
    unfold queryOf
    split
    · exact loadQuery_performs hμ hbase ‹_›
    · exact .here
  have hkernel := BlockPerforms.of_read
    (k := fun i qReg => (List.range' 0 (n + 1)).foldlM (a.turn blockIdx i qReg)
      (a.threadState blockIdx i 0) >>= a.finish blockIdx i) hquery hblock
  simp only [threadState_zero, ← List.range_eq_range'] at hkernel
  have hphases : a.loadFootprint total blockIdx 0 :: a.absorbFootprint blockIdx ::
      a.phasesFrom total blockIdx (0 + 1) n = a.phasesFrom total blockIdx 0 (n + 1) := rfl
  rw [hphases, ← hn] at hkernel
  exact hkernel

-- ============================================================================
-- The cells of a block
-- ============================================================================

theorem mem_phasesFrom {f : Footprint (Fin kFusedTileDim) Cell F} {t n : Nat}
    (hf : f ∈ a.phasesFrom total blockIdx t n) :
    (∃ t', f = a.loadFootprint total blockIdx t') ∨ f = a.absorbFootprint blockIdx ∨
      f = a.storeFootprint blockIdx (t + n) := by
  induction n generalizing t with
  | zero => exact .inr (.inr (List.mem_singleton.mp hf))
  | succ n ih =>
      rcases List.mem_cons.mp hf with rfl | hf
      · exact .inl ⟨t, rfl⟩
      · rcases List.mem_cons.mp hf with rfl | hf
        · exact .inr (.inl rfl)
        · rw [show t + (n + 1) = t + 1 + n by omega]
          exact ih hf

theorem store_mem (t n : Nat) :
    a.storeFootprint blockIdx (t + n) ∈ a.phasesFrom total blockIdx t n := by
  induction n generalizing t with
  | zero => exact List.mem_singleton_self _
  | succ n ih =>
      rw [show t + (n + 1) = t + 1 + n by omega]
      exact List.mem_cons_of_mem _ (List.mem_cons_of_mem _ (ih (t + 1)))

theorem out_writes {i : Fin kFusedTileDim} {d : Nat} (n : Nat) (hrow : rowOf blockIdx i < a.S)
    (hd : d < a.D) : Writes (a.phasesFrom total blockIdx 0 n)
      (.out (blockIdx.2 * a.S * a.D + rowOf blockIdx i * a.D + d)) :=
  ⟨_, store_mem 0 n, i, _, mem_storeWrites.mpr ⟨hrow, d, hd, rfl⟩, rfl⟩

theorem has_inBuffer (hbase : a.base blockIdx + a.S * a.D ≤ total)
    {f : Footprint (Fin kFusedTileDim) Cell F} {t n : Nat}
    (hf : f ∈ a.phasesFrom total blockIdx t n) {i : Fin kFusedTileDim} {x : Access Cell F}
    (hx : f.Has i x) : x.cell.InBuffer total (2 * kFusedTileDim * a.D * 4) := by
  have hinput : ∀ y ∈ inputCells total, Cell.InBuffer total (2 * kFusedTileDim * a.D * 4) y := by
    rintro y ⟨m, hm, rfl | rfl | rfl⟩ <;> exact hm
  have hshared : ∀ y ∈ sharedCells a.D blockIdx,
      Cell.InBuffer total (2 * kFusedTileDim * a.D * 4) y := by
    rintro y ⟨m, hm, rfl⟩
    exact Nat.mul_le_mul_right 4 hm
  rcases mem_phasesFrom hf with ⟨t', rfl⟩ | rfl | rfl
  · rcases hx with ⟨y, hy, rfl⟩ | ⟨w, hw, rfl⟩
    · exact hinput y hy
    · obtain ⟨idx, ⟨hidx, -⟩, rfl | rfl⟩ := mem_tileWrites.mp hw
      · exact hshared _ (kTile_mem hidx)
      · exact hshared _ (vTile_mem hidx)
  · rcases hx with ⟨y, hy, rfl⟩ | ⟨w, hw, rfl⟩
    · exact hshared y hy
    · exact absurd hw List.not_mem_nil
  · rcases hx with ⟨y, hy, rfl⟩ | ⟨w, hw, rfl⟩
    · exact absurd hy (Set.notMem_empty y)
    · obtain ⟨hrow, d, hd, rfl⟩ := mem_storeWrites.mp hw
      exact element_lt (base_eq (a := a) ▸ hbase) hrow hd

theorem writes_cell {t n : Nat} {x : Cell} (hx : Writes (a.phasesFrom total blockIdx t n) x) :
    (∃ m, x = .smem blockIdx m) ∨ ∃ i, rowOf blockIdx i < a.S ∧ ∃ d < a.D,
      x = .out (blockIdx.2 * a.S * a.D + rowOf blockIdx i * a.D + d) := by
  obtain ⟨f, hf, i, w, hw, rfl⟩ := hx
  rcases mem_phasesFrom hf with ⟨t', rfl⟩ | rfl | rfl
  · obtain ⟨idx, -, rfl | rfl⟩ := mem_tileWrites.mp hw
    · exact .inl ⟨_, rfl⟩
    · exact .inl ⟨_, rfl⟩
  · exact absurd hw List.not_mem_nil
  · obtain ⟨hrow, d, hd, rfl⟩ := mem_storeWrites.mp hw
    exact .inr ⟨i, hrow, d, hd, rfl⟩

theorem reads_cell {t n : Nat} {x : Cell} (hx : Reads (a.phasesFrom total blockIdx t n) x) :
    x ∈ inputCells total ∨ ∃ m, x = .smem blockIdx m := by
  obtain ⟨f, hf, i, hx⟩ := hx
  rcases mem_phasesFrom hf with ⟨t', rfl⟩ | rfl | rfl
  · exact .inl hx
  · obtain ⟨m, -, rfl⟩ := hx
    exact .inr ⟨m, rfl⟩
  · exact absurd hx (Set.notMem_empty x)

/-- The output is written in the last phase. -/
theorem countP_out (m t n : Nat) :
    (blockWrites (a.phasesFrom total blockIdx t n)).countP (·.1 = .out m) =
      (a.storeFootprint blockIdx (t + n)).allWrites.countP (·.1 = .out m) := by
  induction n generalizing t with
  | zero => simp [phasesFrom, blockWrites]
  | succ n ih =>
      have hload : (a.loadFootprint total blockIdx t).allWrites.countP (·.1 = .out m) = 0 := by
        refine List.countP_eq_zero.mpr fun w hw => ?_
        obtain ⟨i, -, hw⟩ := List.mem_flatMap.mp hw
        obtain ⟨idx, -, rfl | rfl⟩ := mem_tileWrites.mp hw <;> simp [kTile, vTile]
      have habsorb : (a.absorbFootprint blockIdx).allWrites = [] := by
        simp [Footprint.allWrites, absorbFootprint]
      rw [show t + (n + 1) = t + 1 + n by omega, ← ih, phasesFrom, blockWrites,
        List.flatMap_cons, List.flatMap_cons, List.countP_append, hload, habsorb, Nat.zero_add]
      rfl

end FusedJob

end PassionProjects.Flashlite
