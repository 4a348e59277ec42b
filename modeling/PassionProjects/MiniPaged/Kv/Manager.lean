/-
  PassionProjects.MiniPaged.Kv.Manager

  The block tables of all admitted requests over one pool (`PagedKVManager` of
  `kv/manager.py`).  `Holds` ties the tables, the token counts and the pool to the
  number of tokens each request has been given room for.
-/

import Mathlib.Algebra.BigOperators.Group.List.Basic
import Mathlib.Algebra.Order.Floor.Div
import Mathlib.GroupTheory.GroupAction.Ring
import PassionProjects.Lib.Dict
import PassionProjects.MiniPaged.Kv.Table

namespace PassionProjects.MiniPaged

open Raising Raising.Prog

/-- `PagedKVManager` -/
structure PagedKVManager where
  pool : BlockPool
  blockSize : Nat
  tables : Dict RequestId BlockTable := ∅
  usedTokens : Dict RequestId Int := ∅

namespace PagedKVManager

/-- `PagedKVManager.__init__` -/
def new (numBlocks blockSize : Int) : Except PyError PagedKVManager := do
  let pool ← BlockPool.new numBlocks blockSize
  pure { pool, blockSize := blockSize.toNat }

/-- `blocks_needed_for` -/
def blocksNeededFor (mgr : PagedKVManager) (numTokens : Int) : Except PyError Int :=
  MiniPaged.blocksNeededFor numTokens mgr.blockSize

/-- `can_admit` -/
def canAdmit (promptLen : Int) : Py PagedKVManager Bool := do
  let mgr ← read
  let needed ← ofExcept (mgr.blocksNeededFor promptLen)
  pure (needed ≤ mgr.pool.numFree)

/-- An operation on a table, or on one not yet kept, and the pool behind it.  One that
    raises leaves the table as it was. -/
def onTable (table : BlockTable) (m : Py (BlockTable × BlockPool) α) :
    Py PagedKVManager (α × BlockTable) := fun mgr =>
  match m (table, mgr.pool) with
  | (.ok a, (table', pool)) => (.ok (a, table'), { mgr with pool })
  | (.error e, (_, pool)) => (.error e, { mgr with pool })

/-- `self._tables[request_id]` -/
def tableOf (requestId : RequestId) : Py PagedKVManager BlockTable := do
  let mgr ← read
  unwrap (.keyError requestId) (mgr.tables.get? requestId)

/-- `admit` -/
def admitRequest (requestId : RequestId) (promptLen : Int) : Py PagedKVManager Bool := do
  let mgr ← read
  check (requestId ∉ mgr.tables.keys) (.valueError s!"{requestId} is already admitted")
  let ok ← canAdmit promptLen
  if ok then
    let (_, table) ← onTable { blockSize := mgr.blockSize } (BlockTable.growTo promptLen)
    modify fun mgr =>
      { mgr with
        tables := mgr.tables.set requestId table
        usedTokens := mgr.usedTokens.set requestId promptLen }
    pure true
  else pure false

/-- `can_grow_to` -/
def canGrowTo (requestId : RequestId) (numTokens : Int) : Py PagedKVManager Bool := do
  let table ← tableOf requestId
  let mgr ← read
  let needed ← ofExcept (mgr.blocksNeededFor numTokens)
  pure (needed - table.numBlocks ≤ mgr.pool.numFree)

/-- `grow` -/
def grow (requestId : RequestId) (numTokens : Int) : Py PagedKVManager Int := do
  let table ← tableOf requestId
  let (grown, table') ← onTable table (BlockTable.growTo numTokens)
  modify fun mgr =>
    { mgr with
      tables := mgr.tables.set requestId table'
      usedTokens := mgr.usedTokens.set requestId numTokens }
  pure grown

/-- `release` -/
def release (requestId : RequestId) : Py PagedKVManager Nat := do
  let table ← tableOf requestId
  modify fun mgr =>
    { mgr with
      tables := mgr.tables.erase requestId
      usedTokens := mgr.usedTokens.erase requestId }
  let (n, _) ← onTable table BlockTable.freeAll
  pure n

/-- `PagedKVMetrics`, with its ratios as exact rationals. -/
structure PagedKVMetrics where
  numBlocks : Nat
  blockSize : Nat
  freeBlocks : Nat
  allocatedBlocks : Int
  capacityTokens : Nat
  reservedTokens : Int
  usedTokens : Int
  waste : Int
  utilization : ℚ
  wasteRatio : ℚ

/-- `snapshot` -/
def snapshot (mgr : PagedKVManager) : PagedKVMetrics :=
  let allocated := mgr.pool.numAllocated
  let capacityTokens := mgr.pool.numBlocks * mgr.blockSize
  let reservedTokens := allocated * mgr.blockSize
  let usedTokens := mgr.usedTokens.values.sum
  let waste := reservedTokens - usedTokens
  { numBlocks := mgr.pool.numBlocks
    blockSize := mgr.blockSize
    freeBlocks := mgr.pool.numFree
    allocatedBlocks := allocated
    capacityTokens, reservedTokens, usedTokens, waste
    utilization := usedTokens / capacityTokens
    wasteRatio := waste / capacityTokens }

-- ============================================================================
-- What the manager holds
-- ============================================================================

open BlockPool

/-- The blocks in tables. -/
def out (mgr : PagedKVManager) : List Nat := mgr.tables.values.flatMap BlockTable.blockIds

/-- For every request of `lens` there is a table with the blocks its tokens need; the
    tables and the free list share the blocks of the pool among them. -/
structure Holds (mgr : PagedKVManager) (lens : Dict RequestId Nat) : Prop where
  size : 1 ≤ mgr.blockSize
  tables : mgr.tables.mapVal (fun t => (t.blockSize, t.numBlocks)) =
    lens.mapVal fun n => (mgr.blockSize, n ⌈/⌉ mgr.blockSize)
  used : mgr.usedTokens = lens.mapVal Nat.cast
  partition : Partitioned mgr.pool mgr.out

/-- Two managers over pools of one shape, with blocks of one size. -/
def SameManager (mgr mgr' : PagedKVManager) : Prop :=
  SameShape mgr.pool mgr'.pool ∧ mgr'.blockSize = mgr.blockSize

variable {mgr : PagedKVManager} {lens : Dict RequestId Nat} {id : RequestId} {m n : Nat}

theorem wp_onTable (mgr : PagedKVManager) {table : BlockTable} {m : Py (BlockTable × BlockPool) α}
    {Q : α → BlockTable × BlockPool → Prop} {R : BlockPool → Prop}
    (h : wp m Q (fun _ x => R x.2) (table, mgr.pool)) :
    wp (onTable table m)
      (fun r mgr' => Q r.1 (r.2, mgr'.pool) ∧ mgr' = { mgr with pool := mgr'.pool })
      (fun _ mgr' => R mgr'.pool ∧ mgr' = { mgr with pool := mgr'.pool }) mgr := by
  unfold wp onTable at *
  rcases hrun : m (table, mgr.pool) with ⟨_ | _, table', pool⟩
  · rw [hrun] at h
    exact ⟨h, rfl⟩
  · rw [hrun] at h
    exact ⟨h, rfl⟩

theorem onTable_returns (mgr : PagedKVManager) {table : BlockTable}
    {m : Py (BlockTable × BlockPool) α}
    {Q : α → BlockTable × BlockPool → Prop} (h : m.Returns Q (table, mgr.pool)) :
    (onTable table m).Returns
      (fun r mgr' => Q r.1 (r.2, mgr'.pool) ∧ mgr' = { mgr with pool := mgr'.pool }) mgr :=
  wp_mono (wp_onTable mgr (R := fun _ => False) h) (fun _ _ hQ => hQ) fun _ _ hR => hR.1

theorem Holds.keys (h : Holds mgr lens) : mgr.tables.keys = lens.keys := by
  have hkeys := congrArg Dict.keys h.tables
  rwa [Dict.keys_mapVal, Dict.keys_mapVal] at hkeys

/-- The table of a request. -/
theorem Holds.table (h : Holds mgr lens) (hid : lens.get? id = some n) :
    ∃ t, mgr.tables.get? id = some t ∧ t.blockSize = mgr.blockSize ∧
      t.numBlocks = n ⌈/⌉ mgr.blockSize := by
  have hget := congrArg (fun d => d.get? id) h.tables
  rw [Dict.get?_mapVal, Dict.get?_mapVal, hid] at hget
  obtain ⟨t, ht, hval⟩ := Option.map_eq_some_iff.mp hget
  rw [Prod.mk.injEq] at hval
  exact ⟨t, ht, hval⟩

/-- The blocks of all tables. -/
theorem Holds.length_out (h : Holds mgr lens) :
    mgr.out.length = (lens.values.map (· ⌈/⌉ mgr.blockSize)).sum := by
  have hval := congrArg (List.map Prod.snd ∘ Dict.values) h.tables
  simp only [Function.comp_apply, Dict.values_mapVal, List.map_map] at hval
  rw [out, List.length_flatMap]
  exact congrArg List.sum hval

/-- The blocks in tables and the free ones are as many as the pool has. -/
theorem Holds.numFree (h : Holds mgr lens) :
    (lens.values.map (· ⌈/⌉ mgr.blockSize)).sum + mgr.pool.numFree = mgr.pool.numBlocks := by
  rw [← h.length_out]
  exact h.partition.length

theorem Holds.not_mem (h : Holds mgr lens) (hid : lens.get? id = none) :
    mgr.tables.get? id = none := by
  rw [Dict.get?_eq_none, h.keys]
  exact Dict.get?_eq_none.mp hid

/-- A table set anew. -/
theorem Holds.set {t : BlockTable} {pool : BlockPool} (h : Holds mgr lens)
    (hsize : t.blockSize = mgr.blockSize) (hblocks : t.numBlocks = n ⌈/⌉ mgr.blockSize)
    (hpart : Partitioned pool
      (t.blockIds ++ (mgr.tables.erase id).values.flatMap BlockTable.blockIds)) :
    Holds { mgr with
      pool
      tables := mgr.tables.set id t
      usedTokens := mgr.usedTokens.set id (n : Int) } (lens.set id n) where
  size := h.size
  tables := by
    rw [Dict.mapVal_set, Dict.mapVal_set, h.tables, hsize, hblocks]
  used := by
    rw [Dict.mapVal_set]
    exact congrArg (Dict.set · id (n : Int)) h.used
  partition := hpart.congr (Dict.values_set_perm.flatMap_right _).symm

/-- A request that has no table yet gets the blocks of its prompt. -/
theorem admitRequest_spec {id : RequestId} (h : Holds mgr lens) (hid : lens.get? id = none)
    (hfree : n ⌈/⌉ mgr.blockSize ≤ mgr.pool.numFree) :
    (admitRequest id n).Returns
      (fun ok mgr' => ok = true ∧ Holds mgr' (lens.set id n) ∧ SameManager mgr mgr') mgr := by
  have hnone := h.not_mem hid
  refine wp_bind (wp_read.mpr (wp_bind (wp_check (Dict.get?_eq_none.mp hnone) ?_)))
  refine wp_bind (wp_bind (wp_read.mpr (wp_bind
    (wp_ofExcept (blocksNeededFor_eq h.size n) (wp_pure.mpr ?_)))))
  rw [if_pos (decide_eq_true (by omega))]
  have hempty : n ⌈/⌉ mgr.blockSize ≤
      ({ blockSize := mgr.blockSize } : BlockTable).numBlocks + mgr.pool.numFree := by
    show _ ≤ 0 + _
    rwa [Nat.zero_add]
  have hgrow := BlockTable.growTo_spec { blockSize := mgr.blockSize } n h.size h.partition hempty
  refine wp_bind ((onTable_returns _ hgrow).mono fun r mgr' hr => ?_)
  obtain ⟨⟨hsize, hblocks, hpart, hshape⟩, hmgr⟩ := hr
  refine wp_bind (wp_modify.mpr (wp_pure.mpr ⟨rfl, ?_, ?_⟩))
  · rw [hmgr]
    refine h.set hsize (hblocks.trans (Nat.max_eq_right (Nat.zero_le _))) ?_
    rw [Dict.erase_of_none hnone]
    exact hpart
  · rw [hmgr]
    exact ⟨hshape, rfl⟩

/-- Nor does it get any where too few are free. -/
theorem admitRequest_refused {id : RequestId} (h : Holds mgr lens) (hid : lens.get? id = none)
    (hfree : mgr.pool.numFree < n ⌈/⌉ mgr.blockSize) :
    (admitRequest id n).Returns (fun ok mgr' => ok = false ∧ mgr' = mgr) mgr := by
  have hnone := h.not_mem hid
  refine wp_bind (wp_read.mpr (wp_bind (wp_check (Dict.get?_eq_none.mp hnone) ?_)))
  refine wp_bind (wp_bind (wp_read.mpr (wp_bind
    (wp_ofExcept (blocksNeededFor_eq h.size n) (wp_pure.mpr ?_)))))
  rw [if_neg (by rw [decide_eq_true_eq]; omega)]
  exact wp_pure.mpr ⟨rfl, rfl⟩

theorem tableOf_spec {t : BlockTable} (ht : mgr.tables.get? id = some t) :
    (tableOf id).Returns (fun t' mgr' => t' = t ∧ mgr' = mgr) mgr :=
  wp_bind (wp_read.mpr (wp_unwrap ht ⟨rfl, rfl⟩))

/-- The answer of `can_grow_to`. -/
theorem canGrowTo_answer (n : Nat) (h : Holds mgr lens) (hid : lens.get? id = some m) :
    (canGrowTo id n).Returns (fun ok mgr' =>
      ok = decide (n ⌈/⌉ mgr.blockSize ≤ m ⌈/⌉ mgr.blockSize + mgr.pool.numFree) ∧
        mgr' = mgr) mgr := by
  obtain ⟨t, ht, -, hblocks⟩ := h.table hid
  refine (tableOf_spec ht).bind fun t' mgr' ⟨heq, hmgr⟩ => ?_
  subst heq hmgr
  refine wp_bind (wp_read.mpr (wp_bind (wp_ofExcept (blocksNeededFor_eq h.size n) ?_)))
  exact ⟨decide_eq_decide.mpr (by omega), rfl⟩

theorem canGrowTo_spec (h : Holds mgr lens) (hid : lens.get? id = some m)
    (hfree : n ⌈/⌉ mgr.blockSize ≤ m ⌈/⌉ mgr.blockSize + mgr.pool.numFree) :
    (canGrowTo id n).Returns (fun ok mgr' => ok = true ∧ mgr' = mgr) mgr :=
  Returns.mono (canGrowTo_answer n h hid) fun _ _ ⟨hok, hmgr⟩ =>
    ⟨by rw [hok, decide_eq_true hfree], hmgr⟩

/-- A request that has a table gets the blocks that more tokens need. -/
theorem grow_spec (h : Holds mgr lens) (hid : lens.get? id = some m) (hle : m ≤ n)
    (hfree : n ⌈/⌉ mgr.blockSize ≤ m ⌈/⌉ mgr.blockSize + mgr.pool.numFree) :
    (grow id n).Returns
      (fun _ mgr' => Holds mgr' (lens.set id n) ∧ SameManager mgr mgr') mgr := by
  obtain ⟨t, ht, hsize, hblocks⟩ := h.table hid
  refine (tableOf_spec ht).bind fun t' mgr' ⟨heq, hmgr⟩ => ?_
  subst heq hmgr
  have hpart := h.partition.congr ((Dict.values_perm ht).flatMap_right _)
  have hgrow := BlockTable.growTo_spec _ n (hsize ▸ h.size) hpart
    (by rw [hsize, hblocks]; exact hfree)
  refine wp_bind ((onTable_returns _ hgrow).mono fun r mgr' hr => ?_)
  obtain ⟨⟨hsize', hblocks', hpart', hshape⟩, hmgr⟩ := hr
  refine wp_bind (wp_modify.mpr (wp_pure.mpr ⟨?_, ?_⟩))
  · rw [hmgr]
    refine h.set (hsize'.trans hsize) ?_ hpart'
    rw [hblocks', hblocks, hsize]
    exact Nat.max_eq_right (blocks_mono hle _)
  · rw [hmgr]
    exact ⟨hshape, rfl⟩

/-- A request gives its blocks back. -/
theorem release_spec (h : Holds mgr lens) (hid : lens.get? id = some n) :
    (release id).Returns
      (fun _ mgr' => Holds mgr' (lens.erase id) ∧ SameManager mgr mgr') mgr := by
  obtain ⟨t, ht, -, -⟩ := h.table hid
  refine (tableOf_spec ht).bind fun t' mgr' ⟨heq, hmgr⟩ => ?_
  subst heq hmgr
  have hpart := h.partition.congr ((Dict.values_perm ht).flatMap_right _)
  refine wp_bind (wp_modify.mpr (wp_bind ?_))
  have hfree := onTable_returns { mgr' with
    tables := mgr'.tables.erase id
    usedTokens := mgr'.usedTokens.erase id } (BlockTable.freeAll_spec hpart)
  refine hfree.mono fun r mgr'' ⟨⟨hpart', hshape⟩, hmgr⟩ => wp_pure.mpr ⟨?_, ?_⟩
  · rw [hmgr]
    exact {
      size := h.size
      tables := by
        show (Dict.erase _ id).mapVal _ = _
        rw [Dict.mapVal_erase, Dict.mapVal_erase, h.tables]
      used := by
        show Dict.erase _ id = _
        rw [Dict.mapVal_erase, h.used]
      partition := hpart' }
  · rw [hmgr]
    exact ⟨hshape, rfl⟩

end PagedKVManager

end PassionProjects.MiniPaged
