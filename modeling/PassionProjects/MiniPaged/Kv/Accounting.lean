/-
  PassionProjects.MiniPaged.Kv.Accounting

  What holds of the block manager after any calls, failing ones and direct uses of its
  pool among them.  `Accounts` ties the tables, the token counts, the reference counts and
  the free list to the lengths the requests were last given room for and to the
  references that were retained.
-/

import Mathlib.Algebra.Order.BigOperators.Group.List
import PassionProjects.Lib.Results
import PassionProjects.Lib.Transition
import PassionProjects.MiniPaged.Kv.Manager

namespace PassionProjects.MiniPaged

open Raising Raising.Prog Transition BlockPool

-- ============================================================================
-- Calls
-- ============================================================================

/-- A call of the manager, or of `retain` or `release` of its pool. -/
inductive KvCall where
  | admitRequest (requestId : RequestId) (promptLen : Int)
  | grow (requestId : RequestId) (numTokens : Int)
  | release (requestId : RequestId)
  | retainBlock (blockId : Int)
  | releaseBlock (blockId : Int)

namespace PagedKVManager

/-- An operation on the pool. -/
def onPool (m : Py BlockPool α) : Py PagedKVManager α :=
  onPart pool (fun pool mgr => { mgr with pool }) m

/-- A call, with whether it returns anything but `False`. -/
def perform : KvCall → Py PagedKVManager Bool
  | .admitRequest requestId promptLen => admitRequest requestId promptLen
  | .grow requestId numTokens => do
      let _ ← grow requestId numTokens
      pure true
  | .release requestId => do
      let _ ← release requestId
      pure true
  | .retainBlock blockId => do
      let _ ← onPool (BlockPool.retain blockId)
      pure true
  | .releaseBlock blockId => do
      let _ ← onPool (BlockPool.releaseBlock blockId)
      pure true

/-- A call raises or returns `False`. -/
def Refuses (mgr : PagedKVManager) (call : KvCall) : Prop := (perform call mgr).1 ≠ .ok true

end PagedKVManager

/-- The lengths for which requests have room after a call that succeeds. -/
def KvCall.lengths (lens : Dict RequestId Int) : KvCall → Dict RequestId Int
  | .admitRequest requestId n => lens.set requestId n
  | .grow requestId n => lens.set requestId n
  | .release requestId => lens.erase requestId
  | .retainBlock _ => lens
  | .releaseBlock _ => lens

/-- How often each block is retained after a call that succeeds. -/
def KvCall.retains (retained : Nat → Nat) : KvCall → Nat → Nat
  | .retainBlock b => Function.update retained b.toNat (retained b.toNat + 1)
  | .releaseBlock b => Function.update retained b.toNat (retained b.toNat - 1)
  | .admitRequest _ _ => retained
  | .grow _ _ => retained
  | .release _ => retained

/-- A manager with what its calls so far have asked for and been granted. -/
structure KvRun where
  mgr : PagedKVManager
  lens : Dict RequestId Int := ∅
  retained : Nat → Nat := fun _ => 0

/-- A call in a run. -/
def KvRun.step (r : KvRun) (call : KvCall) : KvRun :=
  match PagedKVManager.perform call r.mgr with
  | (.ok true, mgr) => {
      mgr
      lens := call.lengths r.lens
      retained := call.retains r.retained }
  | (_, mgr) => { r with mgr }

/-- A direct release of an allocated block gives back a reference that was retained. -/
def Matched (r : KvRun) : KvCall → Prop
  | .releaseBlock b => 0 ≤ b → r.mgr.pool.refCount b.toNat ≠ 0 → 0 < r.retained b.toNat
  | _ => True

/-- No request is released while one of its blocks is shared. -/
def Unshared (r : KvRun) : KvCall → Prop
  | .release requestId => ∀ t ∈ r.mgr.tables.get? requestId,
      ∀ b ∈ t.blockIds, r.mgr.pool.refCount b = 1
  | _ => True

instance (r : KvRun) : (call : KvCall) → Decidable (Matched r call)
  | .releaseBlock b => inferInstanceAs
      (Decidable (0 ≤ b → r.mgr.pool.refCount b.toNat ≠ 0 → 0 < r.retained b.toNat))
  | .admitRequest _ _ | .grow _ _ | .release _ | .retainBlock _ => .isTrue trivial

instance (r : KvRun) : (call : KvCall) → Decidable (Unshared r call)
  | .release requestId => inferInstanceAs (Decidable (∀ t ∈ r.mgr.tables.get? requestId,
      ∀ b ∈ t.blockIds, r.mgr.pool.refCount b = 1))
  | .admitRequest _ _ | .grow _ _ | .retainBlock _ | .releaseBlock _ => .isTrue trivial

-- ============================================================================
-- The accounts
-- ============================================================================

namespace PagedKVManager

structure Accounts (mgr : PagedKVManager) (lens : Dict RequestId Int) (retained : Nat → Nat) :
    Prop where
  size : 1 ≤ mgr.blockSize
  keys : mgr.tables.keys = lens.keys
  used : mgr.usedTokens = lens
  sizes : ∀ id t, mgr.tables.get? id = some t → t.blockSize = mgr.blockSize
  covers : ∀ id t n, mgr.tables.get? id = some t → lens.get? id = some n →
    0 ≤ n ∧ n.toNat ⌈/⌉ mgr.blockSize ≤ t.numBlocks
  blocks : Counted mgr.pool mgr.out retained

/-- All tables, reference counts and token counts are the same, and the same blocks are
    free. -/
structure Unchanged (mgr mgr' : PagedKVManager) : Prop where
  tables : mgr'.tables = mgr.tables
  usedTokens : mgr'.usedTokens = mgr.usedTokens
  refCounts : mgr'.pool.refCounts = mgr.pool.refCounts
  free : mgr'.pool.free.Perm mgr.pool.free

theorem Unchanged.refl (mgr : PagedKVManager) : Unchanged mgr mgr := ⟨rfl, rfl, rfl, .refl _⟩

variable {mgr mgr' : PagedKVManager} {lens : Dict RequestId Int} {retained : Nat → Nat}
  {id : RequestId} {n : Int} {t : BlockTable} {pool : BlockPool}

/-- A pool with the same blocks out, retained as often. -/
theorem Accounts.withPool (h : Accounts mgr lens retained)
    (hcounted : Counted pool mgr.out retained) (hshape : SameShape mgr.pool pool) :
    Unchanged mgr { mgr with pool } ∧ Accounts { mgr with pool } lens retained := by
  obtain ⟨hcounts, hfree⟩ := h.blocks.determined hcounted hshape
  exact ⟨⟨rfl, rfl, hcounts, hfree⟩, h.size, h.keys, h.used, h.sizes, h.covers, hcounted⟩

/-- A table set anew. -/
theorem Accounts.set (h : Accounts mgr lens retained) (hsize : t.blockSize = mgr.blockSize)
    (hn : 0 ≤ n) (hblocks : n.toNat ⌈/⌉ mgr.blockSize ≤ t.numBlocks)
    (hcounted : Counted pool
      (t.blockIds ++ (mgr.tables.erase id).values.flatMap BlockTable.blockIds) retained) :
    Accounts { mgr with
      pool
      tables := mgr.tables.set id t
      usedTokens := mgr.usedTokens.set id n } (lens.set id n) retained where
  size := h.size
  keys := by
    show (mgr.tables.set id t).keys = (lens.set id n).keys
    cases hid : mgr.tables.get? id with
    | none =>
        have hnone : lens.get? id = none := by
          rw [Dict.get?_eq_none, ← h.keys]
          exact Dict.get?_eq_none.mp hid
        rw [Dict.keys_set_new hid, Dict.keys_set_new hnone, h.keys]
    | some t' =>
        obtain ⟨n', hn'⟩ := Dict.mem_keys.mp (h.keys ▸ Dict.mem_keys_of_get? hid)
        rw [Dict.keys_set_of_get? hid, Dict.keys_set_of_get? hn', h.keys]
  used := congrArg (Dict.set · id n) h.used
  sizes := fun id' t' ht' => by
    rw [Dict.get?_set] at ht'
    split at ht'
    · cases ht'
      exact hsize
    · exact h.sizes id' t' ht'
  covers := fun id' t' n' ht' hn' => by
    rw [Dict.get?_set] at ht' hn'
    split at ht'
    · next heq =>
      rw [if_pos heq] at hn'
      cases ht'
      cases hn'
      exact ⟨hn, hblocks⟩
    · next hne =>
      rw [if_neg hne] at hn'
      exact h.covers id' t' n' ht' hn'
  blocks := hcounted.congr (Dict.values_set_perm.flatMap_right _).symm

/-- `admit` succeeds, or returns `False` or raises and changes nothing. -/
theorem admitRequest_accounts (h : Accounts mgr lens retained) (id : RequestId) (n : Int) :
    wp (admitRequest id n)
      (fun ok mgr' => ok = true ∧ Accounts mgr' (lens.set id n) retained ∨
        ok = false ∧ mgr' = mgr)
      (fun _ mgr' => Unchanged mgr mgr' ∧ Accounts mgr' lens retained) mgr := by
  refine wp_bind (wp_read.mpr (wp_bind ?_))
  by_cases hnew : id ∉ mgr.tables.keys
  swap
  · rw [check, if_neg hnew]
    exact ⟨.refl mgr, h⟩
  refine wp_check hnew (wp_bind (wp_bind (wp_read.mpr (wp_bind ?_))))
  by_cases hneg : n < 0
  · rw [blocksNeededFor, MiniPaged.blocksNeededFor, if_pos hneg]
    exact ⟨.refl mgr, h⟩
  obtain ⟨k, rfl⟩ := Int.eq_ofNat_of_zero_le (Int.not_lt.mp hneg)
  refine wp_ofExcept (blocksNeededFor_eq h.size k) (wp_pure.mpr ?_)
  split
  · next hfits =>
    have hgrow := BlockTable.growTo_counted { blockSize := mgr.blockSize } mgr.out k
      h.size h.blocks
    refine wp_bind (wp_mono (wp_onTable mgr (R := fun pool => Counted pool mgr.out retained ∧
      SameShape mgr.pool pool) (wp_mono hgrow (fun _ _ hQ => hQ) fun _ _ hR => hR.2))
      (fun r mgr' hr => ?_) fun _ mgr' hR => ?_)
    · obtain ⟨⟨hk, hsize, hblocks, hcounted, -⟩, hmgr⟩ := hr
      refine wp_bind (wp_modify.mpr (wp_pure.mpr (.inl ⟨rfl, ?_⟩)))
      rw [hmgr]
      refine h.set hsize hk (hblocks ▸ Nat.le_max_right _ _) ?_
      rw [Dict.erase_of_none (Dict.get?_eq_none.mpr hnew)]
      exact hcounted
    · obtain ⟨⟨hcounted, hshape⟩, hmgr⟩ := hR
      rw [hmgr]
      exact h.withPool hcounted hshape
  · exact wp_pure.mpr (.inr ⟨rfl, rfl⟩)

theorem wp_tableOf {Q : BlockTable → PagedKVManager → Prop} {R : PyError → PagedKVManager → Prop}
    (hok : ∀ t, mgr.tables.get? id = some t → Q t mgr)
    (herr : mgr.tables.get? id = none → ∀ e, R e mgr) : wp (tableOf id) Q R mgr := by
  refine wp_bind (wp_read.mpr ?_)
  cases ht : mgr.tables.get? id with
  | some t => exact wp_unwrap rfl (hok t ht)
  | none => exact herr ht _

/-- `grow` succeeds, or raises and changes nothing. -/
theorem grow_accounts (h : Accounts mgr lens retained) (id : RequestId) (n : Int) :
    wp (grow id n) (fun _ mgr' => Accounts mgr' (lens.set id n) retained)
      (fun _ mgr' => Unchanged mgr mgr' ∧ Accounts mgr' lens retained) mgr := by
  refine wp_bind (wp_tableOf (fun t ht => ?_) fun _ _ => ⟨.refl mgr, h⟩)
  have hperm := (Dict.values_perm ht).flatMap_right BlockTable.blockIds
  have hsize := h.sizes id t ht
  have hgrow := BlockTable.growTo_counted t _ n (hsize ▸ h.size) (h.blocks.congr hperm)
  refine wp_bind (wp_mono (wp_onTable mgr (R := fun pool => Counted pool mgr.out retained ∧
    SameShape mgr.pool pool) (wp_mono hgrow (fun _ _ hQ => hQ)
      fun _ _ hR => ⟨hR.2.1.congr hperm.symm, hR.2.2⟩))
    (fun r mgr' hr => ?_) fun _ mgr' hR => ?_)
  · obtain ⟨⟨hn, hsize', hblocks, hcounted, -⟩, hmgr⟩ := hr
    refine wp_bind (wp_modify.mpr (wp_pure.mpr ?_))
    rw [hmgr]
    refine h.set (hsize'.trans hsize) hn ?_ hcounted
    rw [hblocks, hsize]
    exact Nat.le_max_right _ _
  · obtain ⟨⟨hcounted, hshape⟩, hmgr⟩ := hR
    rw [hmgr]
    exact h.withPool hcounted hshape

/-- `release` of a request without shared blocks succeeds; of no request it changes
    nothing. -/
theorem release_accounts (h : Accounts mgr lens retained) (id : RequestId)
    (hsole : ∀ t, mgr.tables.get? id = some t → ∀ b ∈ t.blockIds, mgr.pool.refCount b = 1) :
    wp (release id) (fun _ mgr' => Accounts mgr' (lens.erase id) retained)
      (fun _ mgr' => mgr' = mgr ∧ id ∉ mgr.tables.keys) mgr := by
  refine wp_bind (wp_tableOf (fun t ht => ?_) fun hnone _ => ⟨rfl, Dict.get?_eq_none.mp hnone⟩)
  have hcounted := h.blocks.congr ((Dict.values_perm ht).flatMap_right BlockTable.blockIds)
  have hunretained : ∀ b ∈ t.blockIds, retained b = 0 := fun b hb => by
    have hone := hsole t ht b hb
    rw [hcounted.held b (List.mem_append_left _ hb)] at hone
    omega
  refine wp_bind (wp_modify.mpr (wp_bind ?_))
  have hfree := onTable_returns { mgr with
    tables := mgr.tables.erase id
    usedTokens := mgr.usedTokens.erase id } (BlockTable.freeAll_counted hcounted hunretained)
  refine wp_mono hfree (fun r mgr' ⟨⟨hcounted', _⟩, hmgr⟩ => wp_pure.mpr ?_) fun _ _ hR => hR.elim
  rw [hmgr]
  exact {
    size := h.size
    keys := by
      show (mgr.tables.erase id).keys = _
      rw [Dict.keys_erase, Dict.keys_erase, h.keys]
    used := congrArg (Dict.erase · id) h.used
    sizes := fun id' t' ht' => by
      rw [Dict.get?_erase] at ht'
      split at ht'
      · cases ht'
      · exact h.sizes id' t' ht'
    covers := fun id' t' n' ht' hn' => by
      rw [Dict.get?_erase] at ht' hn'
      split at ht'
      · cases ht'
      · next hne =>
        rw [if_neg hne] at hn'
        exact h.covers id' t' n' ht' hn'
    blocks := hcounted' }

/-- A pool in which one block is retained more or less often. -/
theorem Accounts.recount {retained' : Nat → Nat} (h : Accounts mgr lens retained)
    (hcounted : Counted pool mgr.out retained') : Accounts { mgr with pool } lens retained' :=
  ⟨h.size, h.keys, h.used, h.sizes, h.covers, hcounted⟩

theorem retainBlock_accounts (h : Accounts mgr lens retained) (blockId : Int) :
    wp (onPool (BlockPool.retain blockId))
      (fun _ mgr' => Accounts mgr' lens ((KvCall.retainBlock blockId).retains retained))
      (fun _ mgr' => mgr' = mgr) mgr := by
  refine wp_onPart (wp_mono (retain_counted h.blocks blockId) (fun _ pool' hQ => ?_)
    fun _ pool' hR => by rw [hR])
  obtain ⟨b, rfl, -, hcounted, -⟩ := hQ
  exact h.recount hcounted

theorem releaseBlock_accounts (h : Accounts mgr lens retained) (blockId : Int)
    (hmatched : 0 ≤ blockId → mgr.pool.refCount blockId.toNat ≠ 0 → 0 < retained blockId.toNat) :
    wp (onPool (BlockPool.releaseBlock blockId))
      (fun _ mgr' => Accounts mgr' lens ((KvCall.releaseBlock blockId).retains retained))
      (fun _ mgr' => mgr' = mgr) mgr := by
  have hretained : ∀ b : Nat, blockId = b → b ∈ mgr.out → 0 < retained b := by
    rintro b rfl hb
    refine hmatched (Int.natCast_nonneg b) ?_
    show mgr.pool.refCount b ≠ 0
    rw [h.blocks.held b hb]
    exact Nat.succ_ne_zero _
  refine wp_onPart (wp_mono (releaseBlock_counted h.blocks blockId hretained) (fun _ pool' hQ => ?_)
    fun _ pool' hR => by rw [hR])
  obtain ⟨b, rfl, -, hcounted, -⟩ := hQ
  exact h.recount hcounted

/-- Bounds for each term bound a sum. -/
theorem sum_le_sum_mul {α : Type} {f : α → Int} {g : α → Nat} {c : Nat} {ks : List α}
    (h : ∀ k ∈ ks, f k ≤ g k * c) : (ks.map f).sum ≤ (ks.map g).sum * (c : Int) := by
  induction ks with
  | nil => simp
  | cons k ks ih =>
      have hhead := h k List.mem_cons_self
      have htail := ih fun k' hk' => h k' (List.mem_cons_of_mem _ hk')
      rw [List.map_cons, List.map_cons, List.sum_cons, List.sum_cons, Nat.cast_add, add_mul]
      exact add_le_add hhead htail

/-- The tokens in use have room in the blocks that are out. -/
theorem Accounts.waste_nonneg (h : Accounts mgr lens retained) : 0 ≤ mgr.snapshot.waste := by
  have hlens := Dict.values_eq_map_keys (d := lens) 0
  have htables := Dict.values_eq_map_keys (d := mgr.tables) { blockSize := 0 }
  have hroom : lens.values.sum ≤ mgr.out.length * (mgr.blockSize : Int) := by
    rw [hlens, out, List.length_flatMap, htables, List.map_map, h.keys]
    refine sum_le_sum_mul fun id hid => ?_
    obtain ⟨n, hn⟩ := Dict.mem_keys.mp hid
    obtain ⟨t, ht⟩ := Dict.mem_keys.mp (h.keys ▸ hid : id ∈ mgr.tables.keys)
    obtain ⟨hpos, hblocks⟩ := h.covers id t n ht hn
    rw [Function.comp_apply, hn, ht, Option.getD_some, Option.getD_some]
    have hceil : n.toNat ≤ mgr.blockSize * t.numBlocks := (ceilDiv_le_iff_le_mul h.size).mp hblocks
    have hcast : (n.toNat : Int) ≤ t.blockIds.length * mgr.blockSize := by
      rw [Nat.mul_comm] at hceil
      exact_mod_cast hceil
    omega
  have hlength := h.blocks.length
  show 0 ≤ ((mgr.pool.numBlocks : Int) - mgr.pool.numFree) * mgr.blockSize -
    mgr.usedTokens.values.sum
  rw [h.used, ← hlength, Nat.cast_add, add_sub_cancel_right]
  omega

-- ============================================================================
-- Runs
-- ============================================================================

theorem accounts_new {numBlocks blockSize : Int}
    (h : PagedKVManager.new numBlocks blockSize = .ok mgr) : Accounts mgr ∅ fun _ => 0 := by
  obtain ⟨pool, hpool, hmgr⟩ := Results.bind_eq_ok.mp h
  by_cases hn : 1 ≤ numBlocks
  swap
  · rw [BlockPool.new, if_pos (by omega)] at hpool
    cases hpool
  by_cases hs : 1 ≤ blockSize
  swap
  · rw [BlockPool.new, if_neg (by omega), if_pos (by omega)] at hpool
    cases hpool
  obtain ⟨pool', hpool', hpart, -, -⟩ := partitioned_new hn hs
  obtain rfl := Except.ok.inj (hpool.symm.trans hpool')
  cases hmgr
  exact {
    size := by show 1 ≤ blockSize.toNat; omega
    keys := rfl
    used := rfl
    sizes := fun _ _ ht => by cases ht
    covers := fun _ _ _ ht => by cases ht
    blocks := partitioned_iff.mp hpart }

/-- What a call leaves of the accounts, where it succeeds and where it does not. -/
theorem perform_accounts (h : Accounts mgr lens retained) (call : KvCall)
    (hmatched : Matched ⟨mgr, lens, retained⟩ call)
    (hunshared : Unshared ⟨mgr, lens, retained⟩ call) :
    wp (perform call)
      (fun ok mgr' => ok = true ∧ Accounts mgr' (call.lengths lens) (call.retains retained) ∨
        ok = false ∧ Unchanged mgr mgr' ∧ Accounts mgr' lens retained)
      (fun _ mgr' => Unchanged mgr mgr' ∧ Accounts mgr' lens retained) mgr := by
  cases call with
  | admitRequest id n =>
      refine wp_mono (admitRequest_accounts h id n) (fun ok mgr' hok => ?_) fun _ _ hR => hR
      rcases hok with hok | ⟨hok, rfl⟩
      · exact .inl hok
      · exact .inr ⟨hok, .refl _, h⟩
  | grow id n =>
      exact wp_bind (wp_mono (grow_accounts h id n) (fun _ _ hQ => .inl ⟨rfl, hQ⟩) fun _ _ hR => hR)
  | release id =>
      refine wp_bind (wp_mono (release_accounts h id hunshared) (fun _ _ hQ => .inl ⟨rfl, hQ⟩) ?_)
      rintro _ mgr' ⟨rfl, -⟩
      exact ⟨.refl _, h⟩
  | retainBlock b =>
      refine wp_bind (wp_mono (retainBlock_accounts h b) (fun _ _ hQ => .inl ⟨rfl, hQ⟩) ?_)
      rintro _ mgr' rfl
      exact ⟨.refl _, h⟩
  | releaseBlock b =>
      refine wp_bind (wp_mono (releaseBlock_accounts h b hmatched)
        (fun _ _ hQ => .inl ⟨rfl, hQ⟩) ?_)
      rintro _ mgr' rfl
      exact ⟨.refl _, h⟩

end PagedKVManager

open PagedKVManager

namespace KvRun

variable {r : KvRun} {call : KvCall}

/-- The accounts of a run. -/
def Sound (r : KvRun) : Prop := Accounts r.mgr r.lens r.retained

theorem step_cases (h : r.Sound) (hmatched : Matched r call) (hunshared : Unshared r call) :
    (r.step call).Sound ∧ (r.mgr.Refuses call → Unchanged r.mgr (r.step call).mgr) := by
  have hcall := perform_accounts h call hmatched hunshared
  unfold wp at hcall
  unfold step Refuses
  rcases hrun : perform call r.mgr with ⟨_ | ok, mgr'⟩
  · rw [hrun] at hcall
    exact ⟨hcall.2, fun _ => hcall.1⟩
  · rw [hrun] at hcall
    rcases hcall with ⟨rfl, haccounts⟩ | ⟨rfl, hsame, haccounts⟩
    · exact ⟨haccounts, fun hrefuses => absurd rfl hrefuses⟩
    · exact ⟨haccounts, fun _ => hsame⟩

/-- A released request has no table, and no other request gets one. -/
theorem step_release (h : r.Sound) {id : RequestId} (hunshared : Unshared r (.release id)) :
    (r.step (.release id)).mgr.tables.keys ⊆ r.mgr.tables.keys.filter (· ≠ id) := by
  have hcall : wp (perform (.release id))
      (fun ok mgr' => ok = true ∧ Accounts mgr' (r.lens.erase id) r.retained)
      (fun _ mgr' => mgr' = r.mgr ∧ id ∉ r.mgr.tables.keys) r.mgr :=
    wp_bind (wp_mono (release_accounts h id hunshared) (fun _ _ hQ => ⟨rfl, hQ⟩) fun _ _ hR => hR)
  unfold wp at hcall
  unfold step
  rcases hrun : perform (.release id) r.mgr with ⟨_ | ok, mgr'⟩
  · rw [hrun] at hcall
    obtain ⟨rfl, hid⟩ := hcall
    intro id' hid'
    exact List.mem_filter.mpr ⟨hid', decide_eq_true fun heq => hid (heq ▸ hid')⟩
  · rw [hrun] at hcall
    obtain ⟨rfl, haccounts⟩ := hcall
    have hkeys : mgr'.tables.keys = r.mgr.tables.keys.filter (· ≠ id) := by
      rw [haccounts.keys, Dict.keys_erase, h.keys]
    exact fun _ hmem => hkeys ▸ hmem

/-- When all requests are released every block is free. -/
theorem drain (h : r.Sound) {ids : List RequestId} (hall : r.mgr.tables.keys ⊆ ids)
    (hunshared : Throughout step Unshared r (ids.map .release)) :
    let mgr := ((ids.map .release).foldl step r).mgr
    mgr.pool.free.Perm (List.range mgr.pool.numBlocks) := by
  induction ids generalizing r with
  | nil =>
      have hnone : r.mgr.out = [] := by
        have hkeys := List.eq_nil_of_subset_nil hall
        unfold out Dict.values
        rw [List.map_eq_nil_iff.mp hkeys]
        rfl
      have hperm := h.blocks.perm
      rwa [hnone] at hperm
  | cons id ids ih =>
      obtain ⟨hfirst, hrest⟩ := hunshared
      have hsound := (step_cases h (show Matched r (.release id) from trivial) hfirst).1
      refine ih hsound (fun id' hid' => ?_) hrest
      obtain ⟨hmem, hne⟩ := List.mem_filter.mp (step_release h hfirst hid')
      exact (List.mem_cons.mp (hall hmem)).resolve_left (of_decide_eq_true hne)

/-- What the allocator promises of its blocks. -/
structure Accounted (r : KvRun) : Prop where
  freeList : ∀ b, r.mgr.pool.free.count b =
    if b < r.mgr.pool.numBlocks ∧ r.mgr.pool.refCount b = 0 then 1 else 0
  tables : r.mgr.out.Nodup
  requests : r.mgr.tables.keys = r.lens.keys
  covers : ∀ id t n, r.mgr.tables.get? id = some t → r.lens.get? id = some n →
    n ≤ t.capacityTokens
  waste : 0 ≤ r.mgr.snapshot.waste

theorem Sound.accounted (h : r.Sound) : Accounted r where
  freeList b := by
    have hnodup := (List.nodup_append.mp h.blocks.nodup).2.1
    split
    · next hfree =>
      refine List.count_eq_one_of_mem hnodup ?_
      have hmem := h.blocks.perm.mem_iff.mpr (List.mem_range.mpr hfree.1)
      refine (List.mem_append.mp hmem).resolve_left fun hout => ?_
      rw [h.blocks.held b hout] at hfree
      exact Nat.succ_ne_zero _ hfree.2
    · next hheld =>
      refine List.count_eq_zero.mpr fun hmem => hheld ⟨?_, h.blocks.unheld b hmem⟩
      exact h.blocks.lt (List.mem_append_right _ hmem)
  tables := (List.nodup_append.mp h.blocks.nodup).1
  requests := h.keys
  covers id t n ht hn := by
    obtain ⟨hpos, hblocks⟩ := h.covers id t n ht hn
    have hceil : n.toNat ≤ r.mgr.blockSize * t.numBlocks :=
      (ceilDiv_le_iff_le_mul h.size).mp hblocks
    rw [BlockTable.capacityTokens, h.sizes id t ht, Nat.mul_comm]
    omega
  waste := h.waste_nonneg

end KvRun

/-- In a run that gives back by direct calls only what it retained, and that releases no
    request while one of its blocks is shared, no block is lost, duplicated or leaked; a
    call that fails changes nothing; and when all requests are released every block is
    free. -/
theorem blocks_accounted (numBlocks blockSize : Int) (mgr : PagedKVManager)
    (hnew : PagedKVManager.new numBlocks blockSize = .ok mgr) (calls : List KvCall)
    (hcalls : Throughout KvRun.step (fun r call => Matched r call ∧ Unshared r call)
      { mgr } calls) :
    let r := calls.foldl KvRun.step { mgr }
    r.Accounted ∧
    (∀ call, Matched r call → Unshared r call → r.mgr.Refuses call →
      Unchanged r.mgr (r.step call).mgr) ∧
    ∀ ids, r.mgr.tables.keys ⊆ ids → Throughout KvRun.step Unshared r (ids.map .release) →
      let mgr' := ((ids.map .release).foldl KvRun.step r).mgr
      mgr'.pool.free.Perm (List.range mgr'.pool.numBlocks) := by
  intro r
  have hsound : r.Sound := hcalls.invariant (I := fun _ r => r.Sound)
    (fun _ _ _ h hP => (KvRun.step_cases h hP.1 hP.2).1) (accounts_new hnew)
  exact ⟨hsound.accounted,
    fun call hmatched hunshared => (KvRun.step_cases hsound hmatched hunshared).2,
    fun ids hall hunshared => KvRun.drain hsound hall hunshared⟩

/-- Four blocks of one token. -/
def fourBlocks : PagedKVManager where
  pool := { numBlocks := 4, blockSize := 1, refCounts := [0, 0, 0, 0], free := [0, 1, 2, 3] }
  blockSize := 1

/-- A request grows beyond the pool, is grown to fewer tokens and is released, with a
    block of it retained in between. -/
theorem blocks_accounted_demo :
    let r := [KvCall.admitRequest "a" 2, .retainBlock 3, .grow "a" 5, .releaseBlock 3,
      .grow "a" 1].foldl KvRun.step { mgr := fourBlocks }
    r.Accounted ∧ (([KvCall.release "a"].foldl KvRun.step r).mgr.pool.free.Perm [0, 1, 2, 3]) := by
  obtain ⟨haccounted, -, hdrain⟩ := blocks_accounted 4 1 fourBlocks rfl [.admitRequest "a" 2,
    .retainBlock 3, .grow "a" 5, .releaseBlock 3, .grow "a" 1] (by decide +kernel)
  exact ⟨haccounted, hdrain ["a"] (by decide +kernel) (by decide +kernel)⟩

/-- A request is released while a block of it is retained: the call raises, with the table
    gone and the block left out for good. -/
theorem leaked_on_release :
    let calls := [KvCall.admitRequest "a" 2, .retainBlock 3]
    let r := calls.foldl KvRun.step { mgr := fourBlocks }
    let r' := [KvCall.release "a", .releaseBlock 3].foldl KvRun.step r
    PagedKVManager.new 4 1 = .ok fourBlocks ∧
    Throughout KvRun.step Matched { mgr := fourBlocks } (calls ++ [.release "a", .releaseBlock 3]) ∧
    r.mgr.Refuses (.release "a") ∧ ¬ Unchanged r.mgr (r.step (.release "a")).mgr ∧
    r'.mgr.tables.keys = [] ∧ r'.mgr.pool.free = [0, 1] := by
  refine ⟨rfl, by decide +kernel, by unfold Refuses; decide +kernel, fun h => ?_,
    by decide +kernel, by decide +kernel⟩
  exact absurd (congrArg Dict.keys h.tables) (by decide +kernel)

end PassionProjects.MiniPaged
