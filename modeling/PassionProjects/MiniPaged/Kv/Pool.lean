/-
  PassionProjects.MiniPaged.Kv.Pool

  The physical block pool (`kv/block.py`, `kv/pool.py`): reference counts and a free
  list used as a stack.  `Counted` says which blocks are out, that they and the free ones
  are all the blocks there are, each once, and how often each is referred to;
  `Partitioned` is the case that no block is shared.
-/

import Mathlib.Data.List.Range
import PassionProjects.MiniPaged.Basic

namespace PassionProjects.MiniPaged

open Raising Raising.Prog

/-- `BlockPool`: block `i` has the reference count at index `i`; the end of the free
    list is the top of the stack. -/
structure BlockPool where
  numBlocks : Nat
  blockSize : Nat
  refCounts : List Nat
  free : List Nat

namespace BlockPool

/-- `BlockPool.__init__` -/
def new (numBlocks blockSize : Int) : Except PyError BlockPool :=
  if numBlocks < 1 then .error (.valueError s!"num_blocks must be >= 1, got {numBlocks}")
  else if blockSize < 1 then .error (.valueError s!"block_size must be >= 1, got {blockSize}")
  else .ok {
    numBlocks := numBlocks.toNat
    blockSize := blockSize.toNat
    refCounts := List.replicate numBlocks.toNat 0
    free := List.range numBlocks.toNat }

/-- `num_free` -/
def numFree (pool : BlockPool) : Nat := pool.free.length

/-- `num_allocated` -/
def numAllocated (pool : BlockPool) : Int := pool.numBlocks - pool.numFree

/-- `_blocks[block_id].ref_count` -/
def refCount (pool : BlockPool) (blockId : Nat) : Nat := pool.refCounts.getD blockId 0

/-- `_blocks[block_id].ref_count = count` -/
def setRefCount (pool : BlockPool) (blockId count : Nat) : BlockPool :=
  { pool with refCounts := pool.refCounts.set blockId count }

/-- `_validate_block_id` -/
def validateBlockId (blockId : Int) : Py BlockPool Unit := do
  let pool ← read
  check (0 ≤ blockId ∧ blockId < pool.numBlocks) (.valueError
    (s!"block_id {blockId} out of range for pool of {pool.numBlocks} blocks " ++
      s!"(valid range: [0, {pool.numBlocks}))"))

/-- `allocate` -/
def allocate : Py BlockPool Nat := do
  let pool ← read
  let blockId ← unwrap
    (.blockPoolExhausted s!"no free blocks (0/{pool.numBlocks} available)") pool.free.getLast?
  modify fun pool => { pool with free := pool.free.dropLast }
  check (pool.refCount blockId = 0) (.assertionError
    (s!"invariant violated: block {blockId} was on the free list with " ++
      s!"ref_count={pool.refCount blockId} (expected 0)"))
  modify fun pool => pool.setRefCount blockId 1
  pure blockId

/-- `free` -/
def freeBlock (blockId : Int) : Py BlockPool Unit := do
  validateBlockId blockId
  let pool ← read
  check (pool.refCount blockId.toNat = 1) (.valueError
    (s!"free() requires sole ownership (ref_count==1); block {blockId} has " ++
      s!"ref_count={pool.refCount blockId.toNat} -- use release() for shared blocks"))
  modify fun pool =>
    { pool.setRefCount blockId.toNat 0 with free := pool.free ++ [blockId.toNat] }

/-- `retain` -/
def retain (blockId : Int) : Py BlockPool Nat := do
  validateBlockId blockId
  let pool ← read
  check (1 ≤ pool.refCount blockId.toNat)
    (.valueError s!"cannot retain free block {blockId} (ref_count=0)")
  let count := pool.refCount blockId.toNat + 1
  modify fun pool => pool.setRefCount blockId.toNat count
  pure count

/-- `release` -/
def releaseBlock (blockId : Int) : Py BlockPool Nat := do
  validateBlockId blockId
  let pool ← read
  check (1 ≤ pool.refCount blockId.toNat)
    (.valueError s!"block {blockId} is already free -- double release")
  let count := pool.refCount blockId.toNat - 1
  modify fun pool => pool.setRefCount blockId.toNat count
  if count = 0 then
    modify fun pool => { pool with free := pool.free ++ [blockId.toNat] }
  pure count

-- ============================================================================
-- Free blocks and blocks that are out
-- ============================================================================

/-- The blocks that are `out`, each with the reference of its holder and with those that
    were `retained`, and the free ones, with none, are all the blocks there are, each
    once. -/
structure Counted (pool : BlockPool) (out : List Nat) (retained : Nat → Nat) : Prop where
  perm : (out ++ pool.free).Perm (List.range pool.numBlocks)
  counts : pool.refCounts.length = pool.numBlocks
  held : ∀ b ∈ out, pool.refCount b = retained b + 1
  unheld : ∀ b ∈ pool.free, pool.refCount b = 0
  idle : ∀ b ∉ out, retained b = 0

/-- The blocks that are `out`, each with one reference, and the free ones, with none,
    are all the blocks there are, each once. -/
structure Partitioned (pool : BlockPool) (out : List Nat) : Prop where
  perm : (out ++ pool.free).Perm (List.range pool.numBlocks)
  counts : pool.refCounts.length = pool.numBlocks
  held : ∀ b ∈ out, pool.refCount b = 1
  unheld : ∀ b ∈ pool.free, pool.refCount b = 0

/-- Two pools with as many blocks of the same size. -/
def SameShape (pool pool' : BlockPool) : Prop :=
  pool'.numBlocks = pool.numBlocks ∧ pool'.blockSize = pool.blockSize

theorem SameShape.refl (pool : BlockPool) : SameShape pool pool := ⟨rfl, rfl⟩

theorem SameShape.trans {pool pool' pool'' : BlockPool} (h : SameShape pool pool')
    (h' : SameShape pool' pool'') : SameShape pool pool'' :=
  ⟨h'.1.trans h.1, h'.2.trans h.2⟩

variable {pool pool' : BlockPool} {out out' : List Nat} {retained : Nat → Nat} {b c n : Nat}

theorem partitioned_iff : Partitioned pool out ↔ Counted pool out fun _ => 0 :=
  ⟨fun h => ⟨h.perm, h.counts, h.held, h.unheld, fun _ _ => rfl⟩,
    fun h => ⟨h.perm, h.counts, h.held, h.unheld⟩⟩

namespace Counted

theorem congr (h : Counted pool out retained) (hperm : out.Perm out') :
    Counted pool out' retained where
  perm := (hperm.symm.append_right _).trans h.perm
  counts := h.counts
  held := fun b hb => h.held b (hperm.mem_iff.mpr hb)
  unheld := h.unheld
  idle := fun b hb => h.idle b fun hmem => hb (hperm.mem_iff.mp hmem)

theorem length (h : Counted pool out retained) : out.length + pool.numFree = pool.numBlocks := by
  have hlen := h.perm.length_eq
  rwa [List.length_append, List.length_range] at hlen

theorem nodup (h : Counted pool out retained) : (out ++ pool.free).Nodup :=
  h.perm.nodup_iff.mpr List.nodup_range

theorem lt (h : Counted pool out retained) (hb : b ∈ out ++ pool.free) : b < pool.numBlocks :=
  List.mem_range.mp (h.perm.mem_iff.mp hb)

/-- A block with a reference is out. -/
theorem mem_out (h : Counted pool out retained) (hlt : b < pool.numBlocks)
    (hb : pool.refCount b ≠ 0) : b ∈ out :=
  (List.mem_append.mp (h.perm.mem_iff.mpr (List.mem_range.mpr hlt))).resolve_right
    fun hfree => hb (h.unheld b hfree)

end Counted

/-- A block that is not out has no reference. -/
theorem Counted.refCount_eq (h : Counted pool out retained) (b : Nat) :
    pool.refCount b = if b ∈ out then retained b + 1 else 0 := by
  split
  · next hout => exact h.held b hout
  · next hin =>
    by_cases hlt : b < pool.numBlocks
    · by_contra hcount
      exact hin (h.mem_out hlt hcount)
    · unfold refCount
      rw [List.getD_eq_getElem?_getD, List.getElem?_eq_none (by rw [h.counts]; omega)]
      rfl

/-- The blocks that are out and how often they were retained give the counts and, in some
    order, the free list. -/
theorem Counted.determined (h : Counted pool out retained) (h' : Counted pool' out retained)
    (hshape : SameShape pool pool') :
    pool'.refCounts = pool.refCounts ∧ pool'.free.Perm pool.free := by
  refine ⟨List.ext_getElem (by rw [h.counts, h'.counts, hshape.1]) fun b hb hb' => ?_, ?_⟩
  · have hcount : pool'.refCount b = pool.refCount b := by rw [h.refCount_eq, h'.refCount_eq]
    unfold refCount at hcount
    rwa [List.getD_eq_getElem?_getD, List.getD_eq_getElem?_getD, List.getElem?_eq_getElem hb,
      List.getElem?_eq_getElem hb'] at hcount
  · refine (List.perm_append_left_iff out).mp (h'.perm.trans ?_)
    rw [hshape.1]
    exact h.perm.symm

theorem Partitioned.congr (h : Partitioned pool out) (hperm : out.Perm out') :
    Partitioned pool out' :=
  partitioned_iff.mpr ((partitioned_iff.mp h).congr hperm)

theorem Partitioned.length (h : Partitioned pool out) :
    out.length + pool.numFree = pool.numBlocks :=
  (partitioned_iff.mp h).length

theorem Partitioned.nodup (h : Partitioned pool out) : (out ++ pool.free).Nodup :=
  (partitioned_iff.mp h).nodup

theorem refCount_set (hb : b < pool.refCounts.length) :
    (pool.setRefCount b n).refCount c = if c = b then n else pool.refCount c := by
  unfold refCount setRefCount
  rw [List.getD_eq_getElem?_getD, List.getD_eq_getElem?_getD, List.getElem?_set]
  split
  · next heq => rw [if_pos heq.symm, Option.getD_some]
  · next hne => rw [if_neg fun heq => hne heq.symm]

theorem partitioned_new {numBlocks blockSize : Int} (hn : 1 ≤ numBlocks) (hs : 1 ≤ blockSize) :
    ∃ pool, BlockPool.new numBlocks blockSize = .ok pool ∧ Partitioned pool [] ∧
      pool.numBlocks = numBlocks.toNat ∧ pool.blockSize = blockSize.toNat := by
  refine ⟨_, by rw [BlockPool.new, if_neg (by omega), if_neg (by omega)], ?_, rfl, rfl⟩
  exact {
    perm := List.Perm.refl _
    counts := List.length_replicate
    held := fun b hb => absurd hb List.not_mem_nil
    unheld := fun b _ => by
      show (List.replicate _ 0).getD b 0 = 0
      rw [List.getD_eq_getElem?_getD, List.getElem?_replicate]
      split <;> rfl }

-- ============================================================================
-- The operations
-- ============================================================================

/-- A block is taken from the top of the stack while there is one. -/
theorem allocate_counted (h : Counted pool out retained) (hfree : 0 < pool.numFree) :
    allocate.Returns (fun b pool' => Counted pool' (out ++ [b]) retained ∧ retained b = 0 ∧
      SameShape pool pool') pool := by
  obtain ⟨rest, b, hrest⟩ : ∃ rest b, pool.free = rest ++ [b] :=
    ⟨_, _, (List.dropLast_append_getLast (List.ne_nil_of_length_pos hfree)).symm⟩
  have hb : b ∈ pool.free := by simp [hrest]
  have hnodup := h.nodup
  rw [hrest, ← List.append_assoc, List.nodup_append] at hnodup
  have hother : ∀ c ∈ out ++ rest, c ≠ b := fun c hc => hnodup.2.2 c hc b List.mem_cons_self
  have hnew : b ∉ out := fun hmem => hother b (List.mem_append_left _ hmem) rfl
  have hlt : b < pool.refCounts.length := h.counts ▸ h.lt (List.mem_append_right _ hb)
  refine wp_bind (wp_read.mpr (wp_bind (wp_unwrap (by rw [hrest, List.getLast?_concat]) ?_)))
  refine wp_bind (wp_modify.mpr (wp_bind (wp_check (h.unheld b hb) ?_)))
  refine wp_bind (wp_modify.mpr (wp_pure.mpr ⟨?_, h.idle b hnew, rfl, rfl⟩))
  have hdrop : pool.free.dropLast = rest := by rw [hrest, List.dropLast_concat]
  have hcount (c : Nat) : ({ pool with free := pool.free.dropLast }.setRefCount b 1).refCount c =
      if c = b then 1 else pool.refCount c := refCount_set hlt
  exact {
    perm := by
      show (out ++ [b] ++ pool.free.dropLast).Perm (List.range pool.numBlocks)
      refine List.Perm.trans ?_ h.perm
      rw [hdrop, hrest, List.append_assoc]
      exact List.perm_append_comm.append_left out
    counts := by
      show (pool.refCounts.set b 1).length = _
      rw [List.length_set]
      exact h.counts
    held := fun c hc => by
      rw [hcount]
      split
      · next heq => rw [heq, h.idle b hnew]
      · next hne => exact h.held c ((List.mem_append.mp hc).resolve_right (by simpa using hne))
    unheld := fun c hc => by
      have hc : c ∈ rest := hdrop ▸ hc
      rw [hcount, if_neg (hother c (List.mem_append_right _ hc))]
      exact h.unheld c (hrest ▸ List.mem_append_left _ hc)
    idle := fun c hc => h.idle c fun hmem => hc (List.mem_append_left _ hmem) }

/-- Where no block is free none is taken. -/
theorem allocate_exhausted (hfree : pool.numFree = 0) : ∃ message,
    allocate pool = (.error (.blockPoolExhausted message), pool) := by
  obtain hnil : pool.free = [] := List.eq_nil_of_length_eq_zero hfree
  refine ⟨s!"no free blocks (0/{pool.numBlocks} available)", ?_⟩
  refine wp_result (m := allocate) (s := pool) (W := fun res pool' => (res, pool') = _)
    (wp_bind (wp_read.mpr (wp_bind ?_)))
  rw [hnil, List.getLast?_nil, unwrap]
  exact rfl

/-- The blocks that a block id stands for. -/
theorem wp_validateBlockId {blockId : Int} {Q : Unit → BlockPool → Prop}
    {R : PyError → BlockPool → Prop} (hok : ∀ b : Nat, blockId = b → b < pool.numBlocks → Q () pool)
    (herr : ∀ e, R e pool) : wp (validateBlockId blockId) Q R pool := by
  refine wp_bind (wp_read.mpr ?_)
  by_cases hvalid : 0 ≤ blockId ∧ blockId < pool.numBlocks
  · obtain ⟨b, rfl⟩ := Int.eq_ofNat_of_zero_le hvalid.1
    exact wp_check hvalid (hok b rfl (by omega))
  · rw [check, if_neg hvalid]
    exact herr _

/-- The references of one block change, and the block stays out. -/
theorem Counted.recount (h : Counted pool out retained) (hb : b ∈ out) :
    Counted (pool.setRefCount b (n + 1)) out (Function.update retained b n) where
  perm := h.perm
  counts := by
    show (pool.refCounts.set b (n + 1)).length = _
    rw [List.length_set]
    exact h.counts
  held := fun c hc => by
    rw [refCount_set (h.counts ▸ h.lt (List.mem_append_left _ hb)), Function.update_apply]
    split
    · rfl
    · exact h.held c hc
  unheld := fun c hc => by
    have hne : c ≠ b := fun heq =>
      (List.nodup_append.mp h.nodup).2.2 b hb c hc heq.symm
    rw [refCount_set (h.counts ▸ h.lt (List.mem_append_left _ hb)), if_neg hne]
    exact h.unheld c hc
  idle := fun c hc => by
    have hne : c ≠ b := fun heq => hc (heq ▸ hb)
    rw [Function.update_of_ne hne]
    exact h.idle c hc

/-- A block that is out gets one more reference; no other block does. -/
theorem retain_counted (h : Counted pool out retained) (blockId : Int) :
    wp (retain blockId) (fun _ pool' => ∃ b : Nat, blockId = b ∧ b ∈ out ∧
      Counted pool' out (Function.update retained b (retained b + 1)) ∧
      SameShape pool pool' ∧ pool'.free = pool.free)
      (fun _ pool' => pool' = pool) pool := by
  refine wp_bind (wp_validateBlockId (fun b hid hlt => ?_) fun _ => rfl)
  subst hid
  refine wp_bind (wp_read.mpr (wp_bind ?_))
  by_cases hcount : 1 ≤ pool.refCount b
  · have hout := h.mem_out hlt (by omega)
    refine wp_check hcount
      (wp_bind (wp_modify.mpr (wp_pure.mpr ⟨b, rfl, hout, ?_, ⟨rfl, rfl⟩, rfl⟩)))
    show Counted (pool.setRefCount b (pool.refCount b + 1)) out _
    rw [h.held b hout]
    exact h.recount hout
  · rw [check, if_neg (show ¬ 1 ≤ pool.refCount (b : Int).toNat from hcount)]
    exact rfl

/-- A block that was retained loses one reference. -/
theorem releaseBlock_counted (h : Counted pool out retained) (blockId : Int)
    (hretained : ∀ b : Nat, blockId = b → b ∈ out → 0 < retained b) :
    wp (releaseBlock blockId) (fun _ pool' => ∃ b : Nat, blockId = b ∧ b ∈ out ∧
      Counted pool' out (Function.update retained b (retained b - 1)) ∧
      SameShape pool pool' ∧ pool'.free = pool.free)
      (fun _ pool' => pool' = pool) pool := by
  refine wp_bind (wp_validateBlockId (fun b hid hlt => ?_) fun _ => rfl)
  subst hid
  refine wp_bind (wp_read.mpr (wp_bind ?_))
  by_cases hcount : 1 ≤ pool.refCount b
  · have hout := h.mem_out hlt (by omega)
    have hpos := hretained b rfl hout
    have hleft : pool.refCount b - 1 = (retained b - 1) + 1 := by
      rw [h.held b hout]
      omega
    have hshared : ¬ pool.refCount (b : Int).toNat - 1 = 0 := by
      show ¬ pool.refCount b - 1 = 0
      omega
    refine wp_check hcount (wp_bind (wp_modify.mpr ?_))
    dsimp only
    rw [if_neg hshared]
    refine wp_pure.mpr ⟨b, rfl, hout, ?_, ⟨rfl, rfl⟩, rfl⟩
    show Counted (pool.setRefCount b (pool.refCount b - 1)) out _
    rw [hleft]
    exact h.recount hout
  · rw [check, if_neg (show ¬ 1 ≤ pool.refCount (b : Int).toNat from hcount)]
    exact rfl

/-- A block that is out and not shared goes back. -/
theorem freeBlock_counted (h : Counted pool (b :: out) retained) (hb : retained b = 0) :
    (freeBlock b).Returns (fun _ pool' => Counted pool' out retained ∧ SameShape pool pool')
      pool := by
  have hlt := h.lt (List.mem_append_left _ List.mem_cons_self)
  have hcounts : b < pool.refCounts.length := h.counts ▸ hlt
  have hvalid : 0 ≤ (b : Int) ∧ (b : Int) < pool.numBlocks := ⟨by omega, by omega⟩
  have hheld : pool.refCount b = 1 := by rw [h.held b List.mem_cons_self, hb]
  have hnodup := h.nodup
  rw [List.cons_append, List.nodup_cons, List.mem_append, not_or] at hnodup
  refine wp_bind (wp_bind (wp_read.mpr (wp_check hvalid (wp_bind (wp_read.mpr ?_)))))
  refine wp_bind (wp_check hheld (wp_modify.mpr ⟨?_, rfl, rfl⟩))
  have hcount (c : Nat) : (pool.setRefCount b 0).refCount c =
      if c = b then 0 else pool.refCount c := refCount_set hcounts
  exact {
    perm := by
      show (out ++ (pool.free ++ [b])).Perm (List.range pool.numBlocks)
      refine List.Perm.trans ?_ h.perm
      rw [← List.append_assoc]
      exact List.perm_append_comm
    counts := by
      show (pool.refCounts.set b 0).length = _
      rw [List.length_set]
      exact h.counts
    held := fun c hc => by
      show (pool.setRefCount b 0).refCount c = _
      have hne : c ≠ b := fun heq => hnodup.1.1 (heq ▸ hc)
      rw [hcount, if_neg hne]
      exact h.held c (List.mem_cons_of_mem _ hc)
    unheld := fun c hc => by
      show (pool.setRefCount b 0).refCount c = 0
      rw [hcount]
      split
      · rfl
      · next hne => exact h.unheld c ((List.mem_append.mp hc).resolve_right (by simpa using hne))
    idle := fun c hc => by
      by_cases heq : c = b
      · rw [heq, hb]
      · exact h.idle c fun hmem => (List.mem_cons.mp hmem).elim heq hc }

end BlockPool

end PassionProjects.MiniPaged
