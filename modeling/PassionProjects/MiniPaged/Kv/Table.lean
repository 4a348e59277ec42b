/-
  PassionProjects.MiniPaged.Kv.Table

  The block table of one sequence (`kv/table.py`): how many blocks a number of tokens
  needs, and growing and emptying a table over the pool it shares with others.
-/

import Mathlib.Algebra.Order.Floor.Div
import PassionProjects.MiniPaged.Kv.Pool

namespace PassionProjects.MiniPaged

open Raising Raising.Prog

/-- `blocks_needed_for` -/
def blocksNeededFor (numTokens blockSize : Int) : Except PyError Int :=
  if numTokens < 0 then .error (.valueError s!"num_tokens must be >= 0, got {numTokens}")
  else if blockSize < 1 then .error (.valueError s!"block_size must be >= 1, got {blockSize}")
  else if numTokens = 0 then .ok 0
  else .ok ((numTokens + blockSize - 1) / blockSize)

/-- For lengths and a block size in range it is the quotient rounded up. -/
theorem blocksNeededFor_eq {blockSize : Nat} (hs : 1 ≤ blockSize) (numTokens : Nat) :
    blocksNeededFor numTokens blockSize = .ok ((numTokens ⌈/⌉ blockSize : Nat) : Int) := by
  rw [blocksNeededFor, if_neg (by omega), if_neg (by omega), Nat.ceilDiv_eq_add_pred_div]
  split
  · next hzero =>
    obtain rfl : numTokens = 0 := by omega
    rw [Nat.zero_add, Nat.div_eq_of_lt (by omega)]
    rfl
  · next hpos =>
    rw [Int.natCast_ediv, Nat.cast_sub (by omega), Nat.cast_add, Nat.cast_one]

theorem blocks_mono {m n : Nat} (h : m ≤ n) (blockSize : Nat) :
    m ⌈/⌉ blockSize ≤ n ⌈/⌉ blockSize := by
  rw [Nat.ceilDiv_eq_add_pred_div, Nat.ceilDiv_eq_add_pred_div]
  exact Nat.div_le_div_right (by omega)

/-- `BlockTable`, without the pool it refers to. -/
structure BlockTable where
  blockSize : Nat
  blockIds : List Nat := []

namespace BlockTable

/-- `num_blocks` -/
def numBlocks (table : BlockTable) : Nat := table.blockIds.length

/-- `capacity_tokens` -/
def capacityTokens (table : BlockTable) : Nat := table.numBlocks * table.blockSize

/-- A loop over `self._pool.free`. -/
def freeEach (blockIds : List Nat) : Py BlockPool Unit :=
  forEach blockIds fun blockId => BlockPool.freeBlock blockId

/-- The loop of `grow_to`: what is allocated so far goes back when the pool runs out. -/
def allocateEach : Nat → List Nat → Py BlockPool (List Nat)
  | 0, newlyAllocated => pure newlyAllocated
  | n + 1, newlyAllocated => fun pool =>
      match BlockPool.allocate pool with
      | (.ok blockId, pool') => allocateEach n (newlyAllocated ++ [blockId]) pool'
      | (.error (.blockPoolExhausted message), pool') => (do
          freeEach newlyAllocated
          raise (.blockPoolExhausted message)) pool'
      | (.error e, pool') => (.error e, pool')

/-- `grow_to` -/
def growTo (numTokens : Int) : Py (BlockTable × BlockPool) Int := do
  let (table, _) ← read
  let needed ← ofExcept (blocksNeededFor numTokens table.blockSize)
  let delta := needed - table.numBlocks
  if delta ≤ 0 then pure 0
  else
    let newlyAllocated ← onPart Prod.snd (fun pool x => (x.1, pool)) (allocateEach delta.toNat [])
    modify fun (table, pool) =>
      ({ table with blockIds := table.blockIds ++ newlyAllocated }, pool)
    pure delta

/-- `free_all` -/
def freeAll : Py (BlockTable × BlockPool) Nat := do
  let (table, _) ← read
  onPart Prod.snd (fun pool x => (x.1, pool)) (freeEach table.blockIds)
  modify fun (table, pool) => ({ table with blockIds := [] }, pool)
  pure table.numBlocks

-- ============================================================================
-- Growing and emptying
-- ============================================================================

open BlockPool

variable {pool : BlockPool} {out newly : List Nat} {retained : Nat → Nat} {n : Nat}

theorem freeEach_counted {blockIds : List Nat} (h : Counted pool (blockIds ++ out) retained)
    (hsole : ∀ b ∈ blockIds, retained b = 0) :
    (freeEach blockIds).Returns (fun _ pool' => Counted pool' out retained ∧ SameShape pool pool')
      pool := by
  induction blockIds generalizing pool with
  | nil => exact ⟨h, SameShape.refl pool⟩
  | cons b blockIds ih =>
      refine (freeBlock_counted h (hsole b List.mem_cons_self)).bind fun _ pool' ⟨h', hshape⟩ => ?_
      have hrest := ih h' fun c hc => hsole c (List.mem_cons_of_mem _ hc)
      exact hrest.mono fun _ pool'' ⟨h'', hshape'⟩ => ⟨h'', hshape.trans hshape'⟩

/-- Where enough blocks are free they are handed out, else none is. -/
theorem allocateEach_counted (n : Nat) (newly : List Nat)
    (h : Counted pool (out ++ newly) retained) (hsole : ∀ b ∈ newly, retained b = 0) :
    wp (allocateEach n newly)
      (fun ids pool' => ids.length = newly.length + n ∧ Counted pool' (out ++ ids) retained ∧
        SameShape pool pool')
      (fun _ pool' => pool.numFree < n ∧ Counted pool' out retained ∧ SameShape pool pool')
      pool := by
  induction n generalizing pool newly with
  | zero => exact ⟨rfl, h, SameShape.refl pool⟩
  | succ n ih =>
      by_cases hfree : 0 < pool.numFree
      · obtain ⟨b, pool', heq, hb, hnew, hshape⟩ := returns_iff.mp (allocate_counted h hfree)
        rw [List.append_assoc] at hb
        have hlen := h.length
        have hlen' := hb.length
        rw [List.length_append, List.length_append, List.length_singleton, hshape.1] at hlen'
        rw [List.length_append] at hlen
        have hturn : allocateEach (n + 1) newly pool = allocateEach n (newly ++ [b]) pool' := by
          simp only [allocateEach, heq]
        have hrest := ih (newly ++ [b]) hb fun c hc =>
          (List.mem_append.mp hc).elim (hsole c) fun hc => List.mem_singleton.mp hc ▸ hnew
        unfold wp at hrest ⊢
        rw [hturn]
        refine wp_mono hrest (fun ids pool'' ⟨hids, h'', hshape'⟩ => ?_)
          fun _ pool'' ⟨hout, h'', hshape'⟩ => ⟨by omega, h'', hshape.trans hshape'⟩
        refine ⟨?_, h'', hshape.trans hshape'⟩
        rw [hids, List.length_append, List.length_singleton]
        omega
      · have hnone : pool.numFree = 0 := by omega
        obtain ⟨message, heq⟩ := allocate_exhausted hnone
        have hturn : allocateEach (n + 1) newly pool = (do
            freeEach newly
            raise (.blockPoolExhausted message)) pool := by
          simp only [allocateEach, heq]
        have hback := freeEach_counted (h.congr List.perm_append_comm) hsole
        unfold wp
        rw [hturn]
        exact wp_bind (wp_mono hback (fun _ pool' ⟨h', hshape⟩ => ⟨by omega, h', hshape⟩)
          fun _ _ hR => hR.elim)

/-- A table grows to the blocks its tokens need, and never shrinks; or it stays as it is,
    and so do the blocks. -/
theorem growTo_counted (table : BlockTable) (out : List Nat) (numTokens : Int)
    (hs : 1 ≤ table.blockSize)
    (h : Counted pool (table.blockIds ++ out) retained) :
    wp (growTo numTokens)
      (fun _ x => 0 ≤ numTokens ∧ x.1.blockSize = table.blockSize ∧
        x.1.numBlocks = max table.numBlocks (numTokens.toNat ⌈/⌉ table.blockSize) ∧
        Counted x.2 (x.1.blockIds ++ out) retained ∧ SameShape pool x.2)
      (fun _ x => (0 ≤ numTokens →
          table.numBlocks + pool.numFree < numTokens.toNat ⌈/⌉ table.blockSize) ∧
        Counted x.2 (table.blockIds ++ out) retained ∧ SameShape pool x.2)
      (table, pool) := by
  refine wp_bind (wp_read.mpr (wp_bind ?_))
  by_cases hneg : numTokens < 0
  · rw [MiniPaged.blocksNeededFor, if_pos hneg]
    exact ⟨fun hpos => by omega, h, SameShape.refl pool⟩
  obtain ⟨k, rfl⟩ := Int.eq_ofNat_of_zero_le (Int.not_lt.mp hneg)
  refine wp_ofExcept (blocksNeededFor_eq hs k) ?_
  dsimp only
  split
  · next hle =>
    refine ⟨by omega, rfl, ?_, h, SameShape.refl pool⟩
    show table.numBlocks = max table.numBlocks (k ⌈/⌉ table.blockSize)
    rw [Nat.max_eq_left (by omega)]
  · next hgt =>
    have hperm := h.congr List.perm_append_comm
    have hspec := allocateEach_counted (((k ⌈/⌉ table.blockSize : Nat) : Int) -
      (table.numBlocks : Int)).toNat [] (by rwa [List.append_nil]) fun b hb => nomatch hb
    refine wp_bind (wp_onPart (wp_mono hspec (fun ids pool' hids => ?_) fun _ pool' hR => ?_))
    · obtain ⟨hlen, hout, hshape⟩ := hids
      refine wp_bind (wp_modify.mpr (wp_pure.mpr ⟨by omega, rfl, ?_, ?_, hshape⟩))
      · show (table.blockIds ++ ids).length = max table.numBlocks (k ⌈/⌉ table.blockSize)
        rw [List.length_append, hlen, Nat.max_eq_right (by omega)]
        show table.numBlocks + _ = _
        rw [List.length_nil]
        omega
      · refine hout.congr ?_
        rw [List.append_assoc, List.append_assoc]
        exact (List.perm_append_comm_assoc _ _ _).trans (List.perm_append_comm.append_left _)
    · obtain ⟨hfew, hout, hshape⟩ := hR
      refine ⟨fun _ => ?_, hout.congr List.perm_append_comm, hshape⟩
      show table.numBlocks + pool.numFree < k ⌈/⌉ table.blockSize
      omega

theorem growTo_spec (table : BlockTable) (numTokens : Nat) (hs : 1 ≤ table.blockSize)
    (h : Partitioned pool (table.blockIds ++ out))
    (hfree : numTokens ⌈/⌉ table.blockSize ≤ table.numBlocks + pool.numFree) :
    (growTo numTokens).Returns (fun _ x => x.1.blockSize = table.blockSize ∧
      x.1.numBlocks = max table.numBlocks (numTokens ⌈/⌉ table.blockSize) ∧
      Partitioned x.2 (x.1.blockIds ++ out) ∧ SameShape pool x.2) (table, pool) := by
  refine wp_mono (growTo_counted table _ numTokens hs (partitioned_iff.mp h))
    (fun _ x ⟨_, hsize, hblocks, h', hshape⟩ => ⟨hsize, hblocks, partitioned_iff.mpr h', hshape⟩)
    fun _ x ⟨hfew, _⟩ => ?_
  exact absurd (hfew (Int.natCast_nonneg _)) (Nat.not_lt.mpr hfree)

theorem freeAll_counted {table : BlockTable} (h : Counted pool (table.blockIds ++ out) retained)
    (hsole : ∀ b ∈ table.blockIds, retained b = 0) :
    freeAll.Returns (fun _ x => Counted x.2 out retained ∧ SameShape pool x.2) (table, pool) := by
  refine wp_bind (wp_read.mpr (wp_bind (wp_onPart ?_)))
  refine wp_mono (freeEach_counted h hsole) (fun _ pool' h' => ?_) fun _ _ hR => hR
  exact wp_bind (wp_modify.mpr (wp_pure.mpr h'))

theorem freeAll_spec {table : BlockTable} (h : Partitioned pool (table.blockIds ++ out)) :
    freeAll.Returns (fun _ x => Partitioned x.2 out ∧ SameShape pool x.2) (table, pool) :=
  (freeAll_counted (partitioned_iff.mp h) fun _ _ => rfl).mono fun _ _ ⟨h', hshape⟩ =>
    ⟨partitioned_iff.mpr h', hshape⟩

end BlockTable

end PassionProjects.MiniPaged
