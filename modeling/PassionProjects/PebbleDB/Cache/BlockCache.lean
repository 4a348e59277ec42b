/-
  PassionProjects.PebbleDB.Cache.BlockCache

  The LRU cache of data blocks (`cache/block_cache.cpp`): a list with the most
  recently used block in front, and an index of its nodes by key.

  An iterator into the list is the number of the node it points at.  `WF` says
  that index and list describe each other; under it a hit returns a block that
  is in the list under the key that was asked for.
-/

import Mathlib.Algebra.Order.Ring.Nat
import Mathlib.Data.List.Nodup
import Mathlib.Logic.Function.Basic
import PassionProjects.PebbleDB.Util.Coding

namespace PassionProjects.PebbleDB.Cache

/-- `BlockCache::Key`. -/
structure CacheKey where
  fileId : UInt64
  blockOffset : UInt64
  deriving DecidableEq, Repr

/-- A node of `lru_`. -/
structure Node where
  id : Nat
  key : CacheKey
  block : Bytes
  deriving DecidableEq, Repr

/-- `BlockCache`; `nextId` is the number the next node gets. -/
structure BlockCache where
  capacityBytes : UInt64
  currentBytes : UInt64
  lru : List Node
  index : CacheKey → Option Nat
  nextId : Nat

namespace BlockCache

def new (capacityBytes : UInt64) : BlockCache := ⟨capacityBytes, 0, [], fun _ => none, 0⟩

/-- `size()` of a block. -/
def sizeOf (block : Bytes) : UInt64 := UInt64.ofNat block.length

/-- `lru_.splice(lru_.begin(), lru_, it)`. -/
def splice (node : Node) (lru : List Node) : List Node := node :: lru.filter (·.id ≠ node.id)

/-- The node that the index holds for a key. -/
def find (c : BlockCache) (key : CacheKey) : Option Node :=
  match c.index key with
  | none => none
  | some it => c.lru.find? (·.id = it)

/-- `Lookup`: the block of a hit. -/
def lookup (c : BlockCache) (fileId blockOffset : UInt64) : Option Bytes × BlockCache :=
  match c.find ⟨fileId, blockOffset⟩ with
  | none => (none, c)
  | some node => (some node.block, { c with lru := splice node c.lru })

/-- `EvictToCapacityLocked`; the number bounds its turns. -/
def evictToCapacity : Nat → BlockCache → BlockCache
  | 0, c => c
  | n + 1, c =>
    if c.currentBytes > c.capacityBytes then
      match c.lru.getLast? with
      | none => c
      | some evict => evictToCapacity n { c with
          currentBytes := c.currentBytes - sizeOf evict.block
          index := Function.update c.index evict.key none
          lru := c.lru.dropLast }
    else c

/-- `Insert` up to the eviction. -/
def place (c : BlockCache) (key : CacheKey) (block : Bytes) : BlockCache :=
  match c.find key with
  | some existing => { c with
      currentBytes := c.currentBytes - sizeOf existing.block + sizeOf block
      lru := { existing with block := block } :: c.lru.filter (·.id ≠ existing.id) }
  | none => { c with
      currentBytes := c.currentBytes + sizeOf block
      lru := ⟨c.nextId, key, block⟩ :: c.lru
      index := Function.update c.index key (some c.nextId)
      nextId := c.nextId + 1 }

/-- `Insert`. -/
def insert (c : BlockCache) (fileId blockOffset : UInt64) (block : Bytes) : BlockCache :=
  let placed := c.place ⟨fileId, blockOffset⟩ block
  evictToCapacity placed.lru.length placed

/-- The loop body of `Erase` on one node. -/
def eraseNode (fileId : UInt64) (c : BlockCache) (node : Node) : BlockCache :=
  if node.key.fileId = fileId then
    { c with
      currentBytes := c.currentBytes - sizeOf node.block
      index := Function.update c.index node.key none
      lru := c.lru.filter (·.id ≠ node.id) }
  else c

/-- `Erase`. -/
def erase (c : BlockCache) (fileId : UInt64) : BlockCache := c.lru.foldl (eraseNode fileId) c

-- ============================================================================
-- Index and list
-- ============================================================================

/-- The index and the list describe each other. -/
structure WF (c : BlockCache) : Prop where
  nodup : (c.lru.map Node.id).Nodup
  fresh : ∀ node ∈ c.lru, node.id < c.nextId
  points : ∀ key it, c.index key = some it → ∃ node ∈ c.lru, node.id = it ∧ node.key = key
  indexed : ∀ node ∈ c.lru, c.index node.key = some node.id

theorem wf_new (capacityBytes : UInt64) : (new capacityBytes).WF where
  nodup := List.nodup_nil
  fresh node hnode := absurd hnode (List.not_mem_nil)
  points key it h := absurd h (by simp [new])
  indexed node hnode := absurd hnode (List.not_mem_nil)

variable {c : BlockCache}

/-- Nodes with one number are one node. -/
theorem WF.same (h : c.WF) {a b : Node} (ha : a ∈ c.lru) (hb : b ∈ c.lru) (hid : a.id = b.id) :
    a = b := List.inj_on_of_nodup_map h.nodup ha hb hid

theorem WF.find_eq_some (h : c.WF) {key : CacheKey} {node : Node} (hf : c.find key = some node) :
    node ∈ c.lru ∧ node.key = key := by
  unfold find at hf
  cases hi : c.index key with
  | none => rw [hi] at hf; exact absurd hf (by simp)
  | some it =>
      rw [hi] at hf
      have hmem := List.mem_of_find?_eq_some hf
      have hid : node.id = it := by simpa using List.find?_some hf
      obtain ⟨node', hmem', hid', hkey'⟩ := h.points key it hi
      obtain rfl := h.same hmem hmem' (hid.trans hid'.symm)
      exact ⟨hmem, hkey'⟩

theorem WF.find_eq_none (h : c.WF) {key : CacheKey} (hf : c.find key = none) :
    ∀ node ∈ c.lru, node.key ≠ key := by
  intro node hnode hkey
  have hi := h.indexed node hnode
  unfold find at hf
  rw [← hkey, hi] at hf
  have := List.find?_eq_none.mp hf node hnode
  simp at this

/-- A splice only moves nodes. -/
theorem mem_splice (h : c.WF) {node : Node} (hnode : node ∈ c.lru) (n : Node) :
    n ∈ splice node c.lru ↔ n ∈ c.lru := by
  simp only [splice, List.mem_cons, List.mem_filter, decide_eq_true_eq]
  constructor
  · rintro (rfl | ⟨hn, -⟩)
    · exact hnode
    · exact hn
  · intro hn
    by_cases hid : n.id = node.id
    · exact Or.inl (h.same hn hnode hid)
    · exact Or.inr ⟨hn, hid⟩

/-- A node put in front of the nodes with other numbers. -/
theorem nodup_cons_filter (h : c.WF) (node : Node) :
    ((node :: c.lru.filter (·.id ≠ node.id)).map Node.id).Nodup := by
  rw [List.map_cons, List.nodup_cons]
  refine ⟨fun hmem => ?_, (h.nodup.sublist (List.Sublist.map _ List.filter_sublist))⟩
  obtain ⟨n, hn, hid⟩ := List.mem_map.mp hmem
  simp [hid] at hn

/-- A lookup returns a block that is in the list under its key, and only moves
    nodes. -/
theorem lookup_spec (h : c.WF) (fileId blockOffset : UInt64) :
    (c.lookup fileId blockOffset).2.WF ∧
      (∀ n, n ∈ (c.lookup fileId blockOffset).2.lru ↔ n ∈ c.lru) ∧
      ∀ block, (c.lookup fileId blockOffset).1 = some block →
        ∃ n ∈ c.lru, n.key = ⟨fileId, blockOffset⟩ ∧ n.block = block := by
  unfold lookup
  cases hf : c.find ⟨fileId, blockOffset⟩ with
  | none => exact ⟨h, fun _ => Iff.rfl, fun block hb => absurd hb (by simp)⟩
  | some node =>
      obtain ⟨hmem, hkey⟩ := h.find_eq_some hf
      have hsame := mem_splice h hmem
      refine ⟨⟨nodup_cons_filter h node, fun n hn => h.fresh n ((hsame n).mp hn),
        fun key it hi => ?_, fun n hn => h.indexed n ((hsame n).mp hn)⟩, hsame, fun block hb => ?_⟩
      · obtain ⟨n, hn, hid⟩ := h.points key it hi
        exact ⟨n, (hsame n).mpr hn, hid⟩
      · exact ⟨node, hmem, hkey, Option.some.inj hb⟩

/-- Removing nodes from the list and their keys from the index. -/
theorem WF.remove (h : c.WF) {node : Node} (hnode : node ∈ c.lru) {lru : List Node}
    (hsub : lru.Sublist c.lru) (hmem : ∀ n, n ∈ lru ↔ n ∈ c.lru ∧ n.id ≠ node.id)
    (bytes : UInt64) :
    WF { c with
      currentBytes := bytes
      index := Function.update c.index node.key none
      lru := lru } where
  nodup := h.nodup.sublist (List.Sublist.map _ hsub)
  fresh n hn := h.fresh n ((hmem n).mp hn).1
  points key it hi := by
    by_cases hkey : key = node.key
    · subst hkey
      simp at hi
    · have hi : c.index key = some it := by simpa [Function.update_of_ne hkey] using hi
      obtain ⟨n, hn, hid, hnkey⟩ := h.points key it hi
      refine ⟨n, (hmem n).mpr ⟨hn, fun heq => hkey ?_⟩, hid, hnkey⟩
      rw [← hnkey, h.same hn hnode heq]
  indexed n hn := by
    obtain ⟨hn, hne⟩ := (hmem n).mp hn
    have hkey : n.key ≠ node.key := fun heq => by
      have hid : some n.id = some node.id := by
        rw [← h.indexed n hn, ← h.indexed node hnode, heq]
      exact hne (Option.some.inj hid)
    simpa [Function.update_of_ne hkey] using h.indexed n hn

/-- Without the node at the back. -/
theorem wf_dropLast (h : c.WF) {evict : Node} (hlast : c.lru.getLast? = some evict)
    (bytes : UInt64) :
    evict ∈ c.lru ∧ c.lru = c.lru.dropLast ++ [evict] ∧ WF { c with
      currentBytes := bytes
      index := Function.update c.index evict.key none
      lru := c.lru.dropLast } := by
  have hmem : evict ∈ c.lru := List.mem_of_getLast? hlast
  have hsplit : c.lru = c.lru.dropLast ++ [evict] := by
    obtain ⟨hne, hl⟩ := List.getLast?_eq_some_iff.mp hlast
    rw [hl, List.dropLast_concat]
  have hiff : ∀ node, node ∈ c.lru.dropLast ↔ node ∈ c.lru ∧ node.id ≠ evict.id := by
    have hnodup := h.nodup
    rw [hsplit, List.map_append, List.nodup_append] at hnodup
    intro node
    constructor
    · intro hn
      refine ⟨(List.dropLast_sublist _).subset hn, ?_⟩
      exact hnodup.2.2 node.id (List.mem_map_of_mem hn) evict.id (by simp)
    · rintro ⟨hn, hne⟩
      rw [hsplit] at hn
      rcases List.mem_append.mp hn with hn | hn
      · exact hn
      · rw [List.mem_singleton] at hn
        exact absurd (by rw [hn]) hne
  exact ⟨hmem, hsplit, h.remove hmem (List.dropLast_sublist _) hiff bytes⟩

/-- Eviction keeps a part of the nodes. -/
theorem evictToCapacity_spec (h : c.WF) (n : Nat) :
    (evictToCapacity n c).WF ∧ ∀ node ∈ (evictToCapacity n c).lru, node ∈ c.lru := by
  induction n generalizing c with
  | zero => exact ⟨h, fun _ => id⟩
  | succ n ih =>
      unfold evictToCapacity
      split
      · cases hlast : c.lru.getLast? with
        | none => exact ⟨h, fun _ => id⟩
        | some evict =>
            obtain ⟨-, -, hturn⟩ := wf_dropLast h hlast (c.currentBytes - sizeOf evict.block)
            obtain ⟨hwf, hsub⟩ := ih hturn
            exact ⟨hwf, fun node hn => (List.dropLast_sublist _).subset (hsub node hn)⟩
      · exact ⟨h, fun _ => id⟩

/-- The list then holds the new block, and otherwise what it held before. -/
theorem place_spec (h : c.WF) (key : CacheKey) (block : Bytes) :
    (c.place key block).WF ∧ ∀ n ∈ (c.place key block).lru,
      (n.key = key ∧ n.block = block) ∨ n ∈ c.lru := by
  unfold place
  cases hf : c.find key with
  | some existing =>
      obtain ⟨hmem, hkey⟩ := h.find_eq_some hf
      have hcases : ∀ n ∈ ({ existing with block := block } : Node) ::
          c.lru.filter (·.id ≠ existing.id), n = { existing with block := block } ∨
            (n ∈ c.lru ∧ n.id ≠ existing.id) := by
        intro n hn
        rcases List.mem_cons.mp hn with rfl | hn
        · exact Or.inl rfl
        · exact Or.inr (by simpa using List.mem_filter.mp hn)
      refine ⟨⟨nodup_cons_filter h { existing with block := block }, fun n hn => ?_,
        fun k it hi => ?_, fun n hn => ?_⟩, fun n hn => ?_⟩
      · rcases hcases n hn with rfl | ⟨hn, -⟩
        · exact h.fresh existing hmem
        · exact h.fresh n hn
      · obtain ⟨n, hn, hid, hnkey⟩ := h.points k it hi
        by_cases heq : n.id = existing.id
        · obtain rfl := h.same hn hmem heq
          exact ⟨_, List.mem_cons_self, hid, hnkey⟩
        · exact ⟨n,
            List.mem_cons_of_mem _ (List.mem_filter.mpr ⟨hn, by simpa using heq⟩), hid, hnkey⟩
      · rcases hcases n hn with rfl | ⟨hn, -⟩
        · exact h.indexed existing hmem
        · exact h.indexed n hn
      · rcases hcases n hn with rfl | ⟨hn, -⟩
        · exact Or.inl ⟨hkey, rfl⟩
        · exact Or.inr hn
  | none =>
      have hnew := h.find_eq_none hf
      have hcases : ∀ n ∈ (⟨c.nextId, key, block⟩ : Node) :: c.lru,
          n = ⟨c.nextId, key, block⟩ ∨ (n ∈ c.lru ∧ n.key ≠ key) := by
        intro n hn
        rcases List.mem_cons.mp hn with rfl | hn
        · exact Or.inl rfl
        · exact Or.inr ⟨hn, hnew n hn⟩
      refine ⟨⟨?_, fun n hn => ?_, fun k it hi => ?_, fun n hn => ?_⟩, fun n hn => ?_⟩
      · rw [List.map_cons, List.nodup_cons]
        refine ⟨fun hmem => ?_, h.nodup⟩
        obtain ⟨n, hn, hid⟩ := List.mem_map.mp hmem
        exact absurd (h.fresh n hn) (by rw [hid]; exact Nat.lt_irrefl _)
      · rcases hcases n hn with rfl | ⟨hn, -⟩
        · exact Nat.lt_succ_self _
        · exact Nat.lt_succ_of_lt (h.fresh n hn)
      · by_cases hk : k = key
        · subst hk
          have hi : Function.update c.index k (some c.nextId) k = some it := hi
          rw [Function.update_self] at hi
          exact ⟨_, List.mem_cons_self, Option.some.inj hi, rfl⟩
        · have hi : Function.update c.index key (some c.nextId) k = some it := hi
          rw [Function.update_of_ne hk] at hi
          obtain ⟨n, hn, hid⟩ := h.points k it hi
          exact ⟨n, List.mem_cons_of_mem _ hn, hid⟩
      · rcases hcases n hn with rfl | ⟨hn, hne⟩
        · exact Function.update_self _ _ _
        · show Function.update c.index key _ n.key = _
          rw [Function.update_of_ne hne]
          exact h.indexed n hn
      · rcases hcases n hn with rfl | ⟨hn, -⟩
        · exact Or.inl ⟨rfl, rfl⟩
        · exact Or.inr hn

theorem insert_spec (h : c.WF) (fileId blockOffset : UInt64) (block : Bytes) :
    (c.insert fileId blockOffset block).WF ∧ ∀ n ∈ (c.insert fileId blockOffset block).lru,
      (n.key = ⟨fileId, blockOffset⟩ ∧ n.block = block) ∨ n ∈ c.lru := by
  obtain ⟨hwf, hplaced⟩ := place_spec h ⟨fileId, blockOffset⟩ block
  obtain ⟨hwf', hsub⟩ := evictToCapacity_spec hwf (c.place ⟨fileId, blockOffset⟩ block).lru.length
  exact ⟨hwf', fun n hn => hplaced n (hsub n hn)⟩

end BlockCache

end PassionProjects.PebbleDB.Cache
