/-
  PassionProjects.PebbleDB.Cache.Recency

  Any run of `Lookup`, `Insert` and `Erase` on a block cache.

  A session is a cache with the calls that were made, newest first.  They say which
  block was inserted last under a key, and list the blocks with the most recently used
  in front; the cache holds the front of that list.
-/

import Mathlib.Algebra.Order.BigOperators.Group.List
import Mathlib.Algebra.Order.Group.Nat
import PassionProjects.Lib.Recency
import PassionProjects.Lib.Transition
import PassionProjects.PebbleDB.Cache.BlockCache

namespace PassionProjects.PebbleDB.Cache

open Recency Transition

-- ============================================================================
-- The counter of bytes
-- ============================================================================

/-- The bytes of the stored blocks. -/
def bytes (lru : List Node) : Nat := (lru.map fun node => node.block.length).sum

/-- The stored blocks with their keys. -/
def entries (lru : List Node) : List (CacheKey × Bytes) :=
  lru.map fun node => (node.key, node.block)

theorem bytes_cons (node : Node) (lru : List Node) :
    bytes (node :: lru) = node.block.length + bytes lru := by
  rw [bytes, List.map_cons, List.sum_cons]
  rfl

theorem bytes_perm {lru lru' : List Node} (h : lru.Perm lru') : bytes lru = bytes lru' :=
  (h.map _).sum_eq

theorem bytes_append (lru lru' : List Node) : bytes (lru ++ lru') = bytes lru + bytes lru' := by
  rw [bytes, List.map_append, List.sum_append]
  rfl

namespace BlockCache

/-- A block of a size that is known fits its counter. -/
theorem toNat_sizeOf {block : Bytes} (h : block.length < 2 ^ 64) :
    (sizeOf block).toNat = block.length := UInt64.toNat_ofNat_of_lt h

/-- Taking off a block that was counted. -/
theorem toNat_sub_sizeOf {a : UInt64} {block : Bytes} {n : Nat} (h : a.toNat = block.length + n) :
    sizeOf block ≤ a ∧ (a - sizeOf block).toNat = n := by
  have hlt := a.toNat_lt
  have hsize : (sizeOf block).toNat = block.length := toNat_sizeOf (by omega)
  have hle : sizeOf block ≤ a := by
    rw [UInt64.le_iff_toNat_le]
    omega
  refine ⟨hle, ?_⟩
  rw [UInt64.toNat_sub_of_le _ _ hle, hsize]
  omega

theorem toNat_add_sizeOf {a : UInt64} {block : Bytes} (h : a.toNat + block.length < 2 ^ 64) :
    (a + sizeOf block).toNat = a.toNat + block.length := by
  rw [UInt64.toNat_add, toNat_sizeOf (by omega), Nat.mod_eq_of_lt h]

/-- The index, the list and the counter describe each other. -/
structure Counted (c : BlockCache) : Prop where
  wf : c.WF
  sum : c.currentBytes.toNat = bytes c.lru

variable {c : BlockCache}

/-- No block that is stored is larger than the counter. -/
theorem Counted.sizeOf_le (h : c.Counted) {node : Node} (hnode : node ∈ c.lru) :
    sizeOf node.block ≤ c.currentBytes := by
  have hsum := h.sum
  rw [bytes_perm (List.perm_cons_erase hnode), bytes_cons] at hsum
  exact (toNat_sub_sizeOf hsum).1

/-- The nodes other than one of them. -/
theorem WF.perm_splice (h : c.WF) {node : Node} (hnode : node ∈ c.lru) :
    c.lru.Perm (splice node c.lru) := by
  refine (List.perm_ext_iff_of_nodup h.nodup.of_map ?_).mpr fun n => (mem_splice h hnode n).symm
  exact (nodup_cons_filter h node).of_map

theorem Counted.split (h : c.Counted) {node : Node} (hnode : node ∈ c.lru) :
    c.currentBytes.toNat = node.block.length + bytes (c.lru.filter (·.id ≠ node.id)) := by
  rw [h.sum, bytes_perm (h.wf.perm_splice hnode), splice, bytes_cons]

/-- Nodes are told apart by their keys as by their numbers. -/
theorem WF.id_ne_iff (h : c.WF) {a b : Node} (ha : a ∈ c.lru) (hb : b ∈ c.lru) :
    a.id ≠ b.id ↔ a.key ≠ b.key := by
  refine not_congr ⟨fun hid => by rw [h.same ha hb hid], fun hkey => ?_⟩
  have hindex := h.indexed a ha
  rw [hkey, h.indexed b hb] at hindex
  exact (Option.some.inj hindex).symm

theorem WF.entries_filter (h : c.WF) {node : Node} (hnode : node ∈ c.lru) :
    entries (c.lru.filter (·.id ≠ node.id)) = (entries c.lru).filter (·.1 ≠ node.key) := by
  rw [entries, entries, List.filter_map]
  congr 1
  refine List.filter_congr fun n hn => ?_
  exact decide_eq_decide.mpr (h.id_ne_iff hn hnode)

theorem WF.keys_nodup (h : c.WF) : ((entries c.lru).map Prod.fst).Nodup := by
  rw [entries, List.map_map]
  refine (List.nodup_map_iff_inj_on h.nodup.of_map).mpr fun a ha b hb hkey => ?_
  by_contra hne
  exact (h.id_ne_iff ha hb).mp (fun hid => hne (h.same ha hb hid)) hkey

/-- What the index finds under a key is what the list has under it. -/
theorem WF.find_block (h : c.WF) (key : CacheKey) :
    (c.find key).map Node.block = value key (entries c.lru) := by
  cases hfind : c.find key with
  | some node =>
      obtain ⟨hmem, rfl⟩ := h.find_eq_some hfind
      exact (value_of_mem h.keys_nodup (List.mem_map_of_mem hmem)).symm
  | none =>
      cases hvalue : value key (entries c.lru) with
      | none => rfl
      | some block =>
          obtain ⟨node, hnode, heq⟩ := List.mem_map.mp (value_eq_some_mem hvalue)
          exact absurd (Prod.mk.inj heq).1 (h.find_eq_none hfind node hnode)

-- ============================================================================
-- Each call
-- ============================================================================

theorem counted_new (capacityBytes : UInt64) : (new capacityBytes).Counted :=
  ⟨wf_new capacityBytes, rfl⟩

/-- `Lookup` answers what the list has under the key, and promotes it. -/
theorem Counted.lookup (h : c.Counted) (fileId blockOffset : UInt64) :
    (c.lookup fileId blockOffset).2.Counted ∧
      (c.lookup fileId blockOffset).1 = value ⟨fileId, blockOffset⟩ (entries c.lru) ∧
      entries (c.lookup fileId blockOffset).2.lru =
        promote ⟨fileId, blockOffset⟩ (entries c.lru) := by
  have hwf := (lookup_spec h.wf fileId blockOffset).1
  have hvalue := h.wf.find_block ⟨fileId, blockOffset⟩
  unfold BlockCache.lookup at hwf ⊢
  cases hfind : c.find ⟨fileId, blockOffset⟩ with
  | none =>
      rw [hfind, Option.map_none] at hvalue
      exact ⟨h, hvalue, by rw [promote, ← hvalue]⟩
  | some node =>
      rw [hfind] at hwf
      rw [hfind, Option.map_some] at hvalue
      obtain ⟨hmem, hkey⟩ := h.wf.find_eq_some hfind
      refine ⟨⟨hwf, ?_⟩, hvalue, ?_⟩
      · exact h.sum.trans (bytes_perm (h.wf.perm_splice hmem))
      · rw [promote, ← hvalue]
        show (node.key, node.block) :: entries (c.lru.filter (·.id ≠ node.id)) = _
        rw [h.wf.entries_filter hmem, hkey]
        rfl

theorem lookup_counters (c : BlockCache) (fileId blockOffset : UInt64) :
    (c.lookup fileId blockOffset).2.capacityBytes = c.capacityBytes ∧
      (c.lookup fileId blockOffset).2.currentBytes = c.currentBytes := by
  unfold lookup
  split
  · exact ⟨rfl, rfl⟩
  · exact ⟨rfl, rfl⟩

/-- `Insert` before the eviction puts the block in front under its key. -/
theorem Counted.place (h : c.Counted) (key : CacheKey) {block : Bytes}
    (hfits : bytes c.lru + block.length < 2 ^ 64) :
    (c.place key block).Counted ∧
    entries (c.place key block).lru = touch key block (entries c.lru) ∧
      (c.place key block).capacityBytes = c.capacityBytes := by
  have hwf := (place_spec h.wf key block).1
  unfold BlockCache.place at hwf ⊢
  cases hfind : c.find key with
  | some existing =>
      rw [hfind] at hwf
      obtain ⟨hmem, hkey⟩ := h.wf.find_eq_some hfind
      have hsplit := h.split hmem
      have hrest := (toNat_sub_sizeOf hsplit).2
      refine ⟨⟨hwf, ?_⟩, ?_, rfl⟩
      · show (c.currentBytes - sizeOf existing.block + sizeOf block).toNat =
          bytes ({ existing with block := block } :: c.lru.filter (·.id ≠ existing.id))
        rw [toNat_add_sizeOf (by rw [hrest]; rw [h.sum] at hsplit; omega), hrest, bytes_cons]
        exact Nat.add_comm _ _
      · show (existing.key, block) :: entries (c.lru.filter (·.id ≠ existing.id)) = _
        rw [h.wf.entries_filter hmem, hkey]
        rfl
  | none =>
      rw [hfind] at hwf
      refine ⟨⟨hwf, ?_⟩, ?_, rfl⟩
      · show (c.currentBytes + sizeOf block).toNat = bytes (⟨c.nextId, key, block⟩ :: c.lru)
        rw [toNat_add_sizeOf (by rw [h.sum]; exact hfits), h.sum, bytes_cons]
        exact Nat.add_comm _ _
      · have hnew : (entries c.lru).filter (·.1 ≠ key) = entries c.lru := by
          refine List.filter_eq_self.mpr fun e he => ?_
          obtain ⟨node, hnode, rfl⟩ := List.mem_map.mp he
          simpa using h.wf.find_eq_none hfind node hnode
        rw [touch, hnew]
        rfl

/-- What the eviction has done after so many turns: it kept the front of the list, and
    of this whatever fits. -/
structure Evicted (c c' : BlockCache) : Prop where
  counted : c'.Counted
  front : c'.lru <+: c.lru
  capacity : c'.capacityBytes = c.capacityBytes
  keeps : ∀ lru, lru <+: c.lru → bytes lru ≤ c.capacityBytes.toNat → lru <+: c'.lru

theorem Counted.evicted_self (h : c.Counted) : Evicted c c :=
  ⟨h, List.prefix_rfl, rfl, fun _ hfront _ => hfront⟩

/-- One turn takes the node at the back. -/
theorem Counted.evict_last (h : c.Counted) (hover : c.currentBytes > c.capacityBytes) :
    ∃ evict, c.lru.getLast? = some evict ∧ Evicted c { c with
      currentBytes := c.currentBytes - sizeOf evict.block
      index := Function.update c.index evict.key none
      lru := c.lru.dropLast } := by
  have hbytes := h.sum
  rw [gt_iff_lt, UInt64.lt_iff_toNat_lt] at hover
  cases hlast : c.lru.getLast? with
  | none =>
      rw [List.getLast?_eq_none_iff.mp hlast] at hbytes
      exact absurd (hbytes ▸ hover) (Nat.not_lt_zero _)
  | some evict =>
      obtain ⟨hmem, hsplit, hwf⟩ := wf_dropLast h.wf hlast (c.currentBytes - sizeOf evict.block)
      have hsum : c.currentBytes.toNat = evict.block.length + bytes c.lru.dropLast := by
        rw [hbytes, hsplit, bytes_append, List.dropLast_concat, bytes_cons]
        exact Nat.add_comm _ _
      refine ⟨evict, rfl, ⟨hwf, (toNat_sub_sizeOf hsum).2⟩, List.dropLast_prefix _, rfl, ?_⟩
      -- what fits is not the whole list
      intro lru hfront hfits
      rw [hsplit, List.prefix_concat_iff] at hfront
      rcases hfront with rfl | hfront
      · rw [← hsplit, ← hbytes] at hfits
        exact absurd hfits (Nat.not_le.mpr hover)
      · exact hfront

theorem Evicted.trans {c' c'' : BlockCache} (h : Evicted c c') (h' : Evicted c' c'') :
    Evicted c c'' where
  counted := h'.counted
  front := h'.front.trans h.front
  capacity := h'.capacity.trans h.capacity
  keeps lru hfront hfits := h'.keeps lru (h.keeps lru hfront hfits) (h.capacity ▸ hfits)

theorem Counted.evict (h : c.Counted) (n : Nat) :
    Evicted c (evictToCapacity n c) ∧ (c.lru.length ≤ n →
      (evictToCapacity n c).currentBytes ≤ c.capacityBytes) := by
  induction n generalizing c with
  | zero =>
      refine ⟨h.evicted_self, fun hlength => ?_⟩
      have hbytes := h.sum
      rw [List.length_eq_zero_iff.mp (Nat.le_zero.mp hlength)] at hbytes
      rw [evictToCapacity, UInt64.le_iff_toNat_le, hbytes]
      exact Nat.zero_le _
  | succ n ih =>
      rw [evictToCapacity]
      split
      · obtain ⟨evict, hlast, hturn⟩ := h.evict_last ‹_›
        obtain ⟨hrest, hfits⟩ := ih hturn.counted
        simp only [hlast]
        refine ⟨hturn.trans hrest, fun hlength => hfits ?_⟩
        rw [List.length_dropLast]
        omega
      · exact ⟨h.evicted_self, fun _ => UInt64.not_lt.mp ‹_›⟩

theorem WF.filter_middle (h : c.WF) {front back : List Node} {node : Node}
    (hlru : c.lru = front ++ node :: back) :
    c.lru.filter (·.id ≠ node.id) = front ++ back := by
  have hnodup := h.nodup
  rw [hlru, List.map_append, List.map_cons, List.nodup_append] at hnodup
  obtain ⟨-, hback, hfront⟩ := hnodup
  have hother : ∀ n ∈ front ++ back, n.id ≠ node.id := by
    intro n hn hid
    rcases List.mem_append.mp hn with hn | hn
    · exact hfront n.id (List.mem_map_of_mem hn) node.id List.mem_cons_self hid
    · exact (List.nodup_cons.mp hback).1 (hid ▸ List.mem_map_of_mem hn)
  rw [hlru, List.filter_append, List.filter_cons_of_neg (by simp), ← List.filter_append]
  exact List.filter_eq_self.mpr fun n hn => decide_eq_true (hother n hn)

theorem Counted.eraseNode (h : c.Counted) {front back : List Node} {node : Node}
    (hlru : c.lru = front ++ node :: back) (fileId : UInt64) :
    (eraseNode fileId c node).Counted ∧
      (eraseNode fileId c node).lru = front ++ [node].filter (·.key.fileId ≠ fileId) ++ back ∧
      (eraseNode fileId c node).capacityBytes = c.capacityBytes := by
  have hmem : node ∈ c.lru := by rw [hlru]; exact List.mem_append_cons_self
  unfold BlockCache.eraseNode
  split
  · rename_i hfile
    have hothers : ∀ n, n ∈ c.lru.filter (·.id ≠ node.id) ↔ n ∈ c.lru ∧ n.id ≠ node.id := by
      simp
    have hwf := h.wf.remove hmem List.filter_sublist hothers (c.currentBytes - sizeOf node.block)
    refine ⟨⟨hwf, (toNat_sub_sizeOf (h.split hmem)).2⟩, ?_, rfl⟩
    rw [List.filter_singleton, decide_eq_false (not_not_intro hfile), cond_false, List.append_nil]
    exact h.wf.filter_middle hlru
  · rename_i hfile
    refine ⟨h, ?_, rfl⟩
    rw [List.filter_singleton, decide_eq_true hfile, cond_true, hlru]
    exact (List.append_cons front node back)

/-- The loop of `Erase` after some of the nodes. -/
theorem Counted.erase_turns (h : c.Counted) (fileId : UInt64) (seen rest : List Node)
    (hlru : c.lru = seen ++ rest) :
    (seen.foldl (BlockCache.eraseNode fileId) c).Counted ∧
      (seen.foldl (BlockCache.eraseNode fileId) c).lru =
        seen.filter (·.key.fileId ≠ fileId) ++ rest ∧
      (seen.foldl (BlockCache.eraseNode fileId) c).capacityBytes = c.capacityBytes := by
  induction seen using List.reverseRecOn generalizing rest with
  | nil => exact ⟨h, hlru, rfl⟩
  | append_singleton seen node ih =>
      rw [List.append_assoc, List.singleton_append] at hlru
      obtain ⟨hcounted, hkept, hcapacity⟩ := ih (node :: rest) hlru
      obtain ⟨hturn, hlru', hcapacity'⟩ := hcounted.eraseNode hkept fileId
      rw [List.foldl_append, List.foldl_cons, List.foldl_nil, List.filter_append]
      exact ⟨hturn, hlru', hcapacity'.trans hcapacity⟩

theorem Counted.erase (h : c.Counted) (fileId : UInt64) :
    (c.erase fileId).Counted ∧
      (c.erase fileId).lru = c.lru.filter (·.key.fileId ≠ fileId) ∧
      (c.erase fileId).capacityBytes = c.capacityBytes := by
  obtain ⟨hcounted, hkept, hcapacity⟩ := h.erase_turns fileId c.lru [] (List.append_nil _).symm
  rw [List.append_nil] at hkept
  exact ⟨hcounted, hkept, hcapacity⟩

theorem bytes_filter_le (p : Node → Bool) (lru : List Node) : bytes (lru.filter p) ≤ bytes lru :=
  (List.filter_sublist.map _).sum_le_sum fun _ _ => Nat.zero_le _

end BlockCache

-- ============================================================================
-- Sessions
-- ============================================================================

inductive Call where
  | lookup (fileId blockOffset : UInt64)
  | insert (fileId blockOffset : UInt64) (block : Bytes)
  | erase (fileId : UInt64)

/-- A call that was made, with what `Lookup` answered. -/
inductive Event where
  | lookup (key : CacheKey) (answer : Option Bytes)
  | insert (key : CacheKey) (block : Bytes)
  | erase (fileId : UInt64)
  deriving DecidableEq, Repr

/-- A cache and the calls that were made on it, newest first. -/
structure Session where
  cache : BlockCache
  events : List Event := []

/-- The block that was inserted last under a key and whose file was not erased since. -/
def latest (key : CacheKey) : List Event → Option Bytes
  | [] => none
  | .lookup _ _ :: past => latest key past
  | .insert key' block :: past => if key' = key then some block else latest key past
  | .erase fileId :: past => if key.fileId = fileId then none else latest key past

/-- All blocks that were inserted and whose file was not erased since, with the most
    recently used in front.  A block is used when it is inserted and at each hit. -/
def recency : List Event → List (CacheKey × Bytes)
  | [] => []
  | .lookup _ none :: past => recency past
  | .lookup key (some _) :: past => promote key (recency past)
  | .insert key block :: past => touch key block (recency past)
  | .erase fileId :: past => (recency past).filter (·.1.fileId ≠ fileId)

theorem value_recency (key : CacheKey) (events : List Event) :
    value key (recency events) = latest key events := by
  induction events with
  | nil => rfl
  | cons event past ih =>
      cases event with
      | lookup key' answer =>
          cases answer with
          | none => exact ih
          | some block => exact value_promote.trans ih
      | insert key' block =>
          rw [recency, value_touch, ih]
          rfl
      | erase fileId =>
          rw [recency,
            value_filter (fun key : CacheKey => decide (key.fileId ≠ fileId)), ih, latest]
          by_cases hfile : key.fileId = fileId
          · rw [if_pos hfile, if_neg (by simpa using hfile)]
          · rw [if_neg hfile, if_pos (by simpa using hfile)]

namespace Session

def step (s : Session) : Call → Option Session
  | .lookup fileId blockOffset =>
    let answered := s.cache.lookup fileId blockOffset
    some ⟨answered.2, .lookup ⟨fileId, blockOffset⟩ answered.1 :: s.events⟩
  | .insert fileId blockOffset block =>
    some ⟨s.cache.insert fileId blockOffset block, .insert ⟨fileId, blockOffset⟩ block :: s.events⟩
  | .erase fileId => some ⟨s.cache.erase fileId, .erase fileId :: s.events⟩

/-- A block to insert is in memory beside the blocks that are stored. -/
def permits (s : Session) : Call → Prop
  | .insert _ _ block => bytes s.cache.lru + block.length < 2 ^ 64
  | _ => True

instance (s : Session) : (call : Call) → Decidable (s.permits call)
  | .lookup _ _ => inferInstanceAs (Decidable True)
  | .insert _ _ _ => inferInstanceAs (Decidable (_ < _))
  | .erase _ => inferInstanceAs (Decidable True)

def init (capacityBytes : UInt64) (s : Session) : Prop := s = { cache := .new capacityBytes }

/-- What the calls keep. -/
structure Kept (capacityBytes : UInt64) (s : Session) : Prop where
  counted : s.cache.Counted
  capacity : s.cache.capacityBytes = capacityBytes
  limit : s.cache.currentBytes ≤ capacityBytes
  recent : entries s.cache.lru <+: recency s.events

variable {capacityBytes : UInt64} {s s' : Session}

theorem kept_init (hs : init capacityBytes s) : Kept capacityBytes s := by
  obtain rfl := hs
  refine ⟨BlockCache.counted_new capacityBytes, rfl, ?_, List.prefix_rfl⟩
  rw [UInt64.le_iff_toNat_le]
  exact Nat.zero_le _

theorem Kept.step {call : Call} (h : Kept capacityBytes s) (hpermits : s.permits call)
    (hstep : s.step call = some s') : Kept capacityBytes s' := by
  obtain ⟨hcounted, hcapacity, hlimit, hrecent⟩ := h
  cases call with
  | lookup fileId blockOffset =>
      obtain rfl := Option.some.inj hstep
      obtain ⟨hcounted', hanswer, hentries⟩ := hcounted.lookup fileId blockOffset
      obtain ⟨hsame, hbytes⟩ := s.cache.lookup_counters fileId blockOffset
      refine ⟨hcounted', hsame.trans hcapacity, hbytes ▸ hlimit, ?_⟩
      show entries (s.cache.lookup fileId blockOffset).2.lru <+: recency (.lookup _ _ :: s.events)
      rw [hentries, hanswer]
      cases hvalue : value ⟨fileId, blockOffset⟩ (entries s.cache.lru) with
      | none =>
          rw [promote, hvalue]
          exact hrecent
      | some block => exact prefix_promote hrecent hvalue
  | insert fileId blockOffset block =>
      obtain rfl := Option.some.inj hstep
      obtain ⟨hplaced, hentries, hsame⟩ := hcounted.place ⟨fileId, blockOffset⟩ hpermits
      obtain ⟨hevicted, hfits⟩ :=
        hplaced.evict (s.cache.place ⟨fileId, blockOffset⟩ block).lru.length
      refine ⟨hevicted.counted, hevicted.capacity.trans (hsame.trans hcapacity), ?_, ?_⟩
      · rw [← hcapacity, ← hsame]
        exact hfits (Nat.le_refl _)
      · refine (hevicted.front.map _).trans ?_
        show entries (s.cache.place ⟨fileId, blockOffset⟩ block).lru <+: touch _ block _
        rw [hentries]
        exact prefix_touch hrecent
  | erase fileId =>
      obtain rfl := Option.some.inj hstep
      obtain ⟨hcounted', hlru, hsame⟩ := hcounted.erase fileId
      refine ⟨hcounted', hsame.trans hcapacity, ?_, ?_⟩
      · show (s.cache.erase fileId).currentBytes ≤ capacityBytes
        rw [UInt64.le_iff_toNat_le, hcounted'.sum, hlru]
        rw [UInt64.le_iff_toNat_le, hcounted.sum] at hlimit
        exact (BlockCache.bytes_filter_le _ _).trans hlimit
      · show entries (s.cache.erase fileId).lru <+: (recency s.events).filter (·.1.fileId ≠ fileId)
        have hentries : entries (s.cache.lru.filter (·.key.fileId ≠ fileId)) =
            (entries s.cache.lru).filter (·.1.fileId ≠ fileId) := by
          rw [entries, entries, List.filter_map]
          rfl
        rw [hlru, hentries]
        exact hrecent.filter _

theorem kept (h : Reached (init capacityBytes) step permits s) : Kept capacityBytes s :=
  h.invariant (fun _ => kept_init) fun _ _ _ hkept hpermits hstep => hkept.step hpermits hstep

/-- What holds of a cache after any calls. -/
structure Represents (capacityBytes : UInt64) (s : Session) : Prop where
  keys_nodup : (s.cache.lru.map Node.key).Nodup
  nodes_nodup : (s.cache.lru.map Node.id).Nodup
  same_keys : ∀ key, (s.cache.index key).isSome ↔ key ∈ s.cache.lru.map Node.key
  own_node : ∀ node ∈ s.cache.lru, s.cache.index node.key = some node.id
  sum : s.cache.currentBytes.toNat = bytes s.cache.lru
  limit : s.cache.currentBytes ≤ capacityBytes
  overwrite_le : ∀ key existing, s.cache.find key = some existing →
    BlockCache.sizeOf existing.block ≤ s.cache.currentBytes
  evict_le : ∀ key block turns evict, bytes s.cache.lru + block.length < 2 ^ 64 →
    (BlockCache.evictToCapacity turns (s.cache.place key block)).lru.getLast? = some evict →
      BlockCache.sizeOf evict.block ≤
        (BlockCache.evictToCapacity turns (s.cache.place key block)).currentBytes
  erase_le : ∀ fileId seen node rest, s.cache.lru = seen ++ node :: rest →
    BlockCache.sizeOf node.block ≤
      (seen.foldl (BlockCache.eraseNode fileId) s.cache).currentBytes
  hit : ∀ fileId blockOffset block, (s.cache.lookup fileId blockOffset).1 = some block →
    latest ⟨fileId, blockOffset⟩ s.events = some block
  recent : entries s.cache.lru <+: recency s.events
  insert_keeps : ∀ fileId blockOffset block lru, bytes s.cache.lru + block.length < 2 ^ 64 →
    lru <+: (s.cache.place ⟨fileId, blockOffset⟩ block).lru → bytes lru ≤ capacityBytes.toNat →
      lru <+: (s.cache.insert fileId blockOffset block).lru

/-- The representation invariant of the block cache. -/
theorem cache_represents (h : Reached (init capacityBytes) step permits s) :
    Represents capacityBytes s := by
  obtain ⟨hcounted, hcapacity, hlimit, hrecent⟩ := kept h
  have hkeys : (entries s.cache.lru).map Prod.fst = s.cache.lru.map Node.key := by
    rw [entries, List.map_map]
    rfl
  exact {
    keys_nodup := hkeys ▸ hcounted.wf.keys_nodup
    nodes_nodup := hcounted.wf.nodup
    same_keys key := by
      rw [Option.isSome_iff_exists, List.mem_map]
      constructor
      · rintro ⟨it, hindex⟩
        obtain ⟨node, hnode, -, hkey⟩ := hcounted.wf.points key it hindex
        exact ⟨node, hnode, hkey⟩
      · rintro ⟨node, hnode, rfl⟩
        exact ⟨node.id, hcounted.wf.indexed node hnode⟩
    own_node := hcounted.wf.indexed
    sum := hcounted.sum
    limit := hlimit
    overwrite_le key existing hfind :=
      hcounted.sizeOf_le (hcounted.wf.find_eq_some hfind).1
    evict_le key block turns evict hfits hlast :=
      have hplaced := (hcounted.place key hfits).1
      (hplaced.evict turns).1.counted.sizeOf_le (List.mem_of_getLast? hlast)
    erase_le fileId seen node rest hlru := by
      obtain ⟨hturns, hleft, -⟩ := hcounted.erase_turns fileId seen (node :: rest) hlru
      exact hturns.sizeOf_le (hleft ▸ List.mem_append_cons_self)
    hit fileId blockOffset block hanswer := by
      rw [← value_recency]
      rw [(hcounted.lookup fileId blockOffset).2.1] at hanswer
      exact value_of_prefix hrecent hanswer
    recent := hrecent
    insert_keeps fileId blockOffset block lru hfits hfront hle := by
      obtain ⟨hplaced, -, hsame⟩ := hcounted.place ⟨fileId, blockOffset⟩ hfits
      rw [← hcapacity, ← hsame] at hle
      exact (hplaced.evict _).1.keeps lru hfront hle }

/-- Two blocks of one file; the second takes the room of the first. -/
theorem cache_represents_full :
    Represents 2 ⟨(BlockCache.insert (.insert (.new 2) 7 0 [1]) 7 8 [2, 3]),
      [.insert ⟨7, 8⟩ [2, 3], .insert ⟨7, 0⟩ [1]]⟩ :=
  cache_represents (.next (.next (.start rfl) (a := .insert 7 0 [1]) (by decide) rfl)
    (a := .insert 7 8 [2, 3]) (by decide) rfl)

end Session

end PassionProjects.PebbleDB.Cache
