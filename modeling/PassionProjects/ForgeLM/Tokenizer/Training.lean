/-
  PassionProjects.ForgeLM.Tokenizer.Training

  What `train` learns: ids in order, pairs of earlier ids, no pair twice; and what has
  become of the words at its end.
-/

import PassionProjects.ForgeLM.Tokenizer.Bpe
import PassionProjects.Lib.Results

namespace PassionProjects.ForgeLM

open PairMerging Results

-- ============================================================================
-- The words of a text
-- ============================================================================

/-- The words of a text are the text. -/
theorem flatten_pretokenize (text : Str) : (pretokenize text).flatten = text :=
  List.flatten_splitBy _ _

theorem exists_encodeUtf8_of_mem_pretokenize {text word : Str} {b : List UInt8}
    (h : encodeUtf8 text = .ok b) (hword : word ∈ pretokenize text) :
    ∃ bytes, encodeUtf8 word = .ok bytes :=
  exists_encodeUtf8_of_mem_flatten (by rwa [flatten_pretokenize]) hword

namespace ByteLevelBPETokenizer

/-- The words of a text that can be encoded are counted. -/
theorem exists_countWords {text : Str} {b : List UInt8} (h : encodeUtf8 text = .ok b) :
    ∃ wordFreqs, countWords text = .ok wordFreqs := by
  obtain ⟨wordFreqs, hcount, -⟩ := foldlM_ok (pretokenize text)
    (I := fun _ _ => True) (f := fun wordFreqs word => do
      let bytes ← encodeUtf8 word
      Except.ok (Dict.add wordFreqs (byteIds bytes) 1))
    (b := ∅) trivial fun done word wordFreqs hdone _ => by
      have hword : word ∈ pretokenize text := hdone.subset (by simp)
      obtain ⟨bytes, hbytes⟩ := exists_encodeUtf8_of_mem_pretokenize h hword
      exact ⟨_, bind_eq_ok.mpr ⟨bytes, hbytes, rfl⟩, trivial⟩
  exact ⟨wordFreqs, hcount⟩

/-- The words that were counted can be encoded. -/
theorem exists_encodeUtf8_of_countWords {text word : Str} {wordFreqs : Dict (List Nat) Nat}
    (h : countWords text = .ok wordFreqs) (hword : word ∈ pretokenize text) :
    ∃ bytes, encodeUtf8 word = .ok bytes := by
  have hall := of_foldlM_ok
    (I := fun done _ => ∀ word ∈ done, ∃ bytes, encodeUtf8 word = .ok bytes) h nofun
    fun done word _ _ ih hstep => by
      obtain ⟨bytes, hbytes, -⟩ := bind_eq_ok.mp hstep
      exact List.forall_mem_append.mpr ⟨ih, List.forall_mem_singleton.mpr ⟨bytes, hbytes⟩⟩
  exact hall word hword

/-- The bytes of the words of the text are counted, and nothing else. -/
theorem mem_keys_countWords {text : Str} {wordFreqs : Dict (List Nat) Nat}
    (h : countWords text = .ok wordFreqs) {key : List Nat} :
    key ∈ wordFreqs.keys ↔
      ∃ word ∈ pretokenize text, ∃ bytes, encodeUtf8 word = .ok bytes ∧ key = byteIds bytes := by
  refine of_foldlM_ok (I := fun done (wordFreqs : Dict (List Nat) Nat) => key ∈ wordFreqs.keys ↔
    ∃ word ∈ done, ∃ bytes, encodeUtf8 word = .ok bytes ∧ key = byteIds bytes) h ?_ ?_
  · exact ⟨fun hmem => (List.not_mem_nil hmem).elim, fun ⟨_, hmem, _⟩ =>
      (List.not_mem_nil hmem).elim⟩
  · intro done word wordFreqs wordFreqs' ih hstep
    obtain ⟨bytes, hbytes, hadd⟩ := bind_eq_ok.mp hstep
    obtain rfl := Except.ok.inj hadd
    rw [Dict.add, Dict.mem_keys_set, ih]
    constructor
    · rintro (rfl | ⟨word', hword', hrest⟩)
      · exact ⟨word, by simp, bytes, hbytes, rfl⟩
      · exact ⟨word', List.mem_append_left _ hword', hrest⟩
    · rintro ⟨word', hword', bytes', hbytes', rfl⟩
      rcases List.mem_append.mp hword' with hold | hnew
      · exact Or.inr ⟨word', hold, bytes', hbytes', rfl⟩
      · obtain rfl := List.mem_singleton.mp hnew
        obtain rfl : bytes' = bytes := Except.ok.inj (hbytes'.symm.trans hbytes)
        exact Or.inl rfl

end ByteLevelBPETokenizer

-- ============================================================================
-- The counters of a turn
-- ============================================================================

variable {wordFreqs : Dict (List Nat) Nat} {pair : Pair} {newId : Nat}

theorem mergeAll_eq_tally (wordFreqs : Dict (List Nat) Nat) (pair : Pair) (newId : Nat) :
    mergeAll wordFreqs pair newId =
      Dict.tally (wordFreqs.entries.map fun wf => (sweep (pair, newId) wf.1, wf.2)) := by
  rw [mergeAll, Dict.tally, List.foldl_map]

/-- Words without the new id stay apart. -/
theorem entries_mergeAll (hpair : newId ≠ pair.1 ∧ newId ≠ pair.2)
    (hwords : ∀ word ∈ wordFreqs.keys, newId ∉ word) :
    (mergeAll wordFreqs pair newId).entries =
      wordFreqs.entries.map fun wf => (sweep (pair, newId) wf.1, wf.2) := by
  rw [mergeAll_eq_tally]
  refine Dict.entries_tally ?_
  have hkeys : (wordFreqs.entries.map fun wf => (sweep (pair, newId) wf.1, wf.2)).map Prod.fst =
      wordFreqs.keys.map (sweep (pair, newId)) := by
    rw [Dict.keys, List.map_map, List.map_map]
    rfl
  rw [hkeys]
  exact List.Nodup.map_on (fun word hword word' hword' heq =>
    sweep_inj hpair.1 hpair.2 (hwords word hword) (hwords word' hword') heq) wordFreqs.nodup

/-- A counter of one word is a counter of one word. -/
theorem mergeAll_single (word : List Nat) (pair : Pair) (newId : Nat) :
    mergeAll (.tally [(word, 1)]) pair newId = .tally [(sweep (pair, newId) word, 1)] := rfl

namespace ByteLevelBPETokenizer

theorem countPairs_eq_tally (wordFreqs : Dict (List Nat) Nat) :
    countPairs wordFreqs =
      Dict.tally (wordFreqs.entries.flatMap fun wf => (pairs wf.1).map fun p => (p, wf.2)) := by
  rw [countPairs, Dict.tally, List.foldl_flatMap]
  congr 1
  funext pairCounts wf
  rw [List.foldl_map]

/-- The pair that is learned is one of neighbours in a word. -/
theorem exists_word_of_bestPair (h : bestPair (countPairs wordFreqs) = some pair) :
    ∃ word ∈ wordFreqs.keys, pair ∈ pairs word := by
  obtain ⟨kv, hkv, rfl⟩ := Option.map_eq_some_iff.mp h
  have hkey : kv.1 ∈ (countPairs wordFreqs).keys := List.mem_map_of_mem (List.argmax_mem hkv)
  rw [countPairs_eq_tally, Dict.mem_keys_tally] at hkey
  obtain ⟨e, he, heq⟩ := List.mem_map.mp hkey
  obtain ⟨wf, hwf, hcounted⟩ := List.mem_flatMap.mp he
  obtain ⟨p, hp, rfl⟩ := List.mem_map.mp hcounted
  exact ⟨wf.1, List.mem_map_of_mem hwf, heq ▸ hp⟩

-- ============================================================================
-- The loop
-- ============================================================================

/-- The words when all ids below one have been given, and these pairs have been learned. -/
structure Segmented (nextId : Nat) (learned : List Pair) (wordFreqs : Dict (List Nat) Nat) :
    Prop where
  ids : ∀ word ∈ wordFreqs.keys, ∀ x ∈ word, x < nextId
  older : ∀ p ∈ learned, p.1 < nextId ∧ p.2 < nextId
  merged : ∀ p ∈ learned, ∀ word ∈ wordFreqs.keys, p ∉ pairs word

/-- Merges with ids in order, each of a pair of earlier ids. -/
def Numbered : Nat → List Merge → Prop
  | _, [] => True
  | nextId, m :: merges =>
      m.2 = nextId ∧ m.1.1 < nextId ∧ m.1.2 < nextId ∧ Numbered (nextId + 1) merges

variable {left nextId : Nat} {learned : List Pair} {best : Pair}

/-- At first the words are bytes. -/
theorem segmented_countWords {text : Str} (h : countWords text = .ok wordFreqs) :
    Segmented baseByteVocabSize [] wordFreqs where
  ids word hword x hx := by
    obtain ⟨_, -, bytes, -, rfl⟩ := (mem_keys_countWords h).mp hword
    obtain ⟨b, -, rfl⟩ := List.mem_map.mp hx
    exact UInt8.toNat_lt b
  older := nofun
  merged := nofun

namespace Segmented

theorem best_lt (h : Segmented nextId learned wordFreqs)
    (hbest : bestPair (countPairs wordFreqs) = some best) : best.1 < nextId ∧ best.2 < nextId := by
  obtain ⟨word, hword, hpair⟩ := exists_word_of_bestPair hbest
  obtain ⟨h1, h2⟩ := mem_of_mem_pairs hpair
  exact ⟨h.ids word hword _ h1, h.ids word hword _ h2⟩

theorem best_not_mem (h : Segmented nextId learned wordFreqs)
    (hbest : bestPair (countPairs wordFreqs) = some best) : best ∉ learned := by
  obtain ⟨word, hword, hpair⟩ := exists_word_of_bestPair hbest
  exact fun hmem => h.merged best hmem word hword hpair

theorem entries_mergeAll (h : Segmented nextId learned wordFreqs)
    (hbest : best.1 < nextId ∧ best.2 < nextId) :
    (mergeAll wordFreqs best nextId).entries =
      wordFreqs.entries.map fun wf => (sweep (best, nextId) wf.1, wf.2) :=
  ForgeLM.entries_mergeAll ⟨Nat.ne_of_gt hbest.1, Nat.ne_of_gt hbest.2⟩
    fun word hword hmem => Nat.lt_irrefl _ (h.ids word hword _ hmem)

/-- A turn of the loop: one more id, and one more pair that no word has. -/
theorem mergeAll (h : Segmented nextId learned wordFreqs)
    (hbest : bestPair (countPairs wordFreqs) = some best) :
    Segmented (nextId + 1) (best :: learned) (mergeAll wordFreqs best nextId) := by
  have hlt := h.best_lt hbest
  have holder : ∀ p ∈ best :: learned, p.1 < nextId ∧ p.2 < nextId :=
    List.forall_mem_cons.mpr ⟨hlt, h.older⟩
  have hkeys : ∀ word ∈ (ForgeLM.mergeAll wordFreqs best nextId).keys,
      ∃ word' ∈ wordFreqs.keys, word = sweep (best, nextId) word' := by
    intro word hword
    rw [Dict.keys, h.entries_mergeAll hlt, List.map_map] at hword
    obtain ⟨wf, hwf, rfl⟩ := List.mem_map.mp hword
    exact ⟨wf.1, List.mem_map_of_mem hwf, rfl⟩
  constructor
  · intro word hword x hx
    obtain ⟨word', hword', rfl⟩ := hkeys word hword
    rcases mem_of_mem_sweep hx with hx | rfl
    · exact Nat.lt_succ_of_lt (h.ids word' hword' x hx)
    · exact Nat.lt_succ_self _
  · exact fun p hp => ⟨Nat.lt_succ_of_lt (holder p hp).1, Nat.lt_succ_of_lt (holder p hp).2⟩
  · intro p hp word hword hmem
    obtain ⟨word', hword', rfl⟩ := hkeys word hword
    rcases mem_pairs_sweep hmem with h1 | h2 | ⟨hold, hne⟩
    · exact Nat.ne_of_lt (holder p hp).1 h1
    · exact Nat.ne_of_lt (holder p hp).2 h2
    · exact h.merged p ((List.mem_cons.mp hp).resolve_left hne) word' hword' hold

end Segmented

theorem learn_of_none (h : bestPair (countPairs wordFreqs) = none) :
    learn left nextId wordFreqs = ([], wordFreqs) := by
  cases left with
  | zero => rfl
  | succ left => rw [learn, h]

theorem learn_of_some (h : bestPair (countPairs wordFreqs) = some best) :
    learn (left + 1) nextId wordFreqs =
      ((best, nextId) :: (learn left (nextId + 1) (mergeAll wordFreqs best nextId)).1,
        (learn left (nextId + 1) (mergeAll wordFreqs best nextId)).2) := by
  rw [learn, h]

theorem length_learn_le (left nextId : Nat) (wordFreqs : Dict (List Nat) Nat) :
    (learn left nextId wordFreqs).1.length ≤ left := by
  induction left generalizing nextId wordFreqs with
  | zero => rfl
  | succ left ih =>
      cases hbest : bestPair (countPairs wordFreqs) with
      | none =>
          rw [learn_of_none hbest]
          exact Nat.zero_le _
      | some best =>
          rw [learn_of_some hbest]
          exact Nat.succ_le_succ (ih _ _)

/-- With more ids left it goes on from where it would have ended. -/
theorem learn_prefix (left more nextId : Nat) (wordFreqs : Dict (List Nat) Nat) :
    (learn left nextId wordFreqs).1 <+: (learn (left + more) nextId wordFreqs).1 := by
  induction left generalizing nextId wordFreqs with
  | zero => exact List.nil_prefix
  | succ left ih =>
      rw [Nat.add_right_comm]
      cases hbest : bestPair (countPairs wordFreqs) with
      | none =>
          rw [learn_of_none hbest, learn_of_none hbest]
      | some best =>
          rw [learn_of_some hbest, learn_of_some hbest]
          exact List.cons_prefix_cons.mpr ⟨rfl, ih _ _⟩

theorem numbered_learn (h : Segmented nextId learned wordFreqs) (left : Nat) :
    Numbered nextId (learn left nextId wordFreqs).1 := by
  induction left generalizing nextId learned wordFreqs with
  | zero => trivial
  | succ left ih =>
      cases hbest : bestPair (countPairs wordFreqs) with
      | none =>
          rw [learn_of_none hbest]
          trivial
      | some best =>
          rw [learn_of_some hbest]
          obtain ⟨h1, h2⟩ := h.best_lt hbest
          exact ⟨rfl, h1, h2, ih (h.mergeAll hbest)⟩

/-- No pair is learned twice. -/
theorem nodup_learn (h : Segmented nextId learned wordFreqs) (left : Nat) :
    ((learn left nextId wordFreqs).1.map Prod.fst).Nodup ∧
      ∀ m ∈ (learn left nextId wordFreqs).1, m.1 ∉ learned := by
  induction left generalizing nextId learned wordFreqs with
  | zero => exact ⟨List.nodup_nil, nofun⟩
  | succ left ih =>
      cases hbest : bestPair (countPairs wordFreqs) with
      | none =>
          rw [learn_of_none hbest]
          exact ⟨List.nodup_nil, nofun⟩
      | some best =>
          obtain ⟨hnodup, hnew⟩ := ih (h.mergeAll hbest)
          rw [learn_of_some hbest]
          refine ⟨List.nodup_cons.mpr ⟨fun hmem => ?_, hnodup⟩,
            List.forall_mem_cons.mpr ⟨h.best_not_mem hbest, fun m hm hmem =>
              hnew m hm (List.mem_cons_of_mem _ hmem)⟩⟩
          obtain ⟨m, hm, heq⟩ := List.mem_map.mp hmem
          exact hnew m hm (heq ▸ List.mem_cons_self ..)

/-- Each word ends as the merges make it, in its place and with its count. -/
theorem entries_learn (h : Segmented nextId learned wordFreqs) (left : Nat) :
    (learn left nextId wordFreqs).2.entries = wordFreqs.entries.map fun wf =>
      (replay (learn left nextId wordFreqs).1 wf.1, wf.2) := by
  induction left generalizing nextId learned wordFreqs with
  | zero => exact (List.map_id _).symm
  | succ left ih =>
      cases hbest : bestPair (countPairs wordFreqs) with
      | none =>
          rw [learn_of_none hbest]
          exact (List.map_id _).symm
      | some best =>
          rw [learn_of_some hbest, ih (h.mergeAll hbest),
            h.entries_mergeAll (h.best_lt hbest), List.map_map]
          rfl

end ByteLevelBPETokenizer

end PassionProjects.ForgeLM
