/-
  PassionProjects.ForgeLM.Tokenizer.Tables

  The tables that `_rebuild_indices` makes of merges that were learned: what bytes an id
  stands for, the rank of a pair, and the ids of the special tokens.
-/

import PassionProjects.ForgeLM.Tokenizer.Training
import PassionProjects.Lib.Results

namespace PassionProjects.ForgeLM

open PairMerging Results

namespace ByteLevelBPETokenizer

theorem item_eq_ok {κ ν : Type} [DecidableEq κ] {d : Dict κ ν} {k : κ} {v : ν} :
    item d k = .ok v ↔ d.get? k = some v := by
  unfold item
  cases d.get? k <;> simp

-- ============================================================================
-- The vocabulary
-- ============================================================================

variable {merges done : List Merge} {m : Merge} {nextId : Nat} {vocab : Dict Nat (List UInt8)}

/-- The merge behind so many others. -/
theorem Numbered.next (h : Numbered nextId merges) (hmerges : done ++ [m] <+: merges) :
    m.2 = nextId + done.length ∧ m.1.1 < m.2 ∧ m.1.2 < m.2 := by
  obtain ⟨rest, rfl⟩ := hmerges
  induction done generalizing nextId with
  | nil =>
      obtain ⟨rfl, h1, h2, -⟩ := h
      exact ⟨rfl, h1, h2⟩
  | cons m' done ih =>
      obtain ⟨-, -, -, hrest⟩ := h
      obtain ⟨hid, holder⟩ := ih hrest
      exact ⟨by rw [hid, List.length_cons]; omega, holder⟩

theorem Numbered.le_of_mem (h : Numbered nextId merges) (hm : m ∈ merges) : nextId ≤ m.2 := by
  induction merges generalizing nextId with
  | nil => cases hm
  | cons m' merges ih =>
      obtain ⟨hid, -, -, hrest⟩ := h
      rcases List.mem_cons.mp hm with rfl | hm
      · exact Nat.le_of_eq hid.symm
      · exact Nat.le_of_succ_le (ih hrest hm)

theorem Numbered.lt_of_mem (h : Numbered nextId merges) (hm : m ∈ merges) :
    m.2 < nextId + merges.length := by
  obtain ⟨done, rest, hsplit⟩ := List.append_of_mem hm
  have hdone : done ++ [m] <+: merges := ⟨rest, by rw [hsplit, List.append_assoc]; rfl⟩
  rw [(h.next hdone).1, hsplit, List.length_append, List.length_cons]
  omega

/-- Each merge makes a new id, which only later ones read. -/
theorem Numbered.layered (h : Numbered nextId merges) (hnodup : (merges.map Prod.fst).Nodup) :
    Layered merges := by
  induction merges generalizing nextId with
  | nil => exact ⟨nofun, .nil⟩
  | cons m merges ih =>
      obtain ⟨hid, hleft, hright, hrest⟩ := h
      obtain ⟨hnew, hnodup⟩ := List.nodup_cons.mp hnodup
      obtain ⟨hown, hlater⟩ := ih hrest hnodup
      refine ⟨List.forall_mem_cons.mpr ⟨⟨?_, ?_⟩, hown⟩,
        List.pairwise_cons.mpr ⟨fun s hs => ⟨?_, ?_, ?_⟩, hlater⟩⟩
      · exact hid ▸ Nat.ne_of_gt hleft
      · exact hid ▸ Nat.ne_of_gt hright
      · exact fun heq => hnew (heq ▸ List.mem_map_of_mem hs)
      · exact Nat.ne_of_gt (Nat.lt_of_lt_of_le (Nat.lt_succ_of_lt hleft) (hrest.le_of_mem hs))
      · exact Nat.ne_of_gt (Nat.lt_of_lt_of_le (Nat.lt_succ_of_lt hright) (hrest.le_of_mem hs))

/-- The ids of the bytes and of the merges stand for bytes: each byte id for its byte, and
    each merged id for what its pair stands for. -/
structure Spells (merges : List Merge) (vocab : Dict Nat (List UInt8)) : Prop where
  known : ∀ i, (vocab.get? i).isSome ↔ i < baseByteVocabSize + merges.length
  byte : ∀ b : UInt8, vocab.get? b.toNat = some [b]
  merged : ∀ m ∈ merges, ∃ left right, vocab.get? m.1.1 = some left ∧
    vocab.get? m.1.2 = some right ∧ vocab.get? m.2 = some (left ++ right)

theorem get?_baseVocab {i : Nat} (h : i < baseByteVocabSize) :
    baseVocab.get? i = some [UInt8.ofNat i] := by
  refine Dict.get?_ofPairs (List.mem_map.mpr ⟨i, List.mem_range.mpr h, rfl⟩) fun v hv => ?_
  obtain ⟨j, -, heq⟩ := List.mem_map.mp hv
  obtain ⟨rfl, rfl⟩ := Prod.mk.inj heq
  rfl

theorem spells_baseVocab : Spells [] baseVocab where
  known i := by
    refine ⟨fun h => ?_, fun h => by rw [get?_baseVocab h]; rfl⟩
    obtain ⟨v, hv⟩ := Option.isSome_iff_exists.mp h
    obtain ⟨j, hj, heq⟩ := List.mem_map.mp (Dict.mem_of_get?_ofPairs hv)
    obtain ⟨rfl, -⟩ := Prod.mk.inj heq
    exact List.mem_range.mp hj
  byte b := by
    rw [get?_baseVocab (UInt8.toNat_lt b), UInt8.ofNat_toNat]
  merged := nofun

theorem Spells.exists_bytes (h : Spells merges vocab) {i : Nat}
    (hi : i < baseByteVocabSize + merges.length) : ∃ bytes, vocab.get? i = some bytes :=
  Option.isSome_iff_exists.mp ((h.known i).mpr hi)

/-- One more merge is spelled. -/
theorem Spells.addMerge (h : Spells done vocab) (hid : m.2 = baseByteVocabSize + done.length)
    (hleft : m.1.1 < m.2) (hright : m.1.2 < m.2) :
    ∃ vocab', addMerge vocab m = .ok vocab' ∧ Spells (done ++ [m]) vocab' := by
  obtain ⟨left, hleft'⟩ := h.exists_bytes (hid ▸ hleft)
  obtain ⟨right, hright'⟩ := h.exists_bytes (hid ▸ hright)
  have hadd : ByteLevelBPETokenizer.addMerge vocab m = .ok (vocab.set m.2 (left ++ right)) :=
    bind_eq_ok.mpr
      ⟨left, item_eq_ok.mpr hleft', bind_eq_ok.mpr ⟨right, item_eq_ok.mpr hright', rfl⟩⟩
  -- the new id was unknown, so that nothing that was spelled changes
  have hother {i : Nat} (hi : i < m.2) :
      (vocab.set m.2 (left ++ right)).get? i = vocab.get? i :=
    Dict.get?_set_ne (Nat.ne_of_lt hi)
  refine ⟨_, hadd, ?_, fun b => ?_, fun n hn => ?_⟩
  · intro i
    rw [Dict.get?_set, List.length_append, List.length_singleton]
    split
    · next heq => simp only [Option.isSome_some, heq, hid, true_iff]; omega
    · next hne =>
      rw [h.known]
      omega
  · have hb : b.toNat < m.2 := by
      have := UInt8.toNat_lt b
      unfold baseByteVocabSize at hid
      omega
    rw [hother hb, h.byte]
  · rcases List.mem_append.mp hn with hn | hn
    · obtain ⟨x, y, hx, hy, hxy⟩ := h.merged n hn
      have hlt {i : Nat} {bytes : List UInt8} (hi : vocab.get? i = some bytes) : i < m.2 :=
        hid ▸ (h.known i).mp (by rw [hi]; rfl)
      exact ⟨x, y, (hother (hlt hx)).trans hx, (hother (hlt hy)).trans hy,
        (hother (hlt hxy)).trans hxy⟩
    · obtain rfl := List.mem_singleton.mp hn
      exact ⟨left, right, (hother hleft).trans hleft', (hother hright).trans hright',
        Dict.get?_set_self⟩

/-- The vocabulary of merges in order can be built. -/
theorem exists_vocab (h : Numbered baseByteVocabSize merges) :
    ∃ vocab, merges.foldlM ByteLevelBPETokenizer.addMerge baseVocab = .ok vocab ∧
      Spells merges vocab :=
  foldlM_ok merges spells_baseVocab fun _ _ _ hdone hspells =>
    have hnext := h.next hdone
    hspells.addMerge hnext.1 hnext.2.1 hnext.2.2

-- ============================================================================
-- A tokenizer that was trained
-- ============================================================================

/-- The merges are as `train` learns them, below the special tokens, and the tables are
    those of the merges. -/
structure Trained (tok : ByteLevelBPETokenizer) : Prop where
  numbered : Numbered baseByteVocabSize tok.merges
  nodup : (tok.merges.map Prod.fst).Nodup
  fits : baseByteVocabSize + tok.merges.length ≤ tok.specialsStart
  rebuilt : tok.rebuildIndices = .ok tok

/-- The tables of such merges can be built. -/
theorem exists_rebuilt (tok : ByteLevelBPETokenizer)
    (hnumbered : Numbered baseByteVocabSize tok.merges)
    (hnodup : (tok.merges.map Prod.fst).Nodup)
    (hfits : baseByteVocabSize + tok.merges.length ≤ tok.specialsStart) :
    ∃ tok', tok.rebuildIndices = .ok tok' ∧ tok'.Trained ∧ tok'.merges = tok.merges ∧
      tok'.vocabSize = tok.vocabSize ∧ tok'.specialTokens = tok.specialTokens := by
  obtain ⟨vocab, hvocab, -⟩ := exists_vocab hnumbered
  refine ⟨_, bind_eq_ok.mpr ⟨vocab, hvocab, rfl⟩, ⟨hnumbered, hnodup, hfits, ?_⟩, rfl, rfl, rfl⟩
  exact bind_eq_ok.mpr ⟨vocab, hvocab, rfl⟩

namespace Trained

variable {tok : ByteLevelBPETokenizer}

theorem exists_vocab (h : tok.Trained) :
    ∃ vocab, tok.requireTrained = .ok vocab ∧ Spells tok.merges vocab := by
  obtain ⟨vocab, hvocab, hspells⟩ := ByteLevelBPETokenizer.exists_vocab h.numbered
  obtain ⟨vocab', hvocab', htok⟩ := bind_eq_ok.mp h.rebuilt
  obtain rfl : vocab = vocab' := Except.ok.inj (hvocab.symm.trans hvocab')
  have hfield := congrArg ByteLevelBPETokenizer.vocab (Except.ok.inj htok)
  exact ⟨vocab, by rw [requireTrained, ← hfield], hspells⟩

theorem mergeRank_eq (h : tok.Trained) :
    tok.mergeRank = .ofPairs (tok.merges.zipIdx.map fun m => (m.1.1, m.2)) := by
  obtain ⟨vocab, -, htok⟩ := bind_eq_ok.mp h.rebuilt
  exact (congrArg mergeRank (Except.ok.inj htok)).symm

theorem mergePairToId_eq (h : tok.Trained) : tok.mergePairToId = .ofPairs tok.merges := by
  obtain ⟨vocab, -, htok⟩ := bind_eq_ok.mp h.rebuilt
  exact (congrArg mergePairToId (Except.ok.inj htok)).symm

theorem specialTokenIds_eq (h : tok.Trained) :
    tok.specialTokenIds =
      .ofPairs (tok.specialTokens.zipIdx.map fun t => (t.1, tok.specialsStart + t.2)) := by
  obtain ⟨vocab, -, htok⟩ := bind_eq_ok.mp h.rebuilt
  exact (congrArg specialTokenIds (Except.ok.inj htok)).symm

theorem specialIdToToken_eq (h : tok.Trained) :
    tok.specialIdToToken = .ofPairs (tok.specialTokenIds.entries.map fun e => (e.2, e.1)) := by
  obtain ⟨vocab, -, htok⟩ := bind_eq_ok.mp h.rebuilt
  have hfield := congrArg specialIdToToken (Except.ok.inj htok)
  rw [h.specialTokenIds_eq]
  exact hfield.symm

-- ============================================================================
-- Ranks
-- ============================================================================

/-- The rank of a pair is the place of its merge. -/
theorem get?_mergeRank (h : tok.Trained) {p : Pair} {r : Nat} :
    tok.mergeRank.get? p = some r ↔ ∃ m, tok.merges[r]? = some m ∧ m.1 = p := by
  have hmem {r : Nat} : (p, r) ∈ tok.merges.zipIdx.map (fun m => (m.1.1, m.2)) ↔
      ∃ m, tok.merges[r]? = some m ∧ m.1 = p := by
    constructor
    · intro hmem
      obtain ⟨⟨m, i⟩, hm, heq⟩ := List.mem_map.mp hmem
      obtain ⟨rfl, rfl⟩ := Prod.mk.inj heq
      exact ⟨m, List.mem_zipIdx_iff_getElem?.mp hm, rfl⟩
    · rintro ⟨m, hm, rfl⟩
      exact List.mem_map.mpr ⟨(m, r), List.mem_zipIdx_iff_getElem?.mpr hm, rfl⟩
  rw [h.mergeRank_eq]
  refine ⟨fun hget => hmem.mp (Dict.mem_of_get?_ofPairs hget), fun hm => ?_⟩
  refine Dict.get?_ofPairs (hmem.mpr hm) fun r' hr' => ?_
  obtain ⟨m, hm, rfl⟩ := hm
  obtain ⟨m', hm', heq⟩ := hmem.mp hr'
  have hr : (tok.merges.map Prod.fst)[r]? = some m.1 := by rw [List.getElem?_map, hm]; rfl
  have hr' : (tok.merges.map Prod.fst)[r']? = some m.1 := by
    rw [List.getElem?_map, hm', ← heq]; rfl
  exact (List.getElem?_inj (List.getElem?_eq_some_iff.mp hr').1 h.nodup).mp (hr'.trans hr.symm)

/-- A pair is merged into the id of its merge. -/
theorem item_mergePairToId (h : tok.Trained) {m : Merge} (hm : m ∈ tok.merges) :
    item tok.mergePairToId m.1 = .ok m.2 := by
  rw [h.mergePairToId_eq, item_eq_ok]
  refine Dict.get?_ofPairs hm fun id hid => ?_
  have heq := List.inj_on_of_nodup_map h.nodup hm hid rfl
  rw [heq]

theorem layered (h : tok.Trained) : Layered tok.merges := h.numbered.layered h.nodup

end Trained

-- ============================================================================
-- What was trained and what was loaded
-- ============================================================================

variable {tok tok' : ByteLevelBPETokenizer} {corpus : Str}

/-- The ids from the bytes to the special tokens can be learned. -/
theorem learnAll_eq (tok : ByteLevelBPETokenizer) (wordFreqs : Dict (List Nat) Nat) :
    ∃ left, baseByteVocabSize + left = tok.specialsStart ∧
      tok.learnAll wordFreqs = learn left baseByteVocabSize wordFreqs := by
  have hroom := tok.room
  refine ⟨tok.specialsStart - baseByteVocabSize, ?_, by rw [learnAll]⟩
  unfold specialsStart
  omega

/-- The tables of what was learned can be built. -/
theorem exists_rebuilt_learnAll {wordFreqs : Dict (List Nat) Nat}
    (h : countWords corpus = .ok wordFreqs) (tok : ByteLevelBPETokenizer) :
    ∃ tok', rebuildIndices { tok with merges := (tok.learnAll wordFreqs).1 } = .ok tok' ∧
      tok'.Trained ∧ tok'.merges = (tok.learnAll wordFreqs).1 ∧
      tok'.vocabSize = tok.vocabSize ∧ tok'.specialTokens = tok.specialTokens := by
  have hwords := segmented_countWords h
  obtain ⟨left, hleft, hlearn⟩ := tok.learnAll_eq wordFreqs
  have hlength := length_learn_le left baseByteVocabSize wordFreqs
  rw [hlearn]
  exact exists_rebuilt { tok with merges := (learn left baseByteVocabSize wordFreqs).1 }
    (numbered_learn hwords left) (nodup_learn hwords left).1
    ((Nat.add_le_add_left hlength _).trans (Nat.le_of_eq hleft))

/-- Every text that can be encoded can be trained on. -/
theorem exists_train {b : List UInt8} (tok : ByteLevelBPETokenizer)
    (h : encodeUtf8 corpus = .ok b) : ∃ tok', tok.train corpus = .ok tok' := by
  obtain ⟨wordFreqs, hcount⟩ := exists_countWords h
  obtain ⟨tok', htok, -⟩ := exists_rebuilt_learnAll hcount tok
  exact ⟨tok', bind_eq_ok.mpr ⟨wordFreqs, hcount, htok⟩⟩

theorem trained_of_train (h : tok.train corpus = .ok tok') :
    ∃ wordFreqs, countWords corpus = .ok wordFreqs ∧ tok'.Trained ∧
      tok'.merges = (tok.learnAll wordFreqs).1 ∧
      tok'.vocabSize = tok.vocabSize ∧ tok'.specialTokens = tok.specialTokens := by
  obtain ⟨wordFreqs, hcount, hrebuild⟩ := bind_eq_ok.mp h
  obtain ⟨tok'', htok, hrest⟩ := exists_rebuilt_learnAll hcount tok
  obtain rfl : tok'' = tok' := Except.ok.inj (htok.symm.trans hrebuild)
  exact ⟨wordFreqs, hcount, hrest⟩

theorem of_new {vocabSize : Int} {specialTokens : List Str}
    (h : new vocabSize specialTokens = .ok tok) :
    tok.vocabSize = vocabSize.toNat ∧ tok.specialTokens = specialTokens := by
  simp only [new] at h
  split at h
  · cases h
  · obtain rfl := Except.ok.inj h
    exact ⟨rfl, rfl⟩

theorem natCast_vocabSize {vocabSize : Int} {specialTokens : List Str}
    (h : new vocabSize specialTokens = .ok tok) : (tok.vocabSize : Int) = vocabSize := by
  rw [(of_new h).1]
  refine Int.toNat_of_nonneg (Int.not_lt.mp fun hneg => ?_)
  simp only [new] at h
  rw [dif_pos (by omega)] at h
  cases h

theorem exists_new (vocabSize : Nat) (specialTokens : List Str)
    (h : baseByteVocabSize + specialTokens.length ≤ vocabSize) :
    ∃ tok, new vocabSize specialTokens = .ok tok := by
  unfold new
  rw [dif_neg (by omega)]
  exact ⟨_, rfl⟩

/-- A tokenizer that was trained can be saved, and what is loaded then was trained. -/
theorem Trained.exists_loaded (h : tok.Trained) :
    ∃ payload tok', tok.save = .ok payload ∧ load payload.reread = .ok tok' ∧ tok'.Trained ∧
      tok'.vocabSize = tok.vocabSize := by
  obtain ⟨vocab, hvocab, -⟩ := h.exists_vocab
  have hroom : baseByteVocabSize + (tok.specialTokens.map jsonString).length ≤
      tok.vocabSize := by
    rw [List.length_map]
    exact tok.room
  obtain ⟨fresh, hfresh⟩ := exists_new _ _ hroom
  obtain ⟨hsize, hspecials⟩ := of_new hfresh
  have hmerges : (tok.merges.map fun m => (m.1.1, m.1.2, m.2)).map
      (fun m => (((m.1, m.2.1), m.2.2) : Merge)) = tok.merges := by
    rw [List.map_map]
    exact List.map_id _
  have hfits : baseByteVocabSize + tok.merges.length ≤ fresh.specialsStart := by
    have hfits := h.fits
    unfold specialsStart at hfits ⊢
    rwa [hsize, hspecials, List.length_map, Int.toNat_natCast]
  obtain ⟨tok', htok', htrained, -, hsize', -⟩ :=
    exists_rebuilt { fresh with merges := tok.merges } h.numbered h.nodup hfits
  refine ⟨_, tok', bind_eq_ok.mpr ⟨vocab, hvocab, rfl⟩, bind_eq_ok.mpr ⟨fresh, hfresh, ?_⟩,
    htrained, ?_⟩
  · exact (congrArg (fun merges => rebuildIndices { fresh with merges := merges }) hmerges).trans
      htok'
  · rw [hsize', hsize, Int.toNat_natCast]

end ByteLevelBPETokenizer

end PassionProjects.ForgeLM
