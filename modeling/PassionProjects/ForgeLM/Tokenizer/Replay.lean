/-
  PassionProjects.ForgeLM.Tokenizer.Replay

  Encoding replays training: a word that is encoded one best pair at a time comes out as
  if all merges were swept over it in the order in which they were learned.
-/

import PassionProjects.ForgeLM.Tokenizer.Tables

namespace PassionProjects.ForgeLM

open PairMerging Results

namespace ByteLevelBPETokenizer

-- ============================================================================
-- The best pair
-- ============================================================================

/-- What the inner loop of `_encode_word` has found among some pairs: the lowest rank, and
    the first place where it occurs. -/
def Best (rank : Dict Pair Nat) (ps : List Pair) : Option (Nat × Nat) → Prop
  | none => ∀ p ∈ ps, rank.get? p = none
  | some (r, i) =>
      ∃ p, ps[i]? = some p ∧ rank.get? p = some r ∧
        (∀ q ∈ ps, ∀ s, rank.get? q = some s → r ≤ s) ∧
        ∀ q ∈ ps.take i, rank.get? q ≠ some r

variable {rank : Dict Pair Nat} {ps : List Pair} {best : Option (Nat × Nat)}

/-- A turn of the loop looks at one more pair. -/
theorem Best.better (h : Best rank ps best) (p : Pair) :
    Best rank (ps ++ [p]) (better rank best (p, ps.length)) := by
  have hcases {P : Pair → Prop} (hps : ∀ q ∈ ps, P q) (hp : P p) : ∀ q ∈ ps ++ [p], P q :=
    List.forall_mem_append.mpr ⟨hps, List.forall_mem_singleton.mpr hp⟩
  have hkeep {r i : Nat} (h : Best rank ps (some (r, i)))
      (hp : ∀ s, rank.get? p = some s → r ≤ s) : Best rank (ps ++ [p]) (some (r, i)) := by
    obtain ⟨q, hq, hrank, hlow, hfirst⟩ := h
    have hi := (List.getElem?_eq_some_iff.mp hq).1
    refine ⟨q, ?_, hrank, hcases hlow hp, ?_⟩
    · rw [List.getElem?_append_left hi, hq]
    · rwa [List.take_append_of_le_length (Nat.le_of_lt hi)]
  have hlast {s : Nat} (hp : rank.get? p = some s) (hlow : ∀ q ∈ ps, ∀ r,
      rank.get? q = some r → s < r) : Best rank (ps ++ [p]) (some (s, ps.length)) := by
    refine ⟨p, List.getElem?_concat_length, hp, hcases (fun q hq r hr =>
      Nat.le_of_lt (hlow q hq r hr)) fun r hr => ?_, ?_⟩
    · exact Nat.le_of_eq (Option.some.inj (hp.symm.trans hr))
    · rw [List.take_left]
      exact fun q hq hr => Nat.lt_irrefl s (hlow q hq s hr)
  unfold ByteLevelBPETokenizer.better
  cases hp : rank.get? p with
  | none =>
      cases best with
      | none => exact hcases h hp
      | some best => exact hkeep h fun s hs => nomatch hp.symm.trans hs
  | some s =>
      cases best with
      | none => exact hlast hp fun q hq r hr => nomatch (h q hq).symm.trans hr
      | some best =>
          obtain ⟨r, i⟩ := best
          obtain ⟨-, -, -, hlow, -⟩ := id h
          by_cases hlt : s < r
          · simp only [if_pos hlt]
            exact hlast hp fun q hq t ht => Nat.lt_of_lt_of_le hlt (hlow q hq t ht)
          · simp only [if_neg hlt]
            refine hkeep h fun t ht => ?_
            obtain rfl : s = t := Option.some.inj (hp.symm.trans ht)
            exact Nat.not_lt.mp hlt

theorem best_bestMerge (rank : Dict Pair Nat) (ids : List Nat) :
    Best rank (pairs ids) (bestMerge rank ids) := by
  unfold bestMerge
  generalize pairs ids = ps
  induction ps using List.reverseRecOn with
  | nil => exact nofun
  | append_singleton ps p ih =>
      rw [List.zipIdx_append, List.foldl_append]
      simpa using ih.better p

-- ============================================================================
-- The encoded word
-- ============================================================================

variable {tok : ByteLevelBPETokenizer} {ids : List Nat}

theorem Trained.replay_of_unranked (h : tok.Trained)
    (hnone : ∀ p ∈ pairs ids, tok.mergeRank.get? p = none) : replay tok.merges ids = ids := by
  refine replay_of_not_mem fun m hm hmem => ?_
  obtain ⟨r, hr⟩ := List.mem_iff_getElem?.mp hm
  exact nomatch (hnone _ hmem).symm.trans (h.get?_mergeRank.mpr ⟨m, hr, rfl⟩)

/-- One turn of the loop of `_encode_word` does not change what the merges make of the
    word. -/
theorem Trained.replay_mergeBest (h : tok.Trained) {m : Merge} {r i : Nat}
    (hm : tok.merges[r]? = some m) (hi : (pairs ids)[i]? = some m.1)
    (hlow : ∀ q ∈ pairs ids, ∀ s, tok.mergeRank.get? q = some s → r ≤ s)
    (hfirst : ∀ q ∈ (pairs ids).take i, tok.mergeRank.get? q ≠ some r) :
    replay tok.merges (ids.take i ++ m.2 :: ids.drop (i + 2)) = replay tok.merges ids := by
  obtain ⟨hr, hget⟩ := List.getElem?_eq_some_iff.mp hm
  have hids := split_of_getElem?_pairs hi
  have hmerges : tok.merges.take r ++ m :: tok.merges.drop (r + 1) = tok.merges := by
    rw [← hget, List.getElem_cons_drop, List.take_append_drop]
  have hlayered : Layered (tok.merges.take r ++ m :: tok.merges.drop (r + 1)) :=
    hmerges.symm ▸ h.layered
  have hbefore : ∀ s ∈ tok.merges.take r,
      s.1 ∉ pairs (ids.take i ++ m.1.1 :: m.1.2 :: ids.drop (i + 2)) := by
    intro s hs hmem
    obtain ⟨k, hk⟩ := List.mem_iff_getElem?.mp hs
    rw [List.getElem?_take] at hk
    split at hk
    · next hlt =>
      rw [← hids] at hmem
      exact absurd (hlow _ hmem k (h.get?_mergeRank.mpr ⟨s, hk, rfl⟩)) (Nat.not_le.mpr hlt)
    · cases hk
  have hleftmost : m.1 ∉ pairs (ids.take i ++ [m.1.1]) := by
    rw [pairs_take_of_getElem? hi]
    exact fun hmem => hfirst _ hmem (h.get?_mergeRank.mpr ⟨m, hm, rfl⟩)
  have hreplay := replay_merge hlayered hbefore hleftmost
  rw [hmerges, ← hids] at hreplay
  exact hreplay.symm

theorem Trained.mergeBest_eq (h : tok.Trained) (ids : List Nat) :
    tok.mergeBest ids = .ok (replay tok.merges ids) := by
  fun_induction mergeBest tok ids with
  | case1 ids hlength =>
      rw [replay_of_not_mem fun m _ hmem => ?_]
      rw [pairs_eq_nil_of_length hlength] at hmem
      cases hmem
  | case2 ids hlength hnone =>
      have hbest := best_bestMerge tok.mergeRank ids
      rw [hnone] at hbest
      rw [h.replay_of_unranked hbest]
  | case3 ids hlength r i hsome hpair =>
      have hbest := best_bestMerge tok.mergeRank ids
      rw [hsome] at hbest
      obtain ⟨p, hp, -⟩ := hbest
      exact nomatch hp.symm.trans hpair
  | case4 ids hlength r i hsome pair hpair ih =>
      have hbest := best_bestMerge tok.mergeRank ids
      rw [hsome] at hbest
      obtain ⟨p, hp, hrank, hlow, hfirst⟩ := hbest
      obtain rfl : p = pair := Option.some.inj (hp.symm.trans hpair)
      obtain ⟨m, hm, rfl⟩ := h.get?_mergeRank.mp hrank
      refine bind_eq_ok.mpr ⟨m.2, h.item_mergePairToId (List.mem_of_getElem? hm), ?_⟩
      rw [ih, h.replay_mergeBest hm hp hlow hfirst]

/-- A word is encoded as the merges make it, in the order in which they were learned. -/
theorem Trained.encodeWord_eq (h : tok.Trained) (word : List UInt8) :
    tok.encodeWord word = .ok (replay tok.merges (byteIds word)) :=
  h.mergeBest_eq (byteIds word)

-- ============================================================================
-- More ids to learn
-- ============================================================================

variable {fresh fresh' tok' : ByteLevelBPETokenizer} {corpus : Str}

/-- Trained with the same special tokens, and on from the same merges. -/
structure Extends (tok tok' : ByteLevelBPETokenizer) : Prop where
  trained : tok.Trained
  trained' : tok'.Trained
  merges : tok.merges <+: tok'.merges
  specialTokens : tok'.specialTokens = tok.specialTokens

/-- A larger vocabulary learns more merges behind the same ones. -/
theorem extends_of_train (hsizes : fresh.vocabSize ≤ fresh'.vocabSize)
    (hspecials : fresh'.specialTokens = fresh.specialTokens)
    (h : fresh.train corpus = .ok tok) (h' : fresh'.train corpus = .ok tok') :
    Extends tok tok' := by
  obtain ⟨wordFreqs, hcount, htrained, hmerges, -, hspecials₁⟩ := trained_of_train h
  obtain ⟨wordFreqs', hcount', htrained', hmerges', -, hspecials₂⟩ := trained_of_train h'
  obtain rfl : wordFreqs = wordFreqs' := Except.ok.inj (hcount.symm.trans hcount')
  obtain ⟨left, hleft, hlearn⟩ := fresh.learnAll_eq wordFreqs
  obtain ⟨left', hleft', hlearn'⟩ := fresh'.learnAll_eq wordFreqs
  have hle : left ≤ left' := by
    unfold specialsStart at hleft hleft'
    rw [hspecials] at hleft'
    omega
  obtain ⟨more, rfl⟩ := Nat.exists_eq_add_of_le hle
  refine ⟨htrained, htrained', ?_, by rw [hspecials₁, hspecials₂, hspecials]⟩
  rw [hmerges, hmerges', hlearn, hlearn']
  exact learn_prefix left more baseByteVocabSize wordFreqs

theorem Trained.exists_specialTokenId (h : tok.Trained) (part : Str) :
    (∃ id, tok.specialTokenIds.get? part = some id) ↔ part ∈ tok.specialTokens := by
  rw [← Dict.mem_keys, h.specialTokenIds_eq, Dict.mem_keys_ofPairs, List.map_map]
  exact (List.zipIdx_map_fst 0 tok.specialTokens).symm ▸ Iff.rfl

namespace Extends

variable {ids₁ ids' : List Nat} {part text : Str} {allowSpecial : Bool}

theorem length_append_le (hle : ids'.length ≤ ids.length) {more more' : List Nat}
    (hmore : more'.length ≤ more.length) : (ids' ++ more').length ≤ (ids ++ more).length := by
  rw [List.length_append, List.length_append]
  exact Nat.add_le_add hle hmore

theorem length_replay_le (h : Extends tok tok') (word : List Nat) :
    (replay tok'.merges word).length ≤ (replay tok.merges word).length := by
  obtain ⟨more, hmore⟩ := h.merges
  rw [← hmore, replay_append]
  exact PairMerging.length_replay_le more _

theorem encodeWords (h : Extends tok tok') (hle : ids'.length ≤ ids.length)
    (hwords : tok.encodeWords ids part = .ok ids₁) :
    ∃ ids₁', tok'.encodeWords ids' part = .ok ids₁' ∧ ids₁'.length ≤ ids₁.length := by
  refine foldlM_follows (R := fun ids ids' : List Nat => ids'.length ≤ ids.length) hwords hle
    fun word ids ids₁ ids' hle hword => ?_
  obtain ⟨bytes, hbytes, hword⟩ := bind_eq_ok.mp hword
  obtain ⟨wordIds, hwordIds, hids₁⟩ := bind_eq_ok.mp hword
  obtain rfl := Except.ok.inj hids₁
  obtain rfl := Except.ok.inj ((h.trained.encodeWord_eq bytes).symm.trans hwordIds)
  exact ⟨_, bind_eq_ok.mpr ⟨bytes, hbytes,
    bind_eq_ok.mpr ⟨_, h.trained'.encodeWord_eq bytes, rfl⟩⟩,
    length_append_le hle (h.length_replay_le _)⟩

theorem encodePart (h : Extends tok tok') (hle : ids'.length ≤ ids.length)
    (hpart : tok.encodePart allowSpecial ids part = .ok ids₁) :
    ∃ ids₁', tok'.encodePart allowSpecial ids' part = .ok ids₁' ∧
      ids₁'.length ≤ ids₁.length := by
  have hsame : (∃ id, tok.specialTokenIds.get? part = some id) ↔
      ∃ id, tok'.specialTokenIds.get? part = some id := by
    rw [h.trained.exists_specialTokenId, h.trained'.exists_specialTokenId, h.specialTokens]
  unfold ByteLevelBPETokenizer.encodePart at hpart ⊢
  by_cases hempty : part = []
  · rw [if_pos hempty] at hpart ⊢
    exact ⟨ids', rfl, Except.ok.inj hpart ▸ hle⟩
  · rw [if_neg hempty] at hpart ⊢
    cases allowSpecial with
    | false => exact h.encodeWords hle hpart
    | true =>
        simp only [↓reduceIte] at hpart ⊢
        cases hid : tok.specialTokenIds.get? part with
        | some id =>
            obtain ⟨id', hid'⟩ := hsame.mp ⟨id, hid⟩
            simp only [hid] at hpart
            simp only [hid']
            exact ⟨_, rfl, Except.ok.inj hpart ▸ length_append_le hle (Nat.le_refl 1)⟩
        | none =>
            have hid' : tok'.specialTokenIds.get? part = none := by
              cases hid' : tok'.specialTokenIds.get? part with
              | none => rfl
              | some id' =>
                  obtain ⟨id, hsome⟩ := hsame.mpr ⟨id', hid'⟩
                  exact absurd (hid.symm.trans hsome) (Option.some_ne_none _).symm
            simp only [hid] at hpart
            simp only [hid']
            exact h.encodeWords hle hpart

/-- A text is encoded in no more ids. -/
theorem encode (h : Extends tok tok') {ids : List Nat}
    (hids : tok.encode text allowSpecial = .ok ids) :
    ∃ ids', tok'.encode text allowSpecial = .ok ids' ∧ ids'.length ≤ ids.length := by
  obtain ⟨_, -, hencode⟩ := bind_eq_ok.mp hids
  obtain ⟨vocab', hvocab', -⟩ := h.trained'.exists_vocab
  have hparts : tok'.parts text allowSpecial = tok.parts text allowSpecial := by
    unfold parts
    rw [h.specialTokens]
  unfold ByteLevelBPETokenizer.encode
  rw [hvocab']
  by_cases hempty : text = []
  · rw [if_pos hempty] at hencode
    exact ⟨[], bind_eq_ok.mpr ⟨vocab', rfl, if_pos hempty⟩, Nat.zero_le _⟩
  · rw [if_neg hempty] at hencode
    obtain ⟨ids', hids', hle⟩ := foldlM_follows (c := [])
      (R := fun ids ids' : List Nat => ids'.length ≤ ids.length) hencode (Nat.le_refl 0)
      fun part ids ids₁ ids' hle hpart => h.encodePart hle hpart
    exact ⟨ids', bind_eq_ok.mpr ⟨vocab', rfl, by rw [if_neg hempty, hparts, hids']⟩, hle⟩

end Extends

-- ============================================================================
-- Encoding replays training
-- ============================================================================

/-- What a text and a vocabulary size teach, and how words are encoded afterwards: by
    `_merge_all` with each learned merge in turn, so that each word of the training text
    ends as it did in training; and a larger size learns on from the same merges, and no
    text is encoded in more ids. -/
def ReplaysTraining (vocabSize : Int) (specialTokens : List Str) (corpus : Str)
    (fresh tok : ByteLevelBPETokenizer) : Prop :=
  (∀ word, ∃ ids, tok.encodeWord word = .ok ids ∧
    tok.merges.foldl (fun counter m => mergeAll counter m.1 m.2) (.tally [(byteIds word, 1)]) =
      .tally [(ids, 1)]) ∧
  (∀ wordFreqs, countWords corpus = .ok wordFreqs → ∀ word ∈ pretokenize corpus,
    ∃ bytes ids, encodeUtf8 word = .ok bytes ∧ tok.encodeWord bytes = .ok ids ∧
      ∃ i freq : Nat, wordFreqs.entries[i]? = some (byteIds bytes, freq) ∧
        (fresh.learnAll wordFreqs).2.entries[i]? = some (ids, freq)) ∧
  ∀ larger fresh' tok', vocabSize ≤ larger → new larger specialTokens = .ok fresh' →
    fresh'.train corpus = .ok tok' → tok.merges <+: tok'.merges ∧
      ∀ text allowSpecial ids, tok.encode text allowSpecial = .ok ids →
        ∃ ids', tok'.encode text allowSpecial = .ok ids' ∧ ids'.length ≤ ids.length

/-- Each word of the training text ends as the merges make it, in its place. -/
theorem entries_learnAll {wordFreqs : Dict (List Nat) Nat}
    (h : countWords corpus = .ok wordFreqs) (fresh : ByteLevelBPETokenizer) :
    (fresh.learnAll wordFreqs).2.entries = wordFreqs.entries.map fun wf =>
      (replay (fresh.learnAll wordFreqs).1 wf.1, wf.2) := by
  obtain ⟨left, -, hlearn⟩ := fresh.learnAll_eq wordFreqs
  rw [hlearn]
  exact entries_learn (segmented_countWords h) left

theorem foldl_mergeAll_single (merges : List Merge) (word : List Nat) :
    merges.foldl (fun counter m => mergeAll counter m.1 m.2) (.tally [(word, 1)]) =
      .tally [(replay merges word, 1)] := by
  induction merges generalizing word with
  | nil => rfl
  | cons m merges ih => rw [List.foldl_cons, mergeAll_single, ih, replay_cons]

theorem replays_training {vocabSize : Int} {specialTokens : List Str}
    (hnew : new vocabSize specialTokens = .ok fresh) (htrain : fresh.train corpus = .ok tok) :
    ReplaysTraining vocabSize specialTokens corpus fresh tok := by
  obtain ⟨wordFreqs, hcount, htrained, hmerges, -⟩ := trained_of_train htrain
  refine ⟨fun word => ?_, fun wordFreqs' hcount' word hword => ?_,
    fun larger fresh' tok' hle hnew' htrain' => ?_⟩
  · exact ⟨_, htrained.encodeWord_eq word, foldl_mergeAll_single tok.merges _⟩
  · obtain rfl : wordFreqs = wordFreqs' := Except.ok.inj (hcount.symm.trans hcount')
    obtain ⟨bytes, hbytes⟩ := exists_encodeUtf8_of_countWords hcount hword
    have hkey : byteIds bytes ∈ wordFreqs.keys :=
      (mem_keys_countWords hcount).mpr ⟨word, hword, bytes, hbytes, rfl⟩
    obtain ⟨freq, hfreq⟩ := Dict.mem_keys.mp hkey
    obtain ⟨i, hi⟩ := List.mem_iff_getElem?.mp (Dict.mem_of_get? hfreq)
    refine ⟨bytes, _, hbytes, htrained.encodeWord_eq bytes, i, freq, hi, ?_⟩
    rw [entries_learnAll hcount fresh, List.getElem?_map, hi, hmerges]
    rfl
  · obtain ⟨hsize, hspecials⟩ := of_new hnew
    obtain ⟨hsize', hspecials'⟩ := of_new hnew'
    have hextends : Extends tok tok' := extends_of_train
      (by rw [hsize, hsize']; exact Int.toNat_le_toNat hle) (by rw [hspecials, hspecials'])
      htrain htrain'
    exact ⟨hextends.merges, fun text allowSpecial ids hids => hextends.encode hids⟩

/-- Two ids to learn, and one special token. -/
theorem replays_training_demo :
    ∃ fresh tok, new 259 [str "<|eos|>"] = .ok fresh ∧ fresh.train (str "aaab aab") = .ok tok ∧
      ReplaysTraining 259 [str "<|eos|>"] (str "aaab aab") fresh tok := by
  obtain ⟨fresh, hnew⟩ := exists_new 259 [str "<|eos|>"]
    (by decide)
  obtain ⟨tok, htrain⟩ := exists_train fresh (encodeUtf8_map_scalar "aaab aab".toList)
  exact ⟨fresh, tok, hnew, htrain, replays_training hnew htrain⟩

end ByteLevelBPETokenizer

end PassionProjects.ForgeLM
