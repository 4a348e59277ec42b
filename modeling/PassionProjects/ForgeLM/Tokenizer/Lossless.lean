/-
  PassionProjects.ForgeLM.Tokenizer.Lossless

  Tokenization is lossless: what is encoded is decoded to the same text, by a tokenizer
  that was trained and by one that was saved and loaded.

  The ids of a word stand for its bytes, whole characters or not, and only whole words
  stand between two special tokens, so that the bytes that `decode` has collected when it
  turns them into text are those of a text.
-/

import PassionProjects.ForgeLM.Tokenizer.Replay

namespace PassionProjects.ForgeLM

open PairMerging Results

namespace ByteLevelBPETokenizer

variable {tok fresh : ByteLevelBPETokenizer} {vocab : Dict Nat (List UInt8)} {ids : List Nat}
  {text : Str}

-- ============================================================================
-- The ids of a word
-- ============================================================================

/-- What an id stands for. -/
def spelling (vocab : Dict Nat (List UInt8)) (id : Nat) : List UInt8 := (vocab.get? id).getD []

theorem Spells.spelling_merged {merges : List Merge} {m : Merge} (h : Spells merges vocab)
    (hm : m ∈ merges) :
    spelling vocab m.2 = spelling vocab m.1.1 ++ spelling vocab m.1.2 := by
  obtain ⟨left, right, hleft, hright, hboth⟩ := h.merged m hm
  simp only [spelling, hleft, hright, hboth, Option.getD_some]

theorem Spells.flatMap_byteIds {merges : List Merge} (h : Spells merges vocab)
    (word : List UInt8) : (byteIds word).flatMap (spelling vocab) = word := by
  induction word with
  | nil => rfl
  | cons b word ih =>
      rw [byteIds, List.map_cons, List.flatMap_cons, spelling, h.byte]
      exact congrArg (b :: ·) ih

/-- The ids of a word stand for its bytes. -/
theorem Spells.flatMap_replay (h : Spells tok.merges vocab) (word : List UInt8) :
    (replay tok.merges (byteIds word)).flatMap (spelling vocab) = word := by
  rw [PairMerging.flatMap_replay fun m hm => h.spelling_merged hm, h.flatMap_byteIds]

/-- The ids of a word are those of bytes and of merges. -/
theorem Trained.lt_of_mem_replay (h : tok.Trained) {word : List UInt8} {id : Nat}
    (hid : id ∈ replay tok.merges (byteIds word)) :
    id < baseByteVocabSize + tok.merges.length := by
  rcases mem_of_mem_replay hid with hbyte | ⟨m, hm, rfl⟩
  · obtain ⟨b, -, rfl⟩ := List.mem_map.mp hbyte
    exact Nat.lt_add_right _ (UInt8.toNat_lt b)
  · exact h.numbered.lt_of_mem hm

-- ============================================================================
-- The ids of special tokens
-- ============================================================================

/-- The id of a special token is that of one of its places in the list. -/
theorem Trained.of_specialTokenId (h : tok.Trained) {token : Str} {id : Nat}
    (hid : tok.specialTokenIds.get? token = some id) :
    ∃ i, tok.specialTokens[i]? = some token ∧ id = tok.specialsStart + i := by
  rw [h.specialTokenIds_eq] at hid
  obtain ⟨⟨token', i⟩, hmem, heq⟩ := List.mem_map.mp (Dict.mem_of_get?_ofPairs hid)
  obtain ⟨rfl, rfl⟩ := Prod.mk.inj heq
  exact ⟨i, List.mem_zipIdx_iff_getElem?.mp hmem, rfl⟩

theorem Trained.specialTokenId_lt (h : tok.Trained) {token : Str} {id : Nat}
    (hid : tok.specialTokenIds.get? token = some id) : id < tok.vocabSize := by
  obtain ⟨i, hi, rfl⟩ := h.of_specialTokenId hid
  have hlt := (List.getElem?_eq_some_iff.mp hi).1
  have hroom := tok.room
  unfold specialsStart
  omega

/-- The id of a special token is read back as that token. -/
theorem Trained.get?_specialIdToToken (h : tok.Trained) {token : Str} {id : Nat}
    (hid : tok.specialTokenIds.get? token = some id) :
    tok.specialIdToToken.get? id = some token := by
  rw [h.specialIdToToken_eq]
  refine Dict.get?_ofPairs (List.mem_map.mpr ⟨_, Dict.mem_of_get? hid, rfl⟩) fun token' hmem => ?_
  obtain ⟨⟨token'', id'⟩, hentry, heq⟩ := List.mem_map.mp hmem
  obtain ⟨rfl, rfl⟩ := Prod.mk.inj heq
  obtain ⟨i, hi, rfl⟩ := h.of_specialTokenId hid
  obtain ⟨j, hj, hij⟩ := h.of_specialTokenId (Dict.get?_of_mem hentry)
  obtain rfl : i = j := Nat.add_left_cancel hij
  exact Option.some.inj (hj.symm.trans hi)

/-- The ids of bytes and of merges are not those of special tokens. -/
theorem Trained.get?_specialIdToToken_of_lt (h : tok.Trained) {id : Nat}
    (hid : id < baseByteVocabSize + tok.merges.length) :
    tok.specialIdToToken.get? id = none := by
  cases hget : tok.specialIdToToken.get? id with
  | none => rfl
  | some token =>
      rw [h.specialIdToToken_eq] at hget
      obtain ⟨⟨token', id'⟩, hentry, heq⟩ := List.mem_map.mp (Dict.mem_of_get?_ofPairs hget)
      obtain ⟨rfl, rfl⟩ := Prod.mk.inj heq
      obtain ⟨i, -, rfl⟩ := h.of_specialTokenId (Dict.get?_of_mem hentry)
      have hfits := h.fits
      omega

-- ============================================================================
-- Decoding
-- ============================================================================

/-- What `decode` has collected is a text: the pieces, and a piece that the bytes encode. -/
def Collects (soFar : List Str × List UInt8) (text : Str) : Prop :=
  ∃ pending, encodeUtf8 pending = .ok soFar.2 ∧ soFar.1.flatten ++ pending = text

theorem Collects.flush {soFar : List Str × List UInt8} (h : Collects soFar text) :
    ∃ pieces, flush soFar.1 soFar.2 = .ok pieces ∧ pieces.flatten = text := by
  obtain ⟨pending, hpending, rfl⟩ := h
  have hdecode := decodeUtf8_of_encodeUtf8 hpending
  unfold ByteLevelBPETokenizer.flush
  by_cases hempty : soFar.2 = []
  · have hnil : decodeUtf8 [] = .ok [] := decodeUtf8_of_encodeUtf8 (s := []) rfl
    rw [hempty] at hdecode
    obtain rfl : [] = pending := Except.ok.inj (hnil.symm.trans hdecode)
    exact ⟨soFar.1, if_pos hempty, (List.append_nil _).symm⟩
  · refine ⟨soFar.1 ++ [pending], ?_, by simp⟩
    rw [if_neg hempty]
    exact bind_eq_ok.mpr ⟨pending, hdecode, rfl⟩

/-- The ids that were read so far are decoded to a text. -/
def Decodes (tok : ByteLevelBPETokenizer) (vocab : Dict Nat (List UInt8)) (ids : List Nat)
    (text : Str) : Prop :=
  ∃ soFar, ids.foldlM (tok.decodeId vocab) ([], []) = .ok soFar ∧ Collects soFar text

theorem Decodes.nil : Decodes tok vocab [] [] := ⟨_, rfl, [], rfl, rfl⟩

/-- A special token flushes the bytes before it. -/
theorem Decodes.special (h : Decodes tok vocab ids text) {id : Nat} {token : Str}
    (hid : tok.specialIdToToken.get? id = some token) :
    Decodes tok vocab (ids ++ [id]) (text ++ token) := by
  obtain ⟨soFar, hsoFar, hcollects⟩ := h
  obtain ⟨pieces, hpieces, rfl⟩ := hcollects.flush
  refine ⟨(pieces ++ [token], []), ?_, [], rfl, by simp⟩
  rw [foldlM_concat]
  refine bind_eq_ok.mpr ⟨soFar, hsoFar, ?_⟩
  unfold decodeId
  rw [hid]
  exact bind_eq_ok.mpr ⟨pieces, hpieces, rfl⟩

/-- The ids of bytes and of merges are collected. -/
theorem Trained.foldlM_decodeId (h : tok.Trained) (hspells : Spells tok.merges vocab)
    {wordIds : List Nat} (hids : ∀ id ∈ wordIds, id < baseByteVocabSize + tok.merges.length)
    (soFar : List Str × List UInt8) :
    wordIds.foldlM (tok.decodeId vocab) soFar =
      .ok (soFar.1, soFar.2 ++ wordIds.flatMap (spelling vocab)) := by
  induction wordIds generalizing soFar with
  | nil => simp only [List.flatMap_nil, List.append_nil]; rfl
  | cons id wordIds ih =>
      obtain ⟨hid, hrest⟩ := List.forall_mem_cons.mp hids
      obtain ⟨bytes, hbytes⟩ := hspells.exists_bytes hid
      have hstep : tok.decodeId vocab soFar id = .ok (soFar.1, soFar.2 ++ bytes) := by
        simp only [decodeId, h.get?_specialIdToToken_of_lt hid, hbytes]
      rw [List.foldlM_cons, hstep]
      refine (ih hrest _).trans ?_
      rw [List.flatMap_cons, spelling, hbytes, Option.getD_some, List.append_assoc]

theorem Decodes.word (h : Decodes tok vocab ids text) (htrained : tok.Trained)
    (hspells : Spells tok.merges vocab) {word : Str} {bytes : List UInt8}
    (hbytes : encodeUtf8 word = .ok bytes) :
    Decodes tok vocab (ids ++ replay tok.merges (byteIds bytes)) (text ++ word) := by
  obtain ⟨soFar, hsoFar, pending, hpending, rfl⟩ := h
  refine ⟨(soFar.1, soFar.2 ++ bytes), ?_, pending ++ word,
    encodeUtf8_append hpending hbytes, by rw [List.append_assoc]⟩
  rw [List.foldlM_append]
  refine bind_eq_ok.mpr ⟨soFar, hsoFar, ?_⟩
  rw [htrained.foldlM_decodeId hspells fun id hid => htrained.lt_of_mem_replay hid,
    hspells.flatMap_replay]

theorem Decodes.decode (h : Decodes tok vocab ids text) (hvocab : tok.requireTrained = .ok vocab) :
    tok.decode ids = .ok text := by
  obtain ⟨soFar, hsoFar, hcollects⟩ := h
  obtain ⟨pieces, hpieces, rfl⟩ := hcollects.flush
  exact bind_eq_ok.mpr ⟨vocab, hvocab, bind_eq_ok.mpr ⟨soFar, hsoFar,
    bind_eq_ok.mpr ⟨pieces, hpieces, rfl⟩⟩⟩

-- ============================================================================
-- Encoding
-- ============================================================================

/-- The ids of a part of a text: they are in the vocabulary, and decoded to it. -/
structure Encodes (tok : ByteLevelBPETokenizer) (vocab : Dict Nat (List UInt8))
    (ids : List Nat) (text : Str) : Prop where
  lt : ∀ id ∈ ids, id < tok.vocabSize
  decodes : Decodes tok vocab ids text

theorem Trained.vocabSize_ge (h : tok.Trained) :
    baseByteVocabSize + tok.merges.length ≤ tok.vocabSize :=
  h.fits.trans (Nat.sub_le _ _)

theorem Encodes.words (h : Encodes tok vocab ids text) (htrained : tok.Trained)
    (hspells : Spells tok.merges vocab) {part : Str} {b : List UInt8}
    (hb : encodeUtf8 part = .ok b) :
    ∃ ids', tok.encodeWords ids part = .ok ids' ∧ Encodes tok vocab ids' (text ++ part) := by
  have hloop := foldlM_ok (pretokenize part) (f := fun ids word => do
      let bytes ← encodeUtf8 word
      let wordIds ← tok.encodeWord bytes
      Except.ok (ids ++ wordIds))
    (I := fun words ids => Encodes tok vocab ids (text ++ words.flatten)) (b := ids)
    (by simpa using h) fun done word ids hdone hids => by
      obtain ⟨bytes, hbytes⟩ :=
        exists_encodeUtf8_of_mem_pretokenize hb (hdone.subset (List.mem_concat_self ..))
      refine ⟨_, bind_eq_ok.mpr ⟨bytes, hbytes,
        bind_eq_ok.mpr ⟨_, htrained.encodeWord_eq bytes, rfl⟩⟩, ?_, ?_⟩
      · exact List.forall_mem_append.mpr ⟨hids.lt, fun id hid =>
          Nat.lt_of_lt_of_le (htrained.lt_of_mem_replay hid) htrained.vocabSize_ge⟩
      · rw [List.flatten_append, List.flatten_singleton, ← List.append_assoc]
        exact hids.decodes.word htrained hspells hbytes
  rwa [flatten_pretokenize] at hloop

theorem Encodes.part (h : Encodes tok vocab ids text) (htrained : tok.Trained)
    (hspells : Spells tok.merges vocab) {part : Str} {b : List UInt8}
    (hb : encodeUtf8 part = .ok b) (allowSpecial : Bool) :
    ∃ ids', tok.encodePart allowSpecial ids part = .ok ids' ∧
      Encodes tok vocab ids' (text ++ part) := by
  unfold encodePart
  by_cases hempty : part = []
  · exact ⟨ids, if_pos hempty, by rwa [hempty, List.append_nil]⟩
  · rw [if_neg hempty]
    cases allowSpecial with
    | false => exact h.words htrained hspells hb
    | true =>
        simp only [↓reduceIte]
        cases hid : tok.specialTokenIds.get? part with
        | none => exact h.words htrained hspells hb
        | some id =>
            refine ⟨_, rfl, ?_, h.decodes.special (htrained.get?_specialIdToToken hid)⟩
            exact List.forall_mem_append.mpr
              ⟨h.lt, List.forall_mem_singleton.mpr (htrained.specialTokenId_lt hid)⟩

theorem flatten_parts (tok : ByteLevelBPETokenizer) (text : Str) (allowSpecial : Bool) :
    (tok.parts text allowSpecial).flatten = text := by
  unfold parts
  split
  · exact flatten_reSplit _ _
  · exact List.flatten_singleton

/-- What a text is encoded to is in the vocabulary and decoded to the text. -/
theorem Trained.encode_decode (h : tok.Trained) {bytes : List UInt8}
    (hbytes : encodeUtf8 text = .ok bytes) (allowSpecial : Bool) :
    ∃ ids, tok.encode text allowSpecial = .ok ids ∧ (∀ id ∈ ids, id < tok.vocabSize) ∧
      tok.decode ids = .ok text := by
  obtain ⟨vocab, hvocab, hspells⟩ := h.exists_vocab
  have hnil : Encodes tok vocab [] [] := ⟨nofun, .nil⟩
  by_cases hempty : text = []
  · refine ⟨[], bind_eq_ok.mpr ⟨vocab, hvocab, if_pos hempty⟩, nofun, ?_⟩
    exact hempty ▸ hnil.decodes.decode hvocab
  · have hparts : encodeUtf8 (tok.parts text allowSpecial).flatten = .ok bytes := by
      rwa [flatten_parts]
    obtain ⟨ids, hids, hencodes⟩ := foldlM_ok (tok.parts text allowSpecial)
      (I := fun parts ids => Encodes tok vocab ids parts.flatten)
      (f := tok.encodePart allowSpecial) hnil
      fun done part ids hdone hids => by
        obtain ⟨b, hb⟩ := exists_encodeUtf8_of_mem_flatten hparts
          (hdone.subset (List.mem_concat_self ..))
        rw [List.flatten_append, List.flatten_singleton]
        exact hids.part h hspells hb allowSpecial
    rw [flatten_parts] at hencodes
    refine ⟨ids, bind_eq_ok.mpr ⟨vocab, hvocab, ?_⟩, hencodes.lt, hencodes.decodes.decode hvocab⟩
    rw [if_neg hempty, hids]

/-- Every text is encoded in ids of the vocabulary that are decoded to it, and the ids of
    merges are not those of special tokens. -/
structure Lossless (tok : ByteLevelBPETokenizer) (vocabSize : Int) : Prop where
  roundTrip : ∀ text bytes allowSpecial, encodeUtf8 text = .ok bytes →
    ∃ ids, tok.encode text allowSpecial = .ok ids ∧ (∀ id ∈ ids, (id : Int) < vocabSize) ∧
      tok.decode ids = .ok text
  apart : ∀ m ∈ tok.merges, ∀ token, tok.specialTokenIds.get? token ≠ some m.2 ∧
    tok.specialIdToToken.get? m.2 = none

theorem Trained.lossless (h : tok.Trained) : tok.Lossless tok.vocabSize where
  roundTrip text bytes allowSpecial hbytes := by
    obtain ⟨ids, hids, hlt, hdecode⟩ := h.encode_decode hbytes allowSpecial
    exact ⟨ids, hids, fun id hid => Int.ofNat_lt.mpr (hlt id hid), hdecode⟩
  apart m hm token := by
    have hnone := h.get?_specialIdToToken_of_lt (h.numbered.lt_of_mem hm)
    refine ⟨fun hid => ?_, hnone⟩
    exact nomatch (h.get?_specialIdToToken hid).symm.trans hnone

/-- A tokenizer that was trained is lossless, and so is one that was loaded from what it
    saved. -/
theorem tokenization_lossless {vocabSize : Int} {specialTokens : List Str} {corpus : Str}
    (hnew : new vocabSize specialTokens = .ok fresh) (htrain : fresh.train corpus = .ok tok) :
    tok.Lossless vocabSize ∧ ∃ payload loaded, tok.save = .ok payload ∧
      load payload.reread = .ok loaded ∧ loaded.Lossless vocabSize := by
  obtain ⟨_, -, htrained, -, hsize, -⟩ := trained_of_train htrain
  have hvocabSize : (tok.vocabSize : Int) = vocabSize := by
    rw [hsize]
    exact natCast_vocabSize hnew
  obtain ⟨payload, loaded, hsave, hload, htrained', hsize'⟩ := htrained.exists_loaded
  refine ⟨hvocabSize ▸ htrained.lossless, payload, loaded, hsave, hload, ?_⟩
  have hlossless := htrained'.lossless
  rwa [hsize', hvocabSize] at hlossless

/-- Special tokens that contain one another, one twice and one empty. -/
theorem tokenization_lossless_demo :
    ∃ fresh tok, new 262 [str "ab", str "a", str "", str "a"] = .ok fresh ∧
      fresh.train (str "aaab aab") = .ok tok ∧ tok.Lossless 262 ∧
        ∃ payload loaded, tok.save = .ok payload ∧ load payload.reread = .ok loaded ∧
          loaded.Lossless 262 := by
  obtain ⟨fresh, hnew⟩ := exists_new 262 [str "ab", str "a", str "", str "a"] (by decide)
  obtain ⟨tok, htrain⟩ := exists_train fresh (encodeUtf8_map_scalar "aaab aab".toList)
  exact ⟨fresh, tok, hnew, htrain, tokenization_lossless hnew htrain⟩

end ByteLevelBPETokenizer

end PassionProjects.ForgeLM
