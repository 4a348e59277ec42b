/-
  PassionProjects.ForgeLM.Tokenizer.Bpe

  The byte-level BPE tokenizer (`tokenizer/bpe.py`): training, encoding, decoding, and
  the saved form.
-/

import Mathlib.Data.List.MinMax
import Mathlib.Data.Prod.Lex
import PassionProjects.ForgeLM.Text
import PassionProjects.Lib.Dict
import PassionProjects.Lib.PairMerging

namespace PassionProjects.ForgeLM

open PairMerging

/-- `BASE_BYTE_VOCAB_SIZE` -/
def baseByteVocabSize : Nat := 256

abbrev Pair := Nat × Nat

/-- `Merge`: a pair and the id that it is merged into. -/
abbrev Merge := Rule Nat

-- ============================================================================
-- Pre-tokens
-- ============================================================================

/-- `[A-Za-z]` -/
def CodePoint.isLetter : CodePoint → Bool
  | .scalar c => ('A' ≤ c && c ≤ 'Z') || ('a' ≤ c && c ≤ 'z')
  | .surrogate _ => false

/-- `[0-9]` -/
def CodePoint.isDigit : CodePoint → Bool
  | .scalar c => '0' ≤ c && c ≤ '9'
  | .surrogate _ => false

/-- `\s`: what `str.isspace` accepts. -/
def CodePoint.isSpace : CodePoint → Bool
  | .scalar c =>
      (0x09 ≤ c.toNat && c.toNat ≤ 0x0d) || (0x1c ≤ c.toNat && c.toNat ≤ 0x20) ||
        (0x2000 ≤ c.toNat && c.toNat ≤ 0x200a) ||
        [0x85, 0xa0, 0x1680, 0x2028, 0x2029, 0x202f, 0x205f, 0x3000].contains c.toNat
  | .surrogate _ => false

/-- The alternatives of `_PRETOKEN_RE`. -/
inductive RunKind where
  | letters
  | digits
  | other
  | space
  deriving DecidableEq

def CodePoint.runKind (c : CodePoint) : RunKind :=
  if c.isLetter then .letters
  else if c.isDigit then .digits
  else if c.isSpace then .space
  else .other

/-- `_pretokenize`. Each character is of one kind, so that `findall` returns the longest
    runs of a kind. -/
def pretokenize (text : Str) : List Str := text.splitBy fun a b => a.runKind = b.runKind

-- ============================================================================
-- The tokenizer
-- ============================================================================

/-- `_merge_all`, whose inner loop is a sweep. -/
def mergeAll (wordFreqs : Dict (List Nat) Nat) (pair : Pair) (newId : Nat) :
    Dict (List Nat) Nat :=
  wordFreqs.entries.foldl (fun merged wf => merged.add (sweep (pair, newId) wf.1) wf.2) ∅

/-- A tokenizer has room for the bytes and its special tokens. -/
structure ByteLevelBPETokenizer where
  vocabSize : Nat
  specialTokens : List Str
  room : baseByteVocabSize + specialTokens.length ≤ vocabSize
  merges : List Merge := []
  vocab : Option (Dict Nat (List UInt8)) := none
  mergeRank : Dict Pair Nat := ∅
  mergePairToId : Dict Pair Nat := ∅
  specialTokenIds : Dict Str Nat := ∅
  specialIdToToken : Dict Nat Str := ∅

namespace ByteLevelBPETokenizer

/-- `__init__` -/
def new (vocabSize : Int) (specialTokens : List Str) : Except Error ByteLevelBPETokenizer :=
  let minSize := baseByteVocabSize + specialTokens.length
  if h : vocabSize < minSize then
    .error (.valueError ("vocab_size must be >= " ++ toString minSize ++ " (256 base bytes + " ++
      toString specialTokens.length ++ " special tokens), got " ++ toString vocabSize))
  else
    .ok
      { vocabSize := vocabSize.toNat
        specialTokens := specialTokens
        room := (Int.le_toNat (by omega)).mpr (Int.not_lt.mp h) }

/-- `_require_trained` -/
def requireTrained (tok : ByteLevelBPETokenizer) : Except Error (Dict Nat (List UInt8)) :=
  match tok.vocab with
  | none => .error (.runtimeError "tokenizer has no vocabulary yet; call train() or load() first")
  | some vocab => .ok vocab

/-- The first id of a special token. -/
def specialsStart (tok : ByteLevelBPETokenizer) : Nat := tok.vocabSize - tok.specialTokens.length

/-- `d[k]` -/
def item {κ ν : Type} [DecidableEq κ] (d : Dict κ ν) (k : κ) : Except Error ν :=
  match d.get? k with
  | none => .error .keyError
  | some v => .ok v

/-- The bytes of the base vocabulary. -/
def baseVocab : Dict Nat (List UInt8) :=
  .ofPairs ((List.range baseByteVocabSize).map fun i => (i, [UInt8.ofNat i]))

/-- One turn of the loop over the merges: the bytes of an id are those of its pair. -/
def addMerge (vocab : Dict Nat (List UInt8)) (m : Merge) :
    Except Error (Dict Nat (List UInt8)) := do
  let left ← item vocab m.1.1
  let right ← item vocab m.1.2
  .ok (vocab.set m.2 (left ++ right))

/-- `_rebuild_indices` -/
def rebuildIndices (tok : ByteLevelBPETokenizer) : Except Error ByteLevelBPETokenizer := do
  let vocab ← tok.merges.foldlM addMerge baseVocab
  let specialTokenIds :=
    Dict.ofPairs (tok.specialTokens.zipIdx.map fun t => (t.1, tok.specialsStart + t.2))
  .ok
    { tok with
      mergeRank := .ofPairs (tok.merges.zipIdx.map fun m => (m.1.1, m.2))
      mergePairToId := .ofPairs tok.merges
      vocab := some vocab
      specialTokenIds := specialTokenIds
      specialIdToToken := .ofPairs (specialTokenIds.entries.map fun e => (e.2, e.1)) }

-- ============================================================================
-- Training
-- ============================================================================

/-- The ids of the bytes of a word. -/
def byteIds (word : List UInt8) : List Nat := word.map UInt8.toNat

/-- `word_freqs` at first. -/
def countWords (text : Str) : Except Error (Dict (List Nat) Nat) :=
  (pretokenize text).foldlM (fun wordFreqs word => do
    let bytes ← encodeUtf8 word
    .ok (wordFreqs.add (byteIds bytes) 1)) ∅

/-- `pair_counts` -/
def countPairs (wordFreqs : Dict (List Nat) Nat) : Dict Pair Nat :=
  wordFreqs.entries.foldl (fun pairCounts wf =>
    (pairs wf.1).foldl (fun pairCounts p => pairCounts.add p wf.2) pairCounts) ∅

/-- `max(pair_counts.items(), key=lambda kv: (kv[1], kv[0]))[0]`, if there is a pair. -/
def bestPair (pairCounts : Dict Pair Nat) : Option Pair :=
  (pairCounts.entries.argmax fun kv => toLex (kv.2, toLex kv.1)).map Prod.fst

/-- The loop of `train` with so many ids left: what it learns, and the words at its end. -/
def learn : Nat → Nat → Dict (List Nat) Nat → List Merge × Dict (List Nat) Nat
  | 0, _, wordFreqs => ([], wordFreqs)
  | left + 1, nextId, wordFreqs =>
      match bestPair (countPairs wordFreqs) with
      | none => ([], wordFreqs)
      | some best =>
          let (merges, wordFreqs) := learn left (nextId + 1) (mergeAll wordFreqs best nextId)
          ((best, nextId) :: merges, wordFreqs)

/-- The whole loop of `train`, up to the id that is kept for the first special token. -/
def learnAll (tok : ByteLevelBPETokenizer) (wordFreqs : Dict (List Nat) Nat) :
    List Merge × Dict (List Nat) Nat :=
  learn (tok.specialsStart - baseByteVocabSize) baseByteVocabSize wordFreqs

/-- `train` -/
def train (tok : ByteLevelBPETokenizer) (text : Str) : Except Error ByteLevelBPETokenizer := do
  let wordFreqs ← countWords text
  rebuildIndices { tok with merges := (tok.learnAll wordFreqs).1 }

-- ============================================================================
-- Encoding and decoding
-- ============================================================================

/-- One turn of the inner loop of `_encode_word`: the lowest rank so far and where it was
    found. -/
def better (rank : Dict Pair Nat) (best : Option (Nat × Nat)) (p : Pair × Nat) :
    Option (Nat × Nat) :=
  match rank.get? p.1 with
  | none => best
  | some r =>
      match best with
      | none => some (r, p.2)
      | some (bestRank, bestPos) => if r < bestRank then some (r, p.2) else some (bestRank, bestPos)

/-- The inner loop of `_encode_word`. -/
def bestMerge (rank : Dict Pair Nat) (ids : List Nat) : Option (Nat × Nat) :=
  (pairs ids).zipIdx.foldl (better rank) none

/-- The outer loop of `_encode_word`. -/
def mergeBest (tok : ByteLevelBPETokenizer) (ids : List Nat) : Except Error (List Nat) :=
  if ids.length ≤ 1 then .ok ids
  else
    match bestMerge tok.mergeRank ids with
    | none => .ok ids
    | some (_, bestPos) =>
        match _h : (pairs ids)[bestPos]? with
        | none => .error .indexError
        | some pair => do
            let newId ← item tok.mergePairToId pair
            mergeBest tok (ids.take bestPos ++ newId :: ids.drop (bestPos + 2))
termination_by ids.length
decreasing_by
  have hpos := length_pairs ids ▸ (List.getElem?_eq_some_iff.mp _h).1
  rw [List.length_append, List.length_take, List.length_cons, List.length_drop]
  omega

/-- `_encode_word` -/
def encodeWord (tok : ByteLevelBPETokenizer) (word : List UInt8) : Except Error (List Nat) :=
  tok.mergeBest (byteIds word)

/-- The loop of `encode` over the words of a part. -/
def encodeWords (tok : ByteLevelBPETokenizer) (ids : List Nat) (part : Str) :
    Except Error (List Nat) :=
  (pretokenize part).foldlM (fun ids word => do
    let bytes ← encodeUtf8 word
    let wordIds ← tok.encodeWord bytes
    .ok (ids ++ wordIds)) ids

/-- One turn of the loop of `encode` over the parts. -/
def encodePart (tok : ByteLevelBPETokenizer) (allowSpecial : Bool) (ids : List Nat)
    (part : Str) : Except Error (List Nat) :=
  if part = [] then .ok ids
  else
    match if allowSpecial then tok.specialTokenIds.get? part else none with
    | some id => .ok (ids ++ [id])
    | none => tok.encodeWords ids part

/-- `parts` in `encode` -/
def parts (tok : ByteLevelBPETokenizer) (text : Str) (allowSpecial : Bool) : List Str :=
  if allowSpecial && !tok.specialTokens.isEmpty then
    reSplit (tok.specialTokens.mergeSort fun a b => b.length ≤ a.length) text
  else [text]

/-- `encode` -/
def encode (tok : ByteLevelBPETokenizer) (text : Str) (allowSpecial : Bool) :
    Except Error (List Nat) := do
  let _ ← tok.requireTrained
  if text = [] then .ok []
  else (tok.parts text allowSpecial).foldlM (tok.encodePart allowSpecial) []

/-- The pieces of a text and the bytes of the next one, put together: `decode` does so at
    every special token and at the end. -/
def flush (pieces : List Str) (buf : List UInt8) : Except Error (List Str) :=
  if buf = [] then .ok pieces
  else do
    let piece ← decodeUtf8 buf
    .ok (pieces ++ [piece])

/-- One turn of the loop of `decode`. -/
def decodeId (tok : ByteLevelBPETokenizer) (vocab : Dict Nat (List UInt8))
    (soFar : List Str × List UInt8) (id : Nat) : Except Error (List Str × List UInt8) :=
  match tok.specialIdToToken.get? id with
  | some token => do
      let pieces ← flush soFar.1 soFar.2
      .ok (pieces ++ [token], [])
  | none =>
      match vocab.get? id with
      | none =>
          .error (.valueError ("unknown token id " ++ toString id ++ "; trained vocab covers 0.." ++
            toString (baseByteVocabSize + tok.merges.length - 1) ++ " plus special ids " ++
            toString (tok.specialIdToToken.keys.mergeSort)))
      | some piece => .ok (soFar.1, soFar.2 ++ piece)

/-- `decode` -/
def decode (tok : ByteLevelBPETokenizer) (ids : List Nat) : Except Error Str := do
  let vocab ← tok.requireTrained
  let (pieces, buf) ← ids.foldlM (tok.decodeId vocab) ([], [])
  let pieces ← flush pieces buf
  .ok pieces.flatten

-- ============================================================================
-- The saved form
-- ============================================================================

/-- `payload` -/
structure Payload where
  vocabSize : Int
  specialTokens : List Str
  merges : List (Nat × Nat × Nat)

/-- `save`, with the payload that it writes. -/
def save (tok : ByteLevelBPETokenizer) : Except Error Payload := do
  let _ ← tok.requireTrained
  .ok
    { vocabSize := tok.vocabSize
      specialTokens := tok.specialTokens
      merges := tok.merges.map fun m => (m.1.1, m.1.2, m.2) }

/-- What is read of a payload that was written. -/
def Payload.reread (payload : Payload) : Payload :=
  { payload with specialTokens := payload.specialTokens.map jsonString }

/-- `load`, from the payload that it reads. -/
def load (payload : Payload) : Except Error ByteLevelBPETokenizer := do
  let tok ← new payload.vocabSize payload.specialTokens
  rebuildIndices { tok with merges := payload.merges.map fun m => ((m.1, m.2.1), m.2.2) }

end ByteLevelBPETokenizer

end PassionProjects.ForgeLM
