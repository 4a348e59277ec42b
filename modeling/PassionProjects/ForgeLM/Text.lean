/-
  PassionProjects.ForgeLM.Text

  The text that the tokenizer is given: Python's `str` with its UTF-8 encoding, what the
  `json` module makes of a string, and `re.split` over literal alternatives.
-/

import Mathlib.Data.List.SplitBy

namespace PassionProjects.ForgeLM

/-- A character of a `str`. A surrogate, `U+D800` and up, is one of its own, and UTF-8
    does not encode it. -/
inductive CodePoint where
  | scalar (c : Char)
  | surrogate (n : Fin 0x800)
  deriving DecidableEq

abbrev Str := List CodePoint

/-- A literal. -/
def str (s : String) : Str := s.toList.map .scalar

inductive Error where
  | valueError (text : String)
  | runtimeError (text : String)
  | keyError
  | indexError
  | unicodeEncodeError
  | unicodeDecodeError
  deriving DecidableEq

-- ============================================================================
-- UTF-8
-- ============================================================================

/-- `s.encode("utf-8")` -/
def encodeUtf8 : Str → Except Error (List UInt8)
  | [] => .ok []
  | .surrogate _ :: _ => .error .unicodeEncodeError
  | .scalar c :: rest => do
      let bytes ← encodeUtf8 rest
      .ok (String.utf8EncodeChar c ++ bytes)

/-- `b.decode("utf-8")` -/
def decodeUtf8 (b : List UInt8) : Except Error Str :=
  match b.toByteArray.utf8Decode? with
  | none => .error .unicodeDecodeError
  | some cs => .ok (cs.toList.map .scalar)

variable {s t : Str} {b : List UInt8}

theorem encodeUtf8_map_scalar (cs : List Char) :
    encodeUtf8 (cs.map .scalar) = .ok (cs.flatMap String.utf8EncodeChar) := by
  induction cs with
  | nil => rfl
  | cons c cs ih =>
      rw [List.map_cons, encodeUtf8, ih]
      rfl

/-- Just the text without surrogates can be encoded. -/
theorem exists_of_encodeUtf8 (h : encodeUtf8 s = .ok b) :
    ∃ cs : List Char, s = cs.map .scalar ∧ b = cs.flatMap String.utf8EncodeChar := by
  have hscalar : ∃ cs : List Char, s = cs.map .scalar := by
    induction s generalizing b with
    | nil => exact ⟨[], rfl⟩
    | cons c rest ih =>
        cases c with
        | surrogate n => cases h
        | scalar c =>
            cases hrest : encodeUtf8 rest with
            | error e =>
                rw [encodeUtf8, hrest] at h
                cases h
            | ok bytes =>
                obtain ⟨cs, rfl⟩ := ih hrest
                exact ⟨c :: cs, rfl⟩
  obtain ⟨cs, rfl⟩ := hscalar
  rw [encodeUtf8_map_scalar] at h
  exact ⟨cs, rfl, (Except.ok.inj h).symm⟩

/-- What is encoded is decoded to itself. -/
theorem decodeUtf8_of_encodeUtf8 (h : encodeUtf8 s = .ok b) : decodeUtf8 b = .ok s := by
  obtain ⟨cs, rfl, rfl⟩ := exists_of_encodeUtf8 h
  have hdecode : (cs.flatMap String.utf8EncodeChar).toByteArray.utf8Decode? = some cs.toArray :=
    List.utf8Decode?_utf8Encode
  rw [decodeUtf8, hdecode]

/-- A text is encoded part by part. -/
theorem encodeUtf8_append {c : List UInt8} (hs : encodeUtf8 s = .ok b)
    (ht : encodeUtf8 t = .ok c) : encodeUtf8 (s ++ t) = .ok (b ++ c) := by
  obtain ⟨cs, rfl, rfl⟩ := exists_of_encodeUtf8 hs
  obtain ⟨ds, rfl, rfl⟩ := exists_of_encodeUtf8 ht
  rw [← List.map_append, encodeUtf8_map_scalar, List.flatMap_append]

/-- The parts of a text that can be encoded can be encoded. -/
theorem exists_encodeUtf8_of_mem_flatten {parts : List Str} {part : Str}
    (h : encodeUtf8 parts.flatten = .ok b) (hpart : part ∈ parts) :
    ∃ c, encodeUtf8 part = .ok c := by
  obtain ⟨cs, hcs, -⟩ := exists_of_encodeUtf8 h
  have hscalar : ∀ c ∈ part, ∃ ch, c = .scalar ch := by
    intro c hc
    have hmem : c ∈ cs.map CodePoint.scalar := hcs ▸ List.mem_flatten_of_mem hpart hc
    obtain ⟨ch, -, rfl⟩ := List.mem_map.mp hmem
    exact ⟨ch, rfl⟩
  clear hcs h hpart
  induction part with
  | nil => exact ⟨[], rfl⟩
  | cons c part ih =>
      obtain ⟨ch, rfl⟩ := hscalar c (List.mem_cons_self ..)
      obtain ⟨bytes, hbytes⟩ := ih fun d hd => hscalar d (List.mem_cons_of_mem _ hd)
      exact ⟨_, encodeUtf8_append (encodeUtf8_map_scalar [ch]) hbytes⟩

-- ============================================================================
-- The json module
-- ============================================================================

/-- A string written with `json.dump` and read with `json.load`. Each character outside
    ASCII is written as `\uXXXX`, or as two such if it takes a surrogate pair, and two that
    form a surrogate pair are read as one character. -/
def jsonString : Str → Str
  | .surrogate high :: .surrogate low :: rest =>
      if high.val < 0x400 ∧ 0x400 ≤ low.val then
        .scalar (Char.ofNat (0x10000 + high.val * 0x400 + (low.val - 0x400))) :: jsonString rest
      else .surrogate high :: jsonString (.surrogate low :: rest)
  | c :: rest => c :: jsonString rest
  | [] => []

-- ============================================================================
-- re.split
-- ============================================================================

/-- The first of the alternatives that the text goes on with. Behind an empty match the
    next one has to be longer. -/
def firstMatch (alternatives : List Str) (mustAdvance : Bool) (text : Str) : Option Str :=
  alternatives.find? fun t => t.isPrefixOf text && !(mustAdvance && t.isEmpty)

theorem firstMatch_eq_some {alternatives : List Str} {mustAdvance : Bool} {text t : Str}
    (h : firstMatch alternatives mustAdvance text = some t) :
    text = t ++ text.drop t.length ∧ (mustAdvance = true → t ≠ []) := by
  have hp := List.find?_some h
  simp only [Bool.and_eq_true, List.isPrefixOf_iff_prefix, Bool.not_eq_true',
    Bool.and_eq_false_iff, List.isEmpty_eq_false_iff] at hp
  obtain ⟨⟨rest, hrest⟩, hne⟩ := hp
  refine ⟨by rw [← hrest, List.drop_left], fun hmust => hne.resolve_left (by simp [hmust])⟩

/-- The scan of `re.split` over the alternatives as one group: the text since the last
    match, each match and the text behind it. -/
def splitFrom (alternatives : List Str) (mustAdvance : Bool) (since text : Str) : List Str :=
  match _h : firstMatch alternatives mustAdvance text with
  | some t =>
      since :: t :: splitFrom alternatives t.isEmpty [] (text.drop t.length)
  | none =>
      match text with
      | [] => [since]
      | c :: rest => splitFrom alternatives false (since ++ [c]) rest
termination_by 2 * text.length + if mustAdvance then 0 else 1
decreasing_by
  · obtain ⟨htext, hne⟩ := firstMatch_eq_some _h
    have hlength := congrArg List.length htext
    rw [List.length_append] at hlength
    cases t with
    | nil =>
        cases mustAdvance with
        | true => exact absurd rfl (hne rfl)
        | false => simp
    | cons c t =>
        rw [List.length_cons] at hlength
        simp only [List.length_cons, List.isEmpty_cons, Bool.false_eq_true, if_false]
        omega
  · simp only [List.length_cons, ↓reduceIte]
    omega

/-- `re.split(f"({pattern})", text)`, where the pattern is `"|".join` of the escaped
    alternatives. -/
def reSplit (alternatives : List Str) (text : Str) : List Str :=
  splitFrom alternatives false [] text

theorem flatten_splitFrom (alternatives : List Str) (mustAdvance : Bool) (since text : Str) :
    (splitFrom alternatives mustAdvance since text).flatten = since ++ text := by
  fun_induction splitFrom alternatives mustAdvance since text with
  | case1 mustAdvance since text t h ih =>
      rw [List.flatten_cons, List.flatten_cons, ih, List.nil_append,
        ← (firstMatch_eq_some h).1]
  | case2 mustAdvance since h => simp
  | case3 mustAdvance since c rest h ih => rw [ih, List.append_assoc, List.singleton_append]

/-- The parts of a text are the text. -/
theorem flatten_reSplit (alternatives : List Str) (text : Str) :
    (reSplit alternatives text).flatten = text :=
  flatten_splitFrom alternatives false [] text

end PassionProjects.ForgeLM
