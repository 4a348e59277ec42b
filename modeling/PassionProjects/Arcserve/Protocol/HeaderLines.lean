/-
  PassionProjects.Arcserve.Protocol.HeaderLines

  The grammar of a header section, apart from the parser, and that what the parser takes of
  one is what the grammar says of it.

  One line at a time, and then the whole section by induction on its lines, where
  at each of them the parser stands behind the headers so far.
-/

import Mathlib.Data.List.TakeWhile
import Mathlib.Data.Nat.Digits.Defs
import PassionProjects.Arcserve.Protocol.HttpParser
import PassionProjects.Arcserve.Protocol.Streams

namespace PassionProjects.Arcserve.Protocol

open HttpRequestParser

def slash : UInt8 := 47

def httpVersion : Bytes := ascii "HTTP/1.1"

/-- Optional white space. -/
def Blank (b : UInt8) : Prop := b = space ∨ b = tab

/-- Decimal digits and their value. -/
structure Decimal (digits : Bytes) (value : Nat) : Prop where
  ne_nil : digits ≠ []
  digit : ∀ b ∈ digits, 48 ≤ b ∧ b ≤ 57
  value_eq : value = Nat.ofDigits 10 (digits.reverse.map fun b => b.toNat - 48)

theorem Decimal.unique {digits : Bytes} {a b : Nat} (ha : Decimal digits a)
    (hb : Decimal digits b) : a = b := ha.value_eq.trans hb.value_eq.symm

/-- A value without the blanks around it. -/
structure Trimmed (raw value : Bytes) : Prop where
  around : ∃ before after, raw = before ++ value ++ after ∧
    (∀ b ∈ before, Blank b) ∧ ∀ b ∈ after, Blank b
  first : ∀ b ∈ value.head?, ¬ Blank b
  last : ∀ b ∈ value.getLast?, ¬ Blank b

/-- `METHOD SP target SP HTTP/1.1`. -/
structure RequestParts (request : HttpRequest) (line : Bytes) : Prop where
  parts : line =
    methodToString request.method ++ space :: (request.target ++ space :: request.version)
  version : request.version = httpVersion
  origin : request.target.head? = some slash
  target : space ∉ request.target

structure RequestLine (request : HttpRequest) (line : Bytes) : Prop
    extends RequestParts request line where
  oneLine : ¬ crlf <:+: line
  length : line.length ≤ kMaxRequestLineLength

/-- `name:value`. -/
structure HeaderLine (header : Bytes × Bytes) (line : Bytes) : Prop where
  parts : ∃ raw, line = header.1 ++ colon :: raw ∧ Trimmed raw header.2
  ne_nil : header.1 ≠ []
  name : ∀ b ∈ header.1, ¬ Blank b ∧ b ≠ colon
  oneLine : cr ∉ line ∧ lf ∉ line

/-- Header lines, each with its CRLF. -/
def headerBytes (lines : List Bytes) : Bytes := lines.flatMap (· ++ crlf)

/-- The values of the headers called `Content-Length`. -/
def contentLengths (headers : HeaderList) : List Bytes :=
  (headers.filter fun h => asciiCaseInsensitiveEquals h.1 (ascii "Content-Length")).map Prod.snd

/-- The body is as long as its headers say: at most one of them does, and without it
    only a `GET` goes, with no body. -/
def Framed (request : HttpRequest) : Prop :=
  match contentLengths request.headers with
  | [] => request.method = .kGet ∧ request.body = []
  | [digits] => Decimal digits request.body.length ∧ request.body.length ≤ kMaxBodyBytes
  | _ => False

/-- One request on the wire. -/
structure Sentence (request : HttpRequest) (bytes : Bytes) : Prop where
  lines : ∃ line lines,
    bytes = line ++ crlf ++ headerBytes lines ++ crlf ++ request.body ∧
      RequestLine request line ∧ List.Forall₂ HeaderLine request.headers lines ∧
      (headerBytes lines).length ≤ kMaxHeaderBytes
  count : request.headers.length ≤ kMaxHeaderCount
  framed : Framed request

open PassionProjects.Terminator

-- ============================================================================
-- Values
-- ============================================================================

theorem isBlank_iff {b : UInt8} : isBlank b = true ↔ Blank b := by
  simp [isBlank, Blank]

theorem dropBlanks_of_first {s : Bytes} (h : ∀ b ∈ s.head?, ¬ Blank b) :
    s.dropWhile isBlank = s := by
  cases s with
  | nil => rfl
  | cons b rest =>
      have hb : ¬ isBlank b = true := fun hblank => h b rfl (isBlank_iff.mp hblank)
      rw [List.dropWhile_cons_of_neg hb]

/-- What is left after a loop that drops blanks does not begin with one. -/
theorem first_dropBlanks (s : Bytes) : ∀ b ∈ (s.dropWhile isBlank).head?, ¬ Blank b := by
  intro b hb hblank
  have hfirst := List.head?_dropWhile_not isBlank s
  rw [Option.mem_def.mp hb] at hfirst
  exact absurd (isBlank_iff.mpr hblank) (by simp [hfirst])

/-- The two loops of `consume_header_line` trim a value. -/
theorem trimmed_iff {raw value : Bytes} : Trimmed raw value ↔ trimBlanks raw = value := by
  have hblanks : ∀ {s : Bytes}, (∀ b ∈ s, Blank b) → ∀ b ∈ s, isBlank b = true :=
    fun h b hb => isBlank_iff.mpr (h b hb)
  constructor
  · rintro ⟨⟨before, after, rfl, hbefore, hafter⟩, hfirst, hlast⟩
    have hrev : ∀ b ∈ after.reverse, Blank b := fun b hb => hafter b (List.mem_reverse.mp hb)
    rw [trimBlanks, List.append_assoc, List.dropWhile_append_of_pos (hblanks hbefore)]
    cases hvalue : value with
    | nil =>
        rw [List.nil_append, List.dropWhile_eq_nil_iff.mpr (hblanks hafter)]
        rfl
    | cons b rest =>
        have hhead : ∀ c ∈ (b :: rest ++ after).head?, ¬ Blank c := fun c hc =>
          hfirst c (by rw [hvalue]; exact hc)
        rw [dropBlanks_of_first hhead, List.reverse_append,
          List.dropWhile_append_of_pos (hblanks hrev), dropBlanks_of_first, List.reverse_reverse]
        rw [List.head?_reverse, ← hvalue]
        exact hlast
  · rintro rfl
    have hfront : raw = raw.takeWhile isBlank ++ raw.dropWhile isBlank :=
      List.takeWhile_append_dropWhile.symm
    generalize hs : raw.dropWhile isBlank = s at hfront
    have hback :
        s = (s.reverse.dropWhile isBlank).reverse ++ (s.reverse.takeWhile isBlank).reverse := by
      rw [← List.reverse_append, List.takeWhile_append_dropWhile, List.reverse_reverse]
    have htrim : trimBlanks raw = (s.reverse.dropWhile isBlank).reverse := by rw [trimBlanks, hs]
    rw [← htrim] at hback
    refine ⟨⟨raw.takeWhile isBlank, (s.reverse.takeWhile isBlank).reverse, ?_, ?_, ?_⟩, ?_, ?_⟩
    · rw [List.append_assoc, ← hback]
      exact hfront
    · exact fun b hb => isBlank_iff.mp (List.mem_takeWhile_imp hb)
    · exact fun b hb => isBlank_iff.mp (List.mem_takeWhile_imp (List.mem_reverse.mp hb))
    · intro b hb
      refine first_dropBlanks raw b ?_
      rw [hs, hback, List.head?_append, Option.mem_def.mp hb]
      rfl
    · rw [htrim, List.getLast?_reverse]
      exact first_dropBlanks s.reverse

/-- `from_chars` reads decimal numbers that fit. -/
theorem fromChars_eq_some {digits : Bytes} {value : Nat} :
    fromChars digits = some value ↔ Decimal digits value ∧ value < 2 ^ 64 := by
  have hfold : digits.foldl (fun n b => n * 10 + (b.toNat - 48)) 0 =
      Nat.ofDigits 10 (digits.reverse.map fun b => b.toNat - 48) := by
    rw [Nat.ofDigits_eq_foldr, List.foldr_map, ← List.foldl_reverse, List.reverse_reverse]
    congr 1
    funext n b
    rw [Nat.cast_id, Nat.add_comm, Nat.mul_comm]
  have hdigits : digits.all (fun b => 48 ≤ b && b ≤ 57) = true ↔ ∀ b ∈ digits, 48 ≤ b ∧ b ≤ 57 := by
    simp
  simp only [fromChars, hfold]
  constructor
  · intro h
    split at h
    · obtain ⟨hne, hall⟩ := ‹_ ∧ _›
      split at h
      · obtain rfl := Option.some.inj h
        exact ⟨⟨hne, hdigits.mp hall, rfl⟩, ‹_›⟩
      · exact absurd h (by simp)
    · exact absurd h (by simp)
  · rintro ⟨⟨hne, hall, rfl⟩, hlt⟩
    rw [if_pos ⟨hne, hdigits.mpr hall⟩]
    exact if_pos hlt

theorem findHeader_contentLength (headers : HeaderList) :
    findHeader headers (ascii "Content-Length") = (contentLengths headers).head? := by
  rw [findHeader, contentLengths, List.head?_map, List.head?_filter]

-- ============================================================================
-- One header line
-- ============================================================================

namespace HttpRequestParser

variable {p q : HttpRequestParser} {line bytes : Bytes} {r : StepResult}

/-- The bytes around the first occurrence of a byte. -/
theorem findByte_eq_some {byte : UInt8} {s : Bytes} {i : Nat} (h : findByte byte s = some i) :
    s = s.take i ++ byte :: s.drop (i + 1) ∧ byte ∉ s.take i := by
  obtain ⟨hlt, hbyte, hbefore⟩ := List.findIdx?_eq_some_iff_getElem.mp h
  have hat : s[i] = byte := by simpa using hbyte
  refine ⟨?_, fun hmem => ?_⟩
  · rw [← hat, List.getElem_cons_drop, List.take_append_drop]
  · obtain ⟨j, hj, heq⟩ := List.mem_iff_getElem.mp hmem
    rw [List.length_take] at hj
    rw [List.getElem_take] at heq
    have hne := hbefore j (by omega)
    rw [heq] at hne
    exact absurd hne (by simp)

/-- A header line is cut at its first colon. -/
theorem consumeHeaderLine_join (p : HttpRequestParser) {name raw : Bytes} (hne : name ≠ [])
    (hname : ∀ b ∈ name, ¬ Blank b ∧ b ≠ colon)
    (hline : cr ∉ name ++ colon :: raw ∧ lf ∉ name ++ colon :: raw) :
    p.consumeHeaderLine (name ++ colon :: raw) =
      p.addHeader (name ++ colon :: raw).length name (trimBlanks raw) := by
  have hcolon : colon ∉ name := fun hmem => (hname _ hmem).2 rfl
  have hblank : ¬ (space ∈ name ∨ tab ∈ name) := by
    rintro (hmem | hmem)
    · exact (hname _ hmem).1 (Or.inl rfl)
    · exact (hname _ hmem).1 (Or.inr rfl)
  obtain ⟨n, hn⟩ : ∃ n, name.length = n + 1 := ⟨name.length - 1, by
    have hpos := List.length_pos_iff.mpr hne
    omega⟩
  have htake : (name ++ colon :: raw).take (n + 1) = name := hn ▸ List.take_left
  have hdrop : (name ++ colon :: raw).drop (n + 2) = raw := by
    rw [show n + 2 = name.length + 1 by omega, List.drop_length_add_append, List.drop_one,
      List.tail_cons]
  unfold consumeHeaderLine
  rw [if_neg (by simp), if_neg (not_or.mpr hline), findByte_append hcolon, hn]
  dsimp only
  rw [htake, hdrop, if_neg hblank]

/-- The parser behind some more headers, which took so many bytes. -/
def withHeaders (p : HttpRequestParser) (headers : HeaderList) (size : Nat) : HttpRequestParser :=
  { p with
    lineBuffer := []
    headerBytesSeen := p.headerBytesSeen + size
    request := { p.request with headers := p.request.headers ++ headers } }

/-- What the caps and the rule on duplicates allow. -/
structure Admits (p : HttpRequestParser) (headers : HeaderList) (size : Nat) : Prop where
  bytes : p.headerBytesSeen + size ≤ kMaxHeaderBytes
  count : p.request.headers.length + headers.length ≤ kMaxHeaderCount
  once : (contentLengths (p.request.headers ++ headers)).length ≤ 1

theorem contentLengths_append (headers more : HeaderList) :
    contentLengths (headers ++ more) = contentLengths headers ++ contentLengths more := by
  simp only [contentLengths, List.filter_append, List.map_append]

/-- A second `Content-Length` is one too many. -/
theorem once_iff (hone : (contentLengths p.request.headers).length ≤ 1) (name value : Bytes) :
    (contentLengths (p.request.headers ++ [(name, value)])).length ≤ 1 ↔
      ¬ (asciiCaseInsensitiveEquals name (ascii "Content-Length") = true ∧
        (findHeader p.request.headers (ascii "Content-Length")).isSome = true) := by
  rw [contentLengths_append, findHeader_contentLength, List.length_append]
  by_cases hname : asciiCaseInsensitiveEquals name (ascii "Content-Length") = true
  · have hlen : (contentLengths [(name, value)]).length = 1 := by simp [contentLengths, hname]
    rw [hlen]
    cases hlengths : contentLengths p.request.headers with
    | nil => simp [hname]
    | cons digits rest => simp [hname]
  · have hlen : (contentLengths [(name, value)]).length = 0 := by simp [contentLengths, hname]
    simp [hname, hlen, hone]

theorem addHeader_eq_advanced (hone : (contentLengths p.request.headers).length ≤ 1)
    {name value : Bytes} {n : Nat} :
    clearLine (p.addHeader n name value) = (.kAdvanced, q) ↔
      p.Admits [(name, value)] (n + 2) ∧ q = p.withHeaders [(name, value)] (n + 2) := by
  unfold addHeader clearLine
  by_cases hcap : p.headerBytesSeen + n + 2 > kMaxHeaderBytes
  · rw [if_pos hcap]
    exact ⟨fun h => absurd h (by simp [failStep]), fun h => absurd h.1.bytes (by omega)⟩
  · rw [if_neg hcap]
    dsimp only
    by_cases hdup : asciiCaseInsensitiveEquals name (ascii "Content-Length") = true ∧
        (findHeader p.request.headers (ascii "Content-Length")).isSome = true
    · rw [if_pos hdup]
      exact ⟨fun h => absurd h (by simp [failStep]),
        fun h => absurd hdup ((once_iff hone name value).mp h.1.once)⟩
    · rw [if_neg hdup]
      by_cases hcount : p.request.headers.length ≥ kMaxHeaderCount
      · rw [if_pos hcount]
        exact ⟨fun h => absurd h (by simp [failStep]),
          fun h => absurd h.1.count (by rw [List.length_singleton]; omega)⟩
      · rw [if_neg hcount]
        constructor
        · intro h
          exact ⟨⟨by omega, by rw [List.length_singleton]; omega,
            (once_iff hone name value).mpr hdup⟩,
            (Prod.mk.inj h).2.symm⟩
        · rintro ⟨-, rfl⟩
          rfl

/-- The parser takes the header lines of the grammar. -/
theorem takeHeaderLine_eq_advanced (hone : (contentLengths p.request.headers).length ≤ 1)
    (hne : line ≠ []) :
    p.takeHeaderLine line = (.kAdvanced, q) ↔ ∃ header, HeaderLine header line ∧
      p.Admits [header] (line.length + 2) ∧ q = p.withHeaders [header] (line.length + 2) := by
  constructor
  · intro h
    have hall := h
    unfold takeHeaderLine consumeHeaderLine at h
    rw [if_neg hne] at h
    split at h
    · exact absurd h (by simp [clearLine, failStep])
    · obtain ⟨hcr, hlf⟩ := not_or.mp ‹_›
      split at h
      · exact absurd h (by simp [clearLine, failStep])
      · exact absurd h (by simp [clearLine, failStep])
      · next n hfind =>
          dsimp only at h
          obtain ⟨hline, hcolon⟩ := findByte_eq_some hfind
          split at h
          · exact absurd h (by simp [clearLine, failStep])
          · obtain ⟨hspace, htab⟩ := not_or.mp ‹_›
            obtain ⟨hadmits, hq⟩ := (addHeader_eq_advanced hone).mp h
            refine ⟨_, ⟨⟨_, hline, trimmed_iff.mpr rfl⟩, ?_, fun b hb => ⟨?_, ?_⟩, hcr, hlf⟩,
              hadmits, hq⟩
            · exact fun hnil => hne ((List.take_eq_nil_iff.mp hnil).resolve_left (by omega))
            · rintro (rfl | rfl)
              · exact hspace hb
              · exact htab hb
            · rintro rfl
              exact hcolon hb
  · rintro ⟨⟨name, value⟩, ⟨⟨raw, hparts, htrim⟩, hname, hbytes, honeLine⟩, hadmits, rfl⟩
    obtain rfl := trimmed_iff.mp htrim
    subst hparts
    rw [takeHeaderLine, consumeHeaderLine_join p hname hbytes honeLine]
    exact (addHeader_eq_advanced hone).mpr ⟨hadmits, rfl⟩

-- ============================================================================
-- The header section
-- ============================================================================

theorem admits_cons {header : Bytes × Bytes} {headers : HeaderList} {a b : Nat} :
    p.Admits (header :: headers) (a + b) ↔
      p.Admits [header] a ∧ (p.withHeaders [header] a).Admits headers b := by
  have hsplit :
      p.request.headers ++ header :: headers = p.request.headers ++ [header] ++ headers := by
    rw [List.append_assoc, List.singleton_append]
  constructor
  · rintro ⟨hbytes, hcount, honce⟩
    rw [hsplit] at honce
    rw [List.length_cons] at hcount
    refine ⟨⟨by omega, by rw [List.length_singleton]; omega, ?_⟩, ?_, ?_, honce⟩
    · rw [contentLengths_append, List.length_append] at honce
      omega
    · show p.headerBytesSeen + a + b ≤ _
      omega
    · show (p.request.headers ++ [header]).length + headers.length ≤ _
      rw [List.length_append, List.length_singleton]
      omega
  · rintro ⟨-, hbytes, hcount, honce⟩
    change p.headerBytesSeen + a + b ≤ _ at hbytes
    change (p.request.headers ++ [header]).length + headers.length ≤ _ at hcount
    rw [List.length_append, List.length_singleton] at hcount
    refine ⟨by omega, by rw [List.length_cons]; omega, ?_⟩
    rw [hsplit]
    exact honce

theorem withHeaders_cons (p : HttpRequestParser) (header : Bytes × Bytes) (headers : HeaderList)
    (a b : Nat) :
    (p.withHeaders [header] a).withHeaders headers b =
      p.withHeaders (header :: headers) (a + b) := by
  simp only [withHeaders, List.append_assoc, List.singleton_append, Nat.add_assoc]

theorem HeaderReady.withHeaders_nil (hp : p.HeaderReady) : p.withHeaders [] 0 = p := by
  have hline := hp.line
  unfold withHeaders
  rw [List.append_nil, Nat.add_zero, ← hline]

theorem HeaderReady.withHeaders (hp : p.HeaderReady) {headers : HeaderList} {size : Nat}
    (h : p.Admits headers size) : (p.withHeaders headers size).HeaderReady :=
  ⟨hp.state, rfl, h.bytes⟩

variable {request : HttpRequest} {data : Bytes} {k n : Nat}

/-- Feeding the rest of the header section at once. -/
theorem HeaderReady.feedAll_eq (hp : p.HeaderReady) (k : Nat) (data : Bytes) :
    p.feedAll k [data] = match findCrlf data with
      | some n =>
        if n = 0 ∨ p.headerBytesSeen + n + 2 ≤ kMaxHeaderBytes then
          afterLine (k + (n + 2)) (data.drop (n + 2)) [] (p.takeHeaderLine (data.take n))
        else .error 431
      | none =>
        if ¬ (data = [] ∨ data = [cr]) ∧ kMaxHeaderBytes < p.headerBytesSeen + data.length then
          .error 431
        else .needMoreData := by
  have heq := feedAll_headers_eq hp.state (rfl : findCrlf [] = none) k data []
  rw [withLine_nil hp.line] at heq
  refine heq.trans ?_
  rw [List.nil_append]
  cases findCrlf data with
  | none => simp [feedAll]
  | some n => simp

theorem afterLine_advanced {x : StepResult × HttpRequestParser} {left : Bytes}
    (hx : x.1 = .kAdvanced) (hstate : x.2.state ≠ .kDone) :
    afterLine k left [] x = x.2.feedAll k [left] := by
  obtain ⟨r, q⟩ := x
  obtain rfl : r = .kAdvanced := hx
  exact if_neg hstate

/-- A line that was taken without completing the request. -/
theorem afterLine_eq_complete {x : StepResult × HttpRequestParser} {left : Bytes}
    (h : afterLine k left [] x = .complete request n) (hx : x.1 = .kAdvanced → x.2.state ≠ .kDone) :
    x.1 = .kAdvanced ∧ x.2.feedAll k [left] = .complete request n := by
  obtain ⟨r, q⟩ := x
  cases r with
  | kNeedMoreData => exact absurd h (by simp [afterLine])
  | kFailed => exact absurd h (by simp [afterLine])
  | kAdvanced =>
      exact ⟨rfl, afterLine_advanced rfl (hx rfl) ▸ h⟩

/-- The header section that a complete request was read from. -/
theorem HeaderReady.lines_of_complete (hp : p.HeaderReady)
    (hone : (contentLengths p.request.headers).length ≤ 1)
    (hcount : p.request.headers.length ≤ kMaxHeaderCount)
    (h : p.feedAll k [data] = .complete request n) :
    ∃ headers lines rest, data = headerBytes lines ++ crlf ++ rest ∧
      List.Forall₂ HeaderLine headers lines ∧ p.Admits headers (headerBytes lines).length ∧
      afterLine (k + (headerBytes lines).length + 2) rest []
        ((p.withHeaders headers (headerBytes lines).length).takeHeaderLine []) =
          .complete request n := by
  induction hlen : data.length using Nat.strong_induction_on generalizing p data k with
  | h length ih =>
      rw [hp.feedAll_eq] at h
      cases hfind : findCrlf data with
      | none =>
          rw [hfind] at h
          dsimp only at h
          split at h
          · exact absurd h (by simp)
          · exact absurd h (by simp)
      | some m =>
          obtain ⟨hdata, hle⟩ := find_eq_some hfind
          rw [hfind] at h
          cases m with
          | zero =>
              refine ⟨[], [], data.drop 2, hdata, .nil, ⟨hp.seen, hcount, ?_⟩, ?_⟩
              · rw [List.append_nil]
                exact hone
              · rw [show (headerBytes []).length = 0 from rfl, hp.withHeaders_nil]
                exact h
          | succ m =>
              dsimp only at h
              split at h
              · have hne : data.take (m + 1) ≠ [] := take_ne_nil (Nat.succ_pos m) hfind
                have htaken : (p.takeHeaderLine (data.take (m + 1))).1 = .kAdvanced →
                    (p.takeHeaderLine (data.take (m + 1))).2.state = .kHeaders := fun hadv => by
                  obtain ⟨-, hfail | ⟨-, ⟨hnil, -⟩ | ⟨-, hstate, -⟩⟩⟩ :=
                    takeHeaderLine_state
                      (Prod.mk.eta (p := p.takeHeaderLine (data.take (m + 1)))).symm
                  · exact absurd (hadv.symm.trans hfail) (by simp)
                  · exact absurd hnil hne
                  · exact hstate.trans hp.state
                obtain ⟨hadv, hrest⟩ := afterLine_eq_complete h fun hadv => by
                  rw [htaken hadv]
                  decide
                obtain ⟨q, htake⟩ : ∃ q, p.takeHeaderLine (data.take (m + 1)) = (.kAdvanced, q) :=
                  ⟨_, Prod.ext hadv rfl⟩
                obtain ⟨header, hheader, hadmits, rfl⟩ :=
                  (takeHeaderLine_eq_advanced hone hne).mp htake
                rw [htake] at hrest
                obtain ⟨headers, lines, rest, hbytes, hlines, hall, hend⟩ :=
                  ih _ (by rw [List.length_drop]; omega) (hp.withHeaders hadmits) hadmits.once
                    (by
                      have := hadmits.count
                      rwa [← List.length_append] at this) hrest rfl
                have hsize : (headerBytes (data.take (m + 1) :: lines)).length =
                    (data.take (m + 1)).length + 2 + (headerBytes lines).length := by
                  rw [headerBytes, List.flatMap_cons, List.length_append, List.length_append]
                  rfl
                have hfirst : (data.take (m + 1)).length = m + 1 := length_take_crlf hfind
                refine ⟨header :: headers, data.take (m + 1) :: lines, rest, ?_,
                  .cons hheader hlines, ?_, ?_⟩
                · conv_lhs => rw [hdata, hbytes]
                  simp [headerBytes, crlf]
                · rw [hsize]
                  exact admits_cons.mpr ⟨hadmits, hall⟩
                · rw [hsize, ← withHeaders_cons, ← hend]
                  congr 1
                  omega
              · exact absurd h (by simp)

/-- Header lines of the grammar lead to the end of the header section. -/
theorem HeaderReady.feedAll_lines (hp : p.HeaderReady)
    (hone : (contentLengths p.request.headers).length ≤ 1) {headers : HeaderList}
    {lines : List Bytes} (hlines : List.Forall₂ HeaderLine headers lines)
    (hadmits : p.Admits headers (headerBytes lines).length) (k : Nat) (rest : Bytes) :
    p.feedAll k [headerBytes lines ++ crlf ++ rest] =
      afterLine (k + (headerBytes lines).length + 2) rest []
        ((p.withHeaders headers (headerBytes lines).length).takeHeaderLine []) := by
  induction hlines generalizing p k with
  | nil =>
      rw [hp.feedAll_eq, show findCrlf (headerBytes [] ++ crlf ++ rest) = some 0 from rfl,
        show (headerBytes []).length = 0 from rfl, hp.withHeaders_nil]
      rfl
  | @cons header line headers lines hheader hlines ih =>
      obtain ⟨raw, hparts, -⟩ := hheader.parts
      have hne : line ≠ [] := by rw [hparts]; simp
      have hbytes : headerBytes (line :: lines) ++ crlf ++ rest =
          line ++ cr :: lf :: (headerBytes lines ++ crlf ++ rest) := by
        simp [headerBytes, crlf]
      have hsize : (headerBytes (line :: lines)).length =
          line.length + 2 + (headerBytes lines).length := by
        rw [headerBytes, List.flatMap_cons, List.length_append, List.length_append]
        rfl
      rw [hsize] at hadmits ⊢
      obtain ⟨hfirst, hrest⟩ := admits_cons.mp hadmits
      have htake := (takeHeaderLine_eq_advanced hone hne).mpr ⟨header, hheader, hfirst, rfl⟩
      have hcap := hfirst.bytes
      rw [hbytes, hp.feedAll_eq,
        show findCrlf _ = some line.length from find_of_not_mem hheader.oneLine.1 _]
      dsimp only
      rw [if_pos (Or.inr (by omega)), List.take_left, htake, List.drop_length_add_append]
      have hstate : (p.withHeaders [header] (line.length + 2)).state ≠ .kDone := by
        rw [(hp.withHeaders hfirst).state]
        decide
      rw [afterLine_advanced rfl hstate]
      refine (ih (hp.withHeaders hfirst) hfirst.once hrest _).trans ?_
      rw [withHeaders_cons]
      congr 1
      omega

end HttpRequestParser

end PassionProjects.Arcserve.Protocol
