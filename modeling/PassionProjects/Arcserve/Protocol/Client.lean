/-
  PassionProjects.Arcserve.Protocol.Client

  A client that reads a response.

  Any of CRLF, CR and LF ends a line, as lenient clients have it.  The lines up to the
  first empty one are the status line and the headers; `Content-Length` says how much
  of what follows is the body.
-/

import PassionProjects.Arcserve.Protocol.HeaderLines
import PassionProjects.Arcserve.Protocol.LineBreaks

namespace PassionProjects.Arcserve.Protocol.Client

open HttpRequestParser

/-- The first line, and what follows its end. -/
def readLine : Bytes → Option (Bytes × Bytes)
  | [] => none
  | b :: rest =>
    if b = cr then some ([], if rest.head? = some lf then rest.tail else rest)
    else if b = lf then some ([], rest)
    else (readLine rest).map fun x => (b :: x.1, x.2)

/-- The lines up to the empty one; the number bounds how many there are. -/
def readLines : Nat → Bytes → Option (List Bytes × Bytes)
  | 0, _ => none
  | n + 1, bytes =>
    (readLine bytes).bind fun x =>
      if x.1 = [] then some ([], x.2)
      else (readLines n x.2).map fun y => (x.1 :: y.1, y.2)

/-- Name and value of a header line. -/
def readHeader (line : Bytes) : Option (Bytes × Bytes) :=
  (findByte colon line).map fun n => (line.take n, trimBlanks (line.drop (n + 1)))

structure Reply where
  statusLine : Bytes
  headers : HeaderList
  body : Bytes
  deriving DecidableEq, Repr

/-- The body that the headers frame, and what follows it. -/
def readBody (statusLine : Bytes) (headers : HeaderList) (rest : Bytes) : Option (Reply × Bytes) :=
  match (findHeader headers (ascii "Content-Length")).bind fromChars with
  | none => none
  | some length =>
    if rest.length < length then none
    else some (⟨statusLine, headers, rest.take length⟩, rest.drop length)

/-- The first response of a stream, and what follows it. -/
def readReply (bytes : Bytes) : Option (Reply × Bytes) :=
  match readLines bytes.length bytes with
  | none => none
  | some ([], _) => none
  | some (statusLine :: headerLines, rest) =>
    (headerLines.mapM readHeader).bind fun headers => readBody statusLine headers rest

example : readReply (ascii "HTTP/1.1 200 OK\nContent-Length: 2\r\rhi!") =
    some (⟨ascii "HTTP/1.1 200 OK", [(ascii "Content-Length", ascii "2")], ascii "hi"⟩,
      ascii "!") := by
  decide

-- ============================================================================
-- Lines
-- ============================================================================

variable {line rest : Bytes} {lines : List Bytes}

theorem readLine_crlf (h : NoLineBreak line) (rest : Bytes) :
    readLine (line ++ cr :: lf :: rest) = some (line, rest) := by
  induction line with
  | nil => rfl
  | cons b line ih =>
      obtain ⟨⟨hcr, hlf⟩, hline⟩ := noLineBreak_cons.mp h
      rw [List.cons_append, readLine, if_neg hcr, if_neg hlf, ih hline]
      rfl

theorem length_le_headerBytes (lines : List Bytes) :
    lines.length ≤ (headerBytes lines).length := by
  induction lines with
  | nil => exact Nat.zero_le _
  | cons line lines ih =>
      rw [headerBytes, List.flatMap_cons, ← headerBytes]
      simp only [List.length_append, List.length_cons, crlf, List.length_nil]
      omega

/-- Lines that break nowhere else are the lines that the client reads. -/
theorem readLines_crlf {n : Nat} (h : ∀ line ∈ lines, NoLineBreak line ∧ line ≠ [])
    (hn : lines.length < n) (rest : Bytes) :
    readLines n (headerBytes lines ++ crlf ++ rest) = some (lines, rest) := by
  induction lines generalizing n with
  | nil =>
      obtain ⟨n, rfl⟩ : ∃ m, n = m + 1 := ⟨n - 1, by rw [List.length_nil] at hn; omega⟩
      rfl
  | cons line lines ih =>
      obtain ⟨n, rfl⟩ : ∃ m, n = m + 1 := ⟨n - 1, by rw [List.length_cons] at hn; omega⟩
      obtain ⟨hline, hne⟩ := h line List.mem_cons_self
      have hbytes : headerBytes (line :: lines) ++ crlf ++ rest =
          line ++ cr :: lf :: (headerBytes lines ++ crlf ++ rest) := by
        simp [headerBytes, crlf]
      rw [readLines, hbytes, readLine_crlf hline, Option.bind_some]
      dsimp only
      rw [if_neg hne, ih (fun l hl => h l (List.mem_cons_of_mem _ hl))
        (by rw [List.length_cons] at hn; omega)]
      rfl

-- ============================================================================
-- Headers
-- ============================================================================

/-- A header that stays one header on the wire. -/
structure Plain (header : Bytes × Bytes) : Prop where
  name : NoLineBreak header.1 ∧ colon ∉ header.1
  value : NoLineBreak header.2 ∧ Trimmed header.2 header.2

/-- The line of a header, without its CRLF. -/
def headerText (header : Bytes × Bytes) : Bytes := header.1 ++ ascii ": " ++ header.2

theorem Plain.headerText {header : Bytes × Bytes} (h : Plain header) :
    NoLineBreak (headerText header) ∧ Client.headerText header ≠ [] := by
  have hcolon : NoLineBreak (ascii ": ") := by decide
  constructor
  · rw [Client.headerText, noLineBreak_append, noLineBreak_append]
    exact ⟨⟨h.name.1, hcolon⟩, h.value.1⟩
  · intro hnil
    have hlen := congrArg List.length hnil
    rw [Client.headerText, List.length_append, List.length_append,
      show (ascii ": ").length = 2 from rfl, List.length_nil] at hlen
    omega

/-- The blank after the colon is not part of the value. -/
theorem Trimmed.cons_space {value : Bytes} (h : Trimmed value value) :
    Trimmed (space :: value) value where
  around := ⟨[space], [], by simp, by simp [Blank], by simp⟩
  first := h.first
  last := h.last

theorem Plain.readHeader {header : Bytes × Bytes} (h : Plain header) :
    readHeader (Client.headerText header) = some header := by
  have hline : Client.headerText header = header.1 ++ colon :: (space :: header.2) := by
    rw [Client.headerText, List.append_assoc]
    rfl
  rw [Client.readHeader, hline, findByte_append h.name.2, Option.map_some, List.take_left,
    List.drop_length_add_append, List.drop_one, List.tail_cons,
    trimmed_iff.mp (Trimmed.cons_space h.value.2)]

theorem readHeaders {headers : HeaderList} (h : ∀ header ∈ headers, Plain header) :
    (headers.map headerText).mapM readHeader = some headers := by
  induction headers with
  | nil => rfl
  | cons header headers ih =>
      rw [List.map_cons, List.mapM_cons, (h header List.mem_cons_self).readHeader,
        ih fun other hmem => h other (List.mem_cons_of_mem _ hmem)]
      rfl

-- ============================================================================
-- Numbers
-- ============================================================================

theorem toNat_digit {c : Char} {n : Nat} (hc : c ∈ Nat.toDigits 10 n) :
    c.toNat.toUInt8.toNat = c.toNat ∧ 48 ≤ c.toNat ∧ c.toNat ≤ 57 := by
  have hdigit := Nat.isDigit_of_mem_toDigits (by decide) (by decide) hc
  simp only [Char.isDigit, Bool.and_eq_true, decide_eq_true_eq, ge_iff_le,
    UInt32.le_iff_toNat_le] at hdigit
  have hlow : 48 ≤ c.toNat := hdigit.1
  have hhigh : c.toNat ≤ 57 := hdigit.2
  refine ⟨?_, hlow, hhigh⟩
  rw [Nat.toUInt8_eq, UInt8.toNat_ofNat']
  exact Nat.mod_eq_of_lt (by omega)

/-- `to_string` writes the decimal digits of a number. -/
theorem decimal_toDecimal (n : Nat) : Decimal (toDecimal n) n where
  ne_nil h := Nat.toDigits_ne_nil (List.map_eq_nil_iff.mp h)
  digit b hb := by
    obtain ⟨c, hc, rfl⟩ := List.mem_map.mp hb
    obtain ⟨htoNat, hlow, hhigh⟩ := toNat_digit hc
    rw [UInt8.le_iff_toNat_le, UInt8.le_iff_toNat_le, htoNat]
    exact ⟨hlow, hhigh⟩
  value_eq := by
    have hvalue := Nat.ofDigitChars_ten_toDigits (n := n)
    rw [Nat.ofDigits_eq_foldr, List.foldr_map, ← List.foldl_reverse, List.reverse_reverse,
      toDecimal, List.foldl_map]
    conv_lhs => rw [← hvalue, Nat.ofDigitChars_eq_foldl]
    refine List.foldl_ext _ _ 0 fun a c hc => ?_
    rw [(toNat_digit hc).1, Nat.cast_id]
    exact Nat.add_comm _ _

theorem noLineBreak_toDecimal (n : Nat) : NoLineBreak (toDecimal n) := by
  have hdigit := (decimal_toDecimal n).digit
  exact ⟨fun hcr => absurd (hdigit _ hcr) (by decide), fun hlf => absurd (hdigit _ hlf) (by decide)⟩

theorem trimmed_toDecimal (n : Nat) : Trimmed (toDecimal n) (toDecimal n) := by
  have hnot : ∀ b ∈ toDecimal n, ¬ Blank b := by
    intro b hb hblank
    have hdigit := (decimal_toDecimal n).digit b hb
    rcases hblank with rfl | rfl
    · exact absurd hdigit (by decide)
    · exact absurd hdigit (by decide)
  exact ⟨⟨[], [], by simp, by simp, by simp⟩, fun b hb => hnot b (List.mem_of_mem_head? hb),
    fun b hb => hnot b (List.mem_of_mem_getLast? hb)⟩

-- ============================================================================
-- Responses
-- ============================================================================

/-- The headers that `serialize` writes. -/
def sentHeaders (response : HttpResponse) : HeaderList :=
  response.headers ++ [(ascii "Content-Length", toDecimal response.body.length),
    (ascii "Connection", if response.keepAlive then ascii "keep-alive" else ascii "close")]

/-- The response that a client is to read. -/
def reply (response : HttpResponse) : Reply where
  statusLine := ascii "HTTP/1.1 " ++ toDecimal response.statusCode ++ [space] ++
    response.reasonPhrase
  headers := sentHeaders response
  body := response.body

/-- A response whose parts have no line breaks, and which leaves the framing to
    `serialize`. -/
structure PlainResponse (response : HttpResponse) : Prop where
  reason : NoLineBreak response.reasonPhrase
  headers : ∀ header ∈ response.headers, Plain header
  unframed : findHeader response.headers (ascii "Content-Length") = none
  body : response.body.length < 2 ^ 64

variable {response : HttpResponse}

theorem serialize_eq (response : HttpResponse) :
    response.serialize = headerBytes ((reply response).statusLine ::
      (sentHeaders response).map headerText) ++ crlf ++ response.body := by
  have hheaders : ∀ headers : HeaderList,
      headerBytes (headers.map headerText) = headers.flatMap serializeHeader := by
    intro headers
    rw [headerBytes, List.flatMap_map]
    rfl
  rw [sentHeaders, List.map_append, headerBytes, List.flatMap_cons, List.flatMap_append,
    ← headerBytes, hheaders]
  simp only [HttpResponse.serialize, reply, headerText, List.map_cons, List.map_nil,
    List.flatMap_cons, List.flatMap_nil, List.append_assoc, List.append_nil,
    show ascii "Content-Length: " = ascii "Content-Length" ++ ascii ": " from rfl,
    show ascii "Connection: " = ascii "Connection" ++ ascii ": " from rfl]

theorem plain_sentHeaders (h : PlainResponse response) :
    ∀ header ∈ sentHeaders response, Plain header := by
  have hconnection : ∀ keepAlive : Bool,
      NoLineBreak (if keepAlive then ascii "keep-alive" else ascii "close") ∧
        trimBlanks (if keepAlive then ascii "keep-alive" else ascii "close") =
          if keepAlive then ascii "keep-alive" else ascii "close" := by decide
  have hlengthName : NoLineBreak (ascii "Content-Length") ∧ colon ∉ ascii "Content-Length" := by
    decide
  have hconnectionName : NoLineBreak (ascii "Connection") ∧ colon ∉ ascii "Connection" := by decide
  intro header hmem
  rcases List.mem_append.mp hmem with hmem | hmem
  · exact h.headers header hmem
  · rcases List.mem_cons.mp hmem with rfl | hmem
    · exact ⟨hlengthName, noLineBreak_toDecimal _, trimmed_toDecimal _⟩
    · obtain rfl := List.mem_singleton.mp hmem
      exact ⟨hconnectionName, (hconnection _).1, trimmed_iff.mpr (hconnection _).2⟩

/-- A client reads a response as it was meant, and nothing else. -/
theorem readReply_serialize (h : PlainResponse response) :
    readReply response.serialize = some (reply response, []) := by
  have hplain := plain_sentHeaders h
  have hversion : NoLineBreak (ascii "HTTP/1.1 ") := by decide
  have hstatus : NoLineBreak (reply response).statusLine ∧ (reply response).statusLine ≠ [] := by
    refine ⟨?_, by simp [reply]⟩
    show NoLineBreak (ascii "HTTP/1.1 " ++ toDecimal response.statusCode ++ [space] ++
      response.reasonPhrase)
    rw [noLineBreak_append, noLineBreak_append, noLineBreak_append]
    exact ⟨⟨⟨hversion, noLineBreak_toDecimal _⟩, by decide⟩, h.reason⟩
  have hlines : ∀ line ∈ (reply response).statusLine :: (sentHeaders response).map headerText,
      NoLineBreak line ∧ line ≠ [] := by
    intro line hmem
    rcases List.mem_cons.mp hmem with rfl | hmem
    · exact hstatus
    · obtain ⟨header, hheader, rfl⟩ := List.mem_map.mp hmem
      exact (hplain header hheader).headerText
  have hlength : (findHeader (sentHeaders response) (ascii "Content-Length")).bind fromChars =
      some response.body.length := by
    have hfound : findHeader (sentHeaders response) (ascii "Content-Length") =
        some (toDecimal response.body.length) := by
      have hnone : response.headers.find?
          (fun h => asciiCaseInsensitiveEquals h.1 (ascii "Content-Length")) = none :=
        Option.map_eq_none_iff.mp h.unframed
      rw [findHeader, sentHeaders, List.find?_append, hnone]
      rfl
    rw [hfound, Option.bind_some]
    exact fromChars_eq_some.mpr ⟨decimal_toDecimal _, h.body⟩
  have hcount : ((reply response).statusLine :: (sentHeaders response).map headerText).length <
      response.serialize.length := by
    have hle := length_le_headerBytes
      ((reply response).statusLine :: (sentHeaders response).map headerText)
    rw [serialize_eq, List.length_append, List.length_append, show crlf.length = 2 from rfl]
    omega
  have hread : readLines response.serialize.length response.serialize =
      some ((reply response).statusLine :: (sentHeaders response).map headerText,
        response.body) := by
    have hall := readLines_crlf hlines hcount response.body
    rwa [← serialize_eq response] at hall
  rw [readReply, hread]
  dsimp only
  rw [readHeaders hplain, Option.bind_some, readBody, hlength]
  dsimp only
  rw [if_neg (Nat.lt_irrefl _), List.take_length, List.drop_length]
  rfl

end PassionProjects.Arcserve.Protocol.Client
