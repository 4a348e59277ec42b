/-
  PassionProjects.Arcserve.Protocol.Lines

  What the parser does with a line, whatever part of it is buffered.

  `line_buffer_` holds the beginning of a line and never a CRLF.  The first CRLF of
  what is buffered and what has arrived ends the line; where the buffer already
  holds the CR, the line was completed by its LF, and the length is not checked.
-/

import PassionProjects.Arcserve.Protocol.HttpParser

namespace PassionProjects.Arcserve.Protocol.HttpRequestParser

open PassionProjects.Terminator

variable {p p' : HttpRequestParser} {data line : Bytes} {n : Nat}

/-- The state of the line scanner apart from what it has buffered. -/
def withLine (p : HttpRequestParser) (buffered : Bytes) : HttpRequestParser :=
  { p with lineBuffer := buffered }

@[simp] theorem withLine_lineBuffer (p : HttpRequestParser) (b : Bytes) :
    (p.withLine b).lineBuffer = b := rfl
@[simp] theorem withLine_state (p : HttpRequestParser) (b : Bytes) :
    (p.withLine b).state = p.state := rfl
@[simp] theorem withLine_headerBytesSeen (p : HttpRequestParser) (b : Bytes) :
    (p.withLine b).headerBytesSeen = p.headerBytesSeen := rfl
@[simp] theorem withLine_request (p : HttpRequestParser) (b : Bytes) :
    (p.withLine b).request = p.request := rfl
@[simp] theorem withLine_withLine (p : HttpRequestParser) (b c : Bytes) :
    (p.withLine b).withLine c = p.withLine c := rfl
@[simp] theorem withLine_self (p : HttpRequestParser) : p.withLine p.lineBuffer = p := rfl

/-- The request line that was read. -/
def takeRequestLine (p : HttpRequestParser) (line : Bytes) : StepResult × HttpRequestParser :=
  clearLine (p.finishRequestLine line)

/-- The header line that was read. -/
def takeHeaderLine (p : HttpRequestParser) (line : Bytes) : StepResult × HttpRequestParser :=
  clearLine (p.consumeHeaderLine line)

/-- What is buffered does not matter to a line that is taken out. -/
theorem takeRequestLine_withLine (p : HttpRequestParser) (b line : Bytes) :
    (p.withLine b).takeRequestLine line = p.takeRequestLine line := by
  unfold takeRequestLine finishRequestLine
  split
  · rfl
  · dsimp only
    split
    · rfl
    · unfold acceptRequestLine
      repeat' split
      all_goals rfl

theorem finishHeaders_withLine (p : HttpRequestParser) (b : Bytes) :
    clearLine (p.withLine b).finishHeaders = clearLine p.finishHeaders := by
  unfold finishHeaders
  rw [withLine_request]
  cases findHeader p.request.headers (ascii "Content-Length") with
  | none =>
      by_cases hpost : p.request.method = .kPost
      · simp only [hpost, if_true]
        rfl
      · simp only [hpost, if_false]
        rfl
  | some value =>
      dsimp only
      cases fromChars value with
      | none => rfl
      | some n =>
          by_cases hbig : n > kMaxBodyBytes
          · simp only [hbig, if_true]
            rfl
          · simp only [hbig, if_false]
            rfl

theorem addHeader_withLine (p : HttpRequestParser) (b name value : Bytes) (n : Nat) :
    clearLine ((p.withLine b).addHeader n name value) = clearLine (p.addHeader n name value) := by
  unfold addHeader
  rw [withLine_headerBytesSeen]
  by_cases hcap : p.headerBytesSeen + n + 2 > kMaxHeaderBytes
  · simp only [hcap, if_true]
    rfl
  · simp only [hcap, if_false, withLine_request]
    by_cases hdup : asciiCaseInsensitiveEquals name (ascii "Content-Length") = true ∧
        (findHeader p.request.headers (ascii "Content-Length")).isSome = true
    · simp only [hdup, and_self, if_true]
      rfl
    · simp only [hdup, if_false]
      by_cases hcount : p.request.headers.length ≥ kMaxHeaderCount
      · simp only [hcount, if_true]
        rfl
      · simp only [hcount, if_false]
        rfl

theorem takeHeaderLine_withLine (p : HttpRequestParser) (b line : Bytes) :
    (p.withLine b).takeHeaderLine line = p.takeHeaderLine line := by
  unfold takeHeaderLine consumeHeaderLine
  split
  · exact finishHeaders_withLine p b
  · split
    · rfl
    · split
      · rfl
      · rfl
      · dsimp only
        split
        · rfl
        · exact addHeader_withLine p b _ _ _

theorem terminatorSplit_iff (p : HttpRequestParser) (data : Bytes) :
    p.terminatorSplit data = true ↔ p.lineBuffer.getLast? = some cr ∧ data.head? = some lf := by
  simp [terminatorSplit]

/-- The first CRLF of what is buffered and what has arrived. -/
theorem findCrlf_append (h : findCrlf p.lineBuffer = none) (data : Bytes) :
    findCrlf (p.lineBuffer ++ data) =
      if p.terminatorSplit data then some (p.lineBuffer.length - 1)
      else (findCrlf data).map (· + p.lineBuffer.length) := by
  rw [findCrlf, find_append_of_none h]
  simp only [terminatorSplit_iff]
  rfl

theorem dropLast_of_split (h : p.terminatorSplit data = true) :
    p.lineBuffer.dropLast = (p.lineBuffer ++ data).take (p.lineBuffer.length - 1) ∧
      data.tail = (p.lineBuffer ++ data).drop (p.lineBuffer.length - 1 + 2) ∧
      0 < p.lineBuffer.length := by
  obtain ⟨hlast, hhead⟩ := (p.terminatorSplit_iff data).mp h
  have hne : p.lineBuffer ≠ [] := fun hnil => by simp [hnil] at hlast
  have hpos : 0 < p.lineBuffer.length := List.length_pos_iff.mpr hne
  refine ⟨?_, ?_, hpos⟩
  · rw [List.take_append_of_le_length (Nat.sub_le _ _), List.dropLast_eq_take]
  · have hlen : p.lineBuffer.length - 1 + 2 = p.lineBuffer.length + 1 := by omega
    rw [hlen, List.drop_length_add_append, List.drop_one]

/-- `parse_request_line` by lines. -/
theorem parseRequestLine_eq (h : findCrlf p.lineBuffer = none) (data : Bytes) :
    p.parseRequestLine data = match findCrlf (p.lineBuffer ++ data) with
      | some n =>
        if n < p.lineBuffer.length ∨ n ≤ kMaxRequestLineLength then
          leaving ((p.lineBuffer ++ data).drop (n + 2))
            (p.takeRequestLine ((p.lineBuffer ++ data).take n))
        else leaving data (p.failStep 400 "Bad Request" "request line exceeds limit\n")
      | none =>
        if data ≠ [cr] ∧ kMaxRequestLineLength < (p.lineBuffer ++ data).length then
          leaving data (p.failStep 400 "Bad Request" "request line exceeds limit\n")
        else (.kNeedMoreData, p.withLine (p.lineBuffer ++ data), []) := by
  rw [findCrlf_append h]
  unfold parseRequestLine
  by_cases hsplit : p.terminatorSplit data = true
  · obtain ⟨hline, hdata, hpos⟩ := dropLast_of_split hsplit
    simp only [hsplit, if_true]
    rw [if_pos (Or.inl (Nat.sub_lt hpos Nat.one_pos)), ← hline, ← hdata]
    rfl
  · simp only [hsplit, Bool.false_eq_true, if_false]
    cases hfind : findCrlf data with
    | none =>
        simp only [Option.map_none, List.length_append, gt_iff_lt]
        rfl
    | some n =>
        simp only [Option.map_some]
        have hnot : ¬ n + p.lineBuffer.length < p.lineBuffer.length := by omega
        have hdrop : (p.lineBuffer ++ data).drop (n + p.lineBuffer.length + 2) =
            data.drop (n + 2) := by
          rw [show n + p.lineBuffer.length + 2 = p.lineBuffer.length + (n + 2) by omega,
            List.drop_length_add_append]
        have htake : (p.lineBuffer ++ data).take (n + p.lineBuffer.length) =
            p.lineBuffer ++ data.take n := by
          rw [Nat.add_comm, List.take_length_add_append]
        rw [hdrop, htake, ← takeRequestLine_withLine p (p.lineBuffer ++ data.take n)]
        by_cases hcap : p.lineBuffer.length + n > kMaxRequestLineLength
        · rw [if_pos hcap, if_neg (by omega)]
        · rw [if_neg hcap, if_pos (by omega)]
          rfl

/-- One turn of `parse_headers` by lines. -/
theorem parseHeaderLine_eq (h : findCrlf p.lineBuffer = none) (data : Bytes) :
    p.parseHeaderLine data = match findCrlf (p.lineBuffer ++ data) with
      | some n =>
        if n < p.lineBuffer.length ∨ n = 0 ∨ p.headerBytesSeen + n + 2 ≤ kMaxHeaderBytes then
          leaving ((p.lineBuffer ++ data).drop (n + 2))
            (p.takeHeaderLine ((p.lineBuffer ++ data).take n))
        else
          leaving data (p.failStep 431 "Request Header Fields Too Large" "headers exceed limit\n")
      | none =>
        if ¬ (p.lineBuffer = [] ∧ (data = [] ∨ data = [cr])) ∧
            kMaxHeaderBytes < p.headerBytesSeen + (p.lineBuffer ++ data).length then
          leaving data (p.failStep 431 "Request Header Fields Too Large" "headers exceed limit\n")
        else (.kNeedMoreData, p.withLine (p.lineBuffer ++ data), []) := by
  rw [findCrlf_append h]
  unfold parseHeaderLine
  by_cases hsplit : p.terminatorSplit data = true
  · obtain ⟨hline, hdata, hpos⟩ := dropLast_of_split hsplit
    simp only [hsplit, if_true]
    rw [if_pos (Or.inl (Nat.sub_lt hpos Nat.one_pos)), ← hline, ← hdata]
    rfl
  · simp only [hsplit, Bool.false_eq_true, if_false]
    cases hfind : findCrlf data with
    | none =>
        simp only [Option.map_none, List.length_append, gt_iff_lt, Nat.add_assoc]
        rfl
    | some n =>
        simp only [Option.map_some]
        have hnot : ¬ n + p.lineBuffer.length < p.lineBuffer.length := by omega
        have hdrop : (p.lineBuffer ++ data).drop (n + p.lineBuffer.length + 2) =
            data.drop (n + 2) := by
          rw [show n + p.lineBuffer.length + 2 = p.lineBuffer.length + (n + 2) by omega,
            List.drop_length_add_append]
        have htake : (p.lineBuffer ++ data).take (n + p.lineBuffer.length) =
            p.lineBuffer ++ data.take n := by
          rw [Nat.add_comm, List.take_length_add_append]
        have hzero : n + p.lineBuffer.length = 0 ↔ p.lineBuffer = [] ∧ n = 0 := by
          rw [← List.length_eq_zero_iff]
          omega
        rw [hdrop, htake, ← takeHeaderLine_withLine p (p.lineBuffer ++ data.take n)]
        by_cases hcap : ¬ (p.lineBuffer = [] ∧ n = 0) ∧
            p.headerBytesSeen + p.lineBuffer.length + n + 2 > kMaxHeaderBytes
        · rw [if_pos hcap, if_neg]
          rintro (hlt | hz | hle)
          · exact hnot hlt
          · exact hcap.1 (hzero.mp hz)
          · have := hcap.2
            omega
        · rw [if_neg hcap, if_pos]
          · rfl
          · by_cases hblank : p.lineBuffer = [] ∧ n = 0
            · exact Or.inr (Or.inl (hzero.mpr hblank))
            · have hle : ¬ p.headerBytesSeen + p.lineBuffer.length + n + 2 > kMaxHeaderBytes :=
                fun hgt => hcap ⟨hblank, hgt⟩
              exact Or.inr (Or.inr (by omega))

-- ============================================================================
-- The parts of a request line
-- ============================================================================

theorem findByte_append {byte : UInt8} {s : Bytes} (h : byte ∉ s) (t : Bytes) :
    findByte byte (s ++ byte :: t) = some s.length := by
  rw [findByte, List.findIdx?_append, List.findIdx?_eq_none_iff.mpr]
  · simp [List.findIdx?_cons]
  · intro b hb
    rw [beq_eq_false_iff_ne]
    exact fun heq => h (heq ▸ hb)

/-- A request line is cut at its first two spaces. -/
theorem finishRequestLine_join (p : HttpRequestParser) {method target : Bytes}
    (hmethod : space ∉ method) (htarget : space ∉ target) (version : Bytes) :
    p.finishRequestLine (method ++ space :: (target ++ space :: version)) =
      p.acceptRequestLine method target version := by
  have hrest : (method ++ space :: (target ++ space :: version)).drop (method.length + 1) =
      target ++ space :: version := by
    rw [List.drop_length_add_append, List.drop_one, List.tail_cons]
  unfold finishRequestLine
  rw [findByte_append hmethod]
  dsimp only
  rw [hrest, findByte_append htarget]
  dsimp only
  rw [List.take_left, List.take_left, List.drop_length_add_append, List.drop_one, List.tail_cons]

end PassionProjects.Arcserve.Protocol.HttpRequestParser
