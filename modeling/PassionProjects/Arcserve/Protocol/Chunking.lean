/-
  PassionProjects.Arcserve.Protocol.Chunking

  When the outcome of a stream depends on how it is cut into chunks.

  The caps count a line that is still unfinished together with its CR, except where
  a lone CR is the whole chunk, and count a finished line without it.  So a line at
  the very cap may be taken from one way of cutting and refused from another.

  `feedAll_requestLine_scan` and `feedAll_headers_scan` say what the chunks of one
  line can lead to, and `HeadersClear` follows the lines of the header section.
-/

import PassionProjects.Arcserve.Protocol.Feed

namespace PassionProjects.Arcserve.Protocol.HttpRequestParser

open PassionProjects.Terminator

variable {p p' : HttpRequestParser} {chunks : List Bytes} {l stream : Bytes} {n k : Nat}
  {gaps : Bool}

/-- The chunks of a stream; `gaps` tells whether there may be empty ones. -/
def Cut (gaps : Bool) (stream : Bytes) (chunks : List Bytes) : Prop :=
  chunks.flatten = stream ∧ ([] ∈ chunks → gaps = true)

theorem cut_whole (gaps : Bool) (h : stream ≠ []) : Cut gaps stream [stream] :=
  ⟨by simp, fun hmem => absurd (List.mem_singleton.mp hmem).symm h⟩

/-- A stream cut after its first `i` bytes. -/
theorem cut_prepend {i : Nat} (hi : 0 < i) (hle : i ≤ stream.length)
    (h : Cut gaps (stream.drop i) chunks) : Cut gaps stream (stream.take i :: chunks) := by
  refine ⟨by rw [List.flatten_cons, h.1, List.take_append_drop], fun hmem => ?_⟩
  rcases List.mem_cons.mp hmem with hnil | hmem
  · have hlen := congrArg List.length hnil
    rw [List.length_take, List.length_nil] at hlen
    omega
  · exact h.2 hmem

-- ============================================================================
-- The chunks of one line
-- ============================================================================

/-- Only CRs lie past the cap: each may have come as a chunk of its own. -/
def OnlyCrPastCap (line : Bytes) : Prop := ∀ b ∈ line.drop kMaxRequestLineLength, b = cr

theorem onlyCrPastCap_of_le (h : l.length ≤ kMaxRequestLineLength) : OnlyCrPastCap l := by
  rw [OnlyCrPastCap, List.drop_eq_nil_of_le h]
  exact fun b hb => absurd hb (List.not_mem_nil)

theorem OnlyCrPastCap.take (h : OnlyCrPastCap l) (n : Nat) : OnlyCrPastCap (l.take n) :=
  fun b hb => h b (by
    rw [List.drop_take] at hb
    exact List.mem_of_mem_take hb)

theorem OnlyCrPastCap.append_cr (h : OnlyCrPastCap l) : OnlyCrPastCap (l ++ [cr]) := by
  intro b hb
  rw [List.drop_append] at hb
  rcases List.mem_append.mp hb with hb | hb
  · exact h b hb
  · exact List.mem_singleton.mp (List.mem_of_mem_drop hb)

/-- What the chunks of the request line lead to.  The induction is on the chunks;
    what is buffered has only CRs past the cap. -/
theorem feedAll_requestLine_scan (hstate : p.state = .kRequestLine) (hl : findCrlf l = none)
    (hcap : OnlyCrPastCap l) (hcut : l ++ chunks.flatten = stream) :
    match findCrlf stream with
    | none =>
      (p.withLine l).feedAll (k + l.length) chunks = .needMoreData ∧ OnlyCrPastCap stream ∨
        (p.withLine l).feedAll (k + l.length) chunks = .error 400 ∧
          kMaxRequestLineLength < stream.length
    | some n =>
      (p.withLine l).feedAll (k + l.length) chunks = .error 400 ∧ kMaxRequestLineLength ≤ n ∨
        OnlyCrPastCap (stream.take n) ∧ ∃ left rest, left ++ rest.flatten = stream.drop (n + 2) ∧
          ([] ∈ rest → [] ∈ chunks) ∧ (p.withLine l).feedAll (k + l.length) chunks =
            afterLine (k + (n + 2)) left rest (p.takeRequestLine (stream.take n)) := by
  induction chunks generalizing l with
  | nil =>
      obtain rfl : l = stream := by simpa using hcut
      rw [hl]
      exact Or.inl ⟨rfl, hcap⟩
  | cons chunk rest ih =>
      rw [List.flatten_cons, ← List.append_assoc] at hcut
      rw [feedAll_requestLine_eq hstate hl]
      cases hchunk : findCrlf (l ++ chunk) with
      | some n =>
          have hfind : findCrlf stream = some n := hcut ▸ find_append_of_some hchunk _
          have hlen := find_length hchunk
          rw [hfind]
          dsimp only
          by_cases htaken : n < l.length ∨ n ≤ kMaxRequestLineLength
          · rw [if_pos htaken]
            have htake : stream.take n = (l ++ chunk).take n := by
              rw [← hcut, List.take_append_of_le_length (by omega)]
            refine Or.inr ⟨?_, (l ++ chunk).drop (n + 2), rest, ?_, List.mem_cons_of_mem _, ?_⟩
            · rcases htaken with hlt | hle
              · rw [htake, List.take_append_of_le_length (Nat.le_of_lt hlt)]
                exact hcap.take n
              · exact onlyCrPastCap_of_le (Nat.le_trans (List.length_take_le _ _) hle)
            · rw [← hcut, List.drop_append_of_le_length hlen]
            · rw [htake]
          · rw [if_neg htaken]
            exact Or.inl ⟨rfl, by omega⟩
      | none =>
          dsimp only
          by_cases hover : chunk ≠ [cr] ∧ kMaxRequestLineLength < (l ++ chunk).length
          · rw [if_pos hover]
            cases hfind : findCrlf stream with
            | none =>
                refine Or.inr ⟨rfl, Nat.lt_of_lt_of_le hover.2 ?_⟩
                exact List.IsPrefix.length_le ⟨_, hcut⟩
            | some n =>
                have hlt := length_lt_of_find_append hchunk (hcut ▸ hfind)
                exact Or.inl ⟨rfl, by omega⟩
          · rw [if_neg hover]
            have hcap' : OnlyCrPastCap (l ++ chunk) := by
              by_cases hlone : chunk = [cr]
              · exact hlone ▸ hcap.append_cr
              · exact onlyCrPastCap_of_le (Nat.not_lt.mp fun hlt => hover ⟨hlone, hlt⟩)
            have hrest := ih hchunk hcap' hcut
            cases hfind : findCrlf stream with
            | none =>
                rw [hfind] at hrest
                exact hrest
            | some n =>
                rw [hfind] at hrest
                refine hrest.imp_right fun ⟨htake, left, rest', hleft, hmem, heq⟩ => ?_
                exact ⟨htake, left, rest', hleft, fun h => List.mem_cons_of_mem _ (hmem h), heq⟩

/-- What the chunks of a header line lead to. -/
theorem feedAll_headers_scan (hstate : p.state = .kHeaders)
    (hseen : p.headerBytesSeen ≤ kMaxHeaderBytes) (hl : findCrlf l = none)
    (hcap : p.headerBytesSeen + l.length ≤ kMaxHeaderBytes ∨ l = [cr])
    (hcut : l ++ chunks.flatten = stream) :
    match findCrlf stream with
    | none =>
      (p.withLine l).feedAll (k + l.length) chunks = .needMoreData ∧
          (p.headerBytesSeen + stream.length ≤ kMaxHeaderBytes ∨ stream = [cr]) ∨
        (p.withLine l).feedAll (k + l.length) chunks = .error 431 ∧
          kMaxHeaderBytes < p.headerBytesSeen + stream.length ∧ (stream = [cr] → [] ∈ chunks)
    | some n =>
      (p.withLine l).feedAll (k + l.length) chunks = .error 431 ∧
          kMaxHeaderBytes < p.headerBytesSeen + n + 2 ∧
            (n = 0 → p.headerBytesSeen = kMaxHeaderBytes ∧ [] ∈ chunks) ∨
        (n = 0 ∨ p.headerBytesSeen + n + 1 ≤ kMaxHeaderBytes) ∧
          ∃ left rest, left ++ rest.flatten = stream.drop (n + 2) ∧
            ([] ∈ rest → [] ∈ chunks) ∧ (p.withLine l).feedAll (k + l.length) chunks =
              afterLine (k + (n + 2)) left rest (p.takeHeaderLine (stream.take n)) := by
  induction chunks generalizing l with
  | nil =>
      obtain rfl : l = stream := by simpa using hcut
      rw [hl]
      exact Or.inl ⟨rfl, hcap⟩
  | cons chunk rest ih =>
      rw [List.flatten_cons, ← List.append_assoc] at hcut
      rw [feedAll_headers_eq hstate hl]
      cases hchunk : findCrlf (l ++ chunk) with
      | some n =>
          have hfind : findCrlf stream = some n := hcut ▸ find_append_of_some hchunk _
          have hlen := find_length hchunk
          rw [hfind]
          dsimp only
          by_cases htaken : n < l.length ∨ n = 0 ∨ p.headerBytesSeen + n + 2 ≤ kMaxHeaderBytes
          · rw [if_pos htaken]
            have htake : stream.take n = (l ++ chunk).take n := by
              rw [← hcut, List.take_append_of_le_length (by omega)]
            refine Or.inr ⟨?_, (l ++ chunk).drop (n + 2), rest, ?_, List.mem_cons_of_mem _, ?_⟩
            · rcases hcap with hle | rfl
              · omega
              · rw [List.length_singleton] at htaken
                omega
            · rw [← hcut, List.drop_append_of_le_length hlen]
            · rw [htake]
          · rw [if_neg htaken]
            exact Or.inl ⟨rfl, by omega, by omega⟩
      | none =>
          dsimp only
          by_cases hover : ¬ (l = [] ∧ (chunk = [] ∨ chunk = [cr])) ∧
              kMaxHeaderBytes < p.headerBytesSeen + (l ++ chunk).length
          · rw [if_pos hover]
            -- nothing but an empty chunk makes a lone CR too long
            have hgap : ∀ more, (l ++ chunk).length < 2 → stream = [cr] ++ more →
                [] ∈ chunk :: rest := by
              intro more hlt hstream
              have hlone : l ++ chunk = [cr] :=
                List.append_inj_left (hcut.trans hstream) (by rw [List.length_singleton]; omega)
              rcases List.append_eq_singleton_iff.mp hlone with ⟨hnil, hcr⟩ | ⟨-, hnil⟩
              · exact absurd ⟨hnil, Or.inr hcr⟩ hover.1
              · exact hnil ▸ List.mem_cons_self
            cases hfind : findCrlf stream with
            | none =>
                have hlen : (l ++ chunk).length ≤ stream.length := by
                  exact List.IsPrefix.length_le ⟨_, hcut⟩
                refine Or.inr ⟨rfl, by omega, fun hcr => hgap [] ?_ hcr⟩
                rw [hcr, List.length_singleton] at hlen
                omega
            | some n =>
                have hlt := length_lt_of_find_append hchunk (hcut ▸ hfind)
                refine Or.inl ⟨rfl, by omega, fun hzero => ?_⟩
                subst hzero
                exact ⟨by omega, hgap _ hlt (find_eq_some hfind).1⟩
          · rw [if_neg hover]
            have hcap' : p.headerBytesSeen + (l ++ chunk).length ≤ kMaxHeaderBytes ∨
                l ++ chunk = [cr] := by
              by_cases hlone : l = [] ∧ (chunk = [] ∨ chunk = [cr])
              · obtain ⟨rfl, rfl | rfl⟩ := hlone
                · exact Or.inl hseen
                · exact Or.inr rfl
              · exact Or.inl (Nat.not_lt.mp fun hlt => hover ⟨hlone, hlt⟩)
            have hrest := ih hchunk hcap' hcut
            cases hfind : findCrlf stream with
            | none =>
                rw [hfind] at hrest
                exact hrest.imp_right fun ⟨heq, hlt, hmem⟩ =>
                  ⟨heq, hlt, fun h => List.mem_cons_of_mem _ (hmem h)⟩
            | some n =>
                rw [hfind] at hrest
                refine hrest.imp (fun ⟨heq, hlt, hmem⟩ => ?_)
                  fun ⟨htake, left, rest', hleft, hmem, heq⟩ => ?_
                · exact ⟨heq, hlt, fun h => ⟨(hmem h).1, List.mem_cons_of_mem _ (hmem h).2⟩⟩
                · exact ⟨htake, left, rest', hleft, fun h => List.mem_cons_of_mem _ (hmem h), heq⟩

-- ============================================================================
-- The lines of the header section
-- ============================================================================

/-- The parser where a header line begins. -/
structure HeaderReady (p : HttpRequestParser) : Prop where
  state : p.state = .kHeaders
  line : p.lineBuffer = []
  seen : p.headerBytesSeen ≤ kMaxHeaderBytes

/-- How feeding goes on after a line that does not end the request. -/
def thenFeed (consumed : Nat) (chunks : List Bytes) : StepResult × HttpRequestParser → Outcome
  | (.kAdvanced, p) => p.feedAll consumed chunks
  | (_, p) => .error p.errorResponse.statusCode

theorem withLine_nil (h : p.lineBuffer = []) : p.withLine [] = p := by
  rw [← h, withLine_self]

/-- An empty chunk where a header line begins. -/
theorem feedAll_nil_chunk (h : p.HeaderReady) (rest : List Bytes) :
    p.feedAll k ([] :: rest) = p.feedAll k rest := by
  have heq := feedAll_headers_eq h.state (rfl : findCrlf [] = none) k [] rest
  have hempty : findCrlf ([] ++ []) = none := rfl
  have hcond : ¬ (¬ (([] : Bytes) = [] ∧ (([] : Bytes) = [] ∨ ([] : Bytes) = [cr])) ∧
      kMaxHeaderBytes < p.headerBytesSeen + (([] : Bytes) ++ []).length) :=
    fun hover => hover.1 ⟨rfl, Or.inl rfl⟩
  rw [hempty, withLine_nil h.line] at heq
  exact (heq.trans (if_neg hcond)).trans (by rw [List.append_nil, withLine_nil h.line]; rfl)

/-- What is left of the chunk is the next chunk, unless nothing is. -/
theorem afterLine_thenFeed (gaps : Bool) {left : Bytes} {rest : List Bytes}
    {x : StepResult × HttpRequestParser}
    (hx : x.1 = .kAdvanced → x.2.HeaderReady) (hleft : left ++ rest.flatten = stream)
    (hrest : [] ∈ rest → gaps = true) :
    ∃ chunks, Cut gaps stream chunks ∧ afterLine k left rest x = thenFeed k chunks x := by
  obtain ⟨r, q⟩ := x
  by_cases hnil : left = []
  · refine ⟨rest, ⟨by rw [← hleft, hnil, List.nil_append], hrest⟩, ?_⟩
    cases r with
    | kAdvanced =>
        have hready : q.HeaderReady := hx rfl
        simp only [afterLine, thenFeed, hready.state, hnil, reduceCtorEq, if_false]
        exact feedAll_nil_chunk hready rest
    | kNeedMoreData => rfl
    | kFailed => rfl
  · refine ⟨left :: rest, ⟨hleft, fun hmem => ?_⟩, ?_⟩
    · exact hrest ((List.mem_cons.mp hmem).resolve_left (Ne.symm hnil))
    · cases r with
      | kAdvanced =>
          have hready : q.HeaderReady := hx rfl
          simp only [afterLine, thenFeed, hready.state, reduceCtorEq, if_false]
      | kNeedMoreData => rfl
      | kFailed => rfl

theorem afterLine_nil {x : StepResult × HttpRequestParser}
    (hx : x.1 = .kAdvanced → x.2.HeaderReady) (rest : List Bytes) :
    afterLine k [] rest x = thenFeed k rest x := by
  obtain ⟨r, q⟩ := x
  cases r with
  | kAdvanced =>
      have hready : q.HeaderReady := hx rfl
      simp only [afterLine, thenFeed, hready.state, reduceCtorEq, if_false]
      exact feedAll_nil_chunk hready rest
  | kNeedMoreData => rfl
  | kFailed => rfl

/-- A header line within the cap leaves the parser at the next line. -/
theorem HeaderReady.takeHeaderLine (h : p.HeaderReady) {line : Bytes} (hne : line ≠ [])
    (hcap : p.headerBytesSeen + line.length + 2 ≤ kMaxHeaderBytes)
    (hadv : (p.takeHeaderLine line).1 = .kAdvanced) : (p.takeHeaderLine line).2.HeaderReady := by
  rcases htake : p.takeHeaderLine line with ⟨r, q⟩
  rw [htake] at hadv
  obtain ⟨hline, hfail | ⟨-, ⟨hnil, -⟩ | ⟨-, hstate, hseen⟩⟩⟩ := takeHeaderLine_state htake
  · exact absurd (hadv.symm.trans hfail) (by simp)
  · exact absurd hnil hne
  · refine ⟨hstate.trans h.state, hline, ?_⟩
    show q.headerBytesSeen ≤ kMaxHeaderBytes
    omega

theorem take_ne_nil (hn : 0 < n) (hfind : findCrlf stream = some n) : stream.take n ≠ [] := by
  have hlen := find_length hfind
  intro hnil
  have := congrArg List.length hnil
  rw [List.length_take, List.length_nil] at this
  omega

theorem length_take_crlf (hfind : findCrlf stream = some n) : (stream.take n).length = n := by
  have hlen := find_length hfind
  rw [List.length_take]
  omega

/-- A header line that is refused before its length is looked at. -/
def MalformedHeaderLine (line : Bytes) : Prop :=
  cr ∈ line ∨ lf ∈ line ∨
    ∀ n, findByte colon line = some (n + 1) →
      space ∈ line.take (n + 1) ∨ tab ∈ line.take (n + 1)

theorem takeHeaderLine_malformed {line : Bytes} (hne : line ≠ []) (h : MalformedHeaderLine line) :
    (p.takeHeaderLine line).1 = .kFailed ∧
      (p.takeHeaderLine line).2.errorResponse.statusCode = 400 := by
  unfold takeHeaderLine consumeHeaderLine
  rw [if_neg hne]
  split
  · exact ⟨rfl, rfl⟩
  · have hname := (h.resolve_left fun hcr => ‹¬ _› (Or.inl hcr)).resolve_left
      fun hlf => ‹¬ _› (Or.inr hlf)
    split
    · exact ⟨rfl, rfl⟩
    · exact ⟨rfl, rfl⟩
    · dsimp only
      rw [if_pos (hname _ ‹_›)]
      exact ⟨rfl, rfl⟩

/-- A well-formed line that goes past the cap. -/
theorem takeHeaderLine_over {line : Bytes} (hne : line ≠ []) (h : ¬ MalformedHeaderLine line)
    (hcap : kMaxHeaderBytes < p.headerBytesSeen + line.length + 2) :
    (p.takeHeaderLine line).1 = .kFailed ∧
      (p.takeHeaderLine line).2.errorResponse.statusCode = 431 := by
  unfold MalformedHeaderLine at h
  push Not at h
  obtain ⟨hcr, hlf, n, hcolon, hname⟩ := h
  unfold takeHeaderLine consumeHeaderLine
  rw [if_neg hne, if_neg (by simp [hcr, hlf]), hcolon]
  dsimp only
  rw [if_neg (by simp [hname]), addHeader, if_pos hcap]
  exact ⟨rfl, rfl⟩

theorem finishHeaders_status (p : HttpRequestParser) (h : p.finishHeaders.1 = .kFailed) :
    p.finishHeaders.2.errorResponse.statusCode ≠ 431 := by
  unfold finishHeaders at h ⊢
  repeat' split at h
  all_goals
    first
      | exact absurd h (by simp [startBody])
      | simp_all [failStep, makeErrorResponse]

/-- The empty line ends the header section. -/
theorem takeHeaderLine_blank {r : StepResult} {q : HttpRequestParser}
    (h : p.takeHeaderLine [] = (r, q)) :
    r = .kFailed ∧ p.finishHeaders.1 = .kFailed ∧
        q.errorResponse = p.finishHeaders.2.errorResponse ∨
      r = .kAdvanced ∧ (q.state = .kDone ∨ q.state = .kBody) := by
  obtain ⟨-, rfl | ⟨rfl, ⟨-, hstate⟩ | ⟨hne, -⟩⟩⟩ := takeHeaderLine_state h
  · exact Or.inl ⟨rfl, congrArg Prod.fst h, congrArg (fun x => x.2.errorResponse) h.symm⟩
  · exact Or.inr ⟨rfl, hstate⟩
  · exact absurd rfl hne

/-- What follows the empty line is the body, however it is cut. -/
theorem afterLine_blank (left : Bytes) (rest : List Bytes) :
    afterLine k left rest (p.takeHeaderLine []) =
      afterLine k (left ++ rest.flatten) [] (p.takeHeaderLine []) := by
  rcases h : p.takeHeaderLine [] with ⟨r, q⟩
  rcases takeHeaderLine_blank h with ⟨rfl, -, -⟩ | ⟨rfl, hdone | hbody⟩
  · rfl
  · simp only [afterLine, hdone, if_true]
  · simp only [afterLine, hbody, reduceCtorEq, if_false]
    rw [feedAll_body_flatten hbody left rest]

/-- After the empty line only the end of the header section can fail. -/
theorem afterLine_blank_error {left : Bytes} {c : Nat} :
    afterLine k left [] (p.takeHeaderLine []) = .error c ↔
      p.finishHeaders.1 = .kFailed ∧ p.finishHeaders.2.errorResponse.statusCode = c := by
  rcases h : p.takeHeaderLine [] with ⟨r, q⟩
  have hr : r = p.finishHeaders.1 := (congrArg Prod.fst h).symm
  rcases takeHeaderLine_blank h with ⟨rfl, hfail, hq⟩ | ⟨rfl, hstate⟩
  · refine ⟨fun heq => ⟨hfail, hq ▸ Outcome.error.inj heq⟩, fun ⟨_, hstatus⟩ => ?_⟩
    rw [← hstatus, ← hq]
    rfl
  · refine ⟨fun heq => absurd heq ?_, fun ⟨hfail, _⟩ => absurd (hr.trans hfail) (by simp)⟩
    rcases hstate with hdone | hbody
    · simp only [afterLine, hdone, if_true]
      exact fun heq => nomatch heq
    · simp only [afterLine, hbody, reduceCtorEq, if_false]
      rw [feedAll_body_eq hbody]
      split
      · exact fun heq => nomatch heq
      · exact fun heq => nomatch heq

theorem afterLine_blank_ne (left : Bytes) :
    afterLine k left [] (p.takeHeaderLine []) ≠ .error 431 := fun heq =>
  finishHeaders_status p (afterLine_blank_error.mp heq).1 (afterLine_blank_error.mp heq).2

-- ============================================================================
-- One header line of a stream, cut anyhow
-- ============================================================================

theorem headers_unfinished (h : p.HeaderReady) (hcut : Cut gaps stream chunks)
    (hfind : findCrlf stream = none) :
    p.feedAll k chunks = .needMoreData ∧
        (p.headerBytesSeen + stream.length ≤ kMaxHeaderBytes ∨ stream = [cr]) ∨
      p.feedAll k chunks = .error 431 ∧
        kMaxHeaderBytes < p.headerBytesSeen + stream.length ∧ (stream = [cr] → gaps = true) := by
  have hscan := feedAll_headers_scan (k := k) h.state h.seen (rfl : findCrlf [] = none)
    (Or.inl h.seen) (List.nil_append _ |>.trans hcut.1)
  rw [hfind, withLine_nil h.line] at hscan
  exact hscan.imp_right fun ⟨heq, hlt, hmem⟩ => ⟨heq, hlt, fun hcr => hcut.2 (hmem hcr)⟩

theorem headers_blank (h : p.HeaderReady) (hcut : Cut gaps stream chunks)
    (hfind : findCrlf stream = some 0) :
    p.feedAll k chunks = .error 431 ∧ p.headerBytesSeen = kMaxHeaderBytes ∧ gaps = true ∨
      p.feedAll k chunks = afterLine (k + 2) (stream.drop 2) [] (p.takeHeaderLine []) := by
  have hscan := feedAll_headers_scan (k := k) h.state h.seen (rfl : findCrlf [] = none)
    (Or.inl h.seen) (List.nil_append _ |>.trans hcut.1)
  rw [hfind, withLine_nil h.line] at hscan
  refine hscan.imp (fun ⟨heq, _, hzero⟩ => ?_) fun ⟨_, left, rest, hleft, _, heq⟩ => ?_
  · exact ⟨heq, (hzero rfl).1, hcut.2 (hzero rfl).2⟩
  · exact heq.trans (by rw [List.take_zero, afterLine_blank, hleft])

theorem headers_line (h : p.HeaderReady) (hcut : Cut gaps stream chunks)
    (hfind : findCrlf stream = some n) (hn : 0 < n) :
    p.feedAll k chunks = .error 431 ∧ kMaxHeaderBytes < p.headerBytesSeen + n + 2 ∨
      p.headerBytesSeen + n + 1 ≤ kMaxHeaderBytes ∧ ∃ rest, Cut gaps (stream.drop (n + 2)) rest ∧
        p.feedAll k chunks = thenFeed (k + (n + 2)) rest (p.takeHeaderLine (stream.take n)) := by
  have hscan := feedAll_headers_scan (k := k) h.state h.seen (rfl : findCrlf [] = none)
    (Or.inl h.seen) (List.nil_append _ |>.trans hcut.1)
  rw [hfind, withLine_nil h.line] at hscan
  refine hscan.imp (fun ⟨heq, hlt, _⟩ => ⟨heq, hlt⟩) fun ⟨hcap, left, rest, hleft, hmem, heq⟩ => ?_
  have hne := take_ne_nil hn hfind
  have hlen := length_take_crlf hfind
  have hle := hcap.resolve_left (Nat.ne_of_gt hn)
  refine ⟨hle, ?_⟩
  by_cases hfull : p.headerBytesSeen + n + 2 ≤ kMaxHeaderBytes
  · obtain ⟨rest', hcut', heq'⟩ := afterLine_thenFeed gaps (k := k + (n + 2))
      (x := p.takeHeaderLine (stream.take n)) (h.takeHeaderLine hne (by omega)) hleft
      fun hr => hcut.2 (hmem hr)
    exact ⟨rest', hcut', heq.trans heq'⟩
  · -- at the cap the line is refused, whatever it is
    have hfail : (p.takeHeaderLine (stream.take n)).1 = .kFailed := by
      by_cases hmal : MalformedHeaderLine (stream.take n)
      · exact (takeHeaderLine_malformed hne hmal).1
      · exact (takeHeaderLine_over hne hmal (by omega)).1
    obtain ⟨rest', hcut', heq'⟩ := afterLine_thenFeed gaps (k := k + (n + 2))
      (x := p.takeHeaderLine (stream.take n))
      (fun hadv => absurd (hadv.symm.trans hfail) (by simp)) hleft fun hr => hcut.2 (hmem hr)
    exact ⟨rest', hcut', heq.trans heq'⟩

/-- A line within the cap, as a chunk of its own. -/
theorem feedAll_headers_take (h : p.HeaderReady) (hfind : findCrlf stream = some n) (hn : 0 < n)
    (hcap : p.headerBytesSeen + n + 2 ≤ kMaxHeaderBytes) (rest : List Bytes) :
    p.feedAll k (stream.take (n + 2) :: rest) =
      thenFeed (k + (n + 2)) rest (p.takeHeaderLine (stream.take n)) := by
  have hlen := find_length hfind
  have heq := feedAll_headers_eq h.state (rfl : findCrlf [] = none) k (stream.take (n + 2)) rest
  rw [List.nil_append, withLine_nil h.line] at heq
  rw [show findCrlf (stream.take (n + 2)) = some n from find_take_add_two hfind] at heq
  have hdrop : (stream.take (n + 2)).drop (n + 2) = [] :=
    List.drop_eq_nil_of_le (List.length_take_le _ _)
  have htake : (stream.take (n + 2)).take n = stream.take n := by
    rw [List.take_take, Nat.min_eq_left (by omega)]
  refine (heq.trans (if_pos (Or.inr (Or.inr hcap)))).trans ?_
  rw [hdrop, htake]
  exact afterLine_nil (h.takeHeaderLine (take_ne_nil hn hfind)
    (by rw [length_take_crlf hfind]; exact hcap)) rest

/-- A line past the cap, with its terminator in one chunk. -/
theorem feedAll_headers_over (h : p.HeaderReady) (hfind : findCrlf stream = some n) (hn : 0 < n)
    (hcap : kMaxHeaderBytes < p.headerBytesSeen + n + 2) :
    p.feedAll k [stream] = .error 431 := by
  have heq := feedAll_headers_eq h.state (rfl : findCrlf [] = none) k stream []
  rw [List.nil_append, withLine_nil h.line, hfind] at heq
  refine heq.trans (if_neg ?_)
  rintro (hlt | hzero | hle)
  · exact absurd hlt (Nat.not_lt_zero _)
  · omega
  · omega

/-- A line whose CR is at the cap, with its terminator cut in two. -/
theorem feedAll_headers_cut (h : p.HeaderReady) (hfind : findCrlf stream = some n)
    (hcap : p.headerBytesSeen + n + 1 ≤ kMaxHeaderBytes)
    (hfail : (p.takeHeaderLine (stream.take n)).1 = .kFailed) :
    p.feedAll k [stream.take (n + 1), stream.drop (n + 1)] =
      .error (p.takeHeaderLine (stream.take n)).2.errorResponse.statusCode := by
  have hlen := find_length hfind
  have hfirst : (stream.take (n + 1)).length = n + 1 := by rw [List.length_take]; omega
  have heq := feedAll_headers_eq h.state (rfl : findCrlf [] = none) k (stream.take (n + 1))
    [stream.drop (n + 1)]
  rw [List.nil_append, withLine_nil h.line] at heq
  rw [show findCrlf (stream.take (n + 1)) = none from find_take hfind] at heq
  have hnext := feedAll_headers_eq h.state (find_take hfind) k (stream.drop (n + 1)) []
  rw [List.take_append_drop, hfind] at hnext
  refine (heq.trans (if_neg fun hover => ?_)).trans
    (hnext.trans ((if_pos (Or.inl (by omega))).trans ?_))
  · have := hover.2
    omega
  · rcases htake : p.takeHeaderLine (stream.take n) with ⟨r, q⟩
    rw [htake] at hfail
    obtain rfl : r = .kFailed := hfail
    rfl

-- ============================================================================
-- The header section
-- ============================================================================

/-- The header section does not depend on the chunks: no line is at the very cap
    and refused for two reasons, and the block does not fill the cap exactly where
    an empty chunk may come between the CR and the LF of the empty line. -/
inductive HeadersClear (gaps : Bool) : HttpRequestParser → Bytes → Prop
  | unfinished {p : HttpRequestParser} {stream : Bytes} (hfind : findCrlf stream = none)
      (hgap : gaps = true → p.headerBytesSeen = kMaxHeaderBytes → stream ≠ [cr]) :
      HeadersClear gaps p stream
  | blank {p : HttpRequestParser} {stream : Bytes} (hfind : findCrlf stream = some 0)
      (hgap : gaps = true → p.headerBytesSeen ≠ kMaxHeaderBytes) : HeadersClear gaps p stream
  | pastCap {p : HttpRequestParser} {stream : Bytes} {n : Nat}
      (hfind : findCrlf stream = some n) (hn : 0 < n)
      (hcap : kMaxHeaderBytes < p.headerBytesSeen + n + 2)
      (hexact : p.headerBytesSeen + n + 1 = kMaxHeaderBytes →
        ¬ MalformedHeaderLine (stream.take n)) : HeadersClear gaps p stream
  | refused {p : HttpRequestParser} {stream : Bytes} {n : Nat}
      (hfind : findCrlf stream = some n) (hn : 0 < n)
      (hcap : p.headerBytesSeen + n + 2 ≤ kMaxHeaderBytes)
      (hfail : (p.takeHeaderLine (stream.take n)).1 = .kFailed) : HeadersClear gaps p stream
  | line {p : HttpRequestParser} {stream : Bytes} {n : Nat}
      (hfind : findCrlf stream = some n) (hn : 0 < n)
      (hcap : p.headerBytesSeen + n + 2 ≤ kMaxHeaderBytes)
      (hadv : (p.takeHeaderLine (stream.take n)).1 = .kAdvanced)
      (hrest : HeadersClear gaps (p.takeHeaderLine (stream.take n)).2 (stream.drop (n + 2))) :
      HeadersClear gaps p stream

/-- A line of the header section, or its end, is refused with status 400. -/
inductive HeadersRefused (gaps : Bool) : HttpRequestParser → Bytes → Prop
  | blank {p : HttpRequestParser} {stream : Bytes} (hfind : findCrlf stream = some 0)
      (hgap : gaps = true → p.headerBytesSeen ≠ kMaxHeaderBytes)
      (hfail : p.finishHeaders.1 = .kFailed)
      (hstatus : p.finishHeaders.2.errorResponse.statusCode = 400) : HeadersRefused gaps p stream
  | refused {p : HttpRequestParser} {stream : Bytes} {n : Nat}
      (hfind : findCrlf stream = some n) (hn : 0 < n)
      (hcap : p.headerBytesSeen + n + 2 ≤ kMaxHeaderBytes)
      (hfail : (p.takeHeaderLine (stream.take n)).1 = .kFailed)
      (hstatus : (p.takeHeaderLine (stream.take n)).2.errorResponse.statusCode = 400) :
      HeadersRefused gaps p stream
  | line {p : HttpRequestParser} {stream : Bytes} {n : Nat}
      (hfind : findCrlf stream = some n) (hn : 0 < n)
      (hcap : p.headerBytesSeen + n + 2 ≤ kMaxHeaderBytes)
      (hadv : (p.takeHeaderLine (stream.take n)).1 = .kAdvanced)
      (hrest : HeadersRefused gaps (p.takeHeaderLine (stream.take n)).2 (stream.drop (n + 2))) :
      HeadersRefused gaps p stream

theorem thenFeed_failed {x : StepResult × HttpRequestParser} (h : x.1 = .kFailed)
    (rest : List Bytes) : thenFeed k rest x = .error x.2.errorResponse.statusCode := by
  obtain ⟨r, q⟩ := x
  obtain rfl : r = .kFailed := h
  rfl

theorem thenFeed_advanced {x : StepResult × HttpRequestParser} (h : x.1 = .kAdvanced)
    (rest : List Bytes) : thenFeed k rest x = x.2.feedAll k rest := by
  obtain ⟨r, q⟩ := x
  obtain rfl : r = .kAdvanced := h
  rfl

theorem takeHeaderLine_result (p : HttpRequestParser) (line : Bytes) :
    (p.takeHeaderLine line).1 = .kFailed ∨ (p.takeHeaderLine line).1 = .kAdvanced := by
  have hne := takeHeaderLine_ne p line
  cases h : (p.takeHeaderLine line).1 with
  | kNeedMoreData => exact absurd h hne
  | kAdvanced => exact Or.inr rfl
  | kFailed => exact Or.inl rfl

/-- A clear header section has one outcome. -/
theorem HeadersClear.outcome (h : HeadersClear gaps p stream) (hp : p.HeaderReady) (k : Nat) :
    ∃ o, ∀ chunks, Cut gaps stream chunks → p.feedAll k chunks = o := by
  induction h generalizing k with
  | @unfinished p stream hfind hgap =>
      by_cases hover : kMaxHeaderBytes < p.headerBytesSeen + stream.length ∧ stream ≠ [cr]
      · refine ⟨.error 431, fun chunks hcut => ?_⟩
        rcases headers_unfinished (k := k) hp hcut hfind with ⟨-, hle | hcr⟩ | ⟨heq, -⟩
        · exact absurd hover.1 (Nat.not_lt.mpr hle)
        · exact absurd hcr hover.2
        · exact heq
      · refine ⟨.needMoreData, fun chunks hcut => ?_⟩
        rcases headers_unfinished (k := k) hp hcut hfind with ⟨heq, -⟩ | ⟨-, hlt, hcr⟩
        · exact heq
        · have hlone : stream = [cr] := by
            by_contra hne
            exact hover ⟨hlt, hne⟩
          have hseen := hp.seen
          rw [hlone, List.length_singleton] at hlt
          exact absurd hlone (hgap (hcr hlone) (by omega))
  | @blank p stream hfind hgap =>
      refine ⟨afterLine (k + 2) (stream.drop 2) [] (p.takeHeaderLine []), fun chunks hcut => ?_⟩
      rcases headers_blank (k := k) hp hcut hfind with ⟨-, hseen, hg⟩ | heq
      · exact absurd hseen (hgap hg)
      · exact heq
  | @pastCap p stream n hfind hn hcap hexact =>
      refine ⟨.error 431, fun chunks hcut => ?_⟩
      rcases headers_line (k := k) hp hcut hfind hn with ⟨heq, -⟩ | ⟨hle, rest, -, heq⟩
      · exact heq
      · have hlen := length_take_crlf hfind
        obtain ⟨hfail, hstatus⟩ := takeHeaderLine_over (p := p) (take_ne_nil hn hfind)
          (hexact (by omega)) (by rw [hlen]; exact hcap)
        rw [heq, thenFeed_failed hfail, hstatus]
  | @refused p stream n hfind hn hcap hfail =>
      refine ⟨.error (p.takeHeaderLine (stream.take n)).2.errorResponse.statusCode,
        fun chunks hcut => ?_⟩
      rcases headers_line (k := k) hp hcut hfind hn with ⟨-, hlt⟩ | ⟨-, rest, -, heq⟩
      · omega
      · rw [heq, thenFeed_failed hfail]
  | @line p stream n hfind hn hcap hadv _ ih =>
      have hnext := hp.takeHeaderLine (take_ne_nil hn hfind)
        (by rw [length_take_crlf hfind]; exact hcap) hadv
      obtain ⟨o, ho⟩ := ih hnext (k + (n + 2))
      refine ⟨o, fun chunks hcut => ?_⟩
      rcases headers_line (k := k) hp hcut hfind hn with ⟨-, hlt⟩ | ⟨-, rest, hcut', heq⟩
      · omega
      · rw [heq, thenFeed_advanced hadv, ho rest hcut']

theorem HeadersRefused.outcome (h : HeadersRefused gaps p stream) (hp : p.HeaderReady) (k : Nat)
    (hcut : Cut gaps stream chunks) : p.feedAll k chunks = .error 400 := by
  induction h generalizing k chunks with
  | @blank p stream hfind hgap hfail hstatus =>
      rcases headers_blank (k := k) hp hcut hfind with ⟨-, hseen, hg⟩ | heq
      · exact absurd hseen (hgap hg)
      · exact heq.trans (afterLine_blank_error.mpr ⟨hfail, hstatus⟩)
  | @refused p stream n hfind hn hcap hfail hstatus =>
      rcases headers_line (k := k) hp hcut hfind hn with ⟨-, hlt⟩ | ⟨-, rest, -, heq⟩
      · omega
      · rw [heq, thenFeed_failed hfail, hstatus]
  | @line p stream n hfind hn hcap hadv _ ih =>
      have hnext := hp.takeHeaderLine (take_ne_nil hn hfind)
        (by rw [length_take_crlf hfind]; exact hcap) hadv
      rcases headers_line (k := k) hp hcut hfind hn with ⟨-, hlt⟩ | ⟨-, rest, hcut', heq⟩
      · omega
      · rw [heq, thenFeed_advanced hadv]
        exact ih hnext _ hcut'

theorem exists_cut (gaps : Bool) (stream : Bytes) : ∃ chunks, Cut gaps stream chunks := by
  by_cases h : stream = []
  · exact ⟨[], h.symm, fun hmem => absurd hmem (List.not_mem_nil)⟩
  · exact ⟨[stream], cut_whole gaps h⟩

theorem feedAll_lone_cr (h : p.HeaderReady) (rest : List Bytes) :
    p.feedAll k ([cr] :: rest) = (p.withLine [cr]).feedAll (k + 1) rest := by
  have hcr : findCrlf [cr] = none := rfl
  have heq := feedAll_headers_eq h.state (rfl : findCrlf [] = none) k [cr] rest
  rw [List.nil_append, withLine_nil h.line, hcr] at heq
  exact heq.trans (if_neg fun hover => hover.1 ⟨rfl, Or.inr rfl⟩)

/-- An empty chunk after a lone CR, where the block is full. -/
theorem feedAll_headers_gap (h : p.HeaderReady) (hseen : p.headerBytesSeen = kMaxHeaderBytes)
    (rest : List Bytes) : p.feedAll k ([cr] :: [] :: rest) = .error 431 := by
  have hcr : findCrlf [cr] = none := rfl
  have hnext := feedAll_headers_eq h.state hcr k [] rest
  rw [List.append_nil, hcr] at hnext
  refine (feedAll_lone_cr h _).trans
    (hnext.trans (if_pos ⟨fun hnil => absurd hnil.1 (by simp), ?_⟩))
  rw [hseen]
  exact Nat.lt_succ_self _

theorem cut_gap (hfind : findCrlf stream = some 0) (hgap : gaps = true) :
    Cut gaps stream [[cr], [], stream.drop 1] := by
  have hstream : stream.take 1 = [cr] := congrArg (List.take 1) (find_eq_some hfind).1
  have hflat : [cr] ++ stream.drop 1 = stream := hstream ▸ List.take_append_drop 1 stream
  exact ⟨by simpa using hflat, fun _ => hgap⟩

/-- The chunk lists of a stream after a line that is taken. -/
theorem feedAll_headers_rest (h : p.HeaderReady) (hfind : findCrlf stream = some n) (hn : 0 < n)
    (hcap : p.headerBytesSeen + n + 2 ≤ kMaxHeaderBytes)
    (hadv : (p.takeHeaderLine (stream.take n)).1 = .kAdvanced) {rest : List Bytes}
    (hcut : Cut gaps (stream.drop (n + 2)) rest) :
    ∃ chunks, Cut gaps stream chunks ∧
      p.feedAll k chunks = (p.takeHeaderLine (stream.take n)).2.feedAll (k + (n + 2)) rest :=
  ⟨_, cut_prepend (Nat.succ_pos _) (find_length hfind) hcut,
    (feedAll_headers_take h hfind hn hcap rest).trans (thenFeed_advanced hadv rest)⟩

/-- Where all chunk lists agree, the header section is clear. -/
theorem HeadersClear.of_agree (hp : p.HeaderReady)
    (h : ∀ chunks chunks', Cut gaps stream chunks → Cut gaps stream chunks' →
      p.feedAll k chunks = p.feedAll k chunks') : HeadersClear gaps p stream := by
  induction hlen : stream.length using Nat.strongRecOn generalizing p stream k with
  | ind m ih =>
      cases hfind : findCrlf stream with
      | none =>
          refine .unfinished hfind fun hgap hseen hlone => ?_
          have heq := h [[cr]] [[cr], []] ⟨hlone.symm, fun _ => hgap⟩ ⟨hlone.symm, fun _ => hgap⟩
          rw [feedAll_headers_gap hp hseen, feedAll_lone_cr hp] at heq
          exact nomatch heq
      | some n =>
          have hne : stream ≠ [] := fun hnil => by simp [hnil, findCrlf] at hfind
          have hwhole := cut_whole gaps hne
          by_cases hn : 0 < n
          · by_cases hcap : p.headerBytesSeen + n + 2 ≤ kMaxHeaderBytes
            · rcases takeHeaderLine_result p (stream.take n) with hfail | hadv
              · exact .refused hfind hn hcap hfail
              · have hnext := hp.takeHeaderLine (take_ne_nil hn hfind)
                  (by rw [length_take_crlf hfind]; exact hcap) hadv
                have hshort := drop_lt_of_crlf hfind
                refine .line hfind hn hcap hadv
                  (ih _ (hlen ▸ hshort) hnext (k := k + (n + 2)) ?_ rfl)
                intro rest rest' hcut hcut'
                obtain ⟨chunks, hchunks, heq⟩ :=
                  feedAll_headers_rest (k := k) hp hfind hn hcap hadv hcut
                obtain ⟨chunks', hchunks', heq'⟩ :=
                  feedAll_headers_rest (k := k) hp hfind hn hcap hadv hcut'
                rw [← heq, ← heq']
                exact h _ _ hchunks hchunks'
            · refine .pastCap hfind hn (Nat.not_le.mp hcap) fun hexact hmal => ?_
              obtain ⟨hfail, hstatus⟩ :=
                takeHeaderLine_malformed (p := p) (take_ne_nil hn hfind) hmal
              have hlen' := find_length hfind
              have hdrop : stream.drop (n + 1) ≠ [] := fun hnil => by
                have := List.drop_eq_nil_iff.mp hnil
                omega
              have heq := h _ _ hwhole
                (cut_prepend (Nat.succ_pos n) (by omega) (cut_whole gaps hdrop))
              rw [feedAll_headers_over hp hfind hn (Nat.not_le.mp hcap),
                feedAll_headers_cut hp hfind (Nat.le_of_eq hexact) hfail, hstatus] at heq
              exact absurd (Outcome.error.inj heq) (by decide)
          · obtain rfl : n = 0 := by omega
            refine .blank hfind fun hgap hseen => ?_
            have heq := h _ _ (cut_gap hfind hgap) hwhole
            rw [feedAll_headers_gap hp hseen] at heq
            rcases headers_blank (k := k) hp (cut_whole false hne) hfind with ⟨-, -, hg⟩ | hblank
            · exact absurd hg (by simp)
            · exact afterLine_blank_ne _ (heq.trans hblank).symm

/-- Where all chunk lists end with status 400, something is refused with it. -/
theorem HeadersRefused.of_outcome (hp : p.HeaderReady)
    (h : ∀ chunks, Cut gaps stream chunks → p.feedAll k chunks = .error 400) :
    HeadersRefused gaps p stream := by
  induction hlen : stream.length using Nat.strongRecOn generalizing p stream k with
  | ind m ih =>
      cases hfind : findCrlf stream with
      | none =>
          obtain ⟨chunks, hcut⟩ := exists_cut gaps stream
          rcases headers_unfinished (k := k) hp hcut hfind with ⟨heq, -⟩ | ⟨heq, -⟩
          · exact nomatch (h chunks hcut).symm.trans heq
          · exact absurd (Outcome.error.inj ((h chunks hcut).symm.trans heq)) (by decide)
      | some n =>
          have hne : stream ≠ [] := fun hnil => by simp [hnil, findCrlf] at hfind
          have hwhole := h _ (cut_whole gaps hne)
          by_cases hn : 0 < n
          · by_cases hcap : p.headerBytesSeen + n + 2 ≤ kMaxHeaderBytes
            · rcases takeHeaderLine_result p (stream.take n) with hfail | hadv
              · rcases headers_line (k := k) hp (cut_whole gaps hne) hfind hn with
                  ⟨-, hlt⟩ | ⟨-, rest, -, heq⟩
                · omega
                · rw [thenFeed_failed hfail] at heq
                  exact .refused hfind hn hcap hfail
                    (Outcome.error.inj (heq.symm.trans hwhole))
              · have hnext := hp.takeHeaderLine (take_ne_nil hn hfind)
                  (by rw [length_take_crlf hfind]; exact hcap) hadv
                have hshort := drop_lt_of_crlf hfind
                refine .line hfind hn hcap hadv
                  (ih _ (hlen ▸ hshort) hnext (k := k + (n + 2)) (fun rest hcut => ?_) rfl)
                obtain ⟨chunks, hchunks, heq⟩ :=
                  feedAll_headers_rest (k := k) hp hfind hn hcap hadv hcut
                rw [← heq]
                exact h chunks hchunks
            · rw [feedAll_headers_over hp hfind hn (Nat.not_le.mp hcap)] at hwhole
              exact absurd (Outcome.error.inj hwhole) (by decide)
          · obtain rfl : n = 0 := by omega
            rcases headers_blank (k := k) hp (cut_whole false hne) hfind with ⟨-, -, hg⟩ | hblank
            · exact absurd hg (by simp)
            · obtain ⟨hfail, hstatus⟩ := afterLine_blank_error.mp (hblank.symm.trans hwhole)
              refine .blank hfind (fun hgap hseen => ?_) hfail hstatus
              have hgapped := h [[cr], [], stream.drop 1] (cut_gap hfind hgap)
              rw [feedAll_headers_gap hp hseen] at hgapped
              exact absurd (Outcome.error.inj hgapped) (by decide)

end PassionProjects.Arcserve.Protocol.HttpRequestParser
