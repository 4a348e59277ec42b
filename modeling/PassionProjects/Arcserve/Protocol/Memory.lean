/-
  PassionProjects.Arcserve.Protocol.Memory

  What the parser holds, and how much of it.

  `Parsed` is about the request so far and is kept by every turn.  `Buffered` is about
  the unfinished line, and is kept unless a lone CR comes for a request line that is
  past its cap: each lone CR passes the cap, also one that follows another.
-/

import Mathlib.Data.List.Induction
import PassionProjects.Arcserve.Protocol.HeaderLines
import PassionProjects.Arcserve.Protocol.Turns

namespace PassionProjects.Arcserve.Protocol.HttpRequestParser

open PassionProjects.Terminator

variable {p p' : HttpRequestParser} {data left line : Bytes} {r : StepResult}

-- ============================================================================
-- The request so far
-- ============================================================================

/-- Every header comes from a header line, and nothing is over its cap. -/
structure Parsed (p : HttpRequestParser) : Prop where
  admits : p.Admits [] 0
  lines : ∀ header ∈ p.request.headers, ∃ line, HeaderLine header line
  body : p.request.body.length ≤ kMaxBodyBytes
  declared : p.state = .kBody → p.contentLength.getD 0 ≤ kMaxBodyBytes

theorem parsed_fresh : Parsed {} where
  admits := ⟨Nat.zero_le _, Nat.zero_le _, Nat.zero_le _⟩
  lines header hmem := absurd hmem List.not_mem_nil
  body := Nat.zero_le _
  declared h := absurd h (by decide)

/-- The request line only sets method, target and version. -/
theorem takeRequestLine_keeps (h : p.takeRequestLine line = (.kAdvanced, p')) :
    p'.request.headers = p.request.headers ∧ p'.request.body = p.request.body := by
  unfold takeRequestLine clearLine finishRequestLine at h
  split at h
  · exact absurd h (by simp [failStep])
  · dsimp only at h
    split at h
    · exact absurd h (by simp [failStep])
    · unfold acceptRequestLine at h
      repeat' split at h
      all_goals
        obtain ⟨-, rfl⟩ := Prod.mk.inj h
        exact ⟨rfl, rfl⟩

/-- The empty line starts a body that is not too long. -/
theorem takeHeaderLine_nil_advanced (h : p.takeHeaderLine [] = (.kAdvanced, p')) :
    ∃ length, length ≤ kMaxBodyBytes ∧ p' = (clearLine (p.startBody length)).2 := by
  have hfinish : clearLine p.finishHeaders = (.kAdvanced, p') := h
  unfold finishHeaders at hfinish
  split at hfinish
  · split at hfinish
    · exact absurd hfinish (by simp [clearLine, failStep])
    · split at hfinish
      · exact absurd hfinish (by simp [clearLine, failStep])
      · exact ⟨_, Nat.not_lt.mp ‹_›, (congrArg Prod.snd hfinish).symm⟩
  · split at hfinish
    · exact absurd hfinish (by simp [clearLine, failStep])
    · exact ⟨0, Nat.zero_le _, (congrArg Prod.snd hfinish).symm⟩

/-- A header line that was taken: the end of the section, or one more header. -/
theorem takeHeaderLine_cases (hone : (contentLengths p.request.headers).length ≤ 1)
    (h : p.takeHeaderLine line = (.kAdvanced, p')) :
    (∃ length, length ≤ kMaxBodyBytes ∧ p' = (clearLine (p.startBody length)).2) ∨
      ∃ header, HeaderLine header line ∧ p.Admits [header] (line.length + 2) ∧
        p' = p.withHeaders [header] (line.length + 2) := by
  by_cases hne : line = []
  · subst hne
    exact Or.inl (takeHeaderLine_nil_advanced h)
  · exact Or.inr ((takeHeaderLine_eq_advanced hone hne).mp h)

theorem Parsed.once (h : p.Parsed) : (contentLengths p.request.headers).length ≤ 1 := by
  have honce := h.admits.once
  rwa [List.append_nil] at honce

theorem Parsed.withHeaders (h : p.Parsed) (hstate : p.state = .kHeaders) {header : Bytes × Bytes}
    (hheader : HeaderLine header line) (hadmits : p.Admits [header] (line.length + 2)) :
    (p.withHeaders [header] (line.length + 2)).Parsed where
  admits := by
    refine ⟨hadmits.bytes, ?_, ?_⟩
    · show (p.request.headers ++ [header]).length + 0 ≤ _
      rw [List.length_append]
      exact hadmits.count
    · show (contentLengths (p.request.headers ++ [header] ++ [])).length ≤ 1
      rw [List.append_nil]
      exact hadmits.once
  lines other hmem := by
    rcases List.mem_append.mp hmem with hmem | hmem
    · exact h.lines other hmem
    · exact ⟨line, List.mem_singleton.mp hmem ▸ hheader⟩
  body := h.body
  declared hbody := absurd (hstate.symm.trans hbody) (by decide)

theorem Parsed.startBody (h : p.Parsed) {length : Nat} (hlength : length ≤ kMaxBodyBytes) :
    (clearLine (p.startBody length)).2.Parsed :=
  ⟨⟨h.admits.bytes, h.admits.count, h.admits.once⟩, h.lines, Nat.zero_le _, fun _ => hlength⟩

/-- The body takes what is missing, and no more. -/
theorem parseBody_turn (h : p.parseBody data = (r, p', left)) :
    ∃ state, p' = { p with
      state, request := { p.request with body := p.request.body ++ data.take p.bodyLeft } } ∧
      (state = p.state ∨ state = .kDone) := by
  have htake : data.take (min (p.contentLength.getD 0 - p.request.body.length) data.length) =
      data.take p.bodyLeft := by
    rw [← bodyLeft]
    by_cases hle : p.bodyLeft ≤ data.length
    · rw [Nat.min_eq_left hle]
    · rw [Nat.min_eq_right (by omega), List.take_length, List.take_of_length_le (by omega)]
  unfold parseBody at h
  dsimp only at h
  rw [htake] at h
  split at h
  · exact ⟨p.state, (Prod.mk.inj (Prod.mk.inj h).2).1.symm, Or.inl rfl⟩
  · exact ⟨.kDone, (Prod.mk.inj (Prod.mk.inj h).2).1.symm, Or.inr rfl⟩

theorem parsed_turn : TurnKeeps fun p _ => p.Parsed := by
  intro p p' data left r hp h hr
  unfold turn at h
  split at h
  · rcases parseRequestLine_turn h hr with ⟨-, -, rfl, -⟩ | ⟨line, htake⟩
    · exact ⟨⟨hp.admits.bytes, hp.admits.count, hp.admits.once⟩, hp.lines, hp.body,
        hp.declared⟩
    · obtain ⟨hheaders, hbody⟩ := takeRequestLine_keeps htake
      obtain ⟨-, ⟨-, hstate, hseen⟩ | hfail⟩ := takeRequestLine_state htake
      · refine ⟨⟨?_, hheaders ▸ hp.admits.count, hheaders ▸ hp.admits.once⟩, hheaders ▸ hp.lines,
          hbody ▸ hp.body, fun hbody => absurd (hstate.symm.trans hbody) (by decide)⟩
        rw [hseen]
        exact Nat.zero_le _
      · exact absurd hfail (by simp)
  · rcases parseHeaderLine_turn h hr with ⟨-, -, rfl, -⟩ | ⟨line, htake⟩
    · exact ⟨⟨hp.admits.bytes, hp.admits.count, hp.admits.once⟩, hp.lines, hp.body,
        hp.declared⟩
    · rcases takeHeaderLine_cases hp.once htake with ⟨length, hlength, rfl⟩ |
        ⟨header, hheader, hadmits, rfl⟩
      · exact hp.startBody hlength
      · exact hp.withHeaders ‹_› hheader hadmits
  · obtain ⟨state, rfl, hstate⟩ := parseBody_turn h
    have hdeclared := hp.declared ‹_›
    have hbody := hp.body
    refine ⟨⟨hp.admits.bytes, hp.admits.count, hp.admits.once⟩, hp.lines, ?_, fun _ => hdeclared⟩
    show (p.request.body ++ data.take p.bodyLeft).length ≤ kMaxBodyBytes
    rw [List.length_append, List.length_take]
    unfold bodyLeft
    omega
  · obtain ⟨-, rfl, -⟩ := by simpa using h
    exact hp

/-- The parser that completes a request holds what its lines said. -/
theorem parsed_of_complete {chunks : List Bytes} {request : HttpRequest} {n : Nat}
    (h : feedAll {} 0 chunks = .complete request n) :
    ∃ q : HttpRequestParser, q.Parsed ∧ q.request = request :=
  feedAll_keeps parsed_turn parsed_fresh h

-- ============================================================================
-- The unfinished line
-- ============================================================================

/-- A lone CR for a request line that is past its cap. -/
def LoneCrPastCap (p : HttpRequestParser) (data : Bytes) : Prop :=
  p.state = .kRequestLine ∧ data = [cr] ∧ kMaxRequestLineLength < p.lineBuffer.length

/-- The bounds on what is held between two calls of `feed`. -/
structure Bounded (p : HttpRequestParser) : Prop where
  requestLine : p.state = .kRequestLine → p.lineBuffer.length ≤ kMaxRequestLineLength + 1
  headers : p.state = .kHeaders → p.headerBytesSeen + p.lineBuffer.length ≤ kMaxHeaderBytes + 1
  count : p.request.headers.length ≤ kMaxHeaderCount
  body : p.request.body.length ≤ kMaxBodyBytes

structure Buffered (p : HttpRequestParser) : Prop where
  requestLine : p.state = .kRequestLine → p.lineBuffer.length ≤ kMaxRequestLineLength + 1
  headers : p.state = .kHeaders → p.headerBytesSeen + p.lineBuffer.length ≤ kMaxHeaderBytes + 1

theorem Parsed.bounded (h : p.Parsed) (hline : p.Buffered) : p.Bounded :=
  ⟨hline.requestLine, hline.headers, h.admits.count, h.body⟩

theorem Buffered.of_line (hstate : p.state ≠ .kRequestLine) (hline : p.lineBuffer = [])
    (hseen : p.headerBytesSeen ≤ kMaxHeaderBytes) : p.Buffered :=
  ⟨fun h => absurd h hstate, fun _ => by rw [hline, List.length_nil]; omega⟩

theorem buffered_turn :
    TurnKeeps fun p data => p.Parsed ∧ p.Buffered ∧ ¬ p.LoneCrPastCap data := by
  intro p p' data left r ⟨hp, hline, hcr⟩ h hr
  have hp' : p'.Parsed := parsed_turn hp h hr
  refine ⟨hp', ?_⟩
  unfold turn at h
  split at h
  · rename_i hstate
    rcases parseRequestLine_turn h hr with ⟨-, rfl, rfl, hroom⟩ | ⟨line, htake⟩
    · refine ⟨⟨fun _ => ?_, fun hheaders => absurd (hstate.symm.trans hheaders) (by decide)⟩,
        fun hlone => absurd hlone.2.1 (by simp)⟩
      show (p.lineBuffer ++ data).length ≤ _
      rw [List.length_append]
      rcases hroom with rfl | hroom
      · have hle : p.lineBuffer.length ≤ kMaxRequestLineLength :=
          Nat.not_lt.mp fun hlt => hcr ⟨hstate, rfl, hlt⟩
        rw [List.length_singleton]
        omega
      · omega
    · obtain ⟨hnil, ⟨-, hstate', -⟩ | hfail⟩ := takeRequestLine_state htake
      · have hne : p'.state ≠ .kRequestLine := by rw [hstate']; decide
        exact ⟨.of_line hne hnil hp'.admits.bytes, fun hlone => hne hlone.1⟩
      · exact absurd hfail (by simp)
  · rename_i hstate
    have hne : p.state ≠ .kRequestLine := by rw [hstate]; decide
    rcases parseHeaderLine_turn h hr with ⟨-, rfl, rfl, hroom⟩ | ⟨line, htake⟩
    · refine ⟨⟨fun hrequest => absurd hrequest hne, fun _ => ?_⟩, fun hlone => hne hlone.1⟩
      show p.headerBytesSeen + (p.lineBuffer ++ data).length ≤ _
      have hseen := hp.admits.bytes
      rw [List.length_append]
      rcases hroom with ⟨hnil, rfl | rfl⟩ | hroom
      · rw [hnil, List.length_nil]
        omega
      · rw [hnil, List.length_nil, List.length_singleton]
        omega
      · omega
    · obtain ⟨hnil, hfail | ⟨-, hnext⟩⟩ := takeHeaderLine_state htake
      · exact absurd hfail (by simp)
      · have hne' : p'.state ≠ .kRequestLine := by
          rcases hnext with ⟨-, hdone | hbody⟩ | ⟨-, hsame, -⟩
          · rw [hdone]; decide
          · rw [hbody]; decide
          · rw [hsame]; exact hne
        exact ⟨.of_line hne' hnil hp'.admits.bytes, fun hlone => hne' hlone.1⟩
  · obtain ⟨state, rfl, hstate⟩ := parseBody_turn h
    have hne : state ≠ .kRequestLine ∧ state ≠ .kHeaders := by
      rcases hstate with rfl | rfl
      · rw [‹p.state = _›]; decide
      · decide
    exact ⟨⟨fun h => absurd h hne.1, fun h => absurd h hne.2⟩, fun hlone => hne.1 hlone.1⟩
  · obtain ⟨-, rfl, rfl⟩ := by simpa using h
    exact ⟨hline, hcr⟩

-- ============================================================================
-- Runs of feed
-- ============================================================================

/-- The parser after chunks that all needed more data. -/
def waits (p : HttpRequestParser) : List Bytes → Option HttpRequestParser
  | [] => some p
  | chunk :: rest =>
    match p.feed chunk with
    | (.kNeedMoreData, p, _) => p.waits rest
    | _ => none

theorem waits_append (p : HttpRequestParser) (chunks more : List Bytes) :
    p.waits (chunks ++ more) = (p.waits chunks).bind fun q => q.waits more := by
  induction chunks generalizing p with
  | nil => rfl
  | cons chunk rest ih =>
      rw [List.cons_append, waits, waits]
      rcases p.feed chunk with ⟨s, q, left⟩
      cases s with
      | kNeedMoreData => exact ih q
      | kComplete => rfl
      | kError => rfl

theorem waits_concat {chunks : List Bytes} {chunk : Bytes} {q : HttpRequestParser} :
    p.waits (chunks ++ [chunk]) = some q ↔
      ∃ before left, p.waits chunks = some before ∧
        before.feed chunk = (.kNeedMoreData, q, left) := by
  rw [waits_append, Option.bind_eq_some_iff]
  refine exists_congr fun before => ?_
  rw [waits]
  rcases before.feed chunk with ⟨s, q', left⟩
  cases s with
  | kNeedMoreData => simp [waits]
  | kComplete => simp
  | kError => simp

/-- A lone CR is buffered whatever the length of the request line. -/
theorem feed_lone_cr (hstate : p.state = .kRequestLine) :
    p.feed [cr] = (.kNeedMoreData, p.withLine (p.lineBuffer ++ [cr]), []) := by
  have hsplit : p.terminatorSplit [cr] = false := by
    unfold terminatorSplit
    rw [show (([cr] : Bytes).head? == some lf) = false from rfl, Bool.and_false]
  have hturn : p.dispatch [cr] = (.kNeedMoreData, p.withLine (p.lineBuffer ++ [cr]), []) := by
    rw [dispatch, hstate]
    show p.parseRequestLine [cr] = _
    unfold parseRequestLine
    rw [hsplit, if_neg Bool.false_ne_true]
    exact if_neg fun hover => hover.1 rfl
  rw [feed, feedLoop, hturn]

/-- A request line without its end is buffered. -/
theorem feed_unfinished (hnone : findCrlf line = none)
    (hlen : line.length ≤ kMaxRequestLineLength) :
    feed {} line = (.kNeedMoreData, withLine {} line, []) := by
  have hturn := parseRequestLine_eq (p := {}) (rfl : findCrlf [] = none) line
  rw [List.nil_append, hnone] at hturn
  have hdispatch : dispatch {} line = (.kNeedMoreData, withLine {} line, []) :=
    hturn.trans (if_neg fun hover => Nat.not_lt.mpr hlen hover.2)
  rw [feed, feedLoop, hdispatch]

variable {chunks : List Bytes}

/-- What is held while no lone CR comes past the cap.  The induction is on the calls. -/
theorem waits_held (h : waits {} chunks = some p)
    (hcr : ∀ before chunk q, before ++ [chunk] <+: chunks → waits {} before = some q →
      ¬ q.LoneCrPastCap chunk) : p.Parsed ∧ p.Buffered := by
  induction chunks using List.reverseRecOn generalizing p with
  | nil =>
      obtain rfl := Option.some.inj h
      exact ⟨parsed_fresh, fun _ => Nat.zero_le _, fun hheaders => absurd hheaders (by decide)⟩
  | append_singleton before chunk ih =>
      obtain ⟨q, left, hbefore, hfeed⟩ := waits_concat.mp h
      obtain ⟨hparsed, hbuffered⟩ := ih hbefore fun b c q' hpre =>
        hcr b c q' (hpre.trans (List.prefix_append _ _))
      have hlone := hcr before chunk q List.prefix_rfl hbefore
      obtain ⟨hparsed', hbuffered', -⟩ :=
        feed_keeps buffered_turn ⟨hparsed, hbuffered, hlone⟩ hfeed (by simp)
      exact ⟨hparsed', hbuffered'⟩

/-- The parser keeps its bounds exactly as long as no lone CR comes for a request line
    past its cap. -/
theorem memory_bounded (chunks : List Bytes) :
    (∀ before p, before <+: chunks → waits {} before = some p → p.Bounded) ↔
      ∀ before chunk p, before ++ [chunk] <+: chunks → waits {} before = some p →
        ¬ p.LoneCrPastCap chunk := by
  constructor
  · rintro h before chunk p hpre hbefore ⟨hstate, rfl, hlen⟩
    have hnext : waits {} (before ++ [[cr]]) = some (p.withLine (p.lineBuffer ++ [cr])) :=
      waits_concat.mpr ⟨p, [], hbefore, feed_lone_cr hstate⟩
    have hline := (h _ _ hpre hnext).requestLine hstate
    rw [withLine_lineBuffer, List.length_append, List.length_singleton] at hline
    omega
  · intro h before p hpre hbefore
    obtain ⟨hparsed, hbuffered⟩ := waits_held hbefore fun b c q hmore =>
      h b c q (hmore.trans hpre)
    exact hparsed.bounded hbuffered

/-- A request line as long as the cap, and two lone CRs. -/
def twoCrsPastCap : List Bytes := [List.replicate kMaxRequestLineLength 65, [cr], [cr]]

theorem waits_twoCrsPastCap :
    waits {} twoCrsPastCap =
      some (withLine {} (List.replicate kMaxRequestLineLength 65 ++ [cr] ++ [cr])) := by
  have hnone : findCrlf (List.replicate kMaxRequestLineLength 65) = none :=
    find_eq_none_iff.mpr fun ⟨before, after, heq⟩ => by
      have hmem : cr ∈ List.replicate kMaxRequestLineLength (65 : UInt8) := by
        rw [← heq]
        simp
      exact absurd (List.eq_of_mem_replicate hmem) (by decide)
  have hfirst := feed_unfinished hnone (Nat.le_of_eq List.length_replicate)
  rw [twoCrsPastCap, waits, hfirst]
  dsimp only
  rw [waits, feed_lone_cr rfl]
  dsimp only
  rw [waits, feed_lone_cr rfl]
  rfl

/-- The request line outgrows its bound. -/
theorem memory_unbounded :
    ¬ ∀ chunks p, waits {} chunks = some p → p.Bounded := by
  intro h
  have hline := (h _ _ waits_twoCrsPastCap).requestLine rfl
  rw [withLine_lineBuffer, List.length_append, List.length_append, List.length_replicate] at hline
  exact absurd hline (by decide)

end PassionProjects.Arcserve.Protocol.HttpRequestParser
