/-
  PassionProjects.Arcserve.Protocol.Streams

  The streams whose outcome does not depend on how they are cut.

  `StreamClear` is the condition.  Where it fails, two ways of cutting the stream
  lead to different outcomes: the request line is at its cap or followed by CRs,
  which pass the cap one at a time, or a line of the header section tells.
-/

import PassionProjects.Arcserve.Protocol.Chunking

namespace PassionProjects.Arcserve.Protocol.HttpRequestParser

open PassionProjects.Terminator

variable {p : HttpRequestParser} {chunks : List Bytes} {l stream : Bytes} {n k : Nat} {gaps : Bool}

-- ============================================================================
-- The whole stream
-- ============================================================================

/-- The outcome of a stream does not depend on the chunks.  The request line is
    below the cap, or some byte past the cap tells that it is too long, or it is
    refused in any case. -/
def StreamClear (gaps : Bool) (stream : Bytes) : Prop :=
  match findCrlf stream with
  | none => OnlyCrPastCap stream → stream.length ≤ kMaxRequestLineLength
  | some n =>
    let taken := takeRequestLine {} (stream.take n)
    if n < kMaxRequestLineLength then
      taken.1 = .kAdvanced → HeadersClear gaps taken.2 (stream.drop (n + 2))
    else
      OnlyCrPastCap (stream.take n) →
        taken.1 = .kFailed ∧ taken.2.errorResponse.statusCode = 400 ∨
          taken.1 = .kAdvanced ∧ HeadersRefused gaps taken.2 (stream.drop (n + 2))

/-- The request line that was read leaves a fresh parser at the first header line. -/
theorem takeRequestLine_ready (p : HttpRequestParser) (line : Bytes)
    (hadv : (p.takeRequestLine line).1 = .kAdvanced) : (p.takeRequestLine line).2.HeaderReady := by
  rcases htake : p.takeRequestLine line with ⟨r, q⟩
  rw [htake] at hadv
  obtain ⟨hline, ⟨-, hstate, hseen⟩ | hfail⟩ := takeRequestLine_state htake
  · refine ⟨hstate, hline, ?_⟩
    show q.headerBytesSeen ≤ kMaxHeaderBytes
    rw [hseen]
    exact Nat.zero_le _
  · exact absurd (hadv.symm.trans hfail) (by simp)

theorem takeRequestLine_result (p : HttpRequestParser) (line : Bytes) :
    (p.takeRequestLine line).1 = .kFailed ∨ (p.takeRequestLine line).1 = .kAdvanced := by
  have hne := takeRequestLine_ne p line
  cases h : (p.takeRequestLine line).1 with
  | kNeedMoreData => exact absurd h hne
  | kAdvanced => exact Or.inr rfl
  | kFailed => exact Or.inl rfl

theorem requestLine_unfinished (hcut : Cut gaps stream chunks) (hfind : findCrlf stream = none) :
    feedAll {} 0 chunks = .needMoreData ∧ OnlyCrPastCap stream ∨
      feedAll {} 0 chunks = .error 400 ∧ kMaxRequestLineLength < stream.length := by
  have hscan := feedAll_requestLine_scan (p := {}) (k := 0) rfl (rfl : findCrlf [] = none)
    (onlyCrPastCap_of_le (Nat.zero_le _)) (List.nil_append _ |>.trans hcut.1)
  rw [hfind] at hscan
  exact hscan

theorem requestLine_line (hcut : Cut gaps stream chunks) (hfind : findCrlf stream = some n) :
    feedAll {} 0 chunks = .error 400 ∧ kMaxRequestLineLength ≤ n ∨
      OnlyCrPastCap (stream.take n) ∧ ∃ rest, Cut gaps (stream.drop (n + 2)) rest ∧
        feedAll {} 0 chunks = thenFeed (n + 2) rest (takeRequestLine {} (stream.take n)) := by
  have hscan := feedAll_requestLine_scan (p := {}) (k := 0) rfl (rfl : findCrlf [] = none)
    (onlyCrPastCap_of_le (Nat.zero_le _)) (List.nil_append _ |>.trans hcut.1)
  rw [hfind] at hscan
  refine hscan.imp_right fun ⟨hcap, left, rest, hleft, hmem, heq⟩ => ⟨hcap, ?_⟩
  obtain ⟨rest', hcut', heq'⟩ := afterLine_thenFeed gaps (k := 0 + (n + 2))
    (takeRequestLine_ready {} (stream.take n)) hleft fun hr => hcut.2 (hmem hr)
  exact ⟨rest', hcut', (heq.trans heq').trans (by rw [Nat.zero_add])⟩

-- ============================================================================
-- A request line past the cap, one CR at a time
-- ============================================================================

theorem findCrlf_append_cr (h : findCrlf l = none) : findCrlf (l ++ [cr]) = none := by
  rw [findCrlf, find_append_of_none h, if_neg]
  · rfl
  · exact fun hhead => absurd hhead.2 (by decide)

/-- CRs that come one at a time are buffered without limit. -/
theorem feedAll_crs (hstate : p.state = .kRequestLine) (hl : findCrlf l = none) {crs : Bytes}
    (hcrs : ∀ b ∈ crs, b = cr) (rest : List Bytes) :
    (p.withLine l).feedAll (k + l.length) (crs.map (fun b => [b]) ++ rest) =
      (p.withLine (l ++ crs)).feedAll (k + (l ++ crs).length) rest := by
  induction crs generalizing l with
  | nil => rw [List.append_nil, List.map_nil, List.nil_append]
  | cons b crs ih =>
      obtain rfl := hcrs b List.mem_cons_self
      have hl' := findCrlf_append_cr hl
      have hrest := ih hl' fun b hb => hcrs b (List.mem_cons_of_mem _ hb)
      rw [List.map_cons, List.cons_append, feedAll_requestLine_eq hstate hl, hl']
      refine (if_neg fun hover => hover.1 rfl).trans (hrest.trans ?_)
      rw [List.append_assoc, List.singleton_append]

/-- The bytes up to the cap, and then one at a time. -/
def slowly (line : Bytes) : List Bytes :=
  line.take kMaxRequestLineLength :: (line.drop kMaxRequestLineLength).map fun b => [b]

theorem slowly_flatten (line : Bytes) : (slowly line).flatten = line := by
  have hsingles : ∀ bytes : Bytes, (bytes.map fun b => [b]).flatten = bytes := fun bytes => by
    induction bytes with
    | nil => rfl
    | cons b bytes ih => rw [List.map_cons, List.flatten_cons, ih, List.singleton_append]
  rw [slowly, List.flatten_cons, hsingles, List.take_append_drop]

theorem cut_slowly {line : Bytes} (hne : line ≠ []) (h : Cut gaps stream chunks) :
    Cut gaps (line ++ stream) (slowly line ++ chunks) := by
  refine ⟨by rw [List.flatten_append, slowly_flatten, h.1], fun hmem => ?_⟩
  rcases List.mem_append.mp hmem with hmem | hmem
  · rcases List.mem_cons.mp hmem with hnil | hmem
    · rcases List.take_eq_nil_iff.mp hnil.symm with hcap | hnil
      · exact absurd hcap (by decide)
      · exact absurd hnil hne
    · obtain ⟨b, -, hb⟩ := List.mem_map.mp hmem
      exact nomatch hb
  · exact h.2 hmem

/-- A line with nothing but CRs past the cap can be buffered. -/
theorem feedAll_slowly (hfind : findCrlf l = none) (hcap : OnlyCrPastCap l) (rest : List Bytes) :
    feedAll {} 0 (slowly l ++ rest) = (withLine {} l).feedAll l.length rest := by
  have hhead : findCrlf (l.take kMaxRequestLineLength) = none :=
    find_none_of_append (t := l.drop kMaxRequestLineLength)
      (by rw [List.take_append_drop]; exact hfind)
  have heq := feedAll_requestLine_eq (p := {}) rfl (rfl : findCrlf [] = none) 0
    (l.take kMaxRequestLineLength) ((l.drop kMaxRequestLineLength).map (fun b => [b]) ++ rest)
  rw [List.nil_append, hhead] at heq
  have hcrs := feedAll_crs (p := {}) (k := 0) rfl hhead hcap rest
  rw [List.take_append_drop] at hcrs
  refine (heq.trans (if_neg fun hover => ?_)).trans (hcrs.trans (by rw [Nat.zero_add]))
  exact absurd hover.2 (Nat.not_lt.mpr (List.length_take_le _ _))

theorem take_crlf (hfind : findCrlf stream = some n) :
    stream.take (n + 1) = stream.take n ++ [cr] ∧
      stream.take (n + 1) ++ [lf] = stream.take (n + 2) := by
  obtain ⟨hstream, hlen⟩ := find_eq_some hfind
  have hcrs : stream.drop n = cr :: lf :: stream.drop (n + 2) := by
    conv_lhs => rw [hstream]
    rw [List.drop_left' (by rw [List.length_take]; omega)]
  constructor
  · rw [List.take_add, hcrs, List.take_succ_cons, List.take_zero]
  · rw [List.take_add (l := stream) (i := n) (j := 1),
      List.take_add (l := stream) (i := n) (j := 2),
      hcrs, List.append_assoc]
    rfl

/-- A request line whose CR ends an earlier chunk is taken. -/
theorem feedAll_slow_line (hfind : findCrlf stream = some n) (hcap : OnlyCrPastCap (stream.take n))
    (rest : List Bytes) :
    feedAll {} 0 (slowly (stream.take (n + 1)) ++ [lf] :: rest) =
      thenFeed (n + 2) rest (takeRequestLine {} (stream.take n)) := by
  have hlen := find_length hfind
  obtain ⟨hcr, hlf⟩ := take_crlf hfind
  have hnone : findCrlf (stream.take (n + 1)) = none := find_take hfind
  have heq := feedAll_requestLine_eq (p := {}) rfl hnone 0 [lf] rest
  rw [hlf, show findCrlf (stream.take (n + 2)) = some n from find_take_add_two hfind] at heq
  have hdrop : (stream.take (n + 2)).drop (n + 2) = [] :=
    List.drop_eq_nil_of_le (List.length_take_le _ _)
  have htake : (stream.take (n + 2)).take n = stream.take n := by
    rw [List.take_take, Nat.min_eq_left (by omega)]
  have hlt : n < (stream.take (n + 1)).length := by rw [List.length_take]; omega
  rw [feedAll_slowly hnone (hcr ▸ hcap.append_cr), ← Nat.zero_add (stream.take (n + 1)).length]
  refine heq.trans ((if_pos (Or.inl hlt)).trans ?_)
  rw [hdrop, htake, Nat.zero_add]
  exact afterLine_nil (takeRequestLine_ready {} _) rest

/-- A request line below the cap, as a chunk of its own. -/
theorem feedAll_requestLine_take (hfind : findCrlf stream = some n)
    (hcap : n ≤ kMaxRequestLineLength) (rest : List Bytes) :
    feedAll {} 0 (stream.take (n + 2) :: rest) =
      thenFeed (n + 2) rest (takeRequestLine {} (stream.take n)) := by
  have hlen := find_length hfind
  have heq := feedAll_requestLine_eq (p := {}) rfl (rfl : findCrlf [] = none) 0
    (stream.take (n + 2)) rest
  rw [List.nil_append, show findCrlf (stream.take (n + 2)) = some n from find_take_add_two hfind]
    at heq
  have hdrop : (stream.take (n + 2)).drop (n + 2) = [] :=
    List.drop_eq_nil_of_le (List.length_take_le _ _)
  have htake : (stream.take (n + 2)).take n = stream.take n := by
    rw [List.take_take, Nat.min_eq_left (by omega)]
  refine heq.trans ((if_pos (Or.inr hcap)).trans ?_)
  rw [hdrop, htake, Nat.zero_add]
  exact afterLine_nil (takeRequestLine_ready {} _) rest

theorem feedAll_requestLine_whole (hfind : findCrlf stream = some n)
    (hcap : n ≤ kMaxRequestLineLength) :
    feedAll {} 0 [stream] =
      afterLine (n + 2) (stream.drop (n + 2)) [] (takeRequestLine {} (stream.take n)) := by
  have heq := feedAll_requestLine_eq (p := {}) rfl (rfl : findCrlf [] = none) 0 stream []
  rw [List.nil_append, hfind] at heq
  exact heq.trans ((if_pos (Or.inr hcap)).trans (by rw [Nat.zero_add]))

/-- The terminator of a line at the cap cut in two. -/
theorem feedAll_requestLine_cut (hfind : findCrlf stream = some n)
    (hcap : kMaxRequestLineLength ≤ n) (rest : List Bytes) :
    feedAll {} 0 (stream.take (n + 1) :: rest) = .error 400 := by
  have hlen := find_length hfind
  have hfirst : (stream.take (n + 1)).length = n + 1 := by rw [List.length_take]; omega
  have heq := feedAll_requestLine_eq (p := {}) rfl (rfl : findCrlf [] = none) 0
    (stream.take (n + 1)) rest
  rw [List.nil_append, show findCrlf (stream.take (n + 1)) = none from find_take hfind] at heq
  refine heq.trans (if_pos ⟨fun hlone => ?_, by omega⟩)
  rw [hlone, List.length_singleton] at hfirst
  have hpos : 0 < kMaxRequestLineLength := by decide
  omega

-- ============================================================================
-- The condition
-- ============================================================================

/-- The outcome of a clear stream. -/
theorem StreamClear.outcome (h : StreamClear gaps stream) :
    ∃ o, ∀ chunks, Cut gaps stream chunks → feedAll {} 0 chunks = o := by
  unfold StreamClear at h
  cases hfind : findCrlf stream with
  | none =>
      rw [hfind] at h
      by_cases hcap : OnlyCrPastCap stream
      · refine ⟨.needMoreData, fun chunks hcut => ?_⟩
        rcases requestLine_unfinished hcut hfind with ⟨heq, -⟩ | ⟨-, hlt⟩
        · exact heq
        · exact absurd (h hcap) (Nat.not_le.mpr hlt)
      · refine ⟨.error 400, fun chunks hcut => ?_⟩
        rcases requestLine_unfinished hcut hfind with ⟨-, hcr⟩ | ⟨heq, -⟩
        · exact absurd hcr hcap
        · exact heq
  | some n =>
      rw [hfind] at h
      dsimp only at h
      have hready := takeRequestLine_ready {} (stream.take n)
      by_cases hlt : n < kMaxRequestLineLength
      · rw [if_pos hlt] at h
        have hline : ∀ chunks, Cut gaps stream chunks → ∃ rest,
            Cut gaps (stream.drop (n + 2)) rest ∧ feedAll {} 0 chunks =
              thenFeed (n + 2) rest (takeRequestLine {} (stream.take n)) := fun chunks hcut =>
          (requestLine_line hcut hfind).elim (fun hover => by omega) And.right
        rcases takeRequestLine_result {} (stream.take n) with hfail | hadv
        · refine ⟨.error (takeRequestLine {} (stream.take n)).2.errorResponse.statusCode,
            fun chunks hcut => ?_⟩
          obtain ⟨rest, -, heq⟩ := hline chunks hcut
          rw [heq, thenFeed_failed hfail]
        · obtain ⟨o, ho⟩ := (h hadv).outcome (hready hadv) (n + 2)
          refine ⟨o, fun chunks hcut => ?_⟩
          obtain ⟨rest, hrest, heq⟩ := hline chunks hcut
          rw [heq, thenFeed_advanced hadv, ho rest hrest]
      · rw [if_neg hlt] at h
        refine ⟨.error 400, fun chunks hcut => ?_⟩
        rcases requestLine_line hcut hfind with ⟨heq, -⟩ | ⟨hcap, rest, hrest, heq⟩
        · exact heq
        · rcases h hcap with ⟨hfail, hstatus⟩ | ⟨hadv, hrefused⟩
          · rw [heq, thenFeed_failed hfail, hstatus]
          · rw [heq, thenFeed_advanced hadv]
            exact hrefused.outcome (hready hadv) _ hrest

/-- Where all chunk lists agree, the stream is clear. -/
theorem StreamClear.of_agree
    (h : ∀ chunks chunks', Cut gaps stream chunks → Cut gaps stream chunks' →
      feedAll {} 0 chunks = feedAll {} 0 chunks') : StreamClear gaps stream := by
  unfold StreamClear
  cases hfind : findCrlf stream with
  | none =>
      intro hcap
      by_contra hlt
      have hne : stream ≠ [] := fun hnil => hlt (by rw [hnil]; exact Nat.zero_le _)
      have hslow : Cut gaps stream (slowly stream) := by
        have hnil : Cut gaps [] [] := ⟨rfl, fun hmem => absurd hmem (List.not_mem_nil)⟩
        simpa using cut_slowly hne hnil
      have hmore := feedAll_slowly hfind hcap []
      rw [List.append_nil] at hmore
      have hwhole : feedAll {} 0 [stream] = .error 400 := by
        have heq := feedAll_requestLine_eq (p := {}) rfl (rfl : findCrlf [] = none) 0 stream []
        rw [List.nil_append, hfind] at heq
        refine heq.trans (if_pos ⟨fun hlone => hlt ?_, Nat.not_le.mp hlt⟩)
        rw [hlone]
        decide
      exact nomatch hmore.symm.trans ((h _ _ hslow (cut_whole gaps hne)).trans hwhole)
  | some n =>
      have hlen := find_length hfind
      have hready := takeRequestLine_ready {} (stream.take n)
      dsimp only
      by_cases hlt : n < kMaxRequestLineLength
      · rw [if_pos hlt]
        intro hadv
        refine HeadersClear.of_agree (k := n + 2) (hready hadv) fun rest rest' hcut hcut' => ?_
        have heq := h _ _ (cut_prepend (Nat.succ_pos _) hlen hcut)
          (cut_prepend (Nat.succ_pos _) hlen hcut')
        rwa [feedAll_requestLine_take hfind (Nat.le_of_lt hlt),
          feedAll_requestLine_take hfind (Nat.le_of_lt hlt), thenFeed_advanced hadv,
          thenFeed_advanced hadv] at heq
      · rw [if_neg hlt]
        intro hcap
        have hdrop : stream.drop (n + 1) ≠ [] := fun hnil => by
          have := List.drop_eq_nil_iff.mp hnil
          omega
        have hall : ∀ rest, Cut gaps (stream.drop (n + 2)) rest →
            thenFeed (n + 2) rest (takeRequestLine {} (stream.take n)) = .error 400 := by
          intro rest hcut
          have hslow : Cut gaps stream (slowly (stream.take (n + 1)) ++ [lf] :: rest) := by
            have hne : stream.take (n + 1) ≠ [] := fun hnil => by
              have := congrArg List.length hnil
              rw [List.length_take, List.length_nil] at this
              omega
            have hlf : Cut gaps ([lf] ++ stream.drop (n + 2)) ([lf] :: rest) :=
              ⟨by rw [List.flatten_cons, hcut.1], fun hmem => hcut.2 (by simpa using hmem)⟩
            have hslow := cut_slowly hne hlf
            rwa [← List.append_assoc, (take_crlf hfind).2, List.take_append_drop] at hslow
          rw [← feedAll_slow_line hfind hcap]
          exact (h _ _ hslow (cut_prepend (Nat.succ_pos n) (by omega) (cut_whole gaps hdrop))).trans
            (feedAll_requestLine_cut hfind (Nat.not_lt.mp hlt) _)
        rcases takeRequestLine_result {} (stream.take n) with hfail | hadv
        · obtain ⟨rest, hcut⟩ := exists_cut gaps (stream.drop (n + 2))
          have heq := hall rest hcut
          rw [thenFeed_failed hfail] at heq
          exact Or.inl ⟨hfail, Outcome.error.inj heq⟩
        · refine Or.inr
            ⟨hadv, HeadersRefused.of_outcome (k := n + 2) (hready hadv) fun rest hcut => ?_⟩
          have heq := hall rest hcut
          rwa [thenFeed_advanced hadv] at heq

/-- How a stream is cut does not matter if and only if the stream is clear. -/
theorem feed_chunking (gaps : Bool) (stream : Bytes) :
    (∀ chunks chunks', Cut gaps stream chunks → Cut gaps stream chunks' →
      feedAll {} 0 chunks = feedAll {} 0 chunks') ↔ StreamClear gaps stream := by
  constructor
  · exact StreamClear.of_agree
  · intro h chunks chunks' hcut hcut'
    obtain ⟨o, ho⟩ := h.outcome
    rw [ho chunks hcut, ho chunks' hcut']

-- ============================================================================
-- A request line exactly at the cap
-- ============================================================================

/-- A request target of so many bytes that the request line has 8192. -/
def targetAtCap : Bytes := 47 :: List.replicate 8178 97

def lineAtCap : Bytes := ascii "GET" ++ space :: (targetAtCap ++ space :: ascii "HTTP/1.1")

def streamAtCap : Bytes := lineAtCap ++ cr :: lf :: crlf

theorem notMem_targetAtCap {b : UInt8} (hslash : b ≠ 47) (ha : b ≠ 97) : b ∉ targetAtCap := by
  intro hmem
  rcases List.mem_cons.mp hmem with heq | hmem
  · exact hslash heq
  · exact ha (List.eq_of_mem_replicate hmem)

theorem space_notMem_targetAtCap : space ∉ targetAtCap := notMem_targetAtCap (by decide) (by decide)

theorem lineAtCap_length : lineAtCap.length = kMaxRequestLineLength := by
  have hget : (ascii "GET").length = 3 := by decide
  have hversion : (ascii "HTTP/1.1").length = 8 := by decide
  simp only [lineAtCap, targetAtCap, List.length_append, List.length_cons, List.length_replicate,
    hget, hversion, kMaxRequestLineLength]

theorem cr_notMem_lineAtCap : cr ∉ lineAtCap := by
  have hget : cr ∉ ascii "GET" := by decide
  have hversion : cr ∉ space :: ascii "HTTP/1.1" := by decide
  intro hmem
  rcases List.mem_append.mp hmem with hmem | hmem
  · exact hget hmem
  · rcases List.mem_cons.mp hmem with heq | hmem
    · exact absurd heq (by decide)
    · rcases List.mem_append.mp hmem with hmem | hmem
      · exact notMem_targetAtCap (by decide) (by decide) hmem
      · exact hversion hmem

theorem findCrlf_streamAtCap : findCrlf streamAtCap = some kMaxRequestLineLength :=
  lineAtCap_length ▸ find_of_not_mem cr_notMem_lineAtCap crlf

/-- The parser once it has read the line. -/
def parserAtCap : HttpRequestParser where
  state := .kHeaders
  request := { method := .kGet, target := targetAtCap, version := ascii "HTTP/1.1" }

theorem takeRequestLine_lineAtCap : takeRequestLine {} lineAtCap = (.kAdvanced, parserAtCap) := by
  have hmethod : space ∉ ascii "GET" := by decide
  have hversion : ascii "HTTP/1.1" ≠ [] := by decide
  have htarget : ¬ (targetAtCap = [] ∨ ascii "HTTP/1.1" = [] ∨ space ∈ targetAtCap) := by
    rintro (hnil | hnil | hmem)
    · exact absurd hnil (List.cons_ne_nil _ _)
    · exact hversion hnil
    · exact space_notMem_targetAtCap hmem
  rw [takeRequestLine, lineAtCap, finishRequestLine_join _ hmethod space_notMem_targetAtCap,
    acceptRequestLine, if_neg htarget]
  rfl

/-- Cut between its CR and its LF, a line that is accepted as a whole is too long. -/
theorem terminator_cut_at_cap :
    Cut false streamAtCap [streamAtCap] ∧
      Cut false streamAtCap [lineAtCap ++ [cr], lf :: crlf] ∧
        feedAll {} 0 [lineAtCap ++ [cr], lf :: crlf] = .error 400 ∧
          feedAll {} 0 [streamAtCap] ≠ feedAll {} 0 [lineAtCap ++ [cr], lf :: crlf] := by
  have hne : streamAtCap ≠ [] := by simp [streamAtCap]
  have htake : streamAtCap.take (kMaxRequestLineLength + 1) = lineAtCap ++ [cr] := by
    rw [streamAtCap, ← lineAtCap_length, List.take_length_add_append]
    rfl
  have hline : streamAtCap.take kMaxRequestLineLength = lineAtCap := by
    rw [streamAtCap, ← lineAtCap_length, List.take_left]
  have hdrop : streamAtCap.drop (kMaxRequestLineLength + 2) = crlf := by
    rw [streamAtCap, ← lineAtCap_length, List.drop_length_add_append]
    rfl
  have hcut : feedAll {} 0 [lineAtCap ++ [cr], lf :: crlf] = .error 400 :=
    htake ▸ feedAll_requestLine_cut findCrlf_streamAtCap (Nat.le_refl _) _
  refine ⟨cut_whole false hne, ⟨by simp [streamAtCap], fun hmem => ?_⟩, hcut, ?_⟩
  · exact absurd hmem (by simp)
  · rw [hcut]
    intro hwhole
    have hready : parserAtCap.HeaderReady := ⟨rfl, rfl, Nat.zero_le _⟩
    have hnext := feedAll_requestLine_whole findCrlf_streamAtCap (Nat.le_refl _)
    rw [hline, hdrop, takeRequestLine_lineAtCap, hwhole] at hnext
    simp only [afterLine, hready.state, reduceCtorEq, if_false] at hnext
    rcases headers_blank (k := kMaxRequestLineLength + 2) hready
      (show Cut false crlf [crlf] from cut_whole false (by decide)) (by decide) with
        ⟨-, -, hg⟩ | hblank
    · exact absurd hg (by simp)
    · -- without Content-Length a GET has no body, and nothing fails
      have hfail := (afterLine_blank_error.mp (hblank.symm.trans hnext.symm)).1
      exact absurd hfail (by decide)

end PassionProjects.Arcserve.Protocol.HttpRequestParser
