/-
  PassionProjects.Arcserve.Protocol.Acceptance

  The parser accepts the grammar and nothing else.
-/

import PassionProjects.Arcserve.Protocol.HeaderLines

namespace PassionProjects.Arcserve.Protocol

namespace HttpRequestParser

open PassionProjects.Terminator

variable {p q : HttpRequestParser} {request : HttpRequest} {line bytes data : Bytes} {k n : Nat}

-- ============================================================================
-- The body
-- ============================================================================

theorem afterLine_startBody (q : HttpRequestParser) (k : Nat) (rest : Bytes) (length : Nat) :
    afterLine k rest [] (clearLine (q.startBody length)) =
      if rest.length < length then .needMoreData
      else .complete { q.request with body := rest.take length } (k + length) := by
  by_cases hzero : length = 0
  · subst hzero
    rfl
  · have hstate : (clearLine (q.startBody length)).2.state = .kBody := by
      simp [clearLine, startBody, hzero]
    have hleft : (clearLine (q.startBody length)).2.bodyLeft = length := Nat.sub_zero _
    rw [afterLine_advanced rfl (by rw [hstate]; decide), feedAll_body_eq hstate, hleft]
    split
    · rfl
    · congr 1

/-- The bytes behind the header section make up the body and go on with the next
    request. -/
structure Finishes (q : HttpRequestParser) (k : Nat) (rest : Bytes) (request : HttpRequest)
    (n : Nat) : Prop where
  rest : request.body <+: rest
  consumed : n = k + request.body.length
  request : request = { q.request with body := request.body }

theorem startBody_complete {length : Nat} :
    afterLine k bytes [] (clearLine (q.startBody length)) = .complete request n ↔
      q.Finishes k bytes request n ∧ request.body.length = length := by
  rw [afterLine_startBody]
  constructor
  · intro h
    split at h
    · exact absurd h (by simp)
    · obtain ⟨rfl, rfl⟩ := Outcome.complete.inj h
      have hlen : (bytes.take length).length = length := by rw [List.length_take]; omega
      exact ⟨⟨List.take_prefix _ _, by rw [hlen], rfl⟩, hlen⟩
  · rintro ⟨⟨⟨tail, rfl⟩, rfl, hrequest⟩, rfl⟩
    rw [if_neg (by rw [List.length_append]; omega), List.take_left, ← hrequest]

/-- The empty line: the headers frame the body. -/
theorem blankLine_complete (hone : (contentLengths q.request.headers).length ≤ 1) :
    afterLine k bytes [] (q.takeHeaderLine []) = .complete request n ↔
      q.Finishes k bytes request n ∧ Framed request := by
  have hframed : q.Finishes k bytes request n →
      contentLengths request.headers = contentLengths q.request.headers ∧
        request.method = q.request.method := fun h => by
    rw [h.request]
    exact ⟨rfl, rfl⟩
  have hfailed : ∀ (statusCode : Nat) (reasonPhrase body : String),
      afterLine k bytes [] (clearLine (q.failStep statusCode reasonPhrase body)) ≠
        .complete request n := fun _ _ _ => by simp [afterLine, clearLine, failStep]
  show afterLine k bytes [] (clearLine q.finishHeaders) = _ ↔ _
  unfold finishHeaders
  rw [findHeader_contentLength]
  rcases hlengths : contentLengths q.request.headers with - | ⟨digits, - | ⟨other, more⟩⟩
  · rw [List.head?_nil]
    dsimp only
    by_cases hpost : q.request.method = .kPost
    · rw [if_pos hpost]
      refine ⟨fun h => absurd h (hfailed _ _ _), fun hwhole => ?_⟩
      obtain ⟨hfinishes, h⟩ := hwhole
      rw [Framed, (hframed hfinishes).1, hlengths, (hframed hfinishes).2, hpost] at h
      exact absurd h.1 (by decide)
    · rw [if_neg hpost, startBody_complete]
      refine and_congr_right fun hfinishes => ?_
      have hget : request.method = .kGet := by
        rw [(hframed hfinishes).2]
        cases hmethod : q.request.method with
        | kGet => rfl
        | kPost => exact absurd hmethod hpost
      rw [Framed, (hframed hfinishes).1, hlengths]
      simp [hget]
  · rw [List.head?_cons]
    dsimp only
    have hframe : q.Finishes k bytes request n → (Framed request ↔
        Decimal digits request.body.length ∧ request.body.length ≤ kMaxBodyBytes) :=
      fun hfinishes => by rw [Framed, (hframed hfinishes).1, hlengths]
    cases hvalue : fromChars digits with
    | none =>
        refine ⟨fun h => absurd h (hfailed _ _ _), fun hwhole => ?_⟩
        obtain ⟨hfinishes, h⟩ := hwhole
        obtain ⟨hdecimal, hmax⟩ := (hframe hfinishes).mp h
        have hlt : request.body.length < 2 ^ 64 := Nat.lt_of_le_of_lt hmax (by decide)
        exact absurd (hvalue.symm.trans (fromChars_eq_some.mpr ⟨hdecimal, hlt⟩)) (by simp)
    | some value =>
        have hdecimal := (fromChars_eq_some.mp hvalue).1
        dsimp only
        by_cases hbig : value > kMaxBodyBytes
        · rw [if_pos hbig]
          refine ⟨fun h => absurd h (hfailed _ _ _), fun hwhole => ?_⟩
          obtain ⟨hfinishes, h⟩ := hwhole
          obtain ⟨hother, hmax⟩ := (hframe hfinishes).mp h
          rw [hother.unique hdecimal] at hmax
          omega
        · rw [if_neg hbig, startBody_complete]
          refine and_congr_right fun hfinishes => ?_
          rw [hframe hfinishes]
          constructor
          · rintro rfl
            exact ⟨hdecimal, by omega⟩
          · exact fun h => h.1.unique hdecimal
  · rw [hlengths, List.length_cons, List.length_cons] at hone
    omega

-- ============================================================================
-- The request line
-- ============================================================================

/-- The parser behind a request line. -/
def behindRequestLine (request : HttpRequest) : HttpRequestParser :=
  { state := .kHeaders, request }

theorem acceptRequestLine_advanced {method target version : Bytes}
    (h : clearLine (acceptRequestLine {} method target version) = (.kAdvanced, q)) :
    ∃ m, method = methodToString m ∧ version = httpVersion ∧ target.head? = some slash ∧
      space ∉ target ∧ q = behindRequestLine { method := m, target, version } := by
  unfold acceptRequestLine at h
  split at h
  · exact absurd h (by simp [clearLine, failStep])
  · have hspace : space ∉ target := fun hmem => ‹¬ _› (Or.inr (Or.inr hmem))
    split at h
    · exact absurd h (by simp [clearLine, failStep])
    · have hmethod : method = ascii "GET" ∨ method = ascii "POST" := by
        by_contra hnot
        exact ‹¬ _› (not_or.mp hnot)
      dsimp only at h
      split at h
      · exact absurd h (by simp [clearLine, failStep])
      · split at h
        · exact absurd h (by simp [clearLine, failStep])
        · obtain rfl := (Prod.mk.inj h).2
          refine ⟨if method = ascii "GET" then .kGet else .kPost, ?_,
            by simpa using ‹¬ version ≠ _›,
            by simpa using ‹¬ target.head? ≠ _›, hspace, rfl⟩
          rcases hmethod with rfl | rfl
          · rfl
          · rfl

/-- The parser takes the request lines of the grammar. -/
theorem takeRequestLine_eq_advanced :
    takeRequestLine {} line = (.kAdvanced, q) ↔ ∃ request, RequestParts request line ∧
      request.headers = [] ∧ request.body = [] ∧ q = behindRequestLine request := by
  constructor
  · intro h
    unfold takeRequestLine finishRequestLine at h
    split at h
    · exact absurd h (by simp [clearLine, failStep])
    · next first hfirst =>
        dsimp only at h
        split at h
        · exact absurd h (by simp [clearLine, failStep])
        · next second hsecond =>
            obtain ⟨hline, -⟩ := findByte_eq_some hfirst
            obtain ⟨hrest, -⟩ := findByte_eq_some hsecond
            obtain ⟨m, hmethod, hversion, horigin, hspace, hq⟩ := acceptRequestLine_advanced h
            refine ⟨_, ⟨?_, hversion, horigin, hspace⟩, rfl, rfl, hq⟩
            rw [← hmethod, ← hrest]
            exact hline
  · rintro ⟨⟨m, target, version, headers, body⟩,
      ⟨hparts, hversion, horigin, hspace⟩, rfl, rfl, rfl⟩
    dsimp only at hparts hversion horigin hspace
    have hmethod : space ∉ methodToString m := by
      cases m with
      | kGet => decide
      | kPost => decide
    have hempty : ¬ (target = [] ∨ version = [] ∨ space ∈ target) := by
      rintro (rfl | rfl | hmem)
      · exact absurd horigin (by simp)
      · exact absurd hversion (by decide)
      · exact hspace hmem
    rw [takeRequestLine, hparts, finishRequestLine_join _ hmethod hspace, acceptRequestLine,
      if_neg hempty]
    dsimp only
    have hknown : ¬ (methodToString m ≠ ascii "GET" ∧ methodToString m ≠ ascii "POST") := by
      cases m with
      | kGet => exact fun hne => hne.1 rfl
      | kPost => exact fun hne => hne.2 rfl
    rw [if_neg hknown, if_neg fun hne => hne horigin, if_neg fun hne => hne hversion]
    cases m with
    | kGet => rfl
    | kPost => rfl

-- ============================================================================
-- A whole request
-- ============================================================================

theorem behindRequestLine_ready (request : HttpRequest) :
    (behindRequestLine request).HeaderReady := ⟨rfl, rfl, Nat.zero_le _⟩

/-- The whole stream at once: the request line, and what follows it. -/
theorem feedAll_fresh (data : Bytes) :
    feedAll {} 0 [data] = match findCrlf data with
      | some n =>
        if n ≤ kMaxRequestLineLength then
          afterLine (n + 2) (data.drop (n + 2)) [] (takeRequestLine {} (data.take n))
        else .error 400
      | none =>
        if data ≠ [cr] ∧ kMaxRequestLineLength < data.length then .error 400
        else .needMoreData := by
  refine (feedAll_requestLine_eq (p := {}) rfl (rfl : findCrlf [] = none) 0 data []).trans ?_
  rw [List.nil_append]
  cases findCrlf data with
  | none => simp [feedAll]
  | some n => simp

/-- How many bytes the lines of a request take. -/
theorem sentence_length (line body : Bytes) (lines : List Bytes) :
    (line ++ crlf ++ headerBytes lines ++ crlf ++ body).length =
      line.length + 2 + (headerBytes lines).length + 2 + body.length := by
  simp only [List.length_append, show crlf.length = 2 from rfl]

theorem sentence_of_complete (h : feedAll {} 0 [data] = .complete request n) :
    n ≤ data.length ∧ Sentence request (data.take n) := by
  rw [feedAll_fresh] at h
  cases hfind : findCrlf data with
  | none =>
      rw [hfind] at h
      dsimp only at h
      split at h
      · exact absurd h (by simp)
      · exact absurd h (by simp)
  | some i =>
      rw [hfind] at h
      dsimp only at h
      split at h
      · obtain ⟨hdata, -⟩ := find_eq_some hfind
        have hlen : (data.take i).length ≤ kMaxRequestLineLength :=
          Nat.le_trans (List.length_take_le _ _) ‹_›
        have hone : ¬ crlf <:+: data.take i := by
          have hfront : findCrlf (data.take (i + 1)) = none := find_take hfind
          rw [List.take_add] at hfront
          exact find_eq_none_iff.mp (find_none_of_append hfront)
        obtain ⟨hadv, hrest⟩ := afterLine_eq_complete h fun hadv => by
          rw [(takeRequestLine_ready {} _ hadv).state]
          decide
        obtain ⟨q, htake⟩ : ∃ q, takeRequestLine {} (data.take i) = (.kAdvanced, q) :=
          ⟨_, Prod.ext hadv rfl⟩
        obtain ⟨request₀, hline, hheaders, hbody, rfl⟩ :=
          takeRequestLine_eq_advanced.mp htake
        rw [htake] at hrest
        have hnone : (behindRequestLine request₀).request.headers = [] := hheaders
        obtain ⟨headers, lines, rest, hbytes, hlines, hadmits, hend⟩ :=
          (behindRequestLine_ready request₀).lines_of_complete (by rw [hnone]; exact Nat.zero_le _)
            (by rw [hnone]; exact Nat.zero_le _) hrest
        obtain ⟨⟨⟨tail, rfl⟩, hn, hrequest⟩, hframed⟩ := (blankLine_complete hadmits.once).mp hend
        have hcount := hadmits.count
        rw [hnone, List.length_nil, Nat.zero_add] at hcount
        have hall : request.headers = headers := by
          rw [hrequest]
          show request₀.headers ++ headers = headers
          rw [hheaders, List.nil_append]
        have hwhole : data =
            data.take i ++ crlf ++ headerBytes lines ++ crlf ++ request.body ++ tail := by
          conv_lhs => rw [hdata, hbytes]
          simp [crlf]
        have hsize := sentence_length (data.take i) request.body lines
        rw [length_take_crlf hfind] at hsize
        have htaken : data.take n =
            data.take i ++ crlf ++ headerBytes lines ++ crlf ++ request.body := by
          conv_lhs => rw [hwhole]
          exact List.take_left' (by omega)
        refine ⟨?_, ⟨data.take i, lines, htaken, ?_, hall ▸ hlines, ?_⟩, hall ▸ hcount, hframed⟩
        · rw [hwhole, List.length_append]
          omega
        · rw [hrequest]
          exact ⟨⟨hline.parts, hline.version, hline.origin, hline.target⟩, hone, hlen⟩
        · have hcap := hadmits.bytes
          change 0 + _ ≤ _ at hcap
          omega
      · exact absurd h (by simp)

theorem complete_of_sentence {bytes : Bytes} (h : Sentence request bytes) (tail : Bytes) :
    feedAll {} 0 [bytes ++ tail] = .complete request bytes.length := by
  obtain ⟨⟨line, lines, rfl, hline, hlines, hsize⟩, hcount, hframed⟩ := h
  have hdata : line ++ crlf ++ headerBytes lines ++ crlf ++ request.body ++ tail =
      line ++ cr :: lf :: (headerBytes lines ++ crlf ++ (request.body ++ tail)) := by
    simp [crlf]
  have htake := takeRequestLine_eq_advanced.mpr ⟨{ request with headers := [], body := [] },
    ⟨hline.parts, hline.version, hline.origin, hline.target⟩, rfl, rfl, rfl⟩
  have hready := behindRequestLine_ready { request with headers := [], body := [] }
  have honce : (contentLengths request.headers).length ≤ 1 := by
    unfold Framed at hframed
    rcases hlengths : contentLengths request.headers with - | ⟨digits, - | ⟨other, more⟩⟩
    · exact Nat.zero_le _
    · exact Nat.le_refl _
    · rw [hlengths] at hframed
      exact False.elim hframed
  have hadmits : (behindRequestLine { request with headers := [], body := [] }).Admits
      request.headers (headerBytes lines).length := by
    refine ⟨?_, ?_, honce⟩
    · show 0 + _ ≤ _
      omega
    · show 0 + _ ≤ _
      omega
  rw [hdata, feedAll_fresh, show findCrlf _ = some line.length from
    find_line (by decide) hline.oneLine _]
  dsimp only
  rw [if_pos hline.length, List.take_left, htake, List.drop_length_add_append,
    afterLine_advanced rfl (by rw [hready.state]; decide)]
  refine (hready.feedAll_lines (Nat.zero_le _) hlines hadmits _ _).trans ?_
  refine (blankLine_complete hadmits.once).mpr ⟨⟨⟨tail, rfl⟩, ?_, rfl⟩, hframed⟩
  rw [sentence_length]

/-- What `feed` leaves of the stream is its end. -/
theorem feedAll_eq_complete :
    feedAll {} 0 [data] = .complete request n ↔
      ∃ p, feed {} data = (.kComplete, p, data.drop n) ∧ n ≤ data.length ∧ p.request = request := by
  rcases hfeed : feed {} data with ⟨status, p, left⟩
  obtain ⟨front, hfront⟩ := feedLoop_left hfeed
  have hlen := congrArg List.length hfront
  rw [List.length_append] at hlen
  have hdrop : data.drop front.length = left := by rw [← hfront, List.drop_left]
  rw [feedAll, hfeed]
  cases status with
  | kNeedMoreData => simp [feedAll]
  | kError => simp
  | kComplete =>
      constructor
      · intro h
        obtain ⟨rfl, rfl⟩ := Outcome.complete.inj h
        have hn : 0 + (data.length - left.length) = front.length := by omega
        exact ⟨p, by rw [hn, hdrop], by omega, rfl⟩
      · rintro ⟨q, hq, hle, rfl⟩
        obtain ⟨rfl, rfl⟩ : p = q ∧ left = data.drop n := by simpa using hq
        dsimp only
        rw [List.length_drop] at hlen ⊢
        congr 1
        omega

/-- A stream begins with one request at most. -/
theorem Sentence.unique {other : HttpRequest} {m : Nat} (h : Sentence request (data.take n))
    (hn : n ≤ data.length) (hother : Sentence other (data.take m)) (hm : m ≤ data.length) :
    request = other ∧ n = m := by
  have hfirst := complete_of_sentence h (data.drop n)
  have hsecond := complete_of_sentence hother (data.drop m)
  rw [List.take_append_drop, List.length_take, Nat.min_eq_left hn] at hfirst
  rw [List.take_append_drop, List.length_take, Nat.min_eq_left hm] at hsecond
  exact Outcome.complete.inj (hfirst.symm.trans hsecond)

/-- The parser accepts the grammar and nothing else. -/
theorem feed_accepts_grammar (data : Bytes) (request : HttpRequest) (n : Nat) :
    (∃ p, feed {} data = (.kComplete, p, data.drop n) ∧ n ≤ data.length ∧ p.request = request) ↔
      n ≤ data.length ∧ Sentence request (data.take n) := by
  rw [← feedAll_eq_complete]
  constructor
  · exact sentence_of_complete
  · rintro ⟨hn, h⟩
    have hall := complete_of_sentence h (data.drop n)
    rwa [List.take_append_drop, List.length_take, Nat.min_eq_left hn] at hall

end HttpRequestParser

end PassionProjects.Arcserve.Protocol
