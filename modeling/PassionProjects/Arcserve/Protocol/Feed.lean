/-
  PassionProjects.Arcserve.Protocol.Feed

  Feeding a parser chunk after chunk.

  `feedAll` stops at the first chunk that completes or fails the request.  It is
  one step of the parser and then the rest: `feed` loops over the states and
  `parse_headers` over the lines, and both go on with what is left of the chunk.
-/

import PassionProjects.Arcserve.Protocol.Lines

namespace PassionProjects.Arcserve.Protocol

/-- How the chunks of a stream end.  `consumed` counts the bytes of the whole
    stream; the rest belongs to the next request. -/
inductive Outcome where
  | needMoreData
  | complete (request : HttpRequest) (consumed : Nat)
  | error (statusCode : Nat)
  deriving DecidableEq, Repr

namespace HttpRequestParser

open PassionProjects.Terminator

/-- Feed chunk after chunk, stopping at `kComplete` or `kError`. -/
def feedAll (p : HttpRequestParser) (consumed : Nat) : List Bytes → Outcome
  | [] => .needMoreData
  | chunk :: rest =>
    match p.feed chunk with
    | (.kNeedMoreData, p, left) => p.feedAll (consumed + (chunk.length - left.length)) rest
    | (.kComplete, p, left) => .complete p.request (consumed + (chunk.length - left.length))
    | (.kError, p, _) => .error p.errorResponse.statusCode

variable {p p' : HttpRequestParser} {data left : Bytes} {r : StepResult} {n m k : Nat}

-- ============================================================================
-- What a step leaves
-- ============================================================================

theorem tail_lt_of_split (h : p.terminatorSplit data = true) : data.tail.length < data.length := by
  obtain ⟨-, hhead⟩ := (p.terminatorSplit_iff data).mp h
  cases data with
  | nil => exact absurd hhead (by simp)
  | cons b rest => simp

theorem drop_lt_of_crlf (h : findCrlf data = some n) :
    (data.drop (n + 2)).length < data.length := by
  have hle := find_length h
  rw [List.length_drop]
  omega

theorem parseHeaderLine_left (h : p.parseHeaderLine data = (r, p', left)) :
    left <:+ data ∧ (r = .kAdvanced → left.length < data.length) := by
  unfold parseHeaderLine leaving at h
  split at h
  · obtain ⟨rfl, rfl, rfl⟩ := by simpa using h
    have hlt := tail_lt_of_split ‹_›
    exact ⟨List.tail_suffix _, fun _ => hlt⟩
  · split at h
    · dsimp only at h
      split at h
      · obtain ⟨rfl, rfl, rfl⟩ := by simpa using h
        exact ⟨List.suffix_rfl, fun hr => absurd hr (by simp [failStep])⟩
      · obtain ⟨rfl, rfl, rfl⟩ := by simpa using h
        exact ⟨List.nil_suffix, fun hr => absurd hr (by simp)⟩
    · dsimp only at h
      split at h
      · obtain ⟨rfl, rfl, rfl⟩ := by simpa using h
        exact ⟨List.suffix_rfl, fun hr => absurd hr (by simp [failStep])⟩
      · obtain ⟨rfl, rfl, rfl⟩ := by simpa using h
        have hlt := drop_lt_of_crlf ‹_›
        exact ⟨List.drop_suffix _ _, fun _ => by simpa using hlt⟩

theorem parseRequestLine_left (h : p.parseRequestLine data = (r, p', left)) :
    left <:+ data := by
  unfold parseRequestLine leaving at h
  split at h
  · obtain ⟨rfl, rfl, rfl⟩ := by simpa using h
    exact List.tail_suffix _
  · split at h
    · split at h
      · obtain ⟨rfl, rfl, rfl⟩ := by simpa using h
        exact List.suffix_rfl
      · obtain ⟨rfl, rfl, rfl⟩ := by simpa using h
        exact List.drop_suffix _ _
    · dsimp only at h
      split at h
      · obtain ⟨rfl, rfl, rfl⟩ := by simpa using h
        exact List.suffix_rfl
      · obtain ⟨rfl, rfl, rfl⟩ := by simpa using h
        exact List.nil_suffix

theorem parseHeadersLoop_left (h : parseHeadersLoop n p data = (r, p', left)) :
    left <:+ data := by
  induction n generalizing p data with
  | zero =>
      obtain ⟨rfl, rfl, rfl⟩ := by simpa [parseHeadersLoop] using h
      exact List.suffix_rfl
  | succ n ih =>
      unfold parseHeadersLoop at h
      cases hstep : p.parseHeaderLine data with
      | mk r₁ x =>
          obtain ⟨p₁, left₁⟩ := x
          have hline := (parseHeaderLine_left hstep).1
          rw [hstep] at h
          cases r₁ with
          | kAdvanced =>
              dsimp only at h
              split at h
              · exact (ih h).trans hline
              · obtain ⟨rfl, rfl, rfl⟩ := by simpa using h
                exact hline
          | kNeedMoreData =>
              obtain ⟨rfl, rfl, rfl⟩ := by simpa using h
              exact hline
          | kFailed =>
              obtain ⟨rfl, rfl, rfl⟩ := by simpa using h
              exact hline

theorem parseBody_left (h : p.parseBody data = (r, p', left)) : left <:+ data := by
  unfold parseBody at h
  dsimp only at h
  split at h
  · obtain ⟨rfl, rfl, rfl⟩ := by simpa using h
    exact List.drop_suffix _ _
  · obtain ⟨rfl, rfl, rfl⟩ := by simpa using h
    exact List.drop_suffix _ _

theorem dispatch_left (h : p.dispatch data = (r, p', left)) : left <:+ data := by
  unfold dispatch at h
  split at h
  · exact parseRequestLine_left h
  · exact parseHeadersLoop_left h
  · exact parseBody_left h
  · obtain ⟨rfl, rfl, rfl⟩ := by simpa using h
    exact List.suffix_rfl

theorem feedLoop_left {s : ParseStatus} (h : feedLoop n p data = (s, p', left)) :
    left <:+ data := by
  induction n generalizing p data with
  | zero =>
      obtain ⟨rfl, rfl, rfl⟩ := by simpa [feedLoop] using h
      exact List.suffix_rfl
  | succ n ih =>
      unfold feedLoop at h
      cases hstep : p.dispatch data with
      | mk r x =>
          obtain ⟨p₁, left₁⟩ := x
          have hle := dispatch_left hstep
          rw [hstep] at h
          cases r with
          | kNeedMoreData =>
              obtain ⟨rfl, rfl, rfl⟩ := by simpa using h
              exact hle
          | kFailed =>
              obtain ⟨rfl, rfl, rfl⟩ := by simpa using h
              exact hle
          | kAdvanced =>
              dsimp only at h
              split at h
              · obtain ⟨rfl, rfl, rfl⟩ := by simpa using h
                exact hle
              · exact (ih h).trans hle

-- ============================================================================
-- The loops go on as long as they need
-- ============================================================================

/-- The loop of `parse_headers` is over before its number is used up. -/
theorem parseHeadersLoop_fuel (hn : data.length < n) (hm : data.length < m) :
    parseHeadersLoop n p data = parseHeadersLoop m p data := by
  induction n generalizing p data m with
  | zero => omega
  | succ n ih =>
      obtain ⟨m, rfl⟩ : ∃ m', m = m' + 1 := ⟨m - 1, by omega⟩
      unfold parseHeadersLoop
      cases hstep : p.parseHeaderLine data with
      | mk r x =>
          obtain ⟨p₁, left₁⟩ := x
          cases r with
          | kAdvanced =>
              have hlt := (parseHeaderLine_left hstep).2 rfl
              dsimp only
              split
              · exact ih (by omega) (by omega)
              · rfl
          | kNeedMoreData => rfl
          | kFailed => rfl

/-- A line that was taken leaves the state of the line scanner for the next one. -/
theorem takeRequestLine_state (h : p.takeRequestLine data = (r, p')) :
    p'.lineBuffer = [] ∧
      (r = .kAdvanced ∧ p'.state = .kHeaders ∧ p'.headerBytesSeen = 0 ∨ r = .kFailed) := by
  unfold takeRequestLine clearLine finishRequestLine at h
  split at h
  · obtain ⟨rfl, rfl⟩ := by simpa using h
    exact ⟨rfl, Or.inr rfl⟩
  · dsimp only at h
    split at h
    · obtain ⟨rfl, rfl⟩ := by simpa using h
      exact ⟨rfl, Or.inr rfl⟩
    · unfold acceptRequestLine at h
      repeat' split at h
      all_goals
        obtain ⟨rfl, rfl⟩ := by simpa using h
        first
          | exact ⟨rfl, Or.inr rfl⟩
          | exact ⟨rfl, Or.inl ⟨rfl, rfl, rfl⟩⟩

theorem addHeader_state {name value : Bytes} (h : clearLine (p.addHeader n name value) = (r, p')) :
    p'.lineBuffer = [] ∧ (r = .kAdvanced ∧ p'.state = p.state ∧
      p'.headerBytesSeen = p.headerBytesSeen + (n + 2) ∨ r = .kFailed) := by
  unfold clearLine addHeader at h
  repeat' split at h
  all_goals
    dsimp only at h
    repeat' split at h
    all_goals
      obtain ⟨rfl, rfl⟩ := by simpa using h
      first
        | exact ⟨rfl, Or.inr rfl⟩
        | exact ⟨rfl, Or.inl ⟨rfl, rfl, rfl⟩⟩

theorem finishHeaders_state (h : clearLine p.finishHeaders = (r, p')) :
    p'.lineBuffer = [] ∧
      (r = .kAdvanced ∧ (p'.state = .kDone ∨ p'.state = .kBody) ∨ r = .kFailed) := by
  have hstart : ∀ length, (p.startBody length).2.state = .kDone ∨
      (p.startBody length).2.state = .kBody := fun length => by
    by_cases hzero : length = 0
    · exact Or.inl (by simp [startBody, hzero])
    · exact Or.inr (by simp [startBody, hzero])
  unfold clearLine finishHeaders at h
  repeat' split at h
  all_goals
    obtain ⟨rfl, rfl⟩ := by simpa using h
    first
      | exact ⟨rfl, Or.inr rfl⟩
      | exact ⟨rfl, Or.inl ⟨rfl, by simpa using hstart _⟩⟩

/-- A header line that was taken: the empty one ends the header section. -/
theorem takeHeaderLine_state (h : p.takeHeaderLine data = (r, p')) :
    p'.lineBuffer = [] ∧ (r = .kFailed ∨ r = .kAdvanced ∧
      (data = [] ∧ (p'.state = .kDone ∨ p'.state = .kBody) ∨
        data ≠ [] ∧ p'.state = p.state ∧
          p'.headerBytesSeen = p.headerBytesSeen + (data.length + 2))) := by
  unfold takeHeaderLine consumeHeaderLine at h
  split at h
  · obtain ⟨hline, ⟨hr, hstate⟩ | hr⟩ := finishHeaders_state h
    · exact ⟨hline, Or.inr ⟨hr, Or.inl ⟨‹_›, hstate⟩⟩⟩
    · exact ⟨hline, Or.inl hr⟩
  · split at h
    · obtain ⟨rfl, rfl⟩ := by simpa [clearLine] using h
      exact ⟨rfl, Or.inl rfl⟩
    · split at h
      · obtain ⟨rfl, rfl⟩ := by simpa [clearLine] using h
        exact ⟨rfl, Or.inl rfl⟩
      · obtain ⟨rfl, rfl⟩ := by simpa [clearLine] using h
        exact ⟨rfl, Or.inl rfl⟩
      · dsimp only at h
        split at h
        · obtain ⟨rfl, rfl⟩ := by simpa [clearLine] using h
          exact ⟨rfl, Or.inl rfl⟩
        · obtain ⟨hline, ⟨hr, hstate⟩ | hr⟩ := addHeader_state h
          · exact ⟨hline, Or.inr ⟨hr, Or.inr ⟨‹_›, hstate⟩⟩⟩
          · exact ⟨hline, Or.inl hr⟩

/-- `parse_request_line` advances by a line that was taken. -/
theorem parseRequestLine_advanced (h : p.parseRequestLine data = (.kAdvanced, p', left)) :
    p'.state = .kHeaders := by
  unfold parseRequestLine leaving at h
  have htaken : ∀ (q : HttpRequestParser) (line : Bytes),
      (q.takeRequestLine line).1 = .kAdvanced → (q.takeRequestLine line).2.state = .kHeaders :=
    fun q line hr => by
      rcases (takeRequestLine_state (rfl : q.takeRequestLine line = (_, _))).2 with
        ⟨-, hstate, -⟩ | hfail
      · exact hstate
      · exact absurd (hr.symm.trans hfail) (by simp)
  split at h
  · obtain ⟨hr, rfl, -⟩ := by simpa using h
    exact htaken _ _ hr
  · split at h
    · split at h
      · exact absurd h (by simp [failStep])
      · obtain ⟨hr, rfl, -⟩ := by simpa using h
        exact htaken _ _ hr
    · dsimp only at h
      split at h
      · exact absurd h (by simp [failStep])
      · exact absurd h (by simp)

theorem parseHeaderLine_advanced (h : p.parseHeaderLine data = (.kAdvanced, p', left)) :
    p'.state = p.state ∨ p'.state = .kDone ∨ p'.state = .kBody := by
  have htaken : ∀ (q : HttpRequestParser) (line : Bytes), q.state = p.state →
      (q.takeHeaderLine line).1 = .kAdvanced → (q.takeHeaderLine line).2.state = p.state ∨
        (q.takeHeaderLine line).2.state = .kDone ∨ (q.takeHeaderLine line).2.state = .kBody :=
    fun q line hq hr => by
      rcases (takeHeaderLine_state (rfl : q.takeHeaderLine line = (_, _))).2 with
        hfail | ⟨-, ⟨-, hstate⟩ | ⟨-, hstate, -⟩⟩
      · exact absurd (hr.symm.trans hfail) (by simp)
      · exact Or.inr hstate
      · exact Or.inl (hstate.trans hq)
  unfold parseHeaderLine leaving at h
  split at h
  · obtain ⟨hr, rfl, -⟩ := by simpa using h
    exact htaken _ _ rfl hr
  · split at h
    · dsimp only at h
      split at h
      · exact absurd h (by simp [failStep])
      · exact absurd h (by simp)
    · dsimp only at h
      split at h
      · exact absurd h (by simp [failStep])
      · obtain ⟨hr, rfl, -⟩ := by simpa using h
        exact htaken (p.withLine _) _ rfl hr

theorem parseHeadersLoop_advanced (hp : p.state = .kHeaders)
    (h : parseHeadersLoop n p data = (.kAdvanced, p', left)) :
    p'.state = .kDone ∨ p'.state = .kBody := by
  induction n generalizing p data with
  | zero => exact absurd h (by simp [parseHeadersLoop])
  | succ n ih =>
      unfold parseHeadersLoop at h
      cases hstep : p.parseHeaderLine data with
      | mk r x =>
          obtain ⟨p₁, left₁⟩ := x
          rw [hstep] at h
          cases r with
          | kAdvanced =>
              dsimp only at h
              split at h
              · exact ih ‹_› h
              · obtain ⟨rfl, rfl⟩ := by simpa using h
                refine (parseHeaderLine_advanced hstep).resolve_left fun hstate => ?_
                exact ‹¬ _› (hstate.trans hp)
          | kNeedMoreData => exact absurd h (by simp)
          | kFailed => exact absurd h (by simp)

/-- How many turns of the loop of `feed` a state is away from its end. -/
def turnsLeft : State → Nat
  | .kRequestLine => 3
  | .kHeaders => 2
  | .kBody => 1
  | .kDone => 1

theorem dispatch_advanced (h : p.dispatch data = (.kAdvanced, p', left)) :
    p'.state = .kDone ∨ turnsLeft p'.state < turnsLeft p.state := by
  unfold dispatch at h
  split at h
  · rw [parseRequestLine_advanced h, ‹p.state = _›]
    exact Or.inr (by decide)
  · rcases parseHeadersLoop_advanced ‹_› h with hstate | hstate
    · exact Or.inl hstate
    · rw [hstate, ‹p.state = _›]
      exact Or.inr (by decide)
  · unfold parseBody at h
    dsimp only at h
    split at h
    · exact absurd h (by simp)
    · obtain ⟨rfl, -⟩ := by simpa using h
      exact Or.inl rfl
  · obtain ⟨rfl, -⟩ := by simpa using h
    exact Or.inl ‹_›

/-- The loop of `feed` is over before its number is used up. -/
theorem feedLoop_fuel (hn : turnsLeft p.state ≤ n) (hm : turnsLeft p.state ≤ m) :
    feedLoop n p data = feedLoop m p data := by
  have hpos : 0 < turnsLeft p.state := by cases p.state <;> decide
  induction n generalizing p data m with
  | zero => omega
  | succ n ih =>
      obtain ⟨m, rfl⟩ : ∃ m', m = m' + 1 := ⟨m - 1, by omega⟩
      unfold feedLoop
      cases hstep : p.dispatch data with
      | mk r x =>
          obtain ⟨p₁, left₁⟩ := x
          cases r with
          | kAdvanced =>
              dsimp only
              split
              · rfl
              · have hlt := (dispatch_advanced hstep).resolve_left ‹_›
                exact ih (by omega) (by omega) (by cases p₁.state <;> decide)
          | kNeedMoreData => rfl
          | kFailed => rfl

-- ============================================================================
-- One step at a time
-- ============================================================================

/-- How feeding goes on after a step on `chunk`. -/
def afterStep (consumed : Nat) (chunk : Bytes) (rest : List Bytes) :
    StepResult × HttpRequestParser × Bytes → Outcome
  | (.kNeedMoreData, p, left) => p.feedAll (consumed + (chunk.length - left.length)) rest
  | (.kFailed, p, _) => .error p.errorResponse.statusCode
  | (.kAdvanced, p, left) =>
    if p.state = .kDone then .complete p.request (consumed + (chunk.length - left.length))
    else p.feedAll (consumed + (chunk.length - left.length)) (left :: rest)

variable {chunk : Bytes} {rest : List Bytes}

theorem feedAll_dispatch (p : HttpRequestParser) (consumed : Nat) (chunk : Bytes)
    (rest : List Bytes) :
    p.feedAll consumed (chunk :: rest) = afterStep consumed chunk rest (p.dispatch chunk) := by
  have hturns : ∀ q : HttpRequestParser, turnsLeft q.state ≤ 3 := fun q => by
    cases q.state <;> decide
  rw [feedAll, feed, feedLoop]
  cases hstep : p.dispatch chunk with
  | mk r x =>
      obtain ⟨p₁, left₁⟩ := x
      cases r with
      | kNeedMoreData => rfl
      | kFailed => rfl
      | kAdvanced =>
          unfold afterStep
          dsimp only
          by_cases hdone : p₁.state = .kDone
          · simp only [hdone, if_true]
          · have hlt := (dispatch_advanced hstep).resolve_left hdone
            have hle := hturns p
            have hleft := (dispatch_left hstep).length_le
            simp only [hdone, if_false]
            rw [feedAll, feed, feedLoop_fuel (m := 3) (by omega) (hturns p₁)]
            cases hloop : feedLoop 3 p₁ left₁ with
            | mk s y =>
                obtain ⟨p₂, left₂⟩ := y
                have hleft' := (feedLoop_left hloop).length_le
                have hsum : consumed + (chunk.length - left₂.length) =
                    consumed + (chunk.length - left₁.length) + (left₁.length - left₂.length) := by
                  omega
                cases s with
                | kNeedMoreData => simp only [hsum]
                | kComplete => simp only [hsum]
                | kError => rfl

theorem feedAll_requestLine (h : p.state = .kRequestLine) :
    p.feedAll k (chunk :: rest) = afterStep k chunk rest (p.parseRequestLine chunk) := by
  rw [feedAll_dispatch, dispatch, h]

theorem feedAll_body (h : p.state = .kBody) :
    p.feedAll k (chunk :: rest) = afterStep k chunk rest (p.parseBody chunk) := by
  rw [feedAll_dispatch, dispatch, h]

theorem feedAll_headers (h : p.state = .kHeaders) :
    p.feedAll k (chunk :: rest) = afterStep k chunk rest (p.parseHeaderLine chunk) := by
  have hdispatch : ∀ (q : HttpRequestParser) (data : Bytes), q.state = .kHeaders →
      q.dispatch data = parseHeadersLoop (data.length + 1) q data := fun q data hq => by
    rw [dispatch, hq]
    rfl
  rw [feedAll_dispatch, hdispatch p chunk h, parseHeadersLoop]
  cases hstep : p.parseHeaderLine chunk with
  | mk r x =>
      obtain ⟨p₁, left₁⟩ := x
      cases r with
      | kNeedMoreData => rfl
      | kFailed => rfl
      | kAdvanced =>
          dsimp only
          by_cases hheaders : p₁.state = .kHeaders
          · have hlt := (parseHeaderLine_left hstep).2 rfl
            simp only [hheaders, if_true]
            rw [parseHeadersLoop_fuel (m := left₁.length + 1) hlt (Nat.lt_succ_self _),
              ← hdispatch p₁ left₁ hheaders]
            show _ = if p₁.state = .kDone then _ else _
            rw [if_neg (by rw [hheaders]; simp), feedAll_dispatch]
            cases hnext : p₁.dispatch left₁ with
            | mk r' y =>
                obtain ⟨p₂, left₂⟩ := y
                have hleft := (dispatch_left hnext).length_le
                have hsum : k + (chunk.length - left₂.length) =
                    k + (chunk.length - left₁.length) + (left₁.length - left₂.length) := by
                  omega
                cases r' with
                | kNeedMoreData => simp only [afterStep, hsum]
                | kAdvanced => simp only [afterStep, hsum]
                | kFailed => rfl
          · simp only [hheaders, if_false]

-- ============================================================================
-- Lines across chunks
-- ============================================================================

/-- How feeding goes on after a line was taken, from a stream of which `left` is
    left in this chunk. -/
def afterLine (consumed : Nat) (left : Bytes) (rest : List Bytes) :
    StepResult × HttpRequestParser → Outcome
  | (.kAdvanced, p) =>
    if p.state = .kDone then .complete p.request consumed else p.feedAll consumed (left :: rest)
  | (_, p) => .error p.errorResponse.statusCode

theorem afterStep_leaving {x : StepResult × HttpRequestParser} (hx : x.1 ≠ .kNeedMoreData)
    (left : Bytes) :
    afterStep k chunk rest (leaving left x) =
      afterLine (k + (chunk.length - left.length)) left rest x := by
  obtain ⟨r, p⟩ := x
  cases r with
  | kNeedMoreData => exact absurd rfl hx
  | kAdvanced => rfl
  | kFailed => rfl

theorem takeRequestLine_ne (p : HttpRequestParser) (line : Bytes) :
    (p.takeRequestLine line).1 ≠ .kNeedMoreData := by
  rcases (takeRequestLine_state (rfl : p.takeRequestLine line = (_, _))).2 with ⟨hr, -⟩ | hr
  · exact fun h => absurd (h.symm.trans hr) (by simp)
  · exact fun h => absurd (h.symm.trans hr) (by simp)

theorem takeHeaderLine_ne (p : HttpRequestParser) (line : Bytes) :
    (p.takeHeaderLine line).1 ≠ .kNeedMoreData := by
  rcases (takeHeaderLine_state (rfl : p.takeHeaderLine line = (_, _))).2 with hr | ⟨hr, -⟩
  · exact fun h => absurd (h.symm.trans hr) (by simp)
  · exact fun h => absurd (h.symm.trans hr) (by simp)

variable {l : Bytes}

/-- The number of bytes of a chunk that belong to a line which began before it. -/
theorem consumed_line (hl : findCrlf l = none) (hn : findCrlf (l ++ chunk) = some n) :
    chunk.length - ((l ++ chunk).drop (n + 2)).length + l.length = n + 2 := by
  have hle := find_length hn
  have hlt := length_lt_of_find_append hl hn
  rw [List.length_append] at hle
  rw [List.length_drop, List.length_append]
  omega

/-- Feeding a parser that has buffered the beginning `l` of the request line. -/
theorem feedAll_requestLine_eq (hstate : p.state = .kRequestLine) (hl : findCrlf l = none)
    (k : Nat) (chunk : Bytes) (rest : List Bytes) :
    (p.withLine l).feedAll (k + l.length) (chunk :: rest) = match findCrlf (l ++ chunk) with
      | some n =>
        if n < l.length ∨ n ≤ kMaxRequestLineLength then
          afterLine (k + (n + 2)) ((l ++ chunk).drop (n + 2)) rest
            (p.takeRequestLine ((l ++ chunk).take n))
        else .error 400
      | none =>
        if chunk ≠ [cr] ∧ kMaxRequestLineLength < (l ++ chunk).length then .error 400
        else (p.withLine (l ++ chunk)).feedAll (k + (l ++ chunk).length) rest := by
  rw [feedAll_requestLine (p := p.withLine l) hstate, parseRequestLine_eq (p := p.withLine l) hl]
  simp only [withLine_lineBuffer, withLine_withLine, takeRequestLine_withLine]
  cases hn : findCrlf (l ++ chunk) with
  | some n =>
      dsimp only
      split
      · have hconsumed := consumed_line hl hn
        rw [afterStep_leaving (takeRequestLine_ne _ _)]
        congr 1
        omega
      · rfl
  | none =>
      dsimp only
      by_cases hcap : chunk ≠ [cr] ∧ kMaxRequestLineLength < (l ++ chunk).length
      · rw [if_pos hcap]
        exact congrArg (afterStep _ _ _) (if_pos hcap)
      · rw [if_neg hcap]
        refine (congrArg (afterStep _ _ _) (if_neg hcap)).trans ?_
        show feedAll _ (k + l.length + (chunk.length - 0)) rest = _
        rw [List.length_append, Nat.sub_zero, Nat.add_assoc]

/-- Feeding a parser that has buffered the beginning `l` of a header line. -/
theorem feedAll_headers_eq (hstate : p.state = .kHeaders) (hl : findCrlf l = none)
    (k : Nat) (chunk : Bytes) (rest : List Bytes) :
    (p.withLine l).feedAll (k + l.length) (chunk :: rest) = match findCrlf (l ++ chunk) with
      | some n =>
        if n < l.length ∨ n = 0 ∨ p.headerBytesSeen + n + 2 ≤ kMaxHeaderBytes then
          afterLine (k + (n + 2)) ((l ++ chunk).drop (n + 2)) rest
            (p.takeHeaderLine ((l ++ chunk).take n))
        else .error 431
      | none =>
        if ¬ (l = [] ∧ (chunk = [] ∨ chunk = [cr])) ∧
            kMaxHeaderBytes < p.headerBytesSeen + (l ++ chunk).length then .error 431
        else (p.withLine (l ++ chunk)).feedAll (k + (l ++ chunk).length) rest := by
  rw [feedAll_headers (p := p.withLine l) hstate, parseHeaderLine_eq (p := p.withLine l) hl]
  simp only [withLine_lineBuffer, withLine_withLine, takeHeaderLine_withLine,
    withLine_headerBytesSeen]
  cases hn : findCrlf (l ++ chunk) with
  | some n =>
      dsimp only
      split
      · have hconsumed := consumed_line hl hn
        rw [afterStep_leaving (takeHeaderLine_ne _ _)]
        congr 1
        omega
      · rfl
  | none =>
      dsimp only
      by_cases hcap : ¬ (l = [] ∧ (chunk = [] ∨ chunk = [cr])) ∧
          kMaxHeaderBytes < p.headerBytesSeen + (l ++ chunk).length
      · rw [if_pos hcap]
        exact congrArg (afterStep _ _ _) (if_pos hcap)
      · rw [if_neg hcap]
        refine (congrArg (afterStep _ _ _) (if_neg hcap)).trans ?_
        show feedAll _ (k + l.length + (chunk.length - 0)) rest = _
        rw [List.length_append, Nat.sub_zero, Nat.add_assoc]

/-- The parser with more of the body. -/
def withBody (p : HttpRequestParser) (bytes : Bytes) : HttpRequestParser :=
  { p with request := { p.request with body := p.request.body ++ bytes } }

/-- How much of the body is still to come. -/
def bodyLeft (p : HttpRequestParser) : Nat := p.contentLength.getD 0 - p.request.body.length

/-- Feeding a parser that reads the body. -/
theorem feedAll_body_eq (hstate : p.state = .kBody) :
    p.feedAll k (chunk :: rest) =
      if chunk.length < p.bodyLeft then (p.withBody chunk).feedAll (k + chunk.length) rest
      else .complete (p.withBody (chunk.take p.bodyLeft)).request (k + p.bodyLeft) := by
  rw [feedAll_body hstate, parseBody]
  by_cases hlt : chunk.length < p.bodyLeft
  · have hmin : min p.bodyLeft chunk.length = chunk.length := Nat.min_eq_right (Nat.le_of_lt hlt)
    have hshort : (p.request.body ++ chunk).length < p.contentLength.getD 0 := by
      rw [List.length_append]
      unfold bodyLeft at hlt
      omega
    rw [← bodyLeft, hmin, List.take_length, List.drop_length]
    simp only [hlt, hshort, if_true]
    rfl
  · have hmin : min p.bodyLeft chunk.length = p.bodyLeft := Nat.min_eq_left (Nat.not_lt.mp hlt)
    have hfull : ¬ (p.request.body ++ chunk.take p.bodyLeft).length < p.contentLength.getD 0 := by
      rw [List.length_append, List.length_take, hmin]
      unfold bodyLeft
      omega
    have hsum : k + (chunk.length - (chunk.drop p.bodyLeft).length) = k + p.bodyLeft := by
      rw [List.length_drop]
      omega
    rw [← bodyLeft, hmin]
    simp only [hlt, hfull, if_false, afterStep, if_true, hsum]
    rfl

/-- The body does not depend on how it is cut. -/
theorem feedAll_body_flatten (hstate : p.state = .kBody) (chunk : Bytes) (rest : List Bytes) :
    p.feedAll k (chunk :: rest) = p.feedAll k [chunk ++ rest.flatten] := by
  induction rest generalizing p chunk k with
  | nil => simp
  | cons next rest ih =>
      have hleft : (p.withBody chunk).bodyLeft = p.bodyLeft - chunk.length := by
        simp only [bodyLeft, withBody, List.length_append]
        omega
      rw [feedAll_body_eq hstate, feedAll_body_eq hstate, List.flatten_cons]
      by_cases hlt : chunk.length < p.bodyLeft
      · rw [if_pos hlt, ih (p := p.withBody chunk) hstate,
          feedAll_body_eq (p := p.withBody chunk) hstate, hleft]
        generalize next ++ rest.flatten = more
        rw [List.length_append]
        by_cases hmore : more.length < p.bodyLeft - chunk.length
        · rw [if_pos hmore, if_pos (by omega)]
          rfl
        · have hsum : k + chunk.length + (p.bodyLeft - chunk.length) = k + p.bodyLeft := by omega
          rw [if_neg hmore, if_neg (by omega), hsum, List.take_append,
            List.take_of_length_le (Nat.le_of_lt hlt)]
          simp only [withBody, List.append_assoc]
      · rw [if_neg hlt, if_neg (by rw [List.length_append]; omega),
          List.take_append_of_le_length (Nat.not_lt.mp hlt)]

end HttpRequestParser

end PassionProjects.Arcserve.Protocol
