/-
  PassionProjects.Arcserve.Protocol.Progress

  A parser that is not done takes all that it is given, or at least one byte.
-/

import PassionProjects.Arcserve.Protocol.Feed

namespace PassionProjects.Arcserve.Protocol.HttpRequestParser

variable {p p' : HttpRequestParser} {data left : Bytes} {r : StepResult} {n : Nat}

/-- The request is not complete, and if its body is being read, some of it is missing. -/
structure Unfinished (p : HttpRequestParser) : Prop where
  notDone : p.state ≠ .kDone
  bodyShort : p.state = .kBody → p.request.body.length < p.contentLength.getD 0

theorem unfinished_fresh : Unfinished {} := ⟨by decide, fun h => absurd h (by decide)⟩

theorem unfinished_reset (p : HttpRequestParser) : p.reset.Unfinished := unfinished_fresh

theorem Unfinished.of_state (hstate : p.state = .kRequestLine ∨ p.state = .kHeaders) :
    p.Unfinished := by
  rcases hstate with h | h
  · exact ⟨by rw [h]; decide, fun hbody => absurd (h.symm.trans hbody) (by decide)⟩
  · exact ⟨by rw [h]; decide, fun hbody => absurd (h.symm.trans hbody) (by decide)⟩

/-- What a step of an unfinished parser leaves. -/
def Progress (data : Bytes) : StepResult × HttpRequestParser × Bytes → Prop
  | (.kNeedMoreData, p, left) => p.Unfinished ∧ left = []
  | (.kAdvanced, p, left) => left.length < data.length ∧ (p.state = .kDone ∨ p.Unfinished)
  | (.kFailed, _, _) => True

theorem parseRequestLine_progress (h : p.state = .kRequestLine) (data : Bytes) :
    Progress data (p.parseRequestLine data) := by
  have htaken : ∀ (q : HttpRequestParser) (line rest : Bytes), rest.length < data.length →
      Progress data (leaving rest (clearLine (q.finishRequestLine line))) := by
    intro q line rest hlt
    rcases htake : q.takeRequestLine line with ⟨r, q'⟩
    obtain ⟨-, ⟨rfl, hstate, -⟩ | rfl⟩ := takeRequestLine_state htake
    · rw [show clearLine (q.finishRequestLine line) = (.kAdvanced, q') from htake]
      exact ⟨hlt, Or.inr (.of_state (Or.inr hstate))⟩
    · rw [show clearLine (q.finishRequestLine line) = (.kFailed, q') from htake]
      trivial
  unfold parseRequestLine
  split
  · exact htaken p _ _ (tail_lt_of_split ‹_›)
  · split
    · split
      · trivial
      · exact htaken _ _ _ (drop_lt_of_crlf ‹_›)
    · dsimp only
      split
      · trivial
      · exact ⟨.of_state (Or.inl h), rfl⟩

/-- A turn of `parse_headers` ends in the header section, in the body or at the end. -/
theorem takeHeaderLine_unfinished (h : p.state = .kHeaders) {line : Bytes}
    (htake : p.takeHeaderLine line = (.kAdvanced, p')) : p'.state = .kDone ∨ p'.Unfinished := by
  have hstart : ∀ length, ((clearLine (p.startBody length)).2.state = .kDone ∨
      (clearLine (p.startBody length)).2.Unfinished) := fun length => by
    by_cases hzero : length = 0
    · exact Or.inl (by simp [clearLine, startBody, hzero])
    · refine Or.inr ⟨?_, fun _ => ?_⟩
      · simp [clearLine, startBody, hzero]
      · show 0 < length
        omega
  obtain ⟨-, hfail | ⟨-, ⟨rfl, -⟩ | ⟨-, hstate, -⟩⟩⟩ := takeHeaderLine_state htake
  · exact absurd hfail (by simp)
  · have hfinish : clearLine p.finishHeaders = (.kAdvanced, p') := htake
    unfold finishHeaders at hfinish
    repeat' split at hfinish
    all_goals
      first
        | exact (Prod.mk.inj hfinish).2 ▸ hstart _
        | exact absurd (Prod.mk.inj hfinish).1 (by simp [failStep])
  · exact Or.inr (.of_state (Or.inr (hstate.trans h)))

theorem parseHeaderLine_progress (h : p.state = .kHeaders) (data : Bytes) :
    Progress data (p.parseHeaderLine data) := by
  have htaken : ∀ (q : HttpRequestParser) (line rest : Bytes), q.state = .kHeaders →
      rest.length < data.length →
      Progress data (leaving rest (clearLine (q.consumeHeaderLine line))) := by
    intro q line rest hq hlt
    rcases htake : q.takeHeaderLine line with ⟨r, q'⟩
    rw [show clearLine (q.consumeHeaderLine line) = (r, q') from htake]
    obtain ⟨-, rfl | ⟨rfl, -⟩⟩ := takeHeaderLine_state htake
    · trivial
    · exact ⟨hlt, takeHeaderLine_unfinished hq htake⟩
  unfold parseHeaderLine
  split
  · exact htaken p _ _ h (tail_lt_of_split ‹_›)
  · split
    · dsimp only
      split
      · trivial
      · exact ⟨.of_state (Or.inr h), rfl⟩
    · dsimp only
      split
      · trivial
      · exact htaken _ _ _ h (drop_lt_of_crlf ‹_›)

theorem parseHeadersLoop_progress (h : p.state = .kHeaders) (hn : data.length < n) :
    Progress data (parseHeadersLoop n p data) := by
  induction n generalizing p data with
  | zero => exact absurd hn (Nat.not_lt_zero _)
  | succ n ih =>
      have hline := parseHeaderLine_progress h data
      unfold parseHeadersLoop
      rcases hstep : p.parseHeaderLine data with ⟨r, p₁, left₁⟩
      rw [hstep] at hline
      cases r with
      | kNeedMoreData => exact hline
      | kFailed => exact hline
      | kAdvanced =>
          obtain ⟨hlt, hstate⟩ := hline
          dsimp only
          split
          · have hrest : Progress left₁ (parseHeadersLoop n p₁ left₁) := ih ‹_› (by omega)
            rcases hloop : parseHeadersLoop n p₁ left₁ with ⟨r₂, p₂, left₂⟩
            rw [hloop] at hrest
            cases r₂ with
            | kNeedMoreData => exact hrest
            | kFailed => exact hrest
            | kAdvanced => exact ⟨Nat.lt_trans hrest.1 hlt, hrest.2⟩
          · exact ⟨hlt, hstate⟩

theorem parseBody_progress (h : p.Unfinished) (hstate : p.state = .kBody) (data : Bytes) :
    Progress data (p.parseBody data) := by
  have hshort := h.bodyShort hstate
  unfold parseBody
  dsimp only
  split
  · rename_i hmore
    rw [List.length_append, List.length_take] at hmore
    refine ⟨⟨h.notDone, fun _ => ?_⟩, ?_⟩
    · rw [List.length_append, List.length_take]
      exact hmore
    · exact List.drop_eq_nil_of_le (by omega)
  · rename_i hfull
    rw [List.length_append, List.length_take] at hfull
    refine ⟨?_, Or.inl rfl⟩
    rw [List.length_drop]
    omega

theorem dispatch_progress (h : p.Unfinished) (data : Bytes) : Progress data (p.dispatch data) := by
  unfold dispatch
  split
  · exact parseRequestLine_progress ‹_› data
  · exact parseHeadersLoop_progress ‹_› (Nat.lt_succ_self _)
  · exact parseBody_progress h ‹_› data
  · exact absurd ‹_› h.notDone

/-- What feeding an unfinished parser leaves. -/
def Fed (data : Bytes) : ParseStatus × HttpRequestParser × Bytes → Prop
  | (.kNeedMoreData, p, left) => p.Unfinished ∧ left = []
  | (.kComplete, _, left) => left.length < data.length
  | (.kError, _, _) => True

theorem feedLoop_progress (h : p.Unfinished) (hn : turnsLeft p.state ≤ n) :
    Fed data (feedLoop n p data) := by
  induction n generalizing p data with
  | zero =>
      have hpos : 0 < turnsLeft p.state := by cases p.state <;> decide
      omega
  | succ n ih =>
      have hturn := dispatch_progress h data
      unfold feedLoop
      rcases hstep : p.dispatch data with ⟨r, p₁, left₁⟩
      rw [hstep] at hturn
      cases r with
      | kNeedMoreData => exact hturn
      | kFailed => trivial
      | kAdvanced =>
          obtain ⟨hlt, hstate⟩ := hturn
          dsimp only
          split
          · exact hlt
          · have hless := (dispatch_advanced hstep).resolve_left ‹_›
            have hrest : Fed left₁ (feedLoop n p₁ left₁) :=
              ih (hstate.resolve_left ‹_›) (by omega)
            rcases hloop : feedLoop n p₁ left₁ with ⟨s, p₂, left₂⟩
            rw [hloop] at hrest
            cases s with
            | kNeedMoreData => exact hrest
            | kError => trivial
            | kComplete => exact Nat.lt_trans hrest hlt

/-- Feeding an unfinished parser takes everything, completes a request with at least
    a byte, or fails. -/
theorem feed_progress (h : p.Unfinished) (data : Bytes) : Fed data (p.feed data) :=
  feedLoop_progress h (by cases p.state <;> decide)

end PassionProjects.Arcserve.Protocol.HttpRequestParser
