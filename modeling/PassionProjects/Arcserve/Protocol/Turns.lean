/-
  PassionProjects.Arcserve.Protocol.Turns

  What every turn of the parser keeps, feeding keeps.

  A turn is what the innermost loop of the parser does at once: the request line, one
  header line, or what has arrived of the body.  `feed` is a sequence of turns on
  what is left of the chunk.
-/

import PassionProjects.Arcserve.Protocol.Feed

namespace PassionProjects.Arcserve.Protocol.HttpRequestParser

variable {p p' : HttpRequestParser} {data left : Bytes} {r : StepResult} {n k : Nat}

/-- One turn of the parser. -/
def turn (p : HttpRequestParser) (data : Bytes) : StepResult × HttpRequestParser × Bytes :=
  match p.state with
  | .kRequestLine => p.parseRequestLine data
  | .kHeaders => p.parseHeaderLine data
  | .kBody => p.parseBody data
  | .kDone => (.kAdvanced, p, data)

/-- What a turn that does not fail keeps, of the parser and of what is left to it. -/
def TurnKeeps (I : HttpRequestParser → Bytes → Prop) : Prop :=
  ∀ {p p' : HttpRequestParser} {data left : Bytes} {r : StepResult},
    I p data → p.turn data = (r, p', left) → r ≠ .kFailed → I p' left

variable {I : HttpRequestParser → Bytes → Prop}

theorem parseHeadersLoop_keeps (hturn : TurnKeeps I) (hstate : p.state = .kHeaders) (hI : I p data)
    (h : parseHeadersLoop n p data = (r, p', left)) (hr : r ≠ .kFailed) : I p' left := by
  induction n generalizing p data with
  | zero =>
      obtain ⟨-, rfl, rfl⟩ := by simpa [parseHeadersLoop] using h
      exact hI
  | succ n ih =>
      unfold parseHeadersLoop at h
      rcases hstep : p.parseHeaderLine data with ⟨r₁, p₁, left₁⟩
      have hnext : r₁ ≠ .kFailed → I p₁ left₁ :=
        hturn hI (by rw [turn, hstate]; exact hstep)
      rw [hstep] at h
      cases r₁ with
      | kAdvanced =>
          dsimp only at h
          split at h
          · exact ih ‹_› (hnext (by simp)) h
          · obtain ⟨-, rfl, rfl⟩ := by simpa using h
            exact hnext (by simp)
      | kNeedMoreData =>
          obtain ⟨-, rfl, rfl⟩ := by simpa using h
          exact hnext (by simp)
      | kFailed =>
          obtain ⟨rfl, -, -⟩ := by simpa using h
          exact absurd rfl hr

theorem dispatch_keeps (hturn : TurnKeeps I) (hI : I p data)
    (h : p.dispatch data = (r, p', left)) (hr : r ≠ .kFailed) : I p' left := by
  unfold dispatch at h
  split at h
  · exact hturn hI (by rw [turn, ‹p.state = _›]; exact h) hr
  · exact parseHeadersLoop_keeps hturn ‹_› hI h hr
  · exact hturn hI (by rw [turn, ‹p.state = _›]; exact h) hr
  · exact hturn hI (by rw [turn, ‹p.state = _›]; exact h) hr

theorem feedLoop_keeps {s : ParseStatus} (hturn : TurnKeeps I) (hI : I p data)
    (h : feedLoop n p data = (s, p', left)) (hs : s ≠ .kError) : I p' left := by
  induction n generalizing p data with
  | zero =>
      obtain ⟨-, rfl, rfl⟩ := by simpa [feedLoop] using h
      exact hI
  | succ n ih =>
      unfold feedLoop at h
      rcases hstep : p.dispatch data with ⟨r, p₁, left₁⟩
      have hnext : r ≠ .kFailed → I p₁ left₁ := dispatch_keeps hturn hI hstep
      rw [hstep] at h
      cases r with
      | kNeedMoreData =>
          obtain ⟨-, rfl, rfl⟩ := by simpa using h
          exact hnext (by simp)
      | kFailed =>
          obtain ⟨rfl, -, -⟩ := by simpa using h
          exact absurd rfl hs
      | kAdvanced =>
          dsimp only at h
          split at h
          · obtain ⟨-, rfl, rfl⟩ := by simpa using h
            exact hnext (by simp)
          · exact ih (hnext (by simp)) h

theorem feed_keeps {s : ParseStatus} (hturn : TurnKeeps I) (hI : I p data)
    (h : p.feed data = (s, p', left)) (hs : s ≠ .kError) : I p' left :=
  feedLoop_keeps hturn hI h hs

/-- What every turn keeps holds of the parser that completes a request. -/
theorem feedAll_keeps {J : HttpRequestParser → Prop} (hturn : TurnKeeps fun p _ => J p)
    {chunks : List Bytes} {request : HttpRequest} (hJ : J p)
    (h : p.feedAll k chunks = .complete request n) : ∃ q, J q ∧ q.request = request := by
  induction chunks generalizing p k with
  | nil => exact absurd h (by simp [feedAll])
  | cons chunk rest ih =>
      rcases hfeed : p.feed chunk with ⟨s, q, left⟩
      have hnext : s ≠ .kError → J q := feed_keeps hturn hJ hfeed
      rw [feedAll, hfeed] at h
      cases s with
      | kNeedMoreData => exact ih (hnext (by simp)) h
      | kComplete => exact ⟨q, hnext (by simp), (Outcome.complete.inj h).1⟩
      | kError => exact absurd h (by simp)

-- ============================================================================
-- What a turn does
-- ============================================================================

/-- A turn on the request line buffers what has arrived, or it takes the line. -/
theorem parseRequestLine_turn (h : p.parseRequestLine data = (r, p', left)) (hr : r ≠ .kFailed) :
    (r = .kNeedMoreData ∧ left = [] ∧ p' = p.withLine (p.lineBuffer ++ data) ∧
        (data = [cr] ∨ p.lineBuffer.length + data.length ≤ kMaxRequestLineLength)) ∨
      ∃ line, p.takeRequestLine line = (.kAdvanced, p') := by
  have htaken : ∀ {q : HttpRequestParser} {line rest : Bytes},
      leaving rest (clearLine (q.finishRequestLine line)) = (r, p', left) →
        (∀ l, q.takeRequestLine l = p.takeRequestLine l) →
          ∃ line, p.takeRequestLine line = (.kAdvanced, p') := by
    intro q line rest h hq
    have htake : q.takeRequestLine line = (r, p') :=
      Prod.ext (Prod.mk.inj h).1 (Prod.mk.inj (Prod.mk.inj h).2).1
    obtain ⟨-, ⟨rfl, -⟩ | hfail⟩ := takeRequestLine_state htake
    · exact ⟨line, (hq line) ▸ htake⟩
    · exact absurd hfail hr
  unfold parseRequestLine at h
  split at h
  · exact Or.inr (htaken h fun _ => rfl)
  · split at h
    · split at h
      · exact absurd (Prod.mk.inj h).1.symm hr
      · exact Or.inr (htaken h fun l => takeRequestLine_withLine p _ l)
    · dsimp only at h
      split at h
      · exact absurd (Prod.mk.inj h).1.symm hr
      · rename_i hcap
        obtain ⟨rfl, rfl, rfl⟩ := by simpa using h
        refine Or.inl ⟨rfl, rfl, rfl, ?_⟩
        by_cases hlone : data = [cr]
        · exact Or.inl hlone
        · exact Or.inr (Nat.not_lt.mp fun hlt => hcap ⟨hlone, hlt⟩)

/-- A turn on the header section. -/
theorem parseHeaderLine_turn (h : p.parseHeaderLine data = (r, p', left)) (hr : r ≠ .kFailed) :
    (r = .kNeedMoreData ∧ left = [] ∧ p' = p.withLine (p.lineBuffer ++ data) ∧
        (p.lineBuffer = [] ∧ (data = [] ∨ data = [cr]) ∨
          p.headerBytesSeen + p.lineBuffer.length + data.length ≤ kMaxHeaderBytes)) ∨
      ∃ line, p.takeHeaderLine line = (.kAdvanced, p') := by
  have htaken : ∀ {q : HttpRequestParser} {line rest : Bytes},
      leaving rest (clearLine (q.consumeHeaderLine line)) = (r, p', left) →
        (∀ l, q.takeHeaderLine l = p.takeHeaderLine l) →
          ∃ line, p.takeHeaderLine line = (.kAdvanced, p') := by
    intro q line rest h hq
    have htake : q.takeHeaderLine line = (r, p') :=
      Prod.ext (Prod.mk.inj h).1 (Prod.mk.inj (Prod.mk.inj h).2).1
    obtain ⟨-, hfail | ⟨rfl, -⟩⟩ := takeHeaderLine_state htake
    · exact absurd hfail hr
    · exact ⟨line, (hq line) ▸ htake⟩
  unfold parseHeaderLine at h
  split at h
  · exact Or.inr (htaken h fun _ => rfl)
  · split at h
    · dsimp only at h
      split at h
      · exact absurd (Prod.mk.inj h).1.symm hr
      · rename_i hcap
        obtain ⟨rfl, rfl, rfl⟩ := by simpa using h
        refine Or.inl ⟨rfl, rfl, rfl, ?_⟩
        by_cases hblank : p.lineBuffer = [] ∧ (data = [] ∨ data = [cr])
        · exact Or.inl hblank
        · exact Or.inr (Nat.not_lt.mp fun hlt => hcap ⟨hblank, hlt⟩)
    · dsimp only at h
      split at h
      · exact absurd (Prod.mk.inj h).1.symm hr
      · exact Or.inr (htaken h fun l => takeHeaderLine_withLine p _ l)

end PassionProjects.Arcserve.Protocol.HttpRequestParser
