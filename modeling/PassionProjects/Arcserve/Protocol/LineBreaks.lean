/-
  PassionProjects.Arcserve.Protocol.LineBreaks

  CRs and LFs in the fields of an accepted request.

  A header line with one is refused.  A request line is not looked at: what it has
  besides its CRLF ends up in the target.
-/

import PassionProjects.Arcserve.Protocol.Acceptance
import PassionProjects.Arcserve.Protocol.Memory

namespace PassionProjects.Arcserve.Protocol

open PassionProjects.Terminator

def NoLineBreak (bytes : Bytes) : Prop := cr ∉ bytes ∧ lf ∉ bytes

instance (bytes : Bytes) : Decidable (NoLineBreak bytes) := inferInstanceAs (Decidable (_ ∧ _))

theorem noLineBreak_append {a b : Bytes} :
    NoLineBreak (a ++ b) ↔ NoLineBreak a ∧ NoLineBreak b := by
  simp only [NoLineBreak, List.mem_append, not_or]
  tauto

theorem noLineBreak_cons {byte : UInt8} {bytes : Bytes} :
    NoLineBreak (byte :: bytes) ↔ (byte ≠ cr ∧ byte ≠ lf) ∧ NoLineBreak bytes := by
  simp only [NoLineBreak, List.mem_cons, not_or, ne_comm (a := byte)]
  tauto

/-- Neither the target nor a header breaks a line. -/
structure HttpRequest.NoLineBreaks (request : HttpRequest) : Prop where
  target : NoLineBreak request.target
  headers : ∀ header ∈ request.headers, NoLineBreak header.1 ∧ NoLineBreak header.2

theorem HeaderLine.noLineBreak {header : Bytes × Bytes} {line : Bytes}
    (h : HeaderLine header line) :
    NoLineBreak header.1 ∧ NoLineBreak header.2 := by
  obtain ⟨raw, hparts, ⟨⟨before, after, rfl, -, -⟩, -, -⟩⟩ := h.parts
  have hline : NoLineBreak line := h.oneLine
  rw [hparts, noLineBreak_append, noLineBreak_cons, noLineBreak_append, noLineBreak_append] at hline
  exact ⟨hline.1, hline.2.2.1.2⟩

/-- The target is what may break a request line. -/
theorem RequestParts.noLineBreak {request : HttpRequest} {line : Bytes}
    (h : RequestParts request line) : NoLineBreak line ↔ NoLineBreak request.target := by
  have hmethod : NoLineBreak (methodToString request.method) := by
    cases request.method with
    | kGet => decide
    | kPost => decide
  have hspace : space ≠ cr ∧ space ≠ lf := by decide
  have hversion : NoLineBreak request.version := by rw [h.version]; decide
  rw [h.parts, noLineBreak_append, noLineBreak_cons, noLineBreak_append, noLineBreak_cons]
  exact ⟨fun hline => hline.2.2.1, fun htarget => ⟨hmethod, hspace, htarget, hspace, hversion⟩⟩

namespace HttpRequestParser

variable {p q : HttpRequestParser} {request : HttpRequest} {chunks : List Bytes} {k n : Nat}

/-- Behind the request line the target stays what it is. -/
theorem target_turn (target : Bytes) :
    TurnKeeps fun p _ => p.Parsed ∧ p.state ≠ .kRequestLine ∧ p.request.target = target := by
  intro p p' data left r ⟨hp, hstate, htarget⟩ h hr
  refine ⟨parsed_turn hp h hr, ?_⟩
  unfold turn at h
  split at h
  · exact absurd ‹_› hstate
  · rcases parseHeaderLine_turn h hr with ⟨-, -, rfl, -⟩ | ⟨line, htake⟩
    · exact ⟨hstate, htarget⟩
    · rcases takeHeaderLine_cases hp.once htake with ⟨length, -, rfl⟩ | ⟨header, -, -, rfl⟩
      · refine ⟨?_, htarget⟩
        show (if length = 0 then State.kDone else .kBody) ≠ .kRequestLine
        split
        · decide
        · decide
      · exact ⟨hstate, htarget⟩
  · obtain ⟨state, rfl, rfl | rfl⟩ := parseBody_turn h
    · exact ⟨hstate, htarget⟩
    · have hne : State.kDone ≠ .kRequestLine := by decide
      exact ⟨hne, htarget⟩
  · obtain ⟨-, rfl, -⟩ := by simpa using h
    exact ⟨hstate, htarget⟩

/-- The bytes before the first CRLF of a stream. -/
def firstLine (stream : Bytes) : Bytes := stream.take ((findCrlf stream).getD stream.length)

/-- The request line of a request that was accepted. -/
theorem requestParts_of_complete (h : feedAll {} 0 chunks = .complete request n) :
    ∃ first : HttpRequest, RequestParts first (firstLine chunks.flatten) ∧
      first.target = request.target := by
  have hcut : Cut true chunks.flatten chunks := ⟨rfl, fun _ => rfl⟩
  cases hfind : findCrlf chunks.flatten with
  | none =>
      rcases requestLine_unfinished hcut hfind with ⟨heq, -⟩ | ⟨heq, -⟩
      · exact nomatch heq.symm.trans h
      · exact nomatch heq.symm.trans h
  | some i =>
      rcases requestLine_line hcut hfind with ⟨heq, -⟩ | ⟨-, rest, -, heq⟩
      · exact nomatch heq.symm.trans h
      · rw [h] at heq
        have hline : firstLine chunks.flatten = chunks.flatten.take i := by
          rw [firstLine, hfind, Option.getD_some]
        rcases htake : takeRequestLine {} (chunks.flatten.take i) with ⟨r, q⟩
        rw [htake] at heq
        cases r with
        | kNeedMoreData => exact nomatch heq
        | kFailed => exact nomatch heq
        | kAdvanced =>
            obtain ⟨first, hparts, hheaders, hbody, rfl⟩ := takeRequestLine_eq_advanced.mp htake
            have hparsed : (behindRequestLine first).Parsed := by
              refine ⟨⟨Nat.zero_le _, ?_, ?_⟩, ?_, ?_, fun hstate => nomatch hstate⟩
              · show first.headers.length + 0 ≤ _
                rw [hheaders]
                exact Nat.zero_le _
              · show (contentLengths (first.headers ++ [])).length ≤ 1
                rw [hheaders]
                exact Nat.zero_le _
              · show ∀ header ∈ first.headers, _
                rw [hheaders]
                exact fun header hmem => absurd hmem List.not_mem_nil
              · show first.body.length ≤ _
                rw [hbody]
                exact Nat.zero_le _
            have hadvanced : (behindRequestLine first).state ≠ .kRequestLine := fun hstate =>
              nomatch hstate
            obtain ⟨q, ⟨-, -, htarget⟩, hrequest⟩ := feedAll_keeps (target_turn first.target)
              (⟨hparsed, hadvanced, rfl⟩ : (behindRequestLine first).Parsed ∧ _ ∧ _) heq.symm
            exact ⟨first, hline ▸ hparts, by rw [← hrequest]; exact htarget.symm⟩

/-- An accepted request carries a line break exactly where its request line does. -/
theorem noLineBreaks_iff (h : feedAll {} 0 chunks = .complete request n) :
    request.NoLineBreaks ↔ NoLineBreak (firstLine chunks.flatten) := by
  obtain ⟨first, hparts, htarget⟩ := requestParts_of_complete h
  obtain ⟨q, hparsed, rfl⟩ := parsed_of_complete h
  rw [hparts.noLineBreak, htarget]
  refine ⟨fun hrequest => hrequest.target, fun hline => ⟨hline, fun header hmem => ?_⟩⟩
  obtain ⟨line, hheader⟩ := hparsed.lines header hmem
  exact hheader.noLineBreak

/-- A stream without line breaks of its own. -/
theorem noLineBreaks_root :
    feedAll {} 0 [ascii "GET / HTTP/1.1\r", ascii "\n\r\n"] =
        .complete { target := ascii "/", version := ascii "HTTP/1.1" } 18 ∧
      ({ target := ascii "/", version := ascii "HTTP/1.1" } : HttpRequest).NoLineBreaks := by
  have hcomplete : feedAll {} 0 [ascii "GET / HTTP/1.1\r", ascii "\n\r\n"] =
      .complete { target := ascii "/", version := ascii "HTTP/1.1" } 18 := by decide
  exact ⟨hcomplete, (noLineBreaks_iff hcomplete).mpr (by decide)⟩

/-- An LF in the target is accepted. -/
theorem lineFeed_accepted :
    ¬ ∀ chunks request n, feedAll {} 0 chunks = .complete request n → request.NoLineBreaks := by
  intro h
  have hcomplete : feedAll {} 0 [ascii "GET /a\nb HTTP/1.1\r\n\r\n"] =
      .complete { target := ascii "/a\nb", version := ascii "HTTP/1.1" } 21 := by decide
  exact absurd (h _ _ _ hcomplete).target (by decide)

end HttpRequestParser

end PassionProjects.Arcserve.Protocol
