/-
  PassionProjects.Arcserve.Server.Responses

  What the socket of a connection gets.

  The record of a connection lists the requests the parser completed and the
  responses that were queued.  `Sound` says that the socket took a prefix of the
  responses' bytes and that the `i`-th response answers the `i`-th request; what is
  left is that a response that closes is the last.
-/

import PassionProjects.Arcserve.Server.Agreement

namespace PassionProjects.Arcserve.Server.State

open Net Reactor Buffers Protocol Concurrency Transition

variable {cfg : Config} {d : Descriptors} {s s' : State} {a : Action} {id : ConnId}

/-- The last thing that goes out was queued. -/
def LastQueued (w : Wire) : Prop := w.error.isSome = true ∨ ∃ r ∈ w.responses, r.keepAlive = false

theorem LastQueued.mustClose {w : Wire} (h : LastQueued w) (c : HttpConnection) :
    MustClose cfg c w := by
  rcases h with herror | hclosing
  · exact Or.inr (Or.inl herror)
  · exact Or.inr (Or.inr (Or.inl hclosing))

/-- Nothing is queued behind it. -/
theorem Sound.silent (h : Sound cfg d (· ≤ ·) s) (hstep : Server.step cfg d s a = some s')
    (hlt : id < s.server.nextId) (hlast : LastQueued (s.server.wires id)) :
    (s'.server.wires id).responses = (s.server.wires id).responses ∧
      (s'.server.wires id).error = (s.server.wires id).error := by
  have hclosing : s.server.threw = false → s.server.isAlive id = true →
      (s.server.heap id).base.state = .kClosing := fun hthrew halive =>
    (h.coherent.resting hthrew id halive).agrees.mustClose (hlast.mustClose _)
  have hchange := h.change hstep
  generalize s'.server = server at hchange ⊢
  cases hchange with
  | shared kernel pool handlerCalls => exact ⟨rfl, rfl⟩
  | accepted _ _ _ haccepts _ =>
      rw [(haccepts.old id hlt).2.1]
      exact ⟨rfl, rfl⟩
  | @handled kernel fd events batch x _ _ hthrew halive hhandled _ =>
      by_cases hid : id = x.id
      · subst hid
        rw [NonblockingHttpServer.wires_update_self]
        obtain ⟨hresponses, herror, -⟩ := hhandled.closing (hclosing hthrew halive)
        exact ⟨hresponses, herror⟩
      · rw [NonblockingHttpServer.wires_update hid]
        exact ⟨rfl, rfl⟩
  | @driven kernel x hthrew halive hawaiting _ =>
      by_cases hid : id = x.id
      · subst hid
        have hreading := (h.coherent.resting hthrew _ halive).awaiting hawaiting
        exact absurd (hreading.symm.trans (hclosing hthrew halive)) (by decide)
      · rw [NonblockingHttpServer.wires_update hid]
        exact ⟨rfl, rfl⟩

/-- From a state in which the last thing was queued the output is what it is. -/
theorem silent_run (hreach : Reachable cfg d s) (hlt : id < s.server.nextId)
    (hlast : LastQueued (s.server.wires id))
    (h : Reached (fun t => t = s) (Server.step cfg d) (fun _ _ => True) s') :
    (s'.server.wires id).output = (s.server.wires id).output := by
  have hrun : Reachable cfg d s' ∧ id < s'.server.nextId ∧
      (s'.server.wires id).responses = (s.server.wires id).responses ∧
      (s'.server.wires id).error = (s.server.wires id).error := by
    refine h.invariant (I := fun t => Reachable cfg d t ∧ id < t.server.nextId ∧
      (t.server.wires id).responses = (s.server.wires id).responses ∧
      (t.server.wires id).error = (s.server.wires id).error) ?_ ?_
    · rintro t rfl
      exact ⟨hreach, hlt, rfl, rfl⟩
    · rintro t a t' ⟨ht, hlt', hresponses, herror⟩ - hstep
      have hsound := ht.sound
      have hlast' : LastQueued (t.server.wires id) := by
        rw [LastQueued, hresponses, herror]
        exact hlast
      obtain ⟨hresponses', herror'⟩ := hsound.silent hstep hlt' hlast'
      exact ⟨.next ht trivial hstep, Nat.lt_of_lt_of_le hlt' (hsound.nextId_le hstep),
        hresponses'.trans hresponses, herror'.trans herror⟩
  unfold Wire.output
  rw [hrun.2.2.1, hrun.2.2.2]

/-- Responses leave in the order of the requests, whole and once: the socket took a
    prefix of what was queued, the `i`-th response answers the `i`-th request, and
    nothing follows a response that closes or the parser's error response. -/
theorem responses_in_order (h : Reachable cfg d s) (id : ConnId) :
    (s.server.wires id).sent <+: (s.server.wires id).output ∧
      (s.server.wires id).InOrder cfg ∧
      (id < s.server.nextId → LastQueued (s.server.wires id) →
        ∀ s', Reached (fun t => t = s) (Server.step cfg d) (fun _ _ => True) s' →
          (s'.server.wires id).output = (s.server.wires id).output) := by
  have hrecorded := h.sound.coherent.recorded id
  exact ⟨⟨_, hrecorded.bytes⟩, hrecorded.inOrder, fun hlt hlast _ hrun =>
    silent_run h hlt hlast hrun⟩

/-- A server that gives each connection no request at all. -/
def unkeptConfig : Config := { sampleConfig with maxKeepAliveRequests := 0 }

/-- One request, and its response. -/
def requestAnswered : List Action := clientConnects ++
  [.epollReturns [(7, kReadable)], .dispatch { recvs := [.data sampleRequest] }, .endBatch,
    .takeTask 0, .runTask 0, .pushCompletion 0, .signal 0, .epollReturns [(6, kReadable)],
    .dispatch {}, .readCompletionFd, .readCompletionFd, .drainCompletions,
    .deliver { sends := [.accepted 10000] }]

theorem responses_in_order_answered :
    let s := after sampleConfig sampleDescriptors (fun _ _ => True) requestAnswered
      (by decide +kernel)
    (s.server.wires 0).sent <+: (s.server.wires 0).output ∧
      (s.server.wires 0).InOrder sampleConfig :=
  ⟨(responses_in_order (runs_after _ _ _ _ _) 0).1,
    (responses_in_order (runs_after _ _ _ _ _) 0).2.1⟩

/-- The limit is looked at when a response has been queued, so that there is always a
    first. -/
theorem requestAnswered_exceeds :
    ¬ ∀ s, Reachable unkeptConfig sampleDescriptors s → ∀ id rs,
      rs <+: (s.server.wires id).responses →
        rs.flatMap HttpResponse.serialize <+: (s.server.wires id).sent →
          rs.length ≤ unkeptConfig.maxKeepAliveRequests := by
  intro hall
  have hreach := runs_after unkeptConfig sampleDescriptors (fun _ _ => True) requestAnswered
    (by decide +kernel)
  have hnone := hall _ hreach 0 _ (List.prefix_refl _) (by decide +kernel)
  exact absurd hnone (by decide +kernel)

end PassionProjects.Arcserve.Server.State
