/-
  PassionProjects.Arcserve.Server.Reuse

  Events and the connections they were reported for.

  A batch of `epoll_wait` names descriptors, and `connections_` is asked for a
  descriptor when its event is dispatched.  In between a connection can have been
  closed and its number accepted again.
-/

import PassionProjects.Arcserve.Server.Invariant

namespace PassionProjects.Arcserve.Server.State

open Net Reactor Buffers Protocol Concurrency Transition

variable {cfg : Config} {d : Descriptors} {s s' : State} {a : Action}

/-- The next event goes to the connection that had its descriptor when `epoll_wait`
    returned. -/
def EventsMeant (s : State) : Prop :=
  ∀ fd events batch id, s.phase = .dispatching ((fd, events) :: batch) →
    s.server.callbacks fd = some .client → s.server.connections fd = some id →
      s.reported fd = some id

/-- The listener accepts a number that has an event later in the batch. -/
def reusesReported (s : State) : Action → Bool
  | .dispatch kernel =>
    match s.phase with
    | .dispatching ((fd, _) :: batch) => s.server.callbacks fd == some .listener &&
        (NonblockingHttpServer.acceptedFds kernel.accepts).any fun fd => batch.any (·.1 == fd)
    | _ => false
  | _ => false

/-- Every event that is left is for a connection that is still the same, or gone. -/
def BatchMeant (s : State) : Prop :=
  ∀ event ∈ s.phase.batch, ∀ id, s.server.connections event.1 = some id →
    s.reported event.1 = some id

/-- A handler that registers no one. -/
theorem BatchMeant.afterHandler (h : BatchMeant s) {server : NonblockingHttpServer} {phase : Phase}
    (hbatch : phase.batch ⊆ s.phase.batch)
    (hconnections : ∀ event ∈ phase.batch, ∀ id, server.connections event.1 = some id →
      s.server.connections event.1 = some id) :
    BatchMeant (s.afterHandler server phase) := by
  intro event hmem id hfd
  have hevent : event ∈ phase.batch := by
    change event ∈ (if server.threw then Phase.unwound else phase).batch at hmem
    split at hmem
    · exact absurd hmem (by simp [Phase.batch])
    · exact hmem
  exact h event (hbatch hevent) id (hconnections event hevent id hfd)

theorem BatchMeant.shared (h : BatchMeant s) (hshared : Shared s s') : BatchMeant s' := by
  obtain ⟨kernel, pool, calls, hserver⟩ := hshared.server
  intro event hmem id hfd
  rw [hserver] at hfd
  rcases hshared.batch with ⟨hreported, hbatch⟩ | hreported
  · rw [hreported]
    exact h event (hbatch hmem) id hfd
  · rw [hreported]
    exact hfd

/-- Only the listener registers a connection, under a number it accepted. -/
theorem Sound.connections_of_step {fd : Fd} {id : ConnId} (h : Sound cfg d (· ≤ ·) s)
    (hstep : Server.step cfg d s a = some s') (hfd : s'.server.connections fd = some id) :
    s.server.connections fd = some id ∨
      ∃ kernel event batch, a = .dispatch kernel ∧ s.phase = .dispatching (event :: batch) ∧
        s.server.callbacks event.1 = some .listener ∧
        fd ∈ NonblockingHttpServer.acceptedFds kernel.accepts := by
  have hchange := h.change hstep
  generalize s'.server = server at hchange hfd
  cases hchange with
  | shared kernel pool handlerCalls => exact Or.inl hfd
  | accepted hphase hlistener _ _ hconnections =>
      exact (hconnections fd id hfd).imp_right fun haccepted =>
        ⟨_, _, _, rfl, hphase, hlistener, haccepted⟩
  | handled _ _ _ halive hhandled _ =>
      exact Or.inl (NonblockingHttpServer.connections_of_update halive hhandled.frame.fd hfd)
  | driven _ halive _ hdriven =>
      exact Or.inl (NonblockingHttpServer.connections_of_update halive hdriven.frame.fd hfd)

theorem BatchMeant.step (hsound : Sound cfg d (· ≤ ·) s) (h : BatchMeant s)
    (hok : ¬ reusesReported s a) (hstep : Server.step cfg d s a = some s') : BatchMeant s' := by
  have hconnections := fun fd id (hfd : s'.server.connections fd = some id) =>
    hsound.connections_of_step hstep hfd
  cases step_effect hstep with
  | passed hshared _ => exact h.shared hshared
  | answered hshared _ _ _ => exact h.shared hshared
  | lost hshared _ _ _ => exact h.shared hshared
  | refused hshared _ => exact h.shared hshared
  | @listened kernel fd events batch hphase hlistener =>
      refine h.afterHandler ?_ fun event hmem id hfd => ?_
      · rw [hphase]
        exact List.subset_cons_self _ _
      · rcases hconnections event.1 id hfd with hfd | ⟨kernel', _, _, heq, -, -, haccepted⟩
        · exact hfd
        · -- the number would be one of those the batch still has
          obtain rfl := Action.dispatch.inj heq
          refine absurd ?_ hok
          simp only [reusesReported, hphase, hlistener, beq_self_eq_true, Bool.true_and]
          exact List.any_eq_true.mpr ⟨event.1, haccepted,
            List.any_eq_true.mpr ⟨event, hmem, beq_self_eq_true _⟩⟩
  | @served kernel fd events batch hphase hclient =>
      refine h.afterHandler ?_ fun event _ id hfd => ?_
      · rw [hphase]
        exact List.subset_cons_self _ _
      · rcases hconnections event.1 id hfd with hfd | ⟨_, event', batch', -, hphase', hlistener, -⟩
        · exact hfd
        · rw [hphase] at hphase'
          obtain ⟨rfl, -⟩ := List.cons.inj (Phase.dispatching.inj hphase')
          exact absurd (hclient.symm.trans hlistener) (by simp)
  | @delivered kernel completion rest batch hphase =>
      refine h.afterHandler ?_ fun event _ id hfd => ?_
      · rw [hphase]
        exact List.Subset.refl _
      · exact (hconnections event.1 id hfd).resolve_right fun ⟨_, _, _, heq, _⟩ =>
          absurd heq (by simp)

/-- In a run in which no number of the batch is accepted again, events reach only the
    connections they were reported for. -/
theorem Runs.eventsMeant (h : Runs cfg d (fun s a => ¬ reusesReported s a) s) : EventsMeant s := by
  have hbatch : BatchMeant s := by
    refine h.invariant_of (fun _ hreach => Runs.sound hreach) ?_ ?_
    · rintro s rfl event hmem
      exact absurd hmem (by simp [initial, Phase.batch])
    · exact fun s a s' hsound hmeant hok hstep => hmeant.step hsound hok hstep
  intro fd events batch id hphase _ hfd
  exact hbatch (fd, events) (by rw [hphase]; exact List.mem_cons_self) id hfd

-- ============================================================================
-- A run that closes the wrong connection
-- ============================================================================

/-- The response closes descriptor 7, the listener accepts it again, and its
    `EPOLLHUP` is still in the batch. -/
def numberReused : List Action := clientConnects ++
  [.epollReturns [(7, kReadable)], .dispatch { recvs := [.data closingRequest] }, .endBatch,
    .takeTask 0, .runTask 0, .pushCompletion 0, .signal 0,
    .epollReturns [(6, kReadable), (5, kReadable), (7, { epollhup := true })], .dispatch {},
    .readCompletionFd, .readCompletionFd, .drainCompletions,
    .deliver { sends := [.accepted 10000] }, .deliver {}, .dispatch { accepts := [.client 7] }]

/-- As `numberReused`, but the response does not fit the socket, so that the listener
    has to accept another number. -/
def numberKept : List Action := clientConnects ++
  [.epollReturns [(7, kReadable)], .dispatch { recvs := [.data closingRequest] }, .endBatch,
    .takeTask 0, .runTask 0, .pushCompletion 0, .signal 0,
    .epollReturns [(6, kReadable), (5, kReadable), (7, { epollhup := true })], .dispatch {},
    .readCompletionFd, .readCompletionFd, .drainCompletions,
    .deliver { sends := [.accepted 10] }, .deliver {}, .dispatch { accepts := [.client 8] }]

/-- The last event of the batch is for a connection that is still there. -/
theorem eventsMeant_numberKept :
    let s := after sampleConfig sampleDescriptors (fun s a => ¬ reusesReported s a) numberKept
      (by decide +kernel)
    EventsMeant s ∧ s.server.connections 7 = some 0 ∧ s.reported 7 = some 0 :=
  ⟨Runs.eventsMeant (runs_after _ _ _ _ _), by decide +kernel, by decide +kernel⟩

/-- The next event is for the connection that is gone, and meets the new one. -/
theorem numberReused_misdirected :
    ¬ ∀ s, Reachable sampleConfig sampleDescriptors s → EventsMeant s := by
  intro hall
  have hsame :=
    hall _ (runs_after _ _ _ numberReused (by decide +kernel)) 7 { epollhup := true } [] 1
    (by decide +kernel) (by decide +kernel) (by decide +kernel)
  exact absurd hsame (by decide +kernel)

end PassionProjects.Arcserve.Server.State
