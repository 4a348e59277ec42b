/-
  PassionProjects.Arcserve.Server.Stranded

  Received bytes that nothing parses.

  A request that arrives while a result is awaited stays in the read buffer until
  `on_worker_result` drives the parser again.  Where the response then does not fit
  the socket, `finish_dispatch` arms `EPOLLOUT` instead, and the `kWritable` branch of
  `on_client_event` goes back to reading without driving the parser.
-/

import PassionProjects.Arcserve.Server.Invariant

namespace PassionProjects.Arcserve.Server

open Net Reactor Buffers Protocol Concurrency Transition

/-- A handler changes the read buffer of its own connection. -/
theorem NonblockingHttpServer.drained_update {s : NonblockingHttpServer} {x : Session}
    (hthrew : s.threw = false) (halive : s.isAlive x.id = true)
    (hfd : x.conn.base.fd = (s.heap x.id).base.fd) (hdrained : ∀ id, (s.session id).Drained)
    (hx : x.Drained) (id : ConnId) : ((s.update x).session id).Drained := by
  by_cases heq : id = x.id
  · rw [heq, session_update]
    exact hx
  · intro _ hr hstate hfree
    change (s.update x).isAlive id = true at hr
    change ((s.update x).heap id).base.state = _ at hstate
    change ((s.update x).heap id).awaitingWorkerResult = _ at hfree
    show ((s.update x).heap id).base.readBuffer.view = []
    rw [heap_update heq] at hstate hfree ⊢
    exact hdrained id hthrew (isAlive_of_update halive hfd hr) hstate hfree

namespace State

variable {cfg : Config} {d : Descriptors} {s s' : State} {a : Action}

/-- Back in `epoll_wait`, every byte was given to the parser. -/
def NothingStranded (s : State) : Prop :=
  s.phase = .waiting → ∀ fd id, s.server.connections fd = some id →
    (s.server.heap id).base.state = .kReading → (s.server.heap id).awaitingWorkerResult = false →
      (s.server.heap id).base.readBuffer.view = []

/-- The step hands a connection with bytes in its read buffer the `EPOLLOUT` that
    empties its output queue. -/
def strandsBytes (s : State) : Action → Bool
  | .dispatch kernel =>
    match s.phase with
    | .dispatching ((fd, events) :: _) =>
      match s.server.connections fd with
      | some id => decide (({ s.server with kernel }.session id).Strands events)
      | none => false
    | _ => false
  | _ => false

theorem drained_initial (cfg : Config) (d : Descriptors) (id : ConnId) :
    ((initial cfg d).server.session id).Drained := fun _ _ _ _ => rfl

/-- Every other step leaves nothing behind. -/
theorem drained_step (h : Sound cfg d (· ≤ ·) s) (hstep : Server.step cfg d s a = some s')
    (hdrained : ∀ id, (s.server.session id).Drained) (hok : ¬ strandsBytes s a) (id : ConnId) :
    (s'.server.session id).Drained := by
  have hchange := h.change hstep
  generalize s'.server = server at hchange ⊢
  cases hchange with
  | shared kernel pool handlerCalls => exact hdrained id
  | @accepted kernel fd events batch server _ _ hthrew haccepts _ =>
      intro _ hr hstate hfree
      show (server.heap id).base.readBuffer.view = []
      by_cases hlt : id < s.server.nextId
      · obtain ⟨hheap, -, hsame⟩ := haccepts.old id hlt
        change (server.heap id).base.state = _ at hstate
        change (server.heap id).awaitingWorkerResult = _ at hfree
        rw [hheap] at hstate hfree ⊢
        exact hdrained id hthrew (hsame.symm.trans hr) hstate hfree
      · obtain ⟨⟨fd', hfresh⟩, -⟩ := haccepts.new id (Nat.le_of_not_lt hlt) hr
        rw [hfresh]
        rfl
  | @handled kernel fd events batch x hphase hfd hthrew halive hhandled hkept =>
      refine NonblockingHttpServer.drained_update hthrew halive hhandled.frame.fd hdrained
        (hkept (hdrained x.id) fun hstrands => hok ?_) id
      simp only [strandsBytes, hphase, hfd]
      exact decide_eq_true hstrands
  | @driven kernel x hthrew halive _ hdriven =>
      exact NonblockingHttpServer.drained_update hthrew halive hdriven.frame.fd hdrained
        hdriven.drained id

/-- In a run without such a step nothing is stranded. -/
theorem Runs.nothingStranded (h : Runs cfg d (fun s a => ¬ strandsBytes s a) s) :
    NothingStranded s := by
  have hdrained : ∀ id, (s.server.session id).Drained := by
    refine h.invariant_of (I := fun s => ∀ id, (s.server.session id).Drained)
      (fun _ hreach => Runs.sound hreach) ?_ ?_
    · rintro s rfl
      exact drained_initial cfg d
    · exact fun s a s' hsound hdrained hok hstep => drained_step hsound hstep hdrained hok
  intro hphase fd id hfd hstate hfree
  have hsound := h.sound
  exact hdrained id (hsound.threw_false (by rw [hphase]; simp)) (hsound.coherent.isAlive hfd) hstate
    hfree

/-- The step does strand them, unless `epoll_ctl(2)` fails. -/
theorem strands_step (h : Reachable cfg d s) (hstep : Server.step cfg d s a = some s')
    (hstrands : strandsBytes s a = true) :
    s'.phase = .unwound ∨ ∃ id, ¬ (s'.server.session id).Drained := by
  have hsound := h.sound
  cases a with
  | dispatch kernel =>
      simp only [strandsBytes] at hstrands
      split at hstrands
      · next fd events batch hphase =>
          split at hstrands
          · next id hfd =>
              have hthrew := hsound.threw_false (by rw [hphase]; simp)
              have hlive := (hsound.coherent.shared kernel s.server.pool
                s.server.handlerCalls).live hthrew (hsound.coherent.isAlive hfd)
              have hcallback := hsound.coherent.callback hthrew hfd
              have hwakeup : fd ≠ d.wakeup := fun heq =>
                hsound.coherent.notMem hfd (by rw [heq]; simp [Descriptors.all])
              simp only [Server.step, hphase, if_neg hwakeup, hcallback] at hstep
              obtain rfl := Option.some.inj hstep
              rw [NonblockingHttpServer.onClientEvent_eq (s := { s.server with kernel }) hfd events]
              have hkept := Session.strands_not_drained hlive (of_decide_eq_true hstrands)
              generalize Session.onClientEvent cfg _ events = x at hkept ⊢
              rcases hkept with hn | hn
              · exact Or.inl (phase_afterHandler.1 hn)
              · refine Or.inr ⟨x.id, fun hdrained => hn ?_⟩
                rw [← NonblockingHttpServer.session_update { s.server with kernel } x]
                exact hdrained
          · exact absurd hstrands (by simp)
      · exact absurd hstrands (by simp)
  | _ => exact absurd hstrands (by simp [strandsBytes])

-- ============================================================================
-- A run that strands a request
-- ============================================================================

/-- Two requests come in one piece; the response to the first fits the socket only
    later. -/
def pipelinedRequests : List Action := clientConnects ++
  [.epollReturns [(7, kReadable)], .dispatch { recvs := [.data (sampleRequest ++ sampleRequest)] },
    .endBatch, .takeTask 0, .runTask 0, .pushCompletion 0, .signal 0,
    .epollReturns [(6, kReadable)], .dispatch {}, .readCompletionFd, .readCompletionFd,
    .drainCompletions, .deliver { sends := [.accepted 9] }, .deliver {}, .endBatch,
    .epollReturns [(7, kWritable)], .dispatch { sends := [.accepted 10000] }, .endBatch]

/-- The same requests, where both responses fit the socket. -/
def pipelinedAnswered : List Action := clientConnects ++
  [.epollReturns [(7, kReadable)], .dispatch { recvs := [.data (sampleRequest ++ sampleRequest)] },
    .endBatch, .takeTask 0, .runTask 0, .pushCompletion 0, .signal 0,
    .epollReturns [(6, kReadable)], .dispatch {}, .readCompletionFd, .readCompletionFd,
    .drainCompletions, .deliver { sends := [.accepted 10000] }, .deliver {}, .endBatch,
    .takeTask 0, .runTask 0, .pushCompletion 0, .signal 0, .epollReturns [(6, kReadable)],
    .dispatch {}, .readCompletionFd, .readCompletionFd, .drainCompletions,
    .deliver { sends := [.accepted 10000] }, .deliver {}, .endBatch]

theorem nothingStranded_pipelined :
    let s := after sampleConfig sampleDescriptors (fun s a => ¬ strandsBytes s a)
      pipelinedAnswered (by decide +kernel)
    NothingStranded s ∧ s.phase = .waiting ∧ (s.server.wires 0).responses.length = 2 :=
  ⟨Runs.nothingStranded (runs_after _ _ _ _ _), by decide +kernel, by decide +kernel⟩

/-- The second request is whole, and waits for bytes that need never come. -/
theorem pipelinedRequests_stranded :
    ¬ ∀ s, Reachable sampleConfig sampleDescriptors s → NothingStranded s := by
  intro hall
  have hnone := hall _ (runs_after _ _ _ pipelinedRequests (by decide +kernel))
    (by decide +kernel) 7 0 (by decide +kernel) (by decide +kernel) (by decide +kernel)
  exact absurd hnone (by decide +kernel)

end State

end PassionProjects.Arcserve.Server
