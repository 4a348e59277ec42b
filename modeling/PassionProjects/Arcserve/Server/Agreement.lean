/-
  PassionProjects.Arcserve.Server.Agreement

  The reactor and the connections agree.

  `Agrees` is what `connections_`, the callbacks, the epoll set, the states and the
  output queues have to do with each other whenever the reactor goes back to
  `epoll_wait`; it is read off `Sound`, which every step keeps.
-/

import PassionProjects.Arcserve.Server.Invariant

namespace PassionProjects.Arcserve.Server

open Net Reactor Buffers Protocol Concurrency Transition

/-- A connection that has to close once its output is flushed: the parser has stopped,
    its error response or a response that closes was queued, there are as many
    responses as one connection gets, or a response was dropped. -/
def MustClose (cfg : Config) (c : HttpConnection) (w : Wire) : Prop :=
  c.parser.state = .kDone ∨ w.error.isSome = true ∨ (∃ r ∈ w.responses, r.keepAlive = false) ∨
    w.responses ≠ [] ∧ cfg.maxKeepAliveRequests ≤ w.responses.length ∨
    w.responses.length + c.owed < w.requests.length

/-- What is armed, queued and awaited is what the state says. -/
structure ConnectionAgrees (cfg : Config) (c : HttpConnection) (w : Wire)
    (interest : Option EventMask) : Prop where
  armedForInput : interest = some kReadable ↔ c.base.state = .kReading
  armedForOutput : interest = some kWritable ↔
    c.base.state = .kWriting ∨ c.base.state = .kClosing
  reading : c.base.state = .kReading → c.base.writeQueue.chunks = []
  writing : c.base.state = .kWriting ∨ c.base.state = .kClosing →
    c.base.writeQueue.chunks ≠ []
  awaiting : c.awaitingWorkerResult = true → c.base.state = .kReading
  mustClose : MustClose cfg c w → c.base.state = .kClosing

structure Agrees (cfg : Config) (d : Descriptors) (s : NonblockingHttpServer) : Prop where
  keys : ∀ fd, (s.connections fd).isSome = true ↔
    fd ∉ d.all ∧ s.callbacks fd = some .client ∧ (s.interest fd).isSome = true
  callbacks : ∀ fd, s.callbacks fd = some .client → (s.connections fd).isSome = true
  interest : ∀ fd, fd ∉ d.all → (s.interest fd).isSome = true →
    (s.connections fd).isSome = true
  connection : ∀ fd id, s.connections fd = some id →
    ConnectionAgrees cfg (s.heap id) (s.wires id) (s.interest fd)

theorem Session.Resting.agrees {cfg : Config} {x : Session} (h : x.Resting cfg) :
    ConnectionAgrees cfg x.conn x.wire x.interest where
  armedForInput := by
    rw [h.interest]
    rcases h.queue with ⟨hstate, -⟩ | ⟨hstate | hstate, -⟩ <;> rw [hstate] <;> decide
  armedForOutput := by
    rw [h.interest]
    rcases h.queue with ⟨hstate, -⟩ | ⟨hstate | hstate, -⟩ <;> rw [hstate] <;> decide
  reading hstate := by
    rcases h.queue with ⟨-, hqueue⟩ | ⟨hstate', -⟩
    · exact hqueue
    · rw [hstate] at hstate'
      exact absurd hstate' (by decide)
  writing hstate := by
    rcases h.queue with ⟨hstate', -⟩ | ⟨-, hqueue⟩
    · rw [hstate'] at hstate
      exact absurd hstate (by decide)
    · exact hqueue
  awaiting := h.awaiting
  mustClose hmust := by
    by_contra hopen
    have hcont := h.continues hopen
    rcases hmust with hparser | herror | ⟨r, hr, hclose⟩ | ⟨hne, hlimit⟩ | hdropped
    · exact hcont.parser.notDone hparser
    · rw [hcont.error] at herror
      exact absurd herror (by simp)
    · exact absurd (hclose.symm.trans (hcont.kept r hr)) (by simp)
    · rcases hcont.below with hbelow | hnil
      · exact absurd hbelow (Nat.not_lt_of_le hlimit)
      · exact hne hnil
    · exact absurd (h.requests hopen) (Nat.ne_of_gt hdropped)

namespace NonblockingHttpServer

variable {cfg : Config} {d : Descriptors} {s : NonblockingHttpServer}

/-- The callbacks of the server's own descriptors are no clients. -/
theorem initial_callbacks (fd : Fd) : (initialServer cfg d).callbacks fd ≠ some .client := by
  simp only [initialServer]
  split
  · simp
  · split <;> simp

theorem Coherent.agrees (h : Coherent cfg d s) (hthrew : s.threw = false) : Agrees cfg d s := by
  have hresting : ∀ fd id, s.connections fd = some id → (s.session id).Resting cfg ∧
      (s.heap id).base.fd = fd := fun fd id hfd =>
    ⟨h.resting hthrew id (h.isAlive hfd), (h.owner fd id hfd).2⟩
  have hentries : ∀ fd id, s.connections fd = some id →
      fd ∉ d.all ∧ s.callbacks fd = some .client ∧ (s.interest fd).isSome = true := by
    intro fd id hfd
    obtain ⟨hrest, howner⟩ := hresting fd id hfd
    have hinterest : s.interest (s.heap id).base.fd = _ := hrest.interest
    rw [howner] at hinterest
    exact ⟨h.notMem hfd, h.callback hthrew hfd, by rw [hinterest]; rfl⟩
  have hclient : ∀ fd, fd ∉ d.all → s.callbacks fd = some .client ∨ (s.interest fd).isSome = true →
      (s.connections fd).isSome = true := by
    intro fd hmem hentry
    cases hfd : s.connections fd with
    | some id => rfl
    | none =>
        obtain ⟨hcallback, hinterest⟩ := h.unused hthrew fd hmem hfd
        rw [hcallback, hinterest] at hentry
        exact absurd hentry (by simp)
  refine ⟨fun fd => ⟨fun hfd => ?_, fun hentry => hclient fd hentry.1 (Or.inl hentry.2.1)⟩,
    fun fd hcallback => ?_, fun fd hmem hinterest => hclient fd hmem (Or.inr hinterest),
    fun fd id hfd => ?_⟩
  · obtain ⟨id, hid⟩ := Option.isSome_iff_exists.mp hfd
    exact hentries fd id hid
  · by_cases hmem : fd ∈ d.all
    · rw [(h.fixed fd hmem).1] at hcallback
      exact absurd hcallback (initial_callbacks fd)
    · exact hclient fd hmem (Or.inl hcallback)
  · obtain ⟨hrest, howner⟩ := hresting fd id hfd
    have hagrees := hrest.agrees
    rw [show (s.session id).interest = s.interest fd from by rw [← howner]; rfl] at hagrees
    exact hagrees

end NonblockingHttpServer

namespace State

variable {cfg : Config} {d : Descriptors} {permits : State → Action → Prop} {s s' : State}
  {a : Action} {id : ConnId}

/-- A connection that is closing stays so as long as it is there. -/
theorem Sound.closing (h : Sound cfg d (· ≤ ·) s) (hstep : Server.step cfg d s a = some s')
    (halive : s.server.isAlive id = true) (halive' : s'.server.isAlive id = true)
    (hclosing : (s.server.heap id).base.state = .kClosing) :
    (s'.server.heap id).base.state = .kClosing := by
  have hchange := h.change hstep
  generalize s'.server = server at hchange halive' ⊢
  cases hchange with
  | shared kernel pool handlerCalls => exact hclosing
  | accepted _ _ _ haccepts _ =>
      rw [(haccepts.old id (h.coherent.lt_of_isAlive halive)).1]
      exact hclosing
  | @handled kernel fd events batch x _ _ _ _ hhandled _ =>
      by_cases hid : id = x.id
      · subst hid
        rw [NonblockingHttpServer.isAlive_update_self] at halive'
        rw [NonblockingHttpServer.heap_update_self]
        exact (hhandled.closing hclosing).2.2 halive'
      · rw [NonblockingHttpServer.heap_update hid]
        exact hclosing
  | @driven kernel x hthrew _ hawaiting _ =>
      by_cases hid : id = x.id
      · subst hid
        have hreading := (h.coherent.resting hthrew _ halive).awaiting hawaiting
        exact absurd (hreading.symm.trans hclosing) (by decide)
      · rw [NonblockingHttpServer.heap_update hid]
        exact hclosing

theorem Sound.nextId_le (h : Sound cfg d (· ≤ ·) s) (hstep : Server.step cfg d s a = some s') :
    s.server.nextId ≤ s'.server.nextId := by
  have hchange := h.change hstep
  generalize s'.server = server at hchange ⊢
  cases hchange with
  | shared kernel pool handlerCalls => exact Nat.le_refl _
  | accepted _ _ _ haccepts _ => exact haccepts.nextId
  | handled _ _ _ _ _ _ => exact Nat.le_refl _
  | driven _ _ _ _ => exact Nat.le_refl _

/-- No connection comes back. -/
theorem Sound.isAlive_of_step (h : Sound cfg d (· ≤ ·) s) (hstep : Server.step cfg d s a = some s')
    (hlt : id < s.server.nextId) (halive' : s'.server.isAlive id = true) :
    s.server.isAlive id = true := by
  have hchange := h.change hstep
  generalize s'.server = server at hchange halive' ⊢
  cases hchange with
  | shared kernel pool handlerCalls => exact halive'
  | accepted _ _ _ haccepts _ => exact (haccepts.old id hlt).2.2.symm.trans halive'
  | @handled kernel fd events batch x _ _ _ halive hhandled _ =>
      exact NonblockingHttpServer.isAlive_of_update halive hhandled.frame.fd halive'
  | @driven kernel x _ halive _ hdriven =>
      exact NonblockingHttpServer.isAlive_of_update halive hdriven.frame.fd halive'

/-- From a state in which a connection is closing it is closing or gone. -/
theorem closing_run (hreach : Reachable cfg d s) (halive : s.server.isAlive id = true)
    (hclosing : (s.server.heap id).base.state = .kClosing)
    (h : Reached (fun t => t = s) (Server.step cfg d) (fun _ _ => True) s') :
    Reachable cfg d s' ∧ id < s'.server.nextId ∧
      (s'.server.isAlive id = true → (s'.server.heap id).base.state = .kClosing) := by
  refine h.invariant (I := fun t => Reachable cfg d t ∧ id < t.server.nextId ∧
    (t.server.isAlive id = true → (t.server.heap id).base.state = .kClosing)) ?_ ?_
  · rintro t rfl
    exact ⟨hreach, hreach.sound.coherent.lt_of_isAlive halive, fun _ => hclosing⟩
  · rintro t a t' ⟨ht, hlt, hstate⟩ - hstep
    have hsound := ht.sound
    refine ⟨.next ht trivial hstep, Nat.lt_of_lt_of_le hlt (hsound.nextId_le hstep),
      fun halive' => ?_⟩
    have halive := hsound.isAlive_of_step hstep hlt halive'
    exact hsound.closing hstep halive halive' (hstate halive)

/-- Whenever the reactor is between two handlers, and so whenever it goes back to
    `epoll_wait`, it agrees with the connections; and what is closing never reads or
    writes on. -/
theorem reactor_agrees (h : Reachable cfg d s) :
    (s.phase ≠ .unwound → Agrees cfg d s.server) ∧
      ∀ s', Reached (fun t => t = s) (Server.step cfg d) (fun _ _ => True) s' →
        ∀ id, s.server.isAlive id = true → (s.server.heap id).base.state = .kClosing →
          s'.server.isAlive id = true → (s'.server.heap id).base.state = .kClosing :=
  ⟨fun hphase => h.sound.coherent.agrees (h.sound.threw_false hphase),
    fun _ hrun _ halive hclosing => (closing_run h halive hclosing hrun).2.2⟩

/-- A response that closes the connection, and of which the socket takes ten bytes. -/
def closingAnswered : List Action := clientConnects ++
  [.epollReturns [(7, kReadable)], .dispatch { recvs := [.data closingRequest] }, .endBatch,
    .takeTask 0, .runTask 0, .pushCompletion 0, .signal 0, .epollReturns [(6, kReadable)],
    .dispatch {}, .readCompletionFd, .readCompletionFd, .drainCompletions,
    .deliver { sends := [.accepted 10] }, .deliver {}, .endBatch]

/-- Ten more bytes later it is still closing. -/
theorem reactor_agrees_closingAnswered :
    let s := after sampleConfig sampleDescriptors (fun _ _ => True) closingAnswered
      (by decide +kernel)
    Agrees sampleConfig sampleDescriptors s.server ∧ (s.server.heap 0).base.state = .kClosing ∧
      ∃ s', Reached (fun t => t = s) (Server.step sampleConfig sampleDescriptors)
          (fun _ _ => True) s' ∧
        s'.server.isAlive 0 = true ∧ (s'.server.heap 0).base.state = .kClosing := by
  intro s
  have hclosing : (s.server.heap 0).base.state = .kClosing := by decide +kernel
  have hagrees := reactor_agrees (runs_after sampleConfig sampleDescriptors (fun _ _ => True)
    closingAnswered (by decide +kernel))
  have hsome : ((runActions (Server.step sampleConfig sampleDescriptors) (fun _ _ => True)
      [.epollReturns [(7, kWritable)], .dispatch { sends := [.accepted 10] }] s).filter
        fun s' => s'.server.isAlive 0).isSome := by decide +kernel
  obtain ⟨s', hs'⟩ := Option.isSome_iff_exists.mp hsome
  obtain ⟨hrun, halive⟩ := Option.filter_eq_some_iff.mp hs'
  have hreach : Reached (fun t => t = s) (Server.step sampleConfig sampleDescriptors)
      (fun _ _ => True) s' := .of_actions (.start rfl) hrun
  exact ⟨hagrees.1 (by decide +kernel), hclosing, s', hreach, halive,
    hagrees.2 s' hreach 0 (by decide +kernel) hclosing halive⟩

end State

end PassionProjects.Arcserve.Server
