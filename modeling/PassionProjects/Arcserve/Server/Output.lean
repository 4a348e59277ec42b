/-
  PassionProjects.Arcserve.Server.Output

  What the handlers do to the output of a connection.

  `Recorded` ties the bytes of the socket to the record of the connection: what was
  sent and what is queued are the responses in their order.  `Continues` is what
  holds as long as nothing has decided to close the connection.
-/

import PassionProjects.Arcserve.Protocol.Progress
import PassionProjects.Arcserve.Server.Session

namespace PassionProjects.Arcserve.Server

open Net Reactor Buffers Protocol Concurrency

/-- A response to a request: the handler's, or that of a full pool. -/
def Answers (cfg : Config) (request : HttpRequest) (response : HttpResponse) : Prop :=
  (∃ n r, cfg.handler n request = some r ∧ response = Session.outgoing r request.keepAlive) ∨
    cfg.workerPool.isSome = true ∧
      response = Session.outgoing Session.queueFullResponse request.keepAlive

namespace Wire

/-- The bytes of everything that was queued. -/
def output (w : Wire) : Bytes :=
  w.responses.flatMap HttpResponse.serialize ++ (w.error.map HttpResponse.serialize).getD []

/-- Each response answers the request of its place, none follows one that closes, and
    there are not too many. -/
structure InOrder (cfg : Config) (w : Wire) : Prop where
  answers : ∀ (i : Nat) (r : HttpResponse), w.responses[i]? = some r →
    ∃ q, w.requests[i]? = some q ∧ Answers cfg q r
  count : w.responses.length ≤ max 1 cfg.maxKeepAliveRequests
  kept : ∀ r ∈ w.responses.dropLast, r.keepAlive = true
  error : w.error.isSome = true → ∀ r ∈ w.responses, r.keepAlive = true

theorem inOrder_empty (cfg : Config) : InOrder cfg {} where
  answers i r h := absurd h (by simp)
  count := Nat.zero_le _
  kept r h := absurd h (by simp)
  error h := absurd h (by simp)

end Wire

namespace Session

variable {cfg : Config} {x x' : Session} {response : HttpResponse} {b : Bool}

/-- What a connection in this state is registered for. -/
def armedFor : ConnectionState → EventMask
  | .kReading => kReadable
  | _ => kWritable

structure Recorded (cfg : Config) (x : Session) : Prop where
  bytes : x.wire.sent ++ x.conn.base.writeQueue.pending = x.wire.output
  inOrder : x.wire.InOrder cfg

structure Continues (cfg : Config) (x : Session) : Prop where
  error : x.wire.error = none
  kept : ∀ r ∈ x.wire.responses, r.keepAlive = true
  served : x.conn.requestsServed = x.wire.responses.length
  below : x.wire.responses.length < cfg.maxKeepAliveRequests ∨ x.wire.responses = []
  parser : x.conn.parser.Unfinished

/-- Registered and reading, with no task at the pool. -/
structure Idle (x : Session) : Prop where
  registered : x.registered = true
  callback : x.callback = true
  interest : x.interest = some kReadable
  state : x.conn.base.state = .kReading
  awaiting : x.conn.awaitingWorkerResult = false
  threw : x.threw = false

/-- A connection between two handlers. -/
structure Resting (cfg : Config) (x : Session) : Prop where
  callback : x.callback = true
  interest : x.interest = some (armedFor x.conn.base.state)
  queue : x.conn.base.state = .kReading ∧ x.conn.base.writeQueue.chunks = [] ∨
    (x.conn.base.state = .kWriting ∨ x.conn.base.state = .kClosing) ∧
      x.conn.base.writeQueue.chunks ≠ []
  awaiting : x.conn.awaitingWorkerResult = true → x.conn.base.state = .kReading
  continues : x.conn.base.state ≠ .kClosing → Continues cfg x
  requests : x.conn.base.state ≠ .kClosing → x.wire.requests.length =
    x.wire.responses.length + if x.conn.awaitingWorkerResult then 1 else 0

/-- What a handler leaves: a connection at rest, one that is gone, or an exception. -/
structure Settled (cfg : Config) (x : Session) : Prop where
  recorded : Recorded cfg x
  resting : x.threw = false → x.registered = true → Resting cfg x
  gone : x.threw = false → x.registered = false → x.callback = false ∧ x.interest = none

/-- What no handler changes. -/
structure Frame (x x' : Session) : Prop where
  id : x'.id = x.id
  fd : x'.conn.base.fd = x.conn.base.fd
  registered : x'.registered = true → x.registered = true

theorem Frame.refl (x : Session) : Frame x x := ⟨rfl, rfl, fun h => h⟩

theorem Frame.trans {y : Session} (h : Frame x y) (h' : Frame y x') : Frame x x' :=
  ⟨h'.id.trans h.id, h'.fd.trans h.fd, fun hr => h.registered (h'.registered hr)⟩

-- ============================================================================
-- Enqueueing
-- ============================================================================

theorem output_append_response (w : Wire) (h : w.error = none) (response : HttpResponse) :
    Wire.output { w with responses := w.responses ++ [response] } =
      w.output ++ response.serialize := by
  simp only [Wire.output, List.flatMap_append, List.flatMap_cons, List.flatMap_nil,
    List.append_nil, h, Option.map_none, Option.getD_none]

/-- The next response of a connection that goes on. -/
theorem inOrder_append {w : Wire} {q : HttpRequest} (h : w.InOrder cfg)
    (hbelow : w.responses.length < cfg.maxKeepAliveRequests ∨ w.responses = [])
    (hkept : ∀ r ∈ w.responses, r.keepAlive = true) (herror : w.error = none)
    (hq : w.requests[w.responses.length]? = some q) (hanswers : Answers cfg q response) :
    Wire.InOrder cfg { w with responses := w.responses ++ [response] } where
  answers i r hi := by
    change (w.responses ++ [response])[i]? = some r at hi
    rw [List.getElem?_append] at hi
    split at hi
    · exact h.answers i r hi
    · obtain ⟨hzero, hr⟩ := List.getElem?_eq_some_iff.mp hi
      rw [List.length_singleton] at hzero
      obtain rfl : i = w.responses.length := by omega
      refine ⟨q, hq, ?_⟩
      rw [← hr, List.getElem_singleton]
      exact hanswers
  count := by
    show (w.responses ++ [response]).length ≤ _
    rw [List.length_append, List.length_singleton]
    rcases hbelow with hlt | hnil
    · omega
    · rw [hnil, List.length_nil]
      omega
  kept r hr := by
    change r ∈ (w.responses ++ [response]).dropLast at hr
    rw [List.dropLast_concat] at hr
    exact hkept r hr
  error hsome := absurd hsome (by simp [herror])

/-- The session with a response queued. -/
def queued (x : Session) (q : OutputQueue) (response : HttpResponse) : Session :=
  { x.setWriteQueue q with wire := { x.wire with responses := x.wire.responses ++ [response] } }

/-- A response is queued whole or not at all. -/
theorem enqueueResponse_cases (x : Session) (response : HttpResponse) :
    x.enqueueResponse response = (false, x) ∨
      ∃ q, q.pending = x.conn.base.writeQueue.pending ++ response.serialize ∧
        x.enqueueResponse response = (true, x.queued q response) := by
  unfold enqueueResponse
  rcases h : x.conn.base.writeQueue.enqueue response.serialize with ⟨_ | _, q⟩
  · exact Or.inl rfl
  · exact Or.inr ⟨q, OutputQueue.pending_enqueue h, rfl⟩

theorem enqueueError_cases (x : Session) (response : HttpResponse) :
    x.enqueueError response = x ∨
      ∃ q, q.pending = x.conn.base.writeQueue.pending ++ response.serialize ∧
        x.enqueueError response = { x.setWriteQueue q with
          wire := { x.wire with error := some response } } := by
  unfold enqueueError
  rcases h : x.conn.base.writeQueue.enqueue response.serialize with ⟨_ | _, q⟩
  · exact Or.inl rfl
  · exact Or.inr ⟨q, OutputQueue.pending_enqueue h, rfl⟩

/-- The error response of the parser ends the output. -/
theorem recorded_enqueueError (h : Recorded cfg x) (herror : x.wire.error = none)
    (hkept : ∀ r ∈ x.wire.responses, r.keepAlive = true) (response : HttpResponse) :
    Recorded cfg (x.enqueueError response) := by
  rcases enqueueError_cases x response with heq | ⟨q, hpending, heq⟩
  · rw [heq]
    exact h
  · rw [heq]
    refine ⟨?_, h.inOrder.answers, h.inOrder.count, h.inOrder.kept, fun _ => hkept⟩
    show x.wire.sent ++ q.pending = _
    rw [hpending, ← List.append_assoc, h.bytes]
    simp only [Wire.output, herror, Option.map_none, Option.getD_none, List.append_nil,
      Option.map_some, Option.getD_some]

/-- A response that was queued is the next of the record. -/
theorem Recorded.enqueueResponse {q : OutputQueue} {request : HttpRequest} (h : Recorded cfg x)
    (hcontinues : Continues cfg x)
    (hrequest : x.wire.requests[x.wire.responses.length]? = some request)
    (hanswers : Answers cfg request response)
    (hpending : q.pending = x.conn.base.writeQueue.pending ++ response.serialize) :
    Recorded cfg (x.queued q response) where
  bytes := by
    show x.wire.sent ++ q.pending = _
    rw [hpending, ← List.append_assoc, h.bytes]
    exact (output_append_response x.wire hcontinues.error response).symm
  inOrder := inOrder_append h.inOrder hcontinues.below hcontinues.kept hcontinues.error hrequest
    hanswers

-- ============================================================================
-- Flushing
-- ============================================================================

/-- A flush only moves bytes from the queue to the socket. -/
theorem Recorded.flushOutput (h : Recorded cfg x) : Recorded cfg x.flushOutput.2 where
  bytes := by
    have hbytes := (x.conn.base.flushOutput_spec x.kernel.sends).1
    show x.wire.sent ++ (x.conn.base.flushOutput x.kernel.sends).sent ++
      (x.conn.base.flushOutput x.kernel.sends).queue.pending = x.wire.output
    rw [List.append_assoc, ← hbytes, h.bytes]
  inOrder := ⟨h.inOrder.answers, h.inOrder.count, h.inOrder.kept, h.inOrder.error⟩

theorem Continues.flushOutput (h : Continues cfg x) : Continues cfg x.flushOutput.2 :=
  ⟨h.error, h.kept, h.served, h.below, h.parser⟩

theorem flushOutput_queue (x : Session) :
    (x.flushOutput.1 = .kFlushed → x.flushOutput.2.conn.base.writeQueue.chunks = []) ∧
      (x.flushOutput.1 = .kPending → x.flushOutput.2.conn.base.writeQueue.chunks ≠ []) :=
  (x.conn.base.flushOutput_spec x.kernel.sends).2

theorem Recorded.closeConnection (h : Recorded cfg x) : Settled cfg x.closeConnection where
  recorded := ⟨h.bytes, h.inOrder⟩
  resting _ hr := absurd hr (by simp [Session.closeConnection])
  gone _ _ := ⟨rfl, rfl⟩

/-- What is not touched by `finish_dispatch`. -/
structure Outputs (x x' : Session) : Prop where
  frame : Frame x x'
  pool : x'.pool = x.pool
  awaiting : x'.conn.awaitingWorkerResult = x.conn.awaitingWorkerResult
  readBuffer : x'.conn.base.readBuffer = x.conn.base.readBuffer
  requests : x'.wire.requests = x.wire.requests
  responses : x'.wire.responses = x.wire.responses
  error : x'.wire.error = x.wire.error

theorem Outputs.trans {y : Session} (h : Outputs x y) (h' : Outputs y x') : Outputs x x' :=
  ⟨h.frame.trans h'.frame, h'.pool.trans h.pool, h'.awaiting.trans h.awaiting,
    h'.readBuffer.trans h.readBuffer, h'.requests.trans h.requests,
    h'.responses.trans h.responses, h'.error.trans h.error⟩

theorem outputs_flushOutput (x : Session) : Outputs x x.flushOutput.2 :=
  ⟨⟨rfl, rfl, fun h => h⟩, rfl, rfl, rfl, rfl, rfl, rfl⟩

theorem outputs_setState (x : Session) (state : ConnectionState) : Outputs x (x.setState state) :=
  ⟨⟨rfl, rfl, fun h => h⟩, rfl, rfl, rfl, rfl, rfl, rfl⟩

theorem outputs_closeConnection (x : Session) : Outputs x x.closeConnection :=
  ⟨⟨rfl, rfl, fun h => absurd h (by simp [closeConnection])⟩, rfl, rfl, rfl, rfl, rfl, rfl⟩

theorem outputs_modify (x : Session) (mask : EventMask) : Outputs x (x.modify mask) := by
  unfold modify
  dsimp only
  split
  · exact ⟨⟨rfl, rfl, fun h => h⟩, rfl, rfl, rfl, rfl, rfl, rfl⟩
  · exact ⟨⟨rfl, rfl, fun h => h⟩, rfl, rfl, rfl, rfl, rfl, rfl⟩

theorem outputs_finishDispatch (x : Session) (closeAfterFlush : Bool) :
    Outputs x (x.finishDispatch closeAfterFlush).2 := by
  have hflush := outputs_flushOutput x
  unfold finishDispatch
  rcases h : x.flushOutput with ⟨r, y⟩
  rw [h] at hflush
  cases r with
  | kFailed => exact hflush.trans (outputs_closeConnection y)
  | kFlushed =>
      dsimp only
      split
      · exact hflush.trans (outputs_closeConnection y)
      · exact hflush
  | kPending => exact hflush.trans ((outputs_setState y _).trans (outputs_modify _ _))

/-- `modify` succeeds, or throws. -/
theorem modify_interest (x : Session) (mask : EventMask) :
    (x.modify mask).threw = true ∨
      (x.modify mask).threw = x.threw ∧ (x.modify mask).interest = some mask := by
  unfold modify
  dsimp only
  split
  · exact Or.inl rfl
  · exact Or.inr ⟨rfl, rfl⟩

@[simp] theorem modify_wire (x : Session) (mask : EventMask) : (x.modify mask).wire = x.wire := by
  unfold modify
  dsimp only
  split <;> rfl

@[simp] theorem modify_conn (x : Session) (mask : EventMask) : (x.modify mask).conn = x.conn := by
  unfold modify
  dsimp only
  split <;> rfl

@[simp] theorem modify_callback (x : Session) (mask : EventMask) :
    (x.modify mask).callback = x.callback := by
  unfold modify
  dsimp only
  split <;> rfl

@[simp] theorem modify_registered (x : Session) (mask : EventMask) :
    (x.modify mask).registered = x.registered := by
  unfold modify
  dsimp only
  split <;> rfl

/-- An idle connection with nothing to send is at rest. -/
theorem Idle.settled (hidle : Idle x) (hrec : Recorded cfg x)
    (hqueue : x.conn.base.writeQueue.chunks = []) (hcont : Continues cfg x)
    (hlen : x.wire.requests.length = x.wire.responses.length) : Settled cfg x where
  recorded := hrec
  resting _ _ := by
    refine ⟨hidle.callback, ?_, Or.inl ⟨hidle.state, hqueue⟩, fun _ => hidle.state, fun _ => hcont,
      fun _ => ?_⟩
    · rw [hidle.state]
      exact hidle.interest
    · rw [hidle.awaiting]
      exact hlen
  gone _ hgone := absurd (hidle.registered.symm.trans hgone) (by simp)

/-- A write that waits for the socket leaves the connection registered for it. -/
theorem settled_pending {state : ConnectionState} (hidle : Idle x) (hrec : Recorded cfg x)
    (hqueue : x.conn.base.writeQueue.chunks ≠ [])
    (hstate : state = .kWriting ∨ state = .kClosing)
    (hgoes : state = .kWriting →
      Continues cfg x ∧ x.wire.requests.length = x.wire.responses.length) :
    Settled cfg ((x.setState state).modify kWritable) where
  recorded := by
    constructor
    · rw [modify_conn, modify_wire]
      exact hrec.bytes
    · rw [modify_wire]
      exact hrec.inOrder
  resting hthrew _ := by
    have harmed : armedFor state = kWritable := by rcases hstate with rfl | rfl <;> rfl
    have hwriting : state ≠ .kClosing → state = .kWriting := fun hne => hstate.resolve_right hne
    rcases modify_interest (x.setState state) kWritable with hthrown | ⟨-, hinterest⟩
    · exact absurd (hthrown.symm.trans hthrew) (by simp)
    · refine ⟨(modify_callback _ _).trans hidle.callback, ?_, Or.inr ?_, ?_, ?_, ?_⟩
      · rw [hinterest, modify_conn]
        exact congrArg some harmed.symm
      · rw [modify_conn]
        exact ⟨hstate, hqueue⟩
      · rw [modify_conn]
        exact fun hawaiting => absurd (hidle.awaiting.symm.trans hawaiting) (by simp)
      · rw [modify_conn]
        intro hne
        obtain ⟨hcont, -⟩ := hgoes (hwriting hne)
        constructor
        · rw [modify_wire]
          exact hcont.error
        · rw [modify_wire]
          exact hcont.kept
        · rw [modify_conn, modify_wire]
          exact hcont.served
        · rw [modify_wire]
          exact hcont.below
        · rw [modify_conn]
          exact hcont.parser
      · rw [modify_conn, modify_wire]
        intro hne
        have hawaiting : (x.setState state).conn.awaitingWorkerResult = false := hidle.awaiting
        rw [hawaiting]
        exact (hgoes (hwriting hne)).2
  gone _ hgone := absurd ((modify_registered _ _).symm.trans hgone)
    (by rw [show (x.setState state).registered = true from hidle.registered]; simp)

/-- `finish_dispatch`: where it says that parsing may go on the connection is as it
    was, with an empty queue; else it is not reading any more. -/
theorem finishDispatch_settled {closeAfterFlush : Bool} (hidle : Idle x) (hrec : Recorded cfg x)
    (hgoes : closeAfterFlush = false →
      Continues cfg x ∧ x.wire.requests.length = x.wire.responses.length) :
    Settled cfg (x.finishDispatch closeAfterFlush).2 ∧
      ((x.finishDispatch closeAfterFlush).1 = true → Idle (x.finishDispatch closeAfterFlush).2 ∧
        closeAfterFlush = false ∧
        (x.finishDispatch closeAfterFlush).2.conn.base.writeQueue.chunks = [] ∧
        Continues cfg (x.finishDispatch closeAfterFlush).2) ∧
      ((x.finishDispatch closeAfterFlush).1 = false →
        (x.finishDispatch closeAfterFlush).2.registered = true →
        (x.finishDispatch closeAfterFlush).2.conn.base.state =
          if closeAfterFlush then .kClosing else .kWriting) := by
  have hidle' : Idle x.flushOutput.2 := ⟨hidle.registered, hidle.callback, hidle.interest,
    hidle.state, hidle.awaiting, hidle.threw⟩
  have hrec' := hrec.flushOutput
  obtain ⟨hflushed, hpending⟩ := x.flushOutput_queue
  have hgoes' : closeAfterFlush = false → Continues cfg x.flushOutput.2 ∧
      x.flushOutput.2.wire.requests.length = x.flushOutput.2.wire.responses.length :=
    fun h => ⟨(hgoes h).1.flushOutput, (hgoes h).2⟩
  unfold finishDispatch
  rcases h : x.flushOutput with ⟨r, y⟩
  rw [h] at hidle' hrec' hflushed hpending hgoes'
  cases r with
  | kFailed =>
      exact ⟨hrec'.closeConnection, fun hb => absurd hb (by simp),
        fun _ hr => absurd hr (by simp [closeConnection])⟩
  | kFlushed =>
      cases closeAfterFlush with
      | true =>
          exact ⟨hrec'.closeConnection, fun hb => absurd hb (by simp),
            fun _ hr => absurd hr (by simp [closeConnection])⟩
      | false =>
          obtain ⟨hcont, hlen⟩ := hgoes' rfl
          have hqueue := hflushed rfl
          exact ⟨hidle'.settled hrec' hqueue hcont hlen, fun _ => ⟨hidle', rfl, hqueue, hcont⟩,
            fun hb => absurd hb (by simp)⟩
  | kPending =>
      cases closeAfterFlush with
      | true =>
          exact ⟨settled_pending hidle' hrec' (hpending rfl) (Or.inr rfl)
            (fun heq => absurd heq (by simp)), fun hb => absurd hb (by simp),
            fun _ _ => by rw [modify_conn]; rfl⟩
      | false =>
          exact ⟨settled_pending hidle' hrec' (hpending rfl) (Or.inl rfl) fun _ => hgoes' rfl,
            fun hb => absurd hb (by simp), fun _ _ => by rw [modify_conn]; rfl⟩

end Session

end PassionProjects.Arcserve.Server
