/-
  PassionProjects.Arcserve.Server.Driving

  What `drive_parser` and `on_worker_result` leave of a connection.

  `Driven` is the one specification of both: the connection is at rest or gone, at
  most one task was handed to the pool, exactly where the connection now awaits its
  result, and a connection that waits for more bytes has none left unparsed.
-/

import PassionProjects.Arcserve.Server.Output

namespace PassionProjects.Arcserve.Server.Session

open Net Reactor Buffers Protocol Concurrency

variable {cfg : Config} {x x' : Session} {drive : Session → Session} {response : HttpResponse}
  {request : HttpRequest} {requestKeepAlive : Bool}

/-- The pool got the request the connection now waits for, or nothing. -/
def Submitted (x x' : Session) : Prop :=
  x'.pool = x.pool ∧
      (x'.threw = false → x'.registered = true → x'.conn.awaitingWorkerResult = false) ∨
    ∃ request, x'.pool =
        { x.pool with tasks := x.pool.tasks ++ [⟨x.id, request, request.keepAlive⟩] } ∧
      x'.wire.requests.getLast? = some request ∧ x'.conn.awaitingWorkerResult = true ∧
        x'.registered = true ∧ x'.threw = false

/-- All that was received went to the parser. -/
def Drained (x : Session) : Prop :=
  x.threw = false → x.registered = true → x.conn.base.state = .kReading →
    x.conn.awaitingWorkerResult = false → x.conn.base.readBuffer.view = []

structure Driven (cfg : Config) (x x' : Session) : Prop where
  settled : Settled cfg x'
  frame : Frame x x'
  submitted : Submitted x x'
  drained : Drained x'

/-- A connection whose parser may be driven. -/
structure Drivable (cfg : Config) (x : Session) : Prop where
  idle : Idle x
  recorded : Recorded cfg x
  continues : Continues cfg x
  requests : x.wire.requests.length = x.wire.responses.length
  queue : x.conn.base.writeQueue.chunks = []

/-- Driving goes on from what an earlier part left. -/
theorem Driven.after {y : Session} (hframe : Frame x y) (hpool : y.pool = x.pool)
    (h : Driven cfg y x') : Driven cfg x x' where
  settled := h.settled
  frame := hframe.trans h.frame
  submitted := by
    have hsubmitted := h.submitted
    rwa [Submitted, hpool, hframe.id] at hsubmitted
  drained := h.drained

theorem finishDispatch_driven {closeAfterFlush : Bool} (hidle : Idle x) (hrec : Recorded cfg x)
    (hgoes : closeAfterFlush = false →
      Continues cfg x ∧ x.wire.requests.length = x.wire.responses.length)
    (hview : closeAfterFlush = false → x.conn.base.readBuffer.view = []) :
    Driven cfg x (x.finishDispatch closeAfterFlush).2 := by
  obtain ⟨hsettled, hresumable, hstate⟩ := finishDispatch_settled hidle hrec hgoes
  have houtputs := outputs_finishDispatch x closeAfterFlush
  refine ⟨hsettled, houtputs.frame, Or.inl ⟨houtputs.pool, fun _ _ =>
    houtputs.awaiting.trans hidle.awaiting⟩, fun hthrew hr hreading hawaiting => ?_⟩
  cases hb : (x.finishDispatch closeAfterFlush).1 with
  | true =>
      rw [houtputs.readBuffer]
      exact hview (hresumable hb).2.1
  | false =>
      rw [hstate hb hr] at hreading
      cases closeAfterFlush <;> exact absurd hreading (by decide)

-- ============================================================================
-- A result
-- ============================================================================

/-- The response that `on_worker_result` queues, and whether it closes. -/
theorem serveOne_continues {q : OutputQueue} (hcont : Continues cfg x)
    (hkeep : response.keepAlive = true)
    (hbelow : x.conn.requestsServed + 1 < cfg.maxKeepAliveRequests) :
    Continues cfg (x.queued q response).serveOne where
  error := hcont.error
  kept r hr := by
    rcases List.mem_append.mp hr with hr | hr
    · exact hcont.kept r hr
    · rw [List.mem_singleton.mp hr]
      exact hkeep
  served := by
    show x.conn.requestsServed + 1 = (x.wire.responses ++ [response]).length
    rw [List.length_append, List.length_singleton, hcont.served]
  below := by
    refine Or.inl ?_
    show (x.wire.responses ++ [response]).length < _
    rw [List.length_append, List.length_singleton, ← hcont.served]
    exact hbelow
  parser := hcont.parser

theorem closes_eq_false {keepAlive : Bool} {served max : Nat}
    (h : (!keepAlive || decide (served ≥ max)) = false) : keepAlive = true ∧ served < max := by
  rw [Bool.or_eq_false_iff] at h
  exact ⟨by simpa using h.1, by simpa using h.2⟩

/-- `finish_dispatch`, and the parser again where it may go on. -/
theorem finishThenDrive_driven {closeAfterFlush : Bool} (hidle : Idle x) (hrec : Recorded cfg x)
    (hgoes : closeAfterFlush = false →
      Continues cfg x ∧ x.wire.requests.length = x.wire.responses.length)
    (hdrive : closeAfterFlush = false → ∀ y, Drivable cfg y → Driven cfg y (drive y)) :
    Driven cfg x (if (x.finishDispatch closeAfterFlush).1 then
      drive (x.finishDispatch closeAfterFlush).2 else (x.finishDispatch closeAfterFlush).2) := by
  obtain ⟨hsettled, hresumable, hstate⟩ := finishDispatch_settled hidle hrec hgoes
  have houtputs := outputs_finishDispatch x closeAfterFlush
  cases hb : (x.finishDispatch closeAfterFlush).1 with
  | true =>
      obtain ⟨hidle', hclose, hqueue, hcont⟩ := hresumable hb
      have hlen := (hgoes hclose).2
      rw [← houtputs.requests, ← houtputs.responses] at hlen
      exact .after houtputs.frame houtputs.pool
        (hdrive hclose _ ⟨hidle', hsettled.recorded, hcont, hlen, hqueue⟩)
  | false =>
      refine ⟨hsettled, houtputs.frame, Or.inl ⟨houtputs.pool, fun _ _ =>
        houtputs.awaiting.trans hidle.awaiting⟩, fun _ hr hreading => ?_⟩
      have hleft := (hstate hb hr).symm.trans hreading
      cases closeAfterFlush <;> exact absurd hleft (by decide)

/-- A result for a connection that waits for it; only where the response keeps the
    connection alive is the parser driven on. -/
theorem onWorkerResultWith_driven (hidle : Idle (x.setAwaiting false)) (hrec : Recorded cfg x)
    (hcont : Continues cfg x) (hlen : x.wire.requests.length = x.wire.responses.length + 1)
    (hrequest : x.wire.requests[x.wire.responses.length]? = some request)
    (hanswers : Answers cfg request (outgoing response requestKeepAlive))
    (hdrive : (outgoing response requestKeepAlive).keepAlive = true →
      ∀ y, Drivable cfg y → Driven cfg y (drive y)) :
    Driven cfg x (onWorkerResultWith cfg drive x response requestKeepAlive) := by
  have hrec' : Recorded cfg (x.setAwaiting false) := ⟨hrec.bytes, hrec.inOrder⟩
  have hcont' : Continues cfg (x.setAwaiting false) :=
    ⟨hcont.error, hcont.kept, hcont.served, hcont.below, hcont.parser⟩
  unfold onWorkerResultWith
  dsimp only
  rcases enqueueResponse_cases (x.setAwaiting false) (outgoing response requestKeepAlive) with
    heq | ⟨q, hpending, heq⟩
  · -- the output queue is full: the response is dropped and the connection closes
    rw [heq]
    refine .after (y := x.setAwaiting false) ⟨rfl, rfl, fun h => h⟩ rfl ?_
    exact finishThenDrive_driven hidle hrec' (fun h => absurd h (by simp))
      fun h => absurd h (by simp)
  · rw [heq]
    have hqueued := hrec'.enqueueResponse hcont' hrequest hanswers hpending
    refine .after
      (y := ((x.setAwaiting false).queued q (outgoing response requestKeepAlive)).serveOne)
      ⟨rfl, rfl, fun h => h⟩ rfl ?_
    refine finishThenDrive_driven ⟨hidle.registered, hidle.callback, hidle.interest, hidle.state,
      hidle.awaiting, hidle.threw⟩ ⟨hqueued.bytes, hqueued.inOrder⟩ (fun hclose => ?_)
      fun hclose => hdrive (closes_eq_false hclose).1
    obtain ⟨hkeep, hbelow⟩ := closes_eq_false hclose
    refine ⟨serveOne_continues hcont' hkeep hbelow, ?_⟩
    show x.wire.requests.length = (x.wire.responses ++ [_]).length
    rw [hlen, List.length_append, List.length_singleton]

-- ============================================================================
-- The loop of drive_parser
-- ============================================================================

/-- A full pool answers for the handler, and the answer closes the connection. -/
theorem queueFull_closes (requestKeepAlive : Bool) :
    (outgoing queueFullResponse requestKeepAlive).keepAlive = false := rfl

/-- `dispatch_to_worker` of the request the parser completed last. -/
theorem dispatchToWorkerWith_driven (hidle : Idle (x.setAwaiting false)) (hrec : Recorded cfg x)
    (hcont : Continues cfg x) (hlen : x.wire.requests.length = x.wire.responses.length + 1)
    (hrequest : x.wire.requests[x.wire.responses.length]? = some request)
    (hpool : cfg.workerPool.isSome = true) (hawaiting : x.conn.awaitingWorkerResult = true)
    (hqueue : x.conn.base.writeQueue.chunks = []) :
    Driven cfg x (dispatchToWorkerWith cfg drive x request request.keepAlive) := by
  unfold dispatchToWorkerWith
  rcases x.pool.tryPush_cases ⟨x.id, request, request.keepAlive⟩ with heq | heq
  · rw [heq]
    exact onWorkerResultWith_driven hidle hrec hcont hlen hrequest (Or.inr ⟨hpool, rfl⟩)
      fun hkeep => absurd hkeep (by rw [queueFull_closes]; simp)
  · rw [heq]
    have hlast : x.wire.requests.getLast? = some request := by
      rw [List.getLast?_eq_getElem?, hlen, Nat.add_sub_cancel]
      exact hrequest
    refine ⟨⟨⟨hrec.bytes, hrec.inOrder⟩, fun _ _ => ?_, fun _ hgone => ?_⟩, ⟨rfl, rfl, fun h => h⟩,
      Or.inr ⟨request, rfl, hlast, hawaiting, hidle.registered, hidle.threw⟩, fun _ _ _ hfree => ?_⟩
    · refine ⟨hidle.callback, ?_, Or.inl ⟨hidle.state, hqueue⟩, fun _ => hidle.state,
        fun _ => ⟨hcont.error, hcont.kept, hcont.served, hcont.below, hcont.parser⟩, fun _ => ?_⟩
      · show x.interest = some (armedFor x.conn.base.state)
        rw [show x.conn.base.state = .kReading from hidle.state]
        exact hidle.interest
      · show x.wire.requests.length = x.wire.responses.length +
          if x.conn.awaitingWorkerResult = true then 1 else 0
        rw [hawaiting, if_pos rfl]
        exact hlen
    · exact absurd (hidle.registered.symm.trans hgone) (by simp)
    · exact absurd (hawaiting.symm.trans hfree) (by simp)

/-- What the loop leaves. -/
structure Parsed (cfg : Config) (x : Session) (exit : LoopExit) (x' : Session) (view : Bytes) :
    Prop where
  frame : Frame x x'
  recorded : Recorded cfg x'
  dispatched : exit.dispatchedToWorkerPool = true → Driven cfg x x'
  pool : exit.dispatchedToWorkerPool = false → x'.pool = x.pool
  idle : exit.dispatchedToWorkerPool = false → x'.threw = false → Idle x'
  continues : exit.dispatchedToWorkerPool = false → x'.threw = false →
    exit.closeAfterFlush = false →
      Continues cfg x' ∧ x'.wire.requests.length = x'.wire.responses.length ∧ view = []

theorem Parsed.after {y : Session} {exit : LoopExit} {view : Bytes} (hframe : Frame x y)
    (hpool : y.pool = x.pool) (h : Parsed cfg y exit x' view) : Parsed cfg x exit x' view :=
  ⟨hframe.trans h.frame, h.recorded,
    fun hd => .after hframe hpool (h.dispatched hd), fun hd => (h.pool hd).trans hpool, h.idle,
    h.continues⟩

/-- The record once the parser has completed a request. -/
theorem Recorded.complete (h : Recorded cfg x) (request : HttpRequest) :
    Recorded cfg (x.complete request) where
  bytes := h.bytes
  inOrder := by
    refine ⟨fun i r hi => ?_, h.inOrder.count, h.inOrder.kept, h.inOrder.error⟩
    obtain ⟨q, hq, hanswers⟩ := h.inOrder.answers i r hi
    refine ⟨q, ?_, hanswers⟩
    show (x.wire.requests ++ [request])[i]? = some q
    rw [List.getElem?_append_left (List.getElem?_eq_some_iff.mp hq).1]
    exact hq

/-- The last request is the one without a response. -/
theorem complete_request (hlen : x.wire.requests.length = x.wire.responses.length)
    (request : HttpRequest) :
    (x.complete request).wire.requests[(x.complete request).wire.responses.length]? =
      some request := by
  show (x.wire.requests ++ [request])[x.wire.responses.length]? = some request
  rw [← hlen, List.getElem?_concat_length]

theorem enqueueError_frame (hidle : Idle x) (response : HttpResponse) :
    Frame x (x.enqueueError response) ∧ (x.enqueueError response).pool = x.pool ∧
      Idle (x.enqueueError response) := by
  rcases enqueueError_cases x response with heq | ⟨q, -, heq⟩
  · rw [heq]
    exact ⟨.refl x, rfl, hidle⟩
  · rw [heq]
    exact ⟨⟨rfl, rfl, fun h => h⟩, rfl, hidle.registered, hidle.callback, hidle.interest,
      hidle.state, hidle.awaiting, hidle.threw⟩

section Turns

variable {fuel : Nat} {view left : Bytes} {parser : HttpRequestParser}

theorem parseLoop_needMoreData (h : x.conn.parser.feed view = (.kNeedMoreData, parser, left)) :
    parseLoop cfg drive (fuel + 1) x view = (⟨false, false⟩, x.setParser parser, left) := by
  rw [parseLoop, h]

theorem parseLoop_error (h : x.conn.parser.feed view = (.kError, parser, left)) :
    parseLoop cfg drive (fuel + 1) x view =
      (⟨true, false⟩, (x.setParser parser).enqueueError parser.errorResponse, []) := by
  rw [parseLoop, h]

/-- The session when the parser has completed a request. -/
def completed (x : Session) (parser : HttpRequestParser) : Session :=
  (x.setParser parser).complete parser.request

/-- The session when the handler has been called for it. -/
def handled (x : Session) (parser : HttpRequestParser) : Session :=
  { x.completed parser with handlerCalls := x.handlerCalls + 1 }

theorem parseLoop_dispatched {pool : PoolConfig}
    (h : x.conn.parser.feed view = (.kComplete, parser, left))
    (hpool : cfg.workerPool = some pool) :
    parseLoop cfg drive (fuel + 1) x view =
      (⟨false, true⟩, dispatchToWorkerWith cfg drive
        (((x.completed parser).setParser parser.reset).setAwaiting true) parser.request
        parser.request.keepAlive, left) := by
  rw [parseLoop, h]
  simp only [hpool]
  rfl

theorem parseLoop_threw (h : x.conn.parser.feed view = (.kComplete, parser, left))
    (hpool : cfg.workerPool = none) (hthrew : cfg.handler x.handlerCalls parser.request = none) :
    parseLoop cfg drive (fuel + 1) x view =
      (⟨false, false⟩, { x.handled parser with threw := true }, left) := by
  have hcalled : cfg.handler ((x.setParser parser).complete parser.request).handlerCalls
      parser.request = none := hthrew
  rw [parseLoop, h]
  simp only [hpool, hcalled]
  rfl

theorem parseLoop_answered (h : x.conn.parser.feed view = (.kComplete, parser, left))
    (hpool : cfg.workerPool = none)
    (hanswer : cfg.handler x.handlerCalls parser.request = some response) :
    parseLoop cfg drive (fuel + 1) x view =
      match (x.handled parser).enqueueResponse (outgoing response parser.request.keepAlive) with
      | (false, x) => (⟨true, false⟩, x, [])
      | (true, x) =>
        if (!(outgoing response parser.request.keepAlive).keepAlive ||
            decide (x.serveOne.conn.requestsServed ≥ cfg.maxKeepAliveRequests)) = true then
          (⟨true, false⟩, x.serveOne.setParser parser.reset, left)
        else parseLoop cfg drive fuel (x.serveOne.setParser parser.reset) left := by
  have hcalled : cfg.handler ((x.setParser parser).complete parser.request).handlerCalls
      parser.request = some response := hanswer
  rw [parseLoop, h]
  simp only [hpool, hcalled]
  rfl

theorem recorded_completed (hrec : Recorded cfg x) (parser : HttpRequestParser) :
    Recorded cfg (x.completed parser) :=
  Recorded.complete (x := x.setParser parser) ⟨hrec.bytes, hrec.inOrder⟩ parser.request

theorem completed_length (hlen : x.wire.requests.length = x.wire.responses.length)
    (parser : HttpRequestParser) :
    (x.completed parser).wire.requests.length = x.wire.responses.length + 1 := by
  show (x.wire.requests ++ [parser.request]).length = _
  rw [List.length_append, List.length_singleton, hlen]

/-- The loop waits for more bytes. -/
theorem parsed_needMoreData (hidle : Idle x) (hrec : Recorded cfg x) (hcont : Continues cfg x)
    (hlen : x.wire.requests.length = x.wire.responses.length) (hparser : parser.Unfinished) :
    Parsed cfg x ⟨false, false⟩ (x.setParser parser) [] where
  frame := ⟨rfl, rfl, fun h => h⟩
  recorded := ⟨hrec.bytes, hrec.inOrder⟩
  dispatched h := absurd h (by simp)
  pool _ := rfl
  idle _ _ := ⟨hidle.registered, hidle.callback, hidle.interest, hidle.state, hidle.awaiting,
    hidle.threw⟩
  continues _ _ _ := ⟨⟨hcont.error, hcont.kept, hcont.served, hcont.below, hparser⟩, hlen, rfl⟩

/-- The loop ends in an error response. -/
theorem parsed_error (hidle : Idle x) (hrec : Recorded cfg x) (hcont : Continues cfg x)
    (parser : HttpRequestParser) :
    Parsed cfg x ⟨true, false⟩ ((x.setParser parser).enqueueError parser.errorResponse) [] := by
  have hidle' : Idle (x.setParser parser) := ⟨hidle.registered, hidle.callback, hidle.interest,
    hidle.state, hidle.awaiting, hidle.threw⟩
  have hqueued := recorded_enqueueError (x := x.setParser parser) ⟨hrec.bytes, hrec.inOrder⟩
    hcont.error hcont.kept parser.errorResponse
  obtain ⟨hframe, hpool, hidle''⟩ := enqueueError_frame hidle' parser.errorResponse
  have hsame : Frame x (x.setParser parser) := ⟨rfl, rfl, fun h => h⟩
  exact ⟨hsame.trans hframe, hqueued, fun h => absurd h (by simp), fun _ => hpool,
    fun _ _ => hidle'', fun _ _ h => absurd h (by simp)⟩

/-- The loop hands the request to the pool. -/
theorem parsed_dispatched {pool : PoolConfig} (hidle : Idle x) (hrec : Recorded cfg x)
    (hcont : Continues cfg x) (hlen : x.wire.requests.length = x.wire.responses.length)
    (hqueue : x.conn.base.writeQueue.chunks = []) (hpool : cfg.workerPool = some pool)
    (parser : HttpRequestParser) (left : Bytes) :
    Parsed cfg x ⟨false, true⟩ (dispatchToWorkerWith cfg drive
      (((x.completed parser).setParser parser.reset).setAwaiting true) parser.request
      parser.request.keepAlive) left := by
  have hcompleted := recorded_completed hrec parser
  have hpool' : cfg.workerPool.isSome = true := by rw [hpool]; rfl
  have hdriven : Driven cfg x (dispatchToWorkerWith cfg drive
      (((x.completed parser).setParser parser.reset).setAwaiting true) parser.request
      parser.request.keepAlive) := by
    refine .after (y := ((x.completed parser).setParser parser.reset).setAwaiting true)
      ⟨rfl, rfl, fun h => h⟩ rfl ?_
    exact dispatchToWorkerWith_driven
      ⟨hidle.registered, hidle.callback, hidle.interest, hidle.state, rfl, hidle.threw⟩
      ⟨hcompleted.bytes, hcompleted.inOrder⟩
      ⟨hcont.error, hcont.kept, hcont.served, hcont.below,
        HttpRequestParser.unfinished_reset parser⟩
      (completed_length hlen parser) (complete_request (x := x.setParser parser) hlen _)
      hpool' rfl hqueue
  exact ⟨hdriven.frame, hdriven.settled.recorded, fun _ => hdriven,
    fun hd => absurd hd (by simp), fun hd => absurd hd (by simp), fun hd => absurd hd (by simp)⟩

/-- The loop ends with an exception of the handler. -/
theorem parsed_threw (hrec : Recorded cfg x) (parser : HttpRequestParser) (left : Bytes) :
    Parsed cfg x ⟨false, false⟩ { x.handled parser with threw := true } left where
  frame := ⟨rfl, rfl, fun h => h⟩
  recorded := ⟨(recorded_completed hrec parser).bytes, (recorded_completed hrec parser).inOrder⟩
  dispatched h := absurd h (by simp)
  pool _ := rfl
  idle _ h := absurd h (by simp)
  continues _ h := absurd h (by simp)

/-- The loop queues the handler's response, and goes on where that keeps the
    connection. -/
theorem parsed_answered (hidle : Idle x) (hrec : Recorded cfg x) (hcont : Continues cfg x)
    (hlen : x.wire.requests.length = x.wire.responses.length)
    (hanswer : cfg.handler x.handlerCalls parser.request = some response)
    (hfeed : x.conn.parser.feed view = (.kComplete, parser, left)) (hpool : cfg.workerPool = none)
    (hrest : ∀ y, Idle y → Recorded cfg y → Continues cfg y →
      y.wire.requests.length = y.wire.responses.length →
        Parsed cfg y (parseLoop cfg drive fuel y left).1 (parseLoop cfg drive fuel y left).2.1
          (parseLoop cfg drive fuel y left).2.2) :
    Parsed cfg x (parseLoop cfg drive (fuel + 1) x view).1
      (parseLoop cfg drive (fuel + 1) x view).2.1 (parseLoop cfg drive (fuel + 1) x view).2.2 := by
  have hcompleted := recorded_completed hrec parser
  have hidle' : Idle (x.handled parser) := ⟨hidle.registered, hidle.callback, hidle.interest,
    hidle.state, hidle.awaiting, hidle.threw⟩
  have hrec' : Recorded cfg ((x.handled parser).setParser parser.reset) :=
    ⟨hcompleted.bytes, hcompleted.inOrder⟩
  have hcont' : Continues cfg ((x.handled parser).setParser parser.reset) :=
    ⟨hcont.error, hcont.kept, hcont.served, hcont.below, HttpRequestParser.unfinished_reset parser⟩
  rw [parseLoop_answered hfeed hpool hanswer]
  rcases enqueueResponse_cases (x.handled parser)
    (outgoing response parser.request.keepAlive) with heq | ⟨q, hpending, heq⟩
  · -- the output queue is full: the response is dropped
    rw [heq]
    exact ⟨⟨rfl, rfl, fun h => h⟩, ⟨hrec'.bytes, hrec'.inOrder⟩, fun h => absurd h (by simp),
      fun _ => rfl, fun _ _ => hidle', fun _ _ h => absurd h (by simp)⟩
  · rw [heq]
    have hqueued := hrec'.enqueueResponse hcont'
      (complete_request (x := x.setParser parser) hlen parser.request)
      (Or.inl ⟨x.handlerCalls, response, hanswer, rfl⟩) hpending
    have hqueued' : Recorded cfg (((x.handled parser).queued q
        (outgoing response parser.request.keepAlive)).serveOne.setParser parser.reset) :=
      ⟨hqueued.bytes, hqueued.inOrder⟩
    have hidle'' : Idle (((x.handled parser).queued q
        (outgoing response parser.request.keepAlive)).serveOne.setParser parser.reset) :=
      ⟨hidle.registered, hidle.callback, hidle.interest, hidle.state, hidle.awaiting, hidle.threw⟩
    dsimp only
    split
    · exact ⟨⟨rfl, rfl, fun h => h⟩, hqueued', fun h => absurd h (by simp), fun _ => rfl,
        fun _ _ => hidle'', fun _ _ h => absurd h (by simp)⟩
    · obtain ⟨hkeep, hbelow⟩ := closes_eq_false (Bool.not_eq_true _ ▸ ‹¬ _›)
      refine .after (y := ((x.handled parser).queued q
        (outgoing response parser.request.keepAlive)).serveOne.setParser parser.reset)
        ⟨rfl, rfl, fun h => h⟩ rfl (hrest _ hidle'' hqueued' ?_ ?_)
      · exact serveOne_continues hcont' hkeep hbelow
      · show (x.wire.requests ++ [parser.request]).length = (x.wire.responses ++ [_]).length
        rw [List.length_append, List.length_append, hlen]
        rfl

end Turns

/-- The loop of `drive_parser`: the induction is on its turns, each of which leaves
    less of the view. -/
theorem parseLoop_parsed (drive : Session → Session) {fuel : Nat} {view : Bytes}
    (hidle : Idle x) (hrec : Recorded cfg x) (hcont : Continues cfg x)
    (hlen : x.wire.requests.length = x.wire.responses.length)
    (hqueue : cfg.workerPool.isSome = true → x.conn.base.writeQueue.chunks = [])
    (hfuel : view.length < fuel) :
    Parsed cfg x (parseLoop cfg drive fuel x view).1 (parseLoop cfg drive fuel x view).2.1
      (parseLoop cfg drive fuel x view).2.2 := by
  induction fuel generalizing x view with
  | zero => exact absurd hfuel (Nat.not_lt_zero _)
  | succ fuel ih =>
      have hfed := HttpRequestParser.feed_progress hcont.parser view
      rcases hfeed : x.conn.parser.feed view with ⟨status, parser, left⟩
      rw [hfeed] at hfed
      cases status with
      | kNeedMoreData =>
          obtain ⟨hparser, rfl⟩ := hfed
          rw [parseLoop_needMoreData hfeed]
          exact parsed_needMoreData hidle hrec hcont hlen hparser
      | kError =>
          rw [parseLoop_error hfeed]
          exact parsed_error hidle hrec hcont parser
      | kComplete =>
          cases hpool : cfg.workerPool with
          | some pool =>
              rw [parseLoop_dispatched hfeed hpool]
              exact parsed_dispatched hidle hrec hcont hlen (hqueue (by rw [hpool]; rfl)) hpool
                parser left
          | none =>
              cases hhandler : cfg.handler x.handlerCalls parser.request with
              | none =>
                  rw [parseLoop_threw hfeed hpool hhandler]
                  exact parsed_threw hrec parser left
              | some response =>
                  refine parsed_answered hidle hrec hcont hlen hhandler hfeed hpool
                    fun y hidle' hrec' hcont' hlen' => ih hidle' hrec' hcont' hlen' ?_ ?_
                  · exact fun h => absurd h (by rw [hpool]; simp)
                  · exact Nat.lt_of_lt_of_le hfed (Nat.le_of_lt_succ hfuel)

-- ============================================================================
-- drive_parser
-- ============================================================================

theorem Drained.setReadBuffer (h : Drained x) (n : Nat) :
    Drained (x.setReadBuffer (x.conn.base.readBuffer.consume n)) := by
  intro hthrew hr hreading hawaiting
  show (x.conn.base.readBuffer.consume n).view = []
  rw [ByteBuffer.view_consume, h hthrew hr hreading hawaiting, List.drop_nil]

/-- The bytes the parser took may be dropped from the buffer. -/
theorem Driven.setReadBuffer (h : Driven cfg x x') (n : Nat) :
    Driven cfg x (x'.setReadBuffer (x'.conn.base.readBuffer.consume n)) where
  settled := by
    refine ⟨⟨h.settled.recorded.bytes, h.settled.recorded.inOrder⟩, fun hthrew hr => ?_,
      h.settled.gone⟩
    have hrest := h.settled.resting hthrew hr
    exact ⟨hrest.callback, hrest.interest, hrest.queue, hrest.awaiting, fun hne =>
      ⟨(hrest.continues hne).error, (hrest.continues hne).kept, (hrest.continues hne).served,
        (hrest.continues hne).below, (hrest.continues hne).parser⟩, hrest.requests⟩
  frame := ⟨h.frame.id, h.frame.fd, h.frame.registered⟩
  submitted := h.submitted
  drained := h.drained.setReadBuffer n

theorem driveParserWith_driven (h : Drivable cfg x) :
    Driven cfg x (driveParserWith cfg drive x) := by
  have hparsed := parseLoop_parsed drive h.idle h.recorded h.continues h.requests
    (fun _ => h.queue) (Nat.lt_add_one x.conn.base.readBuffer.view.length)
  unfold driveParserWith
  dsimp only
  rcases hloop : parseLoop cfg drive (x.conn.base.readBuffer.view.length + 1) x
    x.conn.base.readBuffer.view with ⟨⟨close, dispatched⟩, y, view⟩
  rw [hloop] at hparsed
  dsimp only at hparsed ⊢
  split
  · cases dispatched with
    | true => exact hparsed.dispatched rfl
    | false =>
        have hgone : y.threw ≠ false := Bool.ne_false_iff.mpr ‹_›
        exact ⟨⟨hparsed.recorded, fun h => absurd h hgone, fun h => absurd h hgone⟩, hparsed.frame,
          Or.inl ⟨hparsed.pool rfl, fun h => absurd h hgone⟩, fun h => absurd h hgone⟩
  · have hthrew := Bool.eq_false_iff.mpr ‹y.threw ≠ true›
    cases dispatched with
    | true => exact (hparsed.dispatched rfl).setReadBuffer _
    | false =>
        have hidle := hparsed.idle rfl hthrew
        refine .after (y := y.setReadBuffer (y.conn.base.readBuffer.consume
          (y.conn.base.readBuffer.size - view.length))) ⟨hparsed.frame.id, hparsed.frame.fd,
            hparsed.frame.registered⟩ (hparsed.pool rfl) ?_
        refine finishDispatch_driven ⟨hidle.registered, hidle.callback, hidle.interest, hidle.state,
          hidle.awaiting, hidle.threw⟩ ⟨hparsed.recorded.bytes, hparsed.recorded.inOrder⟩
          (fun hclose => ?_) fun hclose => ?_
        · obtain ⟨hcont, hlen, -⟩ := hparsed.continues rfl hthrew hclose
          exact ⟨⟨hcont.error, hcont.kept, hcont.served, hcont.below, hcont.parser⟩, hlen⟩
        · obtain ⟨-, -, rfl⟩ := hparsed.continues rfl hthrew hclose
          show (y.conn.base.readBuffer.consume _).view = []
          rw [ByteBuffer.view_consume, List.length_nil, Nat.sub_zero, ← ByteBuffer.view_length,
            List.drop_length]

/-- Where the connection has to close, `finish_dispatch` lets nothing go on. -/
theorem finishDispatch_closing (x : Session) : (x.finishDispatch true).1 = false := by
  unfold finishDispatch
  rcases x.flushOutput with ⟨r, y⟩
  cases r <;> rfl

/-- A full pool answers without the parser. -/
theorem dispatchToWorkerWith_eq (cfg : Config) (drive drive' : Session → Session) (x : Session)
    (request : HttpRequest) (requestKeepAlive : Bool) :
    dispatchToWorkerWith cfg drive x request requestKeepAlive =
      dispatchToWorkerWith cfg drive' x request requestKeepAlive := by
  unfold dispatchToWorkerWith
  rcases x.pool.tryPush_cases ⟨x.id, request, requestKeepAlive⟩ with heq | heq
  · rw [heq]
    dsimp only
    unfold onWorkerResultWith
    dsimp only
    rcases enqueueResponse_cases (x.setAwaiting false)
      (outgoing queueFullResponse requestKeepAlive) with heq | ⟨q, -, heq⟩
    · rw [heq]
      dsimp only
      rw [finishDispatch_closing]
      rfl
    · rw [heq]
      simp only [queueFull_closes, Bool.not_false, Bool.true_or, finishDispatch_closing,
        Bool.false_eq_true, if_false]
  · rw [heq]

theorem parseLoop_eq (cfg : Config) (drive drive' : Session → Session) (fuel : Nat) (x : Session)
    (view : Bytes) : parseLoop cfg drive fuel x view = parseLoop cfg drive' fuel x view := by
  induction fuel generalizing x view with
  | zero => rfl
  | succ fuel ih =>
      rcases hfeed : x.conn.parser.feed view with ⟨status, parser, left⟩
      cases status with
      | kNeedMoreData => rw [parseLoop_needMoreData hfeed, parseLoop_needMoreData hfeed]
      | kError => rw [parseLoop_error hfeed, parseLoop_error hfeed]
      | kComplete =>
          cases hpool : cfg.workerPool with
          | some pool =>
              rw [parseLoop_dispatched hfeed hpool, parseLoop_dispatched hfeed hpool,
                dispatchToWorkerWith_eq cfg drive drive']
          | none =>
              cases hhandler : cfg.handler x.handlerCalls parser.request with
              | none =>
                  rw [parseLoop_threw hfeed hpool hhandler, parseLoop_threw hfeed hpool hhandler]
              | some response =>
                  rw [parseLoop_answered hfeed hpool hhandler,
                    parseLoop_answered hfeed hpool hhandler]
                  simp only [ih]

/-- `driveParser` solves the recursion of `drive_parser` through the dispatch of a
    request to a full pool. -/
theorem driveParser_eq (cfg : Config) (x : Session) :
    driveParser cfg x = driveParserWith cfg (driveParser cfg) x := by
  unfold driveParser driveParserWith
  dsimp only
  rw [parseLoop_eq cfg (fun x => x)]

theorem driveParser_driven (h : Drivable cfg x) : Driven cfg x (driveParser cfg x) :=
  driveParserWith_driven h

end PassionProjects.Arcserve.Server.Session
