/-
  PassionProjects.Arcserve.Server.Session

  What `NonblockingHttpServer` does with one connection
  (`nonblocking_http_server.cpp`).

  The handlers of a connection read and change the connection object, its own
  entries in `connections_`, in the reactor's callbacks and in the epoll set, and
  the pool's queue: a `Session` is these, with the answers the kernel will give.
  `Wire` is a record for the proofs: the code never reads it.

  `drive_parser` and `on_worker_result` call each other.  The inner call, where the
  pool is full, never comes back to `drive_parser`, so that `driveParserWith` takes
  the one it would call as an argument; `driveParser_eq` closes the circle.
-/

import PassionProjects.Arcserve.Concurrency.BoundedWorkQueue
import PassionProjects.Arcserve.Protocol.HttpParser
import PassionProjects.Arcserve.Reactor.Connection

namespace PassionProjects.Arcserve.Server

open Net Reactor Buffers Protocol Concurrency

abbrev Fd := Nat

/-- The identity of a connection object, which a `std::weak_ptr` holds on to. -/
abbrev ConnId := Nat

/-- An epoll mask; `epollerr` and `epollhup` are reported and never asked for. -/
structure EventMask where
  epollin : Bool := false
  epollout : Bool := false
  epollerr : Bool := false
  epollhup : Bool := false
  deriving DecidableEq, Repr

def kReadable : EventMask := { epollin := true }
def kWritable : EventMask := { epollout := true }

structure PoolConfig where
  queueCapacity : Nat
  workerCount : Nat
  deriving DecidableEq, Repr

/-- `Config`, and the handler: what the `n`-th call answers to a request, or none
    where it throws. -/
structure Config where
  handler : Nat → HttpRequest → Option HttpResponse
  readChunkBytes : Nat := 8192
  maxKeepAliveRequests : Nat := 1000
  maxOutputQueueBytes : Nat := 16 * 1024 * 1024
  maxReadBufferBytes : Nat := 8 * 1024 * 1024
  workerPool : Option PoolConfig := none
  completionQueueCapacity : Nat := 4096

structure HttpConnection where
  base : Connection
  parser : HttpRequestParser := {}
  requestsServed : Nat := 0
  awaitingWorkerResult : Bool := false

/-- What a task of the pool holds: the outer lambda of `dispatch_to_worker`. -/
structure Task where
  conn : ConnId
  request : HttpRequest
  requestKeepAlive : Bool
  deriving DecidableEq, Repr

/-- What a completion holds: the inner lambda of `dispatch_to_worker`. -/
structure Completion where
  conn : ConnId
  response : HttpResponse
  requestKeepAlive : Bool
  deriving DecidableEq, Repr

/-- The answers of the kernel to the calls of one handler; `ctlFails` says of each
    `epoll_ctl(2)` that adds or modifies whether it fails. -/
structure Kernel where
  recvs : List RecvAnswer := []
  sends : List SendAnswer := []
  accepts : List AcceptAnswer := []
  ctlFails : List Bool := []
  deriving DecidableEq, Repr

/-- The record of a connection: the requests the parser completed, the responses to
    them that were queued, the parser's error response if it was queued, and the
    bytes the socket took. -/
structure Wire where
  requests : List HttpRequest := []
  responses : List HttpResponse := []
  error : Option HttpResponse := none
  sent : Bytes := []

structure Session where
  id : ConnId
  conn : HttpConnection
  wire : Wire
  registered : Bool
  callback : Bool
  interest : Option EventMask
  kernel : Kernel
  pool : BoundedWorkQueue Task
  handlerCalls : Nat
  threw : Bool

namespace Session

def setState (x : Session) (state : ConnectionState) : Session :=
  { x with conn := { x.conn with base := { x.conn.base with state } } }

def setReadBuffer (x : Session) (readBuffer : ByteBuffer) : Session :=
  { x with conn := { x.conn with base := { x.conn.base with readBuffer } } }

def setWriteQueue (x : Session) (writeQueue : OutputQueue) : Session :=
  { x with conn := { x.conn with base := { x.conn.base with writeQueue } } }

def setParser (x : Session) (parser : HttpRequestParser) : Session :=
  { x with conn := { x.conn with parser } }

def setAwaiting (x : Session) (awaitingWorkerResult : Bool) : Session :=
  { x with conn := { x.conn with awaitingWorkerResult } }

-- ============================================================================
-- The reactor
-- ============================================================================

/-- `close_connection`: `reactor_.remove` and `connections_.erase`. -/
def closeConnection (x : Session) : Session :=
  { x with interest := none, callback := false, registered := false }

/-- `reactor_.modify`, which throws where `epoll_ctl(2)` fails. -/
def modify (x : Session) (interest : EventMask) : Session :=
  let kernel := { x.kernel with ctlFails := x.kernel.ctlFails.tail }
  if x.interest = none ∨ x.kernel.ctlFails.head? = some true then { x with kernel, threw := true }
  else { x with kernel, interest := some interest }

-- ============================================================================
-- Output
-- ============================================================================

/-- `flush_output`. -/
def flushOutput (x : Session) : FlushResult × Session :=
  let flushed := x.conn.base.flushOutput x.kernel.sends
  (flushed.result, { x.setWriteQueue flushed.queue with
    kernel := { x.kernel with sends := flushed.answers }
    wire := { x.wire with sent := x.wire.sent ++ flushed.sent } })

/-- `enqueue_output` of a response to the request that was completed last. -/
def enqueueResponse (x : Session) (response : HttpResponse) : Bool × Session :=
  match x.conn.base.writeQueue.enqueue response.serialize with
  | (false, _) => (false, x)
  | (true, writeQueue) => (true, { x.setWriteQueue writeQueue with
      wire := { x.wire with responses := x.wire.responses ++ [response] } })

/-- `enqueue_output` of the parser's error response: a refusal is accepted. -/
def enqueueError (x : Session) (response : HttpResponse) : Session :=
  match x.conn.base.writeQueue.enqueue response.serialize with
  | (false, _) => x
  | (true, writeQueue) => { x.setWriteQueue writeQueue with
      wire := { x.wire with error := some response } }

/-- `++conn.requests_served`. -/
def serveOne (x : Session) : Session :=
  { x with conn := { x.conn with requestsServed := x.conn.requestsServed + 1 } }

/-- `finish_dispatch`. -/
def finishDispatch (x : Session) (closeAfterFlush : Bool) : Bool × Session :=
  match x.flushOutput with
  | (.kFailed, x) => (false, x.closeConnection)
  | (.kFlushed, x) => if closeAfterFlush then (false, x.closeConnection) else (true, x)
  | (.kPending, x) =>
    (false, (x.setState (if closeAfterFlush then .kClosing else .kWriting)).modify kWritable)

-- ============================================================================
-- Parsing
-- ============================================================================

/-- The response of a full pool in `dispatch_to_worker`. -/
def queueFullResponse : HttpResponse :=
  makeErrorResponse 503 "Service Unavailable" "worker queue is full\n" false

/-- The response as it leaves: kept alive only where both sides want it. -/
def outgoing (response : HttpResponse) (requestKeepAlive : Bool) : HttpResponse :=
  { response with keepAlive := response.keepAlive && requestKeepAlive }

/-- `on_worker_result` of a connection that is still there. -/
def onWorkerResultWith (cfg : Config) (drive : Session → Session) (x : Session)
    (response : HttpResponse) (requestKeepAlive : Bool) : Session :=
  let x := x.setAwaiting false
  let response := outgoing response requestKeepAlive
  let (closeAfterFlush, x) :=
    match x.enqueueResponse response with
    | (true, x) =>
      let x := x.serveOne
      (!response.keepAlive || decide (x.conn.requestsServed ≥ cfg.maxKeepAliveRequests), x)
    | (false, x) => (true, x)
  let (resumable, x) := x.finishDispatch closeAfterFlush
  if resumable then drive x else x

/-- `dispatch_to_worker`. -/
def dispatchToWorkerWith (cfg : Config) (drive : Session → Session) (x : Session)
    (request : HttpRequest) (requestKeepAlive : Bool) : Session :=
  match x.pool.tryPush ⟨x.id, request, requestKeepAlive⟩ with
  | (true, pool) => { x with pool }
  | (false, _) => onWorkerResultWith cfg drive x queueFullResponse requestKeepAlive

/-- How the loop of `drive_parser` ended: its two flags. -/
structure LoopExit where
  closeAfterFlush : Bool
  dispatchedToWorkerPool : Bool

/-- A request the parser completed. -/
def complete (x : Session) (request : HttpRequest) : Session :=
  { x with wire := { x.wire with requests := x.wire.requests ++ [request] } }

/-- The loop of `drive_parser`, with what it leaves of `view`; every turn but the
    last consumes a byte, so that the number is not used up. -/
def parseLoop (cfg : Config) (drive : Session → Session) :
    Nat → Session → Bytes → LoopExit × Session × Bytes
  | 0, x, view => (⟨false, false⟩, x, view)
  | fuel + 1, x, view =>
    match x.conn.parser.feed view with
    | (.kNeedMoreData, parser, view) => (⟨false, false⟩, x.setParser parser, view)
    | (.kError, parser, _) =>
      (⟨true, false⟩, (x.setParser parser).enqueueError parser.errorResponse, [])
    | (.kComplete, parser, view) =>
      let request := parser.request
      let x := (x.setParser parser).complete request
      match cfg.workerPool with
      | some _ =>
        let x := (x.setParser parser.reset).setAwaiting true
        (⟨false, true⟩, dispatchToWorkerWith cfg drive x request request.keepAlive, view)
      | none =>
        match cfg.handler x.handlerCalls request with
        | none =>
            (⟨false, false⟩, { x with handlerCalls := x.handlerCalls + 1, threw := true }, view)
        | some response =>
          let x := { x with handlerCalls := x.handlerCalls + 1 }
          let response := outgoing response request.keepAlive
          match x.enqueueResponse response with
          | (false, x) => (⟨true, false⟩, x, [])
          | (true, x) =>
            let x := x.serveOne.setParser parser.reset
            if !response.keepAlive || decide (x.conn.requestsServed ≥ cfg.maxKeepAliveRequests) then
              (⟨true, false⟩, x, view)
            else parseLoop cfg drive fuel x view

/-- `drive_parser`. -/
def driveParserWith (cfg : Config) (drive : Session → Session) (x : Session) : Session :=
  let view := x.conn.base.readBuffer.view
  let (exit, x, view) := parseLoop cfg drive (view.length + 1) x view
  -- an exception leaves the function here
  if x.threw then x
  else
    let readBuffer := x.conn.base.readBuffer
    let x := x.setReadBuffer (readBuffer.consume (readBuffer.size - view.length))
    if exit.dispatchedToWorkerPool then x else (x.finishDispatch exit.closeAfterFlush).2

def driveParser (cfg : Config) (x : Session) : Session := driveParserWith cfg (fun x => x) x

/-- `on_worker_result`. -/
def onWorkerResult (cfg : Config) (x : Session) (response : HttpResponse)
    (requestKeepAlive : Bool) : Session :=
  onWorkerResultWith cfg (driveParser cfg) x response requestKeepAlive

-- ============================================================================
-- Events
-- ============================================================================

/-- The loop of `process_readable`: whether the connection is still there.  Every
    turn takes an answer of `recv(2)`. -/
def readLoop (cfg : Config) : Nat → Session → Bool × Session
  | 0, x => (true, x)
  | fuel + 1, x =>
    let (bytes, status, recvs) := readSome x.kernel.recvs cfg.readChunkBytes
    let x := { x with kernel := { x.kernel with recvs } }
    match x.conn.base.readBuffer.append bytes with
    | (false, _) => (false, x.closeConnection)
    | (true, readBuffer) =>
      let x := x.setReadBuffer readBuffer
      if status = .Closed ∨ status = .Error then (false, x.closeConnection)
      else if status = .WouldBlock ∨ bytes.length < cfg.readChunkBytes then (true, x)
      else readLoop cfg fuel x

/-- `process_readable`. -/
def processReadable (cfg : Config) (x : Session) : Session :=
  match readLoop cfg (x.kernel.recvs.length + 1) x with
  | (false, x) => x
  | (true, x) => if x.conn.awaitingWorkerResult then x else driveParser cfg x

/-- The `kWritable` branch of `on_client_event`: whether the function goes on. -/
def onWritable (x : Session) : Bool × Session :=
  match x.flushOutput with
  | (.kFailed, x) => (false, x.closeConnection)
  | (.kFlushed, x) =>
    if x.conn.base.state = .kClosing then (false, x.closeConnection)
    else (true, (x.setState .kReading).modify kReadable)
  | (.kPending, x) => (true, x)

/-- `on_client_event`. -/
def onClientEvent (cfg : Config) (x : Session) (events : EventMask) : Session :=
  if events.epollerr || events.epollhup then x.closeConnection
  else
    match (if events.epollout then x.onWritable else (true, x)) with
    | (false, x) => x
    | (true, x) =>
      if x.threw then x
      else if events.epollin ∧ x.conn.base.state = .kReading then processReadable cfg x
      else x

end Session

end PassionProjects.Arcserve.Server
