/-
  PassionProjects.Arcserve.Server.System

  The whole server: the reactor thread, the pool's workers and the queue between
  them (`nonblocking_http_server.cpp`, `epoll_reactor.cpp`, `worker_pool.cpp`).

  The reactor takes one event, one completion, or one call on the completion
  eventfd at a time; a worker takes a task, runs it, posts the completion and
  writes to the eventfd, each a step of its own.  An action says whose step it is
  and what the kernel answers.
-/

import Mathlib.Algebra.Order.Ring.Nat
import PassionProjects.Arcserve.Server.Session

namespace PassionProjects.Arcserve.Server

open Net Reactor Buffers Protocol Concurrency

inductive Callback where
  | listener
  | client
  | completion
  deriving DecidableEq, Repr

/-- The descriptors that are open as long as the server. -/
structure Descriptors where
  epoll : Fd
  wakeup : Fd
  listener : Fd
  completion : Fd
  nodup : [epoll, wakeup, listener, completion].Nodup

def Descriptors.all (d : Descriptors) : List Fd := [d.epoll, d.wakeup, d.listener, d.completion]

/-- What the reactor thread owns.  Connection objects stay in `heap` when they are
    destroyed; `connections` tells which are alive. -/
structure NonblockingHttpServer where
  heap : ConnId → HttpConnection
  wires : ConnId → Wire
  nextId : ConnId
  connections : Fd → Option ConnId
  callbacks : Fd → Option Callback
  interest : Fd → Option EventMask
  kernel : Kernel
  pool : BoundedWorkQueue Task
  handlerCalls : Nat
  threw : Bool

namespace NonblockingHttpServer

/-- What the handlers of a connection see of the server. -/
def session (s : NonblockingHttpServer) (id : ConnId) : Session where
  id := id
  conn := s.heap id
  wire := s.wires id
  registered := s.connections (s.heap id).base.fd == some id
  callback := s.callbacks (s.heap id).base.fd == some .client
  interest := s.interest (s.heap id).base.fd
  kernel := s.kernel
  pool := s.pool
  handlerCalls := s.handlerCalls
  threw := s.threw

/-- The server after a handler. -/
def update (s : NonblockingHttpServer) (x : Session) : NonblockingHttpServer :=
  let fd := x.conn.base.fd
  { heap := Function.update s.heap x.id x.conn
    wires := Function.update s.wires x.id x.wire
    nextId := s.nextId
    connections := Function.update s.connections fd (if x.registered then some x.id else none)
    callbacks := Function.update s.callbacks fd (if x.callback then some .client else none)
    interest := Function.update s.interest fd x.interest
    kernel := x.kernel
    pool := x.pool
    handlerCalls := x.handlerCalls
    threw := x.threw }

/-- A number `accept(2)` cannot return. -/
def isOpen (d : Descriptors) (s : NonblockingHttpServer) (fd : Fd) : Bool :=
  d.all.contains fd || (s.connections fd).isSome

/-- A connection object as `on_listener_readable` makes it. -/
def freshConnection (cfg : Config) (fd : Fd) : HttpConnection where
  base := {
    fd := fd
    readBuffer := { maxCapacity := cfg.maxReadBufferBytes }
    writeQueue := { maxBufferedBytes := cfg.maxOutputQueueBytes } }

/-- `connections_.emplace` of a new connection. -/
def emplace (cfg : Config) (s : NonblockingHttpServer) (fd : Fd) : NonblockingHttpServer :=
  { s with
    heap := Function.update s.heap s.nextId (freshConnection cfg fd)
    wires := Function.update s.wires s.nextId {}
    nextId := s.nextId + 1
    connections := Function.update s.connections fd (some s.nextId) }

/-- `reactor_.add` of a client, which throws where `epoll_ctl(2)` fails. -/
def addClient (s : NonblockingHttpServer) (fd : Fd) : NonblockingHttpServer :=
  let s' := { s with kernel := { s.kernel with ctlFails := s.kernel.ctlFails.tail } }
  if (s.interest fd).isSome ∨ s.kernel.ctlFails.head? = some true then { s' with threw := true }
  else { s' with
    callbacks := Function.update s.callbacks fd (some .client)
    interest := Function.update s.interest fd (some kReadable) }

/-- `on_listener_readable`, with the answers of `accept(2)`. -/
def acceptLoop (cfg : Config) (d : Descriptors) :
    List AcceptAnswer → NonblockingHttpServer → NonblockingHttpServer
  | [], s => s
  | .eintr :: rest, s => acceptLoop cfg d rest s
  | .nothing :: _, s => s
  | .failed :: _, s => { s with threw := true }
  | .client fd :: rest, s =>
    if s.isOpen d fd then s
    else
      let s := (s.emplace cfg fd).addClient fd
      if s.threw then s else acceptLoop cfg d rest s

def onListenerReadable (cfg : Config) (d : Descriptors) (s : NonblockingHttpServer) :
    NonblockingHttpServer :=
  acceptLoop cfg d s.kernel.accepts s

/-- `dispatch_ready` of a client event. -/
def onClientEvent (cfg : Config) (s : NonblockingHttpServer) (fd : Fd) (events : EventMask) :
    NonblockingHttpServer :=
  match s.connections fd with
  | none => s
  | some id => s.update (Session.onClientEvent cfg (s.session id) events)

/-- The `lock` of a `std::weak_ptr`. -/
def isAlive (s : NonblockingHttpServer) (id : ConnId) : Bool := (s.session id).registered

/-- `on_worker_result`. -/
def onWorkerResult (cfg : Config) (s : NonblockingHttpServer) (c : Completion) :
    NonblockingHttpServer :=
  if s.isAlive c.conn then
    s.update (Session.onWorkerResult cfg (s.session c.conn) c.response c.requestKeepAlive)
  else s

end NonblockingHttpServer

-- ============================================================================
-- Threads
-- ============================================================================

/-- What a batch of `epoll_wait(2)` reports. -/
abbrev Batch := List (Fd × EventMask)

/-- Where the reactor thread is. -/
inductive Phase where
  /-- in `epoll_wait` -/
  | waiting
  /-- before the next event of the batch -/
  | dispatching (batch : Batch)
  /-- in `on_completion_readable`, reading the eventfd -/
  | reading (batch : Batch)
  /-- in `on_completion_readable`, before `drain` -/
  | draining (batch : Batch)
  /-- in `on_completion_readable`, before the next completion -/
  | delivering (completions : List Completion) (batch : Batch)
  /-- `run` has returned -/
  | returned
  /-- an exception has left `run` -/
  | unwound
  deriving DecidableEq, Repr

/-- Where a worker is. -/
inductive Worker where
  | idle
  | running (task : Task)
  /-- in `push` -/
  | posting (completion : Completion)
  /-- before the `write(2)` to the eventfd -/
  | signalling
  deriving DecidableEq, Repr

structure State where
  server : NonblockingHttpServer
  phase : Phase
  workers : List Worker
  completions : BoundedWorkQueue Completion
  /-- the counter of the completion eventfd -/
  counter : Nat
  stopRequested : Bool
  /-- `connections_` as it was when `epoll_wait` returned, for the proofs -/
  reported : Fd → Option ConnId

inductive Action where
  | epollReturns (batch : Batch)
  | dispatch (kernel : Kernel)
  | readCompletionFd
  | drainCompletions
  | deliver (kernel : Kernel)
  | endBatch
  | requestStop
  | takeTask (worker : Nat)
  | runTask (worker : Nat)
  | pushCompletion (worker : Nat)
  | signal (worker : Nat)
  deriving DecidableEq, Repr

/-- The size of the array that `epoll_wait` fills. -/
def kMaxEvents : Nat := 64

/-- `epoll_wait` reports registered descriptors, for what they are registered for or
    for an error. -/
def reportable (d : Descriptors) (s : NonblockingHttpServer) (event : Fd × EventMask) : Bool :=
  event.1 == d.wakeup ||
    match s.interest event.1 with
    | none => false
    | some mask => (!event.2.epollin || mask.epollin) && (!event.2.epollout || mask.epollout)

namespace State

/-- The state after a handler: an exception ends `run`. -/
def afterHandler (s : State) (server : NonblockingHttpServer) (phase : Phase) : State :=
  { s with server, phase := if server.threw then .unwound else phase }

def setWorker (s : State) (i : Nat) (worker : Worker) : State :=
  { s with workers := s.workers.set i worker }

/-- The greatest value of an eventfd counter. -/
def kMaxCounter : Nat := 2 ^ 64 - 2

end State

open State in
/-- One step. -/
def step (cfg : Config) (d : Descriptors) (s : State) : Action → Option State
  | .epollReturns batch =>
    if s.phase = .waiting ∧ batch.length ≤ kMaxEvents ∧ batch.all (reportable d s.server) then
      some { s with phase := .dispatching batch, reported := s.server.connections }
    else none
  | .dispatch kernel =>
    match s.phase with
    | .dispatching ((fd, events) :: batch) =>
      let server := { s.server with kernel }
      if fd = d.wakeup then some { s with phase := .dispatching batch }
      else
        match s.server.callbacks fd with
        | none => some { s with phase := .dispatching batch }
        | some .listener =>
          some (s.afterHandler (server.onListenerReadable cfg d) (.dispatching batch))
        | some .completion => some { s with phase := .reading batch }
        | some .client =>
          some (s.afterHandler (server.onClientEvent cfg fd events) (.dispatching batch))
    | _ => none
  | .readCompletionFd =>
    match s.phase with
    | .reading batch =>
      if s.counter > 0 then some { s with counter := 0 }
      else some { s with phase := .draining batch }
    | _ => none
  | .drainCompletions =>
    match s.phase with
    | .draining batch =>
      let (completions, queue) := s.completions.drain
      some { s with completions := queue, phase := .delivering completions batch }
    | _ => none
  | .deliver kernel =>
    match s.phase with
    | .delivering [] batch => some { s with phase := .dispatching batch }
    | .delivering (c :: rest) batch =>
      let server := { s.server with kernel }
      some (s.afterHandler (server.onWorkerResult cfg c) (.delivering rest batch))
    | _ => none
  | .endBatch =>
    if s.phase = .dispatching [] then
      if s.stopRequested then
        some { s with phase := .returned, completions := s.completions.close }
      else some { s with phase := .waiting }
    else none
  | .requestStop => some { s with stopRequested := true }
  | .takeTask i =>
    match s.workers[i]?, s.server.pool.pop with
    | some .idle, some (task, pool) =>
      some ({ s with server := { s.server with pool } }.setWorker i (.running task))
    | _, _ => none
  | .runTask i =>
    match s.workers[i]? with
    | some (.running task) =>
      let server := { s.server with handlerCalls := s.server.handlerCalls + 1 }
      match cfg.handler s.server.handlerCalls task.request with
      | some response =>
        some ({ s with server }.setWorker i (.posting ⟨task.conn, response, task.requestKeepAlive⟩))
      | none => some ({ s with server }.setWorker i .idle)
    | _ => none
  | .pushCompletion i =>
    match s.workers[i]? with
    | some (.posting completion) =>
      match s.completions.push completion with
      | some (true, completions) => some ({ s with completions }.setWorker i .signalling)
      | some (false, completions) => some ({ s with completions }.setWorker i .idle)
      | none => none
    | _ => none
  | .signal i =>
    match s.workers[i]? with
    | some .signalling =>
        some ({ s with counter := min (s.counter + 1) kMaxCounter }.setWorker i .idle)
    | _ => none

/-- The server as its constructor leaves it. -/
def initialServer (cfg : Config) (d : Descriptors) : NonblockingHttpServer where
  heap := fun _ => NonblockingHttpServer.freshConnection cfg 0
  wires := fun _ => {}
  nextId := 0
  connections := fun _ => none
  callbacks := fun fd =>
    if fd = d.listener then some .listener
    else if fd = d.completion ∧ cfg.workerPool.isSome then some .completion else none
  interest := fun fd =>
    if fd = d.listener ∨ fd = d.wakeup then some kReadable
    else if fd = d.completion ∧ cfg.workerPool.isSome then some kReadable else none
  kernel := {}
  pool := { capacity := (cfg.workerPool.map PoolConfig.queueCapacity).getD 0 }
  handlerCalls := 0
  threw := false

/-- `run` is called: the reactor asks for a stop before it waits. -/
def initial (cfg : Config) (d : Descriptors) : State where
  server := initialServer cfg d
  phase := .dispatching []
  workers := List.replicate ((cfg.workerPool.map PoolConfig.workerCount).getD 0) .idle
  completions := { capacity := cfg.completionQueueCapacity }
  counter := 0
  stopRequested := false
  reported := fun _ => none

end PassionProjects.Arcserve.Server
