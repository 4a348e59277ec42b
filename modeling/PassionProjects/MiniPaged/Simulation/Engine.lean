/-
  PassionProjects.MiniPaged.Simulation.Engine

  The clock, the event log (`simulation/clock.py`, `simulation/events.py`) and the loop
  all engines share (`SimulationEngine` of `simulation/engine.py`), with the hooks its
  subclasses override.
-/

import Mathlib.Data.List.Sort
import PassionProjects.Lib.Dict
import PassionProjects.MiniPaged.Basic

namespace PassionProjects.MiniPaged

open Raising Raising.Prog

/-- `EventType` -/
inductive EventType where
  | ARRIVED
  | ADMITTED
  | PREFILL_DONE
  | DECODE_STEP
  | COMPLETED
  | CANCELLED
  | ADMISSION_REJECTED
  | DECODE_STALLED
  deriving DecidableEq, Repr

/-- A value in the detail of an event. -/
inductive Detail where
  | text (s : String)
  | number (n : Int)
  deriving DecidableEq, Repr

/-- `Event` -/
structure Event where
  timestamp : ℚ
  requestId : RequestId
  eventType : EventType
  detail : List (String × Detail) := []
  deriving DecidableEq

/-- `EventLog.is_monotonic` -/
def isMonotonic (eventLog : List Event) : Bool :=
  (eventLog.zip (eventLog.drop 1)).all fun p => p.1.timestamp ≤ p.2.timestamp

/-- What every engine keeps: the fields of `SimulationEngine`, with the time the clock
    shows and the events of the log. -/
structure SimulationEngine where
  now : ℚ
  decodeTick : ℚ
  eventLog : List Event := []
  idCounter : Nat := 1
  specById : Dict RequestId TraceRequestSpec := ∅
  arrivedIds : List RequestId := []
  waiting : Dict RequestId Request := ∅
  running : Dict RequestId SequenceState := ∅
  completed : List SequenceState := []
  cancelled : List Request := []

/-- An engine of a subclass, with what the subclass adds. -/
structure Engine (κ : Type) extends SimulationEngine where
  own : κ

variable {κ α : Type}

/-- The operations that a subclass may override. -/
structure Hooks (κ : Type) where
  beginTick : Py (Engine κ) Unit := pure ()
  admitArrivals : Py (Engine κ) (List RequestId)
  canDecode : SequenceState → Py (Engine κ) Bool := fun _ => pure true
  onDecodeStep : SequenceState → Py (Engine κ) Unit := fun _ => pure ()
  onRelease : SequenceState → Py (Engine κ) Unit := fun _ => pure ()
  endTick : Py (Engine κ) Unit := pure ()

/-- `SimClock.__init__` -/
def clockStart (start : ℚ) : Except PyError ℚ :=
  if start < 0 then .error (.valueError s!"start must be >= 0, got {start}") else .ok start

namespace SimulationEngine

/-- `SimulationEngine.__init__`, with a clock that starts at `start`. -/
def new (start decodeTick : ℚ) : Except PyError SimulationEngine := do
  let now ← clockStart start
  if decodeTick ≤ 0 then
    .error (.valueError s!"decode_tick must be > 0, got {decodeTick}")
  else .ok { now, decodeTick }

/-- `EventLog.record` -/
def record (e : SimulationEngine) (timestamp : ℚ) (id : RequestId) (eventType : EventType)
    (detail : List (String × Detail) := []) : SimulationEngine :=
  { e with eventLog := e.eventLog ++ [⟨timestamp, id, eventType, detail⟩] }

/-- `_record_new_arrivals`, for one entry of `waiting`. -/
def recordArrival (e : SimulationEngine) (entry : RequestId × Request) : SimulationEngine :=
  if entry.2.arrivalTime ≤ e.now ∧ entry.1 ∉ e.arrivedIds then
    { e with arrivedIds := entry.1 :: e.arrivedIds }.record entry.2.arrivalTime entry.1 .ARRIVED
  else e

/-- `_record_new_arrivals` -/
def recordNewArrivals (e : SimulationEngine) : SimulationEngine :=
  e.waiting.entries.foldl recordArrival e

/-- Earlier arrival first. -/
def arrivesBefore (a b : RequestId × Request) : Prop := a.2.arrivalTime ≤ b.2.arrivalTime

instance : DecidableRel arrivesBefore := fun a b =>
  inferInstanceAs (Decidable (a.2.arrivalTime ≤ b.2.arrivalTime))

/-- The entries that `_arrived_waiting_fcfs` lists: those that have arrived, in the
    stable order of their arrival. -/
def arrivedWaiting (e : SimulationEngine) : List (RequestId × Request) :=
  (e.waiting.entries.filter fun entry => entry.1 ∈ e.arrivedIds).insertionSort arrivesBefore

/-- `is_complete` -/
def isComplete (e : SimulationEngine) : Bool := e.waiting.keys.isEmpty && e.running.keys.isEmpty

/-- `_arrived_waiting_fcfs` -/
def arrivedWaitingFcfs (e : SimulationEngine) : List RequestId := e.arrivedWaiting.map Prod.fst

end SimulationEngine

namespace Engine

/-- What an operation of the base class does to an engine. -/
def base (f : SimulationEngine → SimulationEngine) : Py (Engine κ) Unit :=
  modify fun e => { e with toSimulationEngine := f e.toSimulationEngine }

/-- `event_log.record`, at the time the clock shows. -/
def recordNow (id : RequestId) (eventType : EventType) (detail : List (String × Detail) := []) :
    Py (Engine κ) Unit :=
  base fun e => e.record e.now id eventType detail

/-- `SimClock.advance` -/
def advance (delta : ℚ) : Py (Engine κ) Unit := do
  check (0 ≤ delta) (.valueError s!"SimClock cannot move backwards (delta={delta})")
  base fun e => { e with now := e.now + delta }

-- ============================================================================
-- Loading a trace
-- ============================================================================

/-- `_next_request_id` -/
def nextRequestId : Py (Engine κ) RequestId := do
  let e ← read
  let n := e.idCounter
  base fun e => { e with idCounter := e.idCounter + 1 }
  pure s!"req-{n}"

/-- One turn of the loop of `load_trace`. -/
def loadRequest (spec : TraceRequestSpec) : Py (Engine κ) Request := do
  let id ← nextRequestId
  let request ← ofExcept
    (Request.new id (List.range spec.promptLen) spec.maxNewTokens spec.arrivalTime)
  base fun e => { e with
    specById := e.specById.set id spec
    waiting := e.waiting.set id request }
  pure request

/-- `load_trace` -/
def loadTrace : List TraceRequestSpec → Py (Engine κ) (List Request)
  | [] => pure []
  | spec :: specs => do
      let request ← loadRequest spec
      let requests ← loadTrace specs
      pure (request :: requests)

-- ============================================================================
-- One tick
-- ============================================================================

/-- `_admit` -/
def admitRequest (request : Request) (spec : TraceRequestSpec) : Py (Engine κ) Unit := do
  let e ← read
  check (request.requestId ∈ e.waiting.keys) (.keyError request.requestId)
  base fun e => { e with waiting := e.waiting.erase request.requestId }
  let request ← ofExcept (request.transitionTo .RUNNING)
  let seq ← ofExcept (SequenceState.new request spec.targetOutputLen e.now)
  base fun e => { e with
    running := e.running.set request.requestId { seq with prefillDone := true } }
  recordNow request.requestId .ADMITTED
  recordNow request.requestId .PREFILL_DONE

/-- The branch of `_try_admit` for a request that can never be admitted: the request as
    it is left. -/
def dropRequest (request : Request) (detail : List (String × Detail)) : Py (Engine κ) Request := do
  let e ← read
  check (request.requestId ∈ e.waiting.keys) (.keyError request.requestId)
  base fun e => { e with waiting := e.waiting.erase request.requestId }
  let request ← ofExcept (request.transitionTo .CANCELLED)
  base fun e => { e with cancelled := e.cancelled ++ [request] }
  recordNow request.requestId .ADMISSION_REJECTED detail
  recordNow request.requestId .CANCELLED
  pure request

/-- The loop of `_admit_arrivals`, with the `_try_admit` of the class: the requests
    admitted. -/
def admitEach (tryAdmit : Request → TraceRequestSpec → Py (Engine κ) Bool) :
    List RequestId → Py (Engine κ) (List RequestId)
  | [] => pure []
  | id :: ids => do
      let e ← read
      match e.waiting.get? id with
      | none => admitEach tryAdmit ids
      | some request => do
          let spec ← unwrap (.keyError id) (e.specById.get? id)
          let admitted ← tryAdmit request spec
          let rest ← admitEach tryAdmit ids
          pure (if admitted then id :: rest else rest)

/-- `_admit_arrivals` -/
def admitArrivals (tryAdmit : Request → TraceRequestSpec → Py (Engine κ) Bool) :
    Py (Engine κ) (List RequestId) := do
  base SimulationEngine.recordNewArrivals
  let e ← read
  admitEach tryAdmit e.arrivedWaitingFcfs

/-- One turn of the first loop of `_decode_step`: whether the sequence is finished. -/
def decodeOne (h : Hooks κ) (skip : List RequestId) (id : RequestId) : Py (Engine κ) Bool := do
  let e ← read
  let seq ← unwrap (.keyError id) (e.running.get? id)
  if id ∈ skip then pure false
  else
    let can ← h.canDecode seq
    if can then
      let seq ← ofExcept seq.stepDecode
      base fun e => { e with running := e.running.set id seq }
      h.onDecodeStep seq
      recordNow id .DECODE_STEP [("tokens_generated", .number seq.tokensGenerated)]
      pure seq.isFinished
    else
      recordNow id .DECODE_STALLED
      pure false

/-- The first loop of `_decode_step`: the finished sequences. -/
def decodeEach (h : Hooks κ) (skip : List RequestId) :
    List RequestId → Py (Engine κ) (List RequestId)
  | [] => pure []
  | id :: ids => do
      let finished ← decodeOne h skip id
      let rest ← decodeEach h skip ids
      pure (if finished then id :: rest else rest)

/-- One turn of the second loop of `_decode_step`. -/
def finishOne (h : Hooks κ) (id : RequestId) : Py (Engine κ) Unit := do
  let e ← read
  let seq ← unwrap (.keyError id) (e.running.get? id)
  base fun e => { e with running := e.running.erase id }
  let request ← ofExcept (seq.request.transitionTo .COMPLETED)
  let seq := { seq with completedAt := some e.now, request }
  base fun e => { e with completed := e.completed ++ [seq] }
  recordNow id .COMPLETED
  h.onRelease seq

/-- `_decode_step` -/
def decodeStep (h : Hooks κ) (skip : List RequestId) : Py (Engine κ) Unit := do
  let e ← read
  let finished ← decodeEach h skip e.running.keys
  forEach finished (finishOne h)

/-- `step` -/
def step (h : Hooks κ) : Py (Engine κ) Unit := do
  let e ← read
  advance e.decodeTick
  h.beginTick
  let justAdmitted ← h.admitArrivals
  decodeStep h justAdmitted
  h.endTick

/-- `n` calls of `step`. -/
def steps (h : Hooks κ) : Nat → Py (Engine κ) Unit
  | 0 => pure ()
  | n + 1 => do
      step h
      steps h n

/-- The loop of `run_to_completion`, with so many of `maxTicks` ticks left. -/
def completionLoop (h : Hooks κ) (maxTicks : Nat) : Nat → Py (Engine κ) Unit
  | 0 => do
      let e ← read
      check (e.isComplete = true)
        (.runtimeError s!"run_to_completion exceeded max_ticks={maxTicks}")
  | left + 1 => do
      let e ← read
      if e.isComplete then pure ()
      else
        step h
        completionLoop h maxTicks left

/-- `run_to_completion` -/
def runToCompletion (h : Hooks κ) (maxTicks : Nat) : Py (Engine κ) Unit :=
  completionLoop h maxTicks maxTicks

end Engine

namespace SimulationEngine

/-- `_try_admit` -/
def tryAdmit (request : Request) (spec : TraceRequestSpec) : Py (Engine Unit) Bool := do
  Engine.admitRequest request spec
  pure true

/-- The operations of the base class. -/
def hooks : Hooks Unit where
  admitArrivals := Engine.admitArrivals tryAdmit

end SimulationEngine

end PassionProjects.MiniPaged
