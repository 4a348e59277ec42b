/-
  PassionProjects.MiniPaged.Basic

  The exceptions the simulator raises, the lifecycle of a request
  (`requests/request.py`), the progress of a running one (`requests/sequence.py`) and
  the specification a trace gives of it (`simulation/trace.py`).  Times are exact
  rationals.
-/

import Mathlib.Algebra.Order.Ring.Rat
import PassionProjects.Lib.Raising

namespace PassionProjects.MiniPaged

/-- Request ids, such as `req-1`. -/
abbrev RequestId := String

/-- `RequestState` -/
inductive RequestState where
  | WAITING
  | RUNNING
  | COMPLETED
  | CANCELLED
  deriving DecidableEq, Repr

/-- The exceptions of Python and of the package. -/
inductive PyError where
  | valueError (message : String)
  | runtimeError (message : String)
  | keyError (key : String)
  | assertionError (message : String)
  | blockPoolExhausted (message : String)
  | capacityError (message : String)
  | invalidStateTransition (current target : RequestState)
  deriving DecidableEq, Repr

/-- Computations over the objects of the simulator. -/
abbrev Py (σ α : Type) := Raising.Prog PyError σ α

/-- `_ALLOWED_TRANSITIONS` -/
def allowedTransitions : RequestState → List RequestState
  | .WAITING => [.RUNNING, .CANCELLED]
  | .RUNNING => [.COMPLETED, .CANCELLED]
  | .COMPLETED => []
  | .CANCELLED => []

/-- `is_legal_transition` -/
def isLegalTransition (current target : RequestState) : Bool :=
  (allowedTransitions current).contains target

/-- `TERMINAL_STATES` -/
def terminalStates : List RequestState := [.COMPLETED, .CANCELLED]

/-- `Request` -/
structure Request where
  requestId : RequestId
  promptTokenIds : List Nat
  maxNewTokens : Nat
  arrivalTime : ℚ
  state : RequestState := .WAITING

namespace Request

/-- `Request.__post_init__` -/
def new (requestId : RequestId) (promptTokenIds : List Nat) (maxNewTokens : Nat)
    (arrivalTime : ℚ) : Except PyError Request :=
  if promptTokenIds = [] then .error (.valueError "prompt_token_ids must be non-empty")
  else if maxNewTokens < 1 then
    .error (.valueError s!"max_new_tokens must be >= 1, got {maxNewTokens}")
  else if arrivalTime < 0 then
    .error (.valueError s!"arrival_time must be >= 0, got {arrivalTime}")
  else .ok { requestId, promptTokenIds, maxNewTokens, arrivalTime }

/-- `prompt_len` -/
def promptLen (r : Request) : Nat := r.promptTokenIds.length

/-- `transition_to` -/
def transitionTo (r : Request) (target : RequestState) : Except PyError Request :=
  if isLegalTransition r.state target then .ok { r with state := target }
  else .error (.invalidStateTransition r.state target)

/-- `is_terminal` -/
def isTerminal (r : Request) : Bool := terminalStates.contains r.state

end Request

/-- `TraceRequestSpec`, with what `__post_init__` checks. -/
structure TraceRequestSpec where
  promptLen : Nat
  maxNewTokens : Nat
  targetOutputLen : Nat
  arrivalTime : ℚ
  promptLen_pos : 1 ≤ promptLen
  maxNewTokens_pos : 1 ≤ maxNewTokens
  targetOutputLen_pos : 1 ≤ targetOutputLen
  targetOutputLen_le : targetOutputLen ≤ maxNewTokens
  arrivalTime_nonneg : 0 ≤ arrivalTime

/-- `SequenceState` -/
structure SequenceState where
  request : Request
  targetOutputLen : Nat
  tokensGenerated : Nat := 0
  prefillDone : Bool := false
  startedAt : Option ℚ := none
  completedAt : Option ℚ := none

namespace SequenceState

/-- `SequenceState.__post_init__` -/
def new (request : Request) (targetOutputLen : Nat) (startedAt : ℚ) :
    Except PyError SequenceState :=
  if targetOutputLen < 1 then
    .error (.valueError s!"target_output_len must be >= 1, got {targetOutputLen}")
  else if targetOutputLen > request.maxNewTokens then
    .error (.valueError (s!"target_output_len ({targetOutputLen}) cannot exceed " ++
      s!"request.max_new_tokens ({request.maxNewTokens})"))
  else .ok { request, targetOutputLen, startedAt := some startedAt }

/-- `request_id` -/
def requestId (seq : SequenceState) : RequestId := seq.request.requestId

/-- `current_len` -/
def currentLen (seq : SequenceState) : Nat := seq.request.promptLen + seq.tokensGenerated

/-- `is_finished` -/
def isFinished (seq : SequenceState) : Bool := seq.tokensGenerated ≥ seq.targetOutputLen

/-- `step_decode` -/
def stepDecode (seq : SequenceState) : Except PyError SequenceState :=
  if seq.isFinished then
    .error (.runtimeError s!"{seq.requestId}: step_decode called after completion")
  else .ok { seq with tokensGenerated := seq.tokensGenerated + 1 }

end SequenceState

end PassionProjects.MiniPaged
