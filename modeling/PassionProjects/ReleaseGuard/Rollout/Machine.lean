/-
  PassionProjects.ReleaseGuard.Rollout.Machine

  The states and decisions of a rollout and the table of its transitions
  (`rollout/state.go`), the events of its audit trail (`audit/event.go`), and the state
  machine (`rollout/machine.go`) with what it asks of the outside: the audit records it writes
  and the actions it takes, each of which may fail.
-/

import Mathlib.Data.List.Basic
import PassionProjects.Lib.Raising
import PassionProjects.ReleaseGuard.Evaluator.Evaluator

namespace PassionProjects.ReleaseGuard

/-- `State` -/
inductive State where
  | pending
  | deploying
  | observing
  | healthy
  | degraded
  | inconclusive
  | promoting
  | rollingBack
  | paused
  | completed
  | failed
  deriving DecidableEq, Repr

/-- The value of a `State`. -/
def State.text : State → String
  | .pending => "PENDING"
  | .deploying => "DEPLOYING"
  | .observing => "OBSERVING"
  | .healthy => "HEALTHY"
  | .degraded => "DEGRADED"
  | .inconclusive => "INCONCLUSIVE"
  | .promoting => "PROMOTING"
  | .rollingBack => "ROLLING_BACK"
  | .paused => "PAUSED"
  | .completed => "COMPLETED"
  | .failed => "FAILED"

/-- `Decision` -/
inductive Decision where
  | promote
  | pause
  | rollback
  | inconclusive
  deriving DecidableEq, Repr

/-- `observingStates` -/
def observingStates : List State := [.observing, .healthy, .degraded, .inconclusive]

/-- `allowedTransitions` -/
def allowedTransitions : State → List State
  | .pending => [.deploying, .failed]
  | .deploying => [.observing, .failed]
  | .observing => [.healthy, .degraded, .inconclusive, .paused, .failed]
  | .healthy => [.observing, .promoting]
  | .degraded => [.observing, .rollingBack]
  | .inconclusive => [.observing, .paused, .rollingBack]
  | .promoting => [.completed, .failed]
  | .rollingBack => [.completed, .failed]
  | .paused => [.completed]
  | .completed => []
  | .failed => []

/-- `audit.Event`, with the instant its `timestamp` gives in RFC 3339 and the text of its
    raw JSON evidence. -/
structure Event where
  rolloutId : String
  timestamp : Int
  eventType : String
  fromState : State
  toState : State
  decision : Option Decision
  reasons : List String
  evidence : Option String
  deriving DecidableEq

open Raising Raising.Prog

variable {F : Type} [Float64 F]

/-- The methods of an `Action`. -/
inductive Effect where
  | promote
  | rollback
  deriving DecidableEq, Repr

/-- The calls of `Audit.Record` and of the action so far, each with its error. -/
structure History where
  records : List (Event × Option String) := []
  actions : List (Effect × Option String) := []

/-- What the machine depends on: `json.Marshal` of a window, and the errors of
    `Audit.Record` and of the action, which may depend on all that was asked before. -/
structure Environment (F : Type) [Float64 F] where
  marshalEvidence : WindowResult F → Option String
  record : History → Event → Option String
  act : History → Effect → String → Option String

/-- `Rollout` -/
structure Rollout (F : Type) where
  id : String
  policy : Policy F
  state : State := .pending
  healthyStreak : Nat := 0
  degradedStreak : Nat := 0
  inconclusiveStreak : Nat := 0
  observingSince : Int := 0
  finalDecision : Option Decision := none
  windowCount : Nat := 0
  lastErr : Option String := none

/-- A rollout and what it has asked of the outside. -/
structure System (F : Type) where
  rollout : Rollout F
  history : History := {}

/-- `New` -/
def System.new (id : String) (policy : Policy F) : System F := { rollout := { id, policy } }

/-- The errors of the methods of `Rollout`. -/
inductive RolloutError where
  | notObserving (id : String) (state : State)
  | unknownClassification (id : String) (classification : String)
  | illegalTransition (id : String) (source target : State)
  | auditRecord (id : String) (source target : State) (err : String)
  | actionFailed (id : String) (err : String)
  | cannotFinalize (id : String) (state : State)
  deriving DecidableEq

/-- The text of an error. -/
def RolloutError.message : RolloutError → String
  | .notObserving id state => "rollout " ++ id ++ ": RecordWindow called in state " ++
      state.text ++ ", which is not an observing state"
  | .unknownClassification id classification => "rollout " ++ id ++
      ": unknown classification " ++ classification.quote
  | .illegalTransition id source target => "rollout " ++ id ++ ": illegal transition " ++
      source.text ++ " -> " ++ target.text
  | .auditRecord id source target err => "rollout " ++ id ++ ": audit record " ++ source.text ++
      " -> " ++ target.text ++ ": " ++ err
  | .actionFailed id err => "rollout " ++ id ++ ": action failed: " ++ err
  | .cannotFinalize id state => "rollout " ++ id ++ ": cannot Finalize from state " ++
      state.text ++ " (only PAUSED or an already-terminal state)"

/-- The methods of a `Rollout`. -/
abbrev Method (F α : Type) := Prog RolloutError (System F) α

namespace Rollout

variable (env : Environment F)

/-- Changes the fields of the rollout. -/
def update (f : Rollout F → Rollout F) : Method F Unit :=
  modify fun s => { s with rollout := f s.rollout }

/-- `r`, as it stands. -/
def current : Method F (Rollout F) := fun s => (.ok s.rollout, s)

/-- `r.Audit.Record(event)`, with its error. -/
def record (event : Event) : Method F (Option String) := fun s =>
  let err := env.record s.history event
  (.ok err, { s with history :=
    { s.history with records := s.history.records ++ [(event, err)] } })

/-- `r.Action.Promote` or `r.Action.Rollback`, with its error. -/
def act (effect : Effect) : Method F (Option String) := fun s =>
  let err := env.act s.history effect s.rollout.id
  (.ok err, { s with history :=
    { s.history with actions := s.history.actions ++ [(effect, err)] } })

/-- `transitionLocked` -/
def transitionLocked (target : State) (decision : Option Decision) (reasons : List String)
    (evidence : Option String) (now : Int) : Method F Unit := do
  let r ← current
  check (target ∈ allowedTransitions r.state) (.illegalTransition r.id r.state target)
  update fun r => { r with state := target, finalDecision := decision <|> r.finalDecision }
  let event := {
    rolloutId := r.id
    timestamp := now
    eventType := "state_transition"
    fromState := r.state
    toState := target
    decision, reasons, evidence }
  match ← record env event with
  | none => pure ()
  | some err => raise (.auditRecord r.id r.state target err)

/-- `Start` -/
def start (now : Int) : Method F Unit :=
  transitionLocked env .deploying none ["ROLLOUT_STARTED"] none now

/-- `MarkDeployed` -/
def markDeployed (now : Int) : Method F Unit := do
  transitionLocked env .observing none ["CANARY_DEPLOYED"] none now
  update fun r => { r with observingSince := now }

/-- `r.state`, as it stands. -/
def currentState : Method F State := do
  let r ← current
  pure r.state

/-- `transitionToStateLocked` -/
def transitionToStateLocked (target : State) (decision : Decision) (reasons : List String)
    (evidence : Option String) (now : Int) : Method F State := do
  transitionLocked env target (some decision) reasons evidence now
  currentState

/-- `backToObservingLocked` -/
def backToObservingLocked (reason : String) (evidence : Option String) (now : Int) :
    Method F State := do
  transitionLocked env .observing none [reason] evidence now
  currentState

/-- `applyActionLocked` -/
def applyActionLocked (effect : Effect) (now : Int) : Method F State := do
  let r ← current
  match ← act env effect with
  | some err => do
      update fun r => { r with lastErr := some err }
      attempt (transitionLocked env .failed none ["ACTION_FAILED", err] none now)
      raise (.actionFailed r.id err)
  | none => do
      transitionLocked env .completed none ["ACTION_APPLIED"] none now
      currentState

/-- `resolveMissingTelemetryLocked` -/
def resolveMissingTelemetryLocked (evidence : Option String) (now : Int) : Method F State := do
  let r ← current
  match r.policy.evaluation.onMissingTelemetry with
  | .rollback => do
      transitionLocked env .rollingBack (some .rollback)
        ["PERSISTENT_INCONCLUSIVE_TELEMETRY", "ON_MISSING_TELEMETRY_ROLLBACK"] evidence now
      applyActionLocked env .rollback now
  | _ =>
      transitionToStateLocked env .paused .pause
        ["PERSISTENT_INCONCLUSIVE_TELEMETRY", "ON_MISSING_TELEMETRY_PAUSE"] evidence now

/-- `RecordWindow` -/
def recordWindow (wr : WindowResult F) (now : Int) : Method F State := do
  let r ← current
  check (r.state ∈ observingStates) (.notObserving r.id r.state)
  update fun r => { r with windowCount := r.windowCount + 1 }
  let evidence := env.marshalEvidence wr
  if timeSub now r.observingSince ≥ r.policy.evaluation.maxRolloutDuration then
    transitionToStateLocked env .paused .inconclusive ["MAX_ROLLOUT_DURATION_EXCEEDED"]
      evidence now
  else match wr.classification with
  | .healthy => do
      update fun r => { r with
        healthyStreak := r.healthyStreak + 1, degradedStreak := 0, inconclusiveStreak := 0 }
      transitionLocked env .healthy none wr.reasonCodes evidence now
      let r ← current
      if r.healthyStreak ≥ r.policy.evaluation.consecutiveHealthyWindows then do
        transitionLocked env .promoting (some .promote) ["CONSECUTIVE_HEALTHY_WINDOWS_MET"]
          evidence now
        applyActionLocked env .promote now
      else backToObservingLocked env "AWAITING_MORE_HEALTHY_WINDOWS" evidence now
  | .degraded => do
      update fun r => { r with
        degradedStreak := r.degradedStreak + 1, healthyStreak := 0, inconclusiveStreak := 0 }
      transitionLocked env .degraded none wr.reasonCodes evidence now
      let r ← current
      if r.degradedStreak ≥ r.policy.evaluation.consecutiveUnhealthyWindows then do
        transitionLocked env .rollingBack (some .rollback) ["CONSECUTIVE_DEGRADED_WINDOWS_MET"]
          evidence now
        applyActionLocked env .rollback now
      else backToObservingLocked env "AWAITING_MORE_DEGRADED_WINDOWS" evidence now
  | .inconclusive => do
      update fun r => { r with
        inconclusiveStreak := r.inconclusiveStreak + 1, healthyStreak := 0, degradedStreak := 0 }
      transitionLocked env .inconclusive none wr.reasonCodes evidence now
      let r ← current
      if r.inconclusiveStreak ≥ r.policy.evaluation.consecutiveUnhealthyWindows then
        resolveMissingTelemetryLocked env evidence now
      else backToObservingLocked env "AWAITING_MORE_WINDOWS" evidence now
  | .other text _ => raise (.unknownClassification r.id text)

/-- `Finalize` -/
def finalize (now : Int) : Method F Unit := do
  let r ← current
  if r.state = .completed ∨ r.state = .failed then pure ()
  else do
    check (r.state = .paused) (.cannotFinalize r.id r.state)
    transitionLocked env .completed none ["PAUSED_ROLLOUT_FINALIZED"] none now

end Rollout

/-- A call of one of the methods that change a rollout. -/
inductive Call (F : Type) [Float64 F] where
  | start (now : Int)
  | markDeployed (now : Int)
  | recordWindow (wr : WindowResult F) (now : Int)
  | finalize (now : Int)

/-- What a call does, with the state that `RecordWindow` returns left out: it is the
    state of the rollout after the call. -/
def perform (env : Environment F) : Call F → Method F Unit
  | .start now => Rollout.start env now
  | .markDeployed now => Rollout.markDeployed env now
  | .recordWindow wr now => do
      let _ ← Rollout.recordWindow env wr now
      pure ()
  | .finalize now => Rollout.finalize env now

/-- The rollout after a call. -/
def System.after (env : Environment F) (s : System F) (call : Call F) : System F :=
  (perform env call s).2

/-- The rollout after a sequence of calls. -/
def System.run (env : Environment F) (s : System F) (calls : List (Call F)) : System F :=
  calls.foldl (System.after env) s

end PassionProjects.ReleaseGuard
