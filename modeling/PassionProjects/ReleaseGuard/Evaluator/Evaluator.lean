/-
  PassionProjects.ReleaseGuard.Evaluator.Evaluator

  The evaluation of one window (`evaluator/evaluator.go`, `evaluator/types.go`) against
  what a `metrics.Querier` answers.
-/

import PassionProjects.ReleaseGuard.Policy.Policy

namespace PassionProjects.ReleaseGuard

variable {F : Type}

/-- `Classification`: one of the three verdicts, or any other text. -/
inductive Classification where
  | healthy
  | degraded
  | inconclusive
  | other (text : String) (unknown : text ∉ ["HEALTHY", "DEGRADED", "INCONCLUSIVE"])
  deriving DecidableEq

def reasonAllSignalsHealthy : String := "ALL_SIGNALS_WITHIN_THRESHOLD"

def reasonThresholdBreached : String := "ABSOLUTE_THRESHOLD_BREACHED"

def reasonRelativeBreached : String := "RELATIVE_GUARDRAIL_BREACHED"

def reasonMissingTelemetry : String := "MISSING_TELEMETRY"

def reasonInsufficientSamples : String := "INSUFFICIENT_SAMPLES"

/-- `SignalResult` -/
structure SignalResult (F : Type) [Float64 F] where
  name : String
  isOptional : Bool
  query : String
  value : F := 0
  hasValue : Bool := false
  baselineQuery : String := ""
  baselineValue : F := 0
  hasBaseline : Bool := false
  thresholdPass : Bool := false
  relativePass : Option Bool := none
  missing : Bool := false
  reasonCodes : List String := []

/-- `SignalResult.Healthy` -/
def SignalResult.healthy [Float64 F] (r : SignalResult F) : Bool :=
  if r.missing then false
  else if ¬ r.thresholdPass then false
  else if r.relativePass = some false then false
  else true

/-- `WindowResult` -/
structure WindowResult (F : Type) [Float64 F] where
  timestamp : Int
  track : String
  classification : Classification
  sampleCount : Option F := none
  signalResults : List (SignalResult F) := []
  reasonCodes : List String := []

/-- What `InstantQuery` returns: the value of a sample, `ErrNoData`, or another error. -/
inductive Answer (F : Type) where
  | value (v : F)
  | noData
  | failure (err : String)

/-- The places from which the evaluation of a window asks, each at most once. -/
inductive Site where
  | sampleCount
  | canary (signal : Nat)
  | baseline (signal : Nat)
  deriving DecidableEq

/-- What a `metrics.Querier` answers during one window.  Two places may ask the same
    query and be answered differently, since its metrics move on. -/
abbrev Querier (F : Type) := Site → String → Int → Answer F

/-- `Evaluator`, with the template engine it renders queries by. -/
structure Evaluator (F : Type) where
  policy : Policy F
  querier : Querier F
  render : RenderQuery

section

variable [Float64 F]

/-- `evalThreshold` -/
def evalThreshold (t : Threshold F) (v : F) : Bool :=
  if ∃ max ∈ t.max, max < v then false
  else if ∃ min ∈ t.min, v < min then false
  else true

/-- `evalRelative` -/
def evalRelative (r : RelativeGuardrail F) (canary baseline : F) : Bool :=
  let beyondMax (max : F) : Prop := if baseline ≤ 0 then 0 < canary else max < canary / baseline
  if ∃ max ∈ r.maxRatio, beyondMax max then false
  else if ∃ min ∈ r.minRatio, 0 < baseline ∧ canary / baseline < min then false
  else true

/-- `degradedReasonCodes` -/
def degradedReasonCodes (results : List (SignalResult F)) : List String :=
  let codes := results.flatMap fun sr =>
    if sr.missing ∨ sr.healthy then []
    else problem (¬ sr.thresholdPass) reasonThresholdBreached ++
      problem (sr.relativePass = some false) reasonRelativeBreached
  let reasons := codes.foldl (fun seen code => if code ∈ seen then seen else seen ++ [code]) []
  if reasons = [] then [reasonThresholdBreached] else reasons

namespace Evaluator

variable (e : Evaluator F)

/-- `windowStr` -/
def windowStr : String := durationString e.policy.evaluation.window

/-- The query of a template for a track. -/
def renderFor (tmpl track : String) : Except String String :=
  e.render tmpl { track, window := e.windowStr }

/-- The part of `evaluateSignal` for a signal with a guardrail, whose query has answered
    `canary`. -/
def evaluateGuardrail (i : Nat) (sig : SignalConfig F) (g : RelativeGuardrail F) (canary : F)
    (now : Int) (sr : SignalResult F) : Except String (SignalResult F) := do
  let baseQ ← (e.renderFor sig.query e.policy.evaluation.baselineTrack).mapError
    ("render baseline query: " ++ ·)
  let sr := { sr with baselineQuery := baseQ }
  match e.querier (.baseline i) baseQ now with
  | .noData =>
      let sr := { sr with reasonCodes := sr.reasonCodes ++ [reasonMissingTelemetry] }
      -- a breach of the threshold stands without the baseline
      if sr.thresholdPass then pure { sr with missing := true, hasValue := false }
      else pure sr
  | .failure err => .error ("baseline query: " ++ err)
  | .value baseline =>
      let pass := evalRelative g canary baseline
      pure { sr with
        baselineValue := baseline
        hasBaseline := true
        relativePass := some pass
        reasonCodes := sr.reasonCodes ++ problem (¬ pass) reasonRelativeBreached }

/-- `evaluateSignal`, for the signal at place `i` of the policy. -/
def evaluateSignal (i : Nat) (sig : SignalConfig F) (track : String) (now : Int) :
    Except String (SignalResult F) := do
  let q ← (e.renderFor sig.query track).mapError ("render query: " ++ ·)
  let sr : SignalResult F := { name := sig.name, isOptional := sig.isOptional, query := q }
  match e.querier (.canary i) q now with
  | .noData => pure { sr with missing := true, reasonCodes := [reasonMissingTelemetry] }
  | .failure err => .error ("query: " ++ err)
  | .value v =>
      let pass := evalThreshold sig.threshold v
      let sr := { sr with
        value := v
        hasValue := true
        thresholdPass := pass
        reasonCodes := problem (¬ pass) reasonThresholdBreached }
      match sig.relative with
      | none => pure sr
      | some g => e.evaluateGuardrail i sig g v now sr

/-- What the loop of `Evaluate` carries. -/
structure Tally (F : Type) [Float64 F] where
  results : List (SignalResult F) := []
  allHealthy : Bool := true
  anyRequiredMissing : Bool := false

/-- One turn of the loop of `Evaluate`, for a signal with the result `sr`. -/
def Tally.add (t : Tally F) (sig : SignalConfig F) (sr : SignalResult F) : Tally F :=
  let t := { t with results := t.results ++ [sr] }
  if sig.isOptional ∧ sr.missing then t
  else if sr.missing then { t with anyRequiredMissing := true }
  else if ¬ sr.healthy then { t with allHealthy := false }
  else t

/-- The loop of `Evaluate`, from the signal at place `i` on. -/
def evaluateEach (track : String) (now : Int) :
    Nat → List (SignalConfig F) → Tally F → Except String (Tally F)
  | _, [], t => pure t
  | i, sig :: rest, t => do
      let sr ← (e.evaluateSignal i sig track now).mapError
        (s!"evaluator: signal {sig.name.quote}: " ++ ·)
      evaluateEach track now (i + 1) rest (t.add sig sr)

/-- What `checkSampleCount` finds: a count that is enough, or why it is not. -/
inductive Gate (F : Type) where
  | open (sampleCount : Option F)
  | inconclusive (sampleCount : Option F) (reason : String)

/-- `checkSampleCount` -/
def checkSampleCount (track : String) (now : Int) : Except String (Gate F) := do
  let q ← (e.renderFor e.policy.evaluation.sampleCountQuery track).mapError
    ("evaluator: render sample_count_query: " ++ ·)
  match e.querier .sampleCount q now with
  | .noData => pure (.inconclusive none reasonMissingTelemetry)
  | .failure err => .error ("evaluator: sample_count_query: " ++ err)
  | .value v =>
      if v < (e.policy.evaluation.minSampleCount : F) then
        pure (.inconclusive (some v) reasonInsufficientSamples)
      else pure (.open (some v))

/-- The classification of a window and its reason codes, after the loop of `Evaluate`. -/
def Tally.classify (t : Tally F) : Classification × List String :=
  if t.anyRequiredMissing then (.inconclusive, [reasonMissingTelemetry])
  else if ¬ t.allHealthy then (.degraded, degradedReasonCodes t.results)
  else (.healthy, [reasonAllSignalsHealthy])

/-- The gate of `Evaluate`, where the policy configures one. -/
def gate (track : String) (now : Int) : Except String (Gate F) :=
  if e.policy.evaluation.minSampleCount > 0 then e.checkSampleCount track now
  else .ok (.open none)

/-- `Evaluate` -/
def evaluate (track : String) (now : Int) : Except String (WindowResult F) := do
  match ← e.gate track now with
  | .inconclusive sampleCount reason =>
      pure { timestamp := now, track, classification := .inconclusive, sampleCount,
             reasonCodes := [reason] }
  | .open sampleCount =>
      let t ← e.evaluateEach track now 0 e.policy.signals {}
      pure { timestamp := now, track, classification := t.classify.1, sampleCount,
             signalResults := t.results, reasonCodes := t.classify.2 }

end Evaluator

end

end PassionProjects.ReleaseGuard
