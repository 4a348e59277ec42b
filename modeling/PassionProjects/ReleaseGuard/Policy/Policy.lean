/-
  PassionProjects.ReleaseGuard.Policy.Policy

  The typed rollout policy (`policy/types.go`), its defaults (`policy/load.go`) and its
  validation (`policy/validate.go`), with the numbers of the controller and what it uses of
  Go's `strings` and `time` packages.  A `time.Time` is in nanoseconds since the zero time
  and a `time.Duration` in nanoseconds, both as an `Int`.

  The template engine behind `RenderQuery` (`policy/template.go`) is a parameter: `render`
  is any function from a template and what it is rendered against to a query or an error.
-/

import Mathlib.Algebra.Order.Ring.Rat
import Mathlib.Data.List.DropRight
import Mathlib.Data.List.Infix
import PassionProjects.Lib.Results

namespace PassionProjects.ReleaseGuard

section Numbers

/-- The operations of `float64` that the controller uses.  No law is asked of them, so
    that what is proved holds with NaN and with rounding. -/
class Float64 (F : Type) extends LT F, LE F, Zero F, Div F, IntCast F, ToString F where
  [decLT : DecidableLT F]
  [decLE : DecidableLE F]

attribute [reducible, instance] Float64.decLT Float64.decLE

instance : Float64 ℚ where

/-- The least and the greatest `time.Duration`. -/
def minDuration : Int := -2 ^ 63

def maxDuration : Int := 2 ^ 63 - 1

/-- `Time.Sub`, which stops at the bounds of a duration. -/
def timeSub (t u : Int) : Int := max minDuration (min maxDuration (t - u))

/-- A comparison with a duration does not see the bounds. -/
theorem le_timeSub_iff {d : Int} (hmin : minDuration < d) (hmax : d ≤ maxDuration) (t u : Int) :
    d ≤ timeSub t u ↔ d ≤ t - u := by
  unfold timeSub minDuration maxDuration at *
  omega

/-- `unicode.IsSpace` -/
def isSpace (c : Char) : Bool :=
  let n := c.toNat
  (9 ≤ n && n ≤ 13) || n = 0x20 || n = 0x85 || n = 0xA0 || n = 0x1680 ||
    (0x2000 ≤ n && n ≤ 0x200a) || n = 0x2028 || n = 0x2029 || n = 0x202f || n = 0x205f ||
    n = 0x3000

/-- `strings.TrimSpace` -/
def trimSpace (s : String) : String :=
  String.ofList ((s.toList.dropWhile isSpace).rdropWhile isSpace)

/-- `strings.Contains` -/
def contains (s sub : String) : Bool := sub.toList <:+: s.toList

/-- The digits of a fraction of `10 ^ digits` parts after the point, without the zeros at
    the end, and the point itself where any are left (`fmtFrac`). -/
def fraction (digits part : Nat) : String :=
  let padded := (toString (10 ^ digits + part)).toList.drop 1
  match padded.rdropWhile (· = '0') with
  | [] => ""
  | shown => "." ++ String.ofList shown

/-- `Duration.String`, such as `1h15m30.918s`. -/
def durationString (d : Int) : String :=
  let n := d.natAbs
  let sign := if d < 0 then "-" else ""
  let second := 10 ^ 9
  sign ++
    if n = 0 then "0s"
    else if n < 10 ^ 3 then s!"{n}ns"
    else if n < 10 ^ 6 then s!"{n / 10 ^ 3}" ++ fraction 3 (n % 10 ^ 3) ++ "µs"
    else if n < second then s!"{n / 10 ^ 6}" ++ fraction 6 (n % 10 ^ 6) ++ "ms"
    else
      let total := n / second
      let seconds := s!"{total % 60}" ++ fraction 9 (n % second) ++ "s"
      if total < 60 then seconds
      else if total < 3600 then s!"{total / 60}m" ++ seconds
      else s!"{total / 3600}h{total / 60 % 60}m" ++ seconds

end Numbers

section Typed

/-- `MissingTelemetryAction`: one of the two actions, or any other text of a document. -/
inductive MissingTelemetryAction where
  | pause
  | rollback
  | other (text : String) (unknown : text ≠ "pause" ∧ text ≠ "rollback")
  deriving DecidableEq

/-- The text of an action in a document. -/
def MissingTelemetryAction.text : MissingTelemetryAction → String
  | .pause => "pause"
  | .rollback => "rollback"
  | .other text _ => text

/-- `EvaluationConfig`, with the range that the type of its deadline has. -/
structure EvaluationConfig where
  interval : Int
  window : Int
  minSampleCount : Int
  sampleCountQuery : String
  consecutiveHealthyWindows : Int
  consecutiveUnhealthyWindows : Int
  maxRolloutDuration : Int
  onMissingTelemetry : MissingTelemetryAction
  baselineTrack : String
  maxRolloutDuration_le : maxRolloutDuration ≤ maxDuration := by decide

/-- `Threshold` -/
structure Threshold (F : Type) where
  max : Option F
  min : Option F

/-- `RelativeGuardrail` -/
structure RelativeGuardrail (F : Type) where
  maxRatio : Option F
  minRatio : Option F

/-- `SignalConfig` -/
structure SignalConfig (F : Type) where
  name : String
  query : String
  threshold : Threshold F
  relative : Option (RelativeGuardrail F)
  isOptional : Bool

/-- `Policy` -/
structure Policy (F : Type) where
  name : String
  version : Int
  evaluation : EvaluationConfig
  signals : List (SignalConfig F)

/-- `TemplateContext` -/
structure TemplateContext where
  track : String
  window : String
  deriving DecidableEq

/-- `RenderQuery`: the query a template gives, or the text of an error. -/
abbrev RenderQuery := String → TemplateContext → Except String String

variable {F : Type}

/-- `ApplyDefaults` -/
def Policy.applyDefaults (p : Policy F) : Policy F :=
  let e := p.evaluation
  { p with evaluation := { e with
      onMissingTelemetry := if e.onMissingTelemetry.text = "" then .pause else e.onMissingTelemetry
      baselineTrack := if e.baselineTrack = "" then "stable" else e.baselineTrack } }

/-- A problem that is added where `bad` holds. -/
def problem (bad : Prop) [Decidable bad] (text : String) : List String :=
  if bad then [text] else []

/-- The placeholder of the track in a template. -/
def trackPlaceholder : String := "\x7b\x7b.Track\x7d\x7d"

/-- `validateQueryTemplate` -/
def validateQueryTemplate (render : RenderQuery) (field tmpl : String) (requireTrack : Bool) :
    List String :=
  problem (requireTrack ∧ ¬ contains tmpl trackPlaceholder)
    (field ++ " must reference " ++ trackPlaceholder ++
      " so it is scoped to the track being evaluated") ++
  match render tmpl { track := "canary", window := "30s" } with
  | .ok _ => []
  | .error err => [field ++ ": " ++ err]

/-- `validateEvaluation` -/
def EvaluationConfig.validate (render : RenderQuery) (e : EvaluationConfig) : List String :=
  problem (e.interval ≤ 0) "evaluation.interval must be > 0" ++
  problem (e.window ≤ 0) "evaluation.window must be > 0" ++
  problem (e.minSampleCount < 0) "evaluation.min_sample_count must be >= 0" ++
  (if e.minSampleCount > 0 then
    if trimSpace e.sampleCountQuery = "" then
      ["evaluation.sample_count_query is required when min_sample_count > 0"]
    else validateQueryTemplate render "evaluation.sample_count_query" e.sampleCountQuery true
  else []) ++
  problem (e.consecutiveHealthyWindows < 1)
    "evaluation.consecutive_healthy_windows must be >= 1" ++
  problem (e.consecutiveUnhealthyWindows < 1)
    "evaluation.consecutive_unhealthy_windows must be >= 1" ++
  (if e.maxRolloutDuration ≤ 0 then ["evaluation.max_rollout_duration must be > 0"]
  else problem (e.window > 0 ∧ e.maxRolloutDuration < e.window)
    "evaluation.max_rollout_duration must be >= evaluation.window") ++
  (match e.onMissingTelemetry with
  | .pause | .rollback => []
  | .other text _ => ["evaluation.on_missing_telemetry must be \"pause\" or \"rollback\", got " ++
      text.quote]) ++
  problem (trimSpace e.baselineTrack = "") "evaluation.baseline_track must not be empty"

section

variable [Float64 F]

/-- The checks of `validateSignals` on the threshold of a signal. -/
def Threshold.validate (label : String) (t : Threshold F) : List String :=
  match t.max, t.min with
  | none, none => [label ++ ".threshold must set max and/or min"]
  | some max, some min => problem (max < min)
      (label ++ s!".threshold.min ({min}) must be <= threshold.max ({max})")
  | _, _ => []

/-- The checks of `validateSignals` on the guardrail of a signal. -/
def RelativeGuardrail.validate (label query : String) (g : RelativeGuardrail F) : List String :=
  problem (g.maxRatio.isNone ∧ g.minRatio.isNone)
    (label ++ ".relative must set max_ratio and/or min_ratio") ++
  problem (∃ r ∈ g.maxRatio, r ≤ 0) (label ++ ".relative.max_ratio must be > 0") ++
  problem (∃ r ∈ g.minRatio, r ≤ 0) (label ++ ".relative.min_ratio must be > 0") ++
  problem (¬ contains query trackPlaceholder)
    (label ++ ".query must reference " ++ trackPlaceholder ++ " to support a relative guardrail")

/-- The loop of `validateSignals`, from the signal at place `i` on, with the names seen
    before it. -/
def validateEach (render : RenderQuery) : Nat → List String → List (SignalConfig F) → List String
  | _, _, [] => []
  | i, seen, s :: rest =>
      let name := trimSpace s.name
      let label := if name = "" then s!"signals[{i}]" else s!"signals[{i}] (" ++ name ++ ")"
      (if name = "" then [label ++ ".name is required"]
      else problem (name ∈ seen) (label ++ ".name " ++ name.quote ++ " is duplicated")) ++
      (if trimSpace s.query = "" then [label ++ ".query is required"]
      else validateQueryTemplate render (label ++ ".query") s.query true) ++
      s.threshold.validate label ++
      (match s.relative with
      | none => []
      | some g => g.validate label s.query) ++
      validateEach render (i + 1) (if name = "" then seen else name :: seen) rest

/-- `validateSignals` -/
def validateSignals (render : RenderQuery) (signals : List (SignalConfig F)) : List String :=
  if signals = [] then ["at least one signal is required"] else validateEach render 0 [] signals

/-- `Validate` -/
def Policy.validate (render : RenderQuery) (p : Policy F) : Except String Unit :=
  let errs :=
    problem (trimSpace p.name = "") "name is required" ++
    problem (p.version ≠ 1) s!"version must be 1, got {p.version}" ++
    p.evaluation.validate render ++ validateSignals render p.signals
  if errs = [] then .ok () else .error ("; ".intercalate errs)

/-- A policy that is accepted has no problem in its evaluation. -/
theorem Policy.evaluation_valid {render : RenderQuery} {p : Policy F}
    (h : p.validate render = .ok ()) : p.evaluation.validate render = [] := by
  unfold Policy.validate at h
  dsimp only at h
  split at h
  · rename_i hnone
    exact (List.append_eq_nil_iff.mp (List.append_eq_nil_iff.mp hnone).1).2
  · cases h

end

-- ============================================================================
-- A policy
-- ============================================================================

/-- A text with every `pat` replaced; the first `skip` characters belong to one that is
    replaced already. -/
def replaceFrom (pat rep : List Char) : Nat → List Char → List Char
  | _, [] => []
  | skip + 1, _ :: rest => replaceFrom pat rep skip rest
  | 0, c :: rest =>
      if pat.isPrefixOf (c :: rest) then rep ++ replaceFrom pat rep (pat.length - 1) rest
      else c :: replaceFrom pat rep 0 rest

/-- `RenderQuery` on a template with no other actions than the two placeholders. -/
def renderPlaceholders : RenderQuery := fun tmpl ctx =>
  let chars := replaceFrom trackPlaceholder.toList ctx.track.toList 0 tmpl.toList
  .ok (String.ofList (replaceFrom "\x7b\x7b.Window\x7d\x7d".toList ctx.window.toList 0 chars))

/-- The rate of failed requests of a track. -/
def errorRate : SignalConfig ℚ where
  name := "error_rate"
  query := "job:errors:rate\x7btrack=\"\x7b\x7b.Track\x7d\x7d\"\x7d"
  threshold := { max := some (1 / 50), min := none }
  relative := none
  isOptional := false

/-- A policy of one signal that asks for as many windows of each kind. -/
def demoPolicy (windows : Int) (signal : SignalConfig ℚ) : Policy ℚ where
  name := "demo-service-canary"
  version := 1
  evaluation := {
    interval := 15 * 10 ^ 9
    window := 30 * 10 ^ 9
    minSampleCount := 0
    sampleCountQuery := ""
    consecutiveHealthyWindows := windows
    consecutiveUnhealthyWindows := windows
    maxRolloutDuration := 1800 * 10 ^ 9
    onMissingTelemetry := .pause
    baselineTrack := "stable" }
  signals := [signal]

example : (demoPolicy 2 errorRate).validate renderPlaceholders = .ok () := by decide +kernel

end Typed

end PassionProjects.ReleaseGuard
