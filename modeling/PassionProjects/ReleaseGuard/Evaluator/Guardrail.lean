/-
  PassionProjects.ReleaseGuard.Evaluator.Guardrail

  The two queries that a relative guardrail compares: one template, rendered for the
  track under evaluation and for the baseline.  `Validate` looks for the placeholder in
  the text of the template and for a name of the baseline, each by itself.
-/

import Mathlib.Algebra.Order.Ring.Nat
import PassionProjects.ReleaseGuard.Evaluator.Evaluator

namespace PassionProjects.ReleaseGuard

open Results

-- ============================================================================
-- Placeholders
-- ============================================================================

/-- What a place in a template belongs to: the text around the actions, an action, a
    constant within one, or a comment. -/
inductive Region where
  | text
  | action
  | quoted (quote : Char)
  | raw
  | comment

/-- The space of a trim marker. -/
def isTrimSpace (c : Char) : Bool := c = ' ' ∨ c = '\t' ∨ c = '\r' ∨ c = '\n'

/-- How many characters begin a comment here. -/
def opensComment : List Char → Option Nat
  | '{' :: '{' :: '/' :: '*' :: _ => some 4
  | '{' :: '{' :: '-' :: space :: '/' :: '*' :: _ => if isTrimSpace space then some 6 else none
  | _ => none

/-- How many characters end a comment here. -/
def closesComment : List Char → Option Nat
  | '*' :: '/' :: '}' :: '}' :: _ => some 4
  | '*' :: '/' :: space :: '-' :: '}' :: '}' :: _ => if isTrimSpace space then some 6 else none
  | _ => none

/-- The placeholders of the track that are actions by themselves; the next `skip`
    characters were looked at before. -/
def placeholdersFrom : Region → Nat → List Char → Nat
  | _, _, [] => 0
  | region, skip + 1, _ :: rest => placeholdersFrom region skip rest
  | .text, 0, c :: rest =>
      if trackPlaceholder.toList.isPrefixOf (c :: rest) then placeholdersFrom .text 9 rest + 1
      else match opensComment (c :: rest) with
        | some width => placeholdersFrom .comment (width - 1) rest
        | none =>
            if ['{', '{'].isPrefixOf (c :: rest) then placeholdersFrom .action 1 rest
            else placeholdersFrom .text 0 rest
  | .action, 0, c :: rest =>
      if ['}', '}'].isPrefixOf (c :: rest) then placeholdersFrom .text 1 rest
      else if c = '"' ∨ c = '\'' then placeholdersFrom (.quoted c) 0 rest
      else if c = '\x60' then placeholdersFrom .raw 0 rest
      else placeholdersFrom .action 0 rest
  | .quoted quote, 0, c :: rest =>
      if c = '\\' then placeholdersFrom (.quoted quote) 1 rest
      else placeholdersFrom (if c = quote then .action else .quoted quote) 0 rest
  | .raw, 0, c :: rest => placeholdersFrom (if c = '\x60' then .action else .raw) 0 rest
  | .comment, 0, c :: rest =>
      match closesComment (c :: rest) with
      | some width => placeholdersFrom .text (width - 1) rest
      | none => placeholdersFrom .comment 0 rest

/-- How many placeholders of the track a template has outside other actions. -/
def placeholders (tmpl : String) : Nat := placeholdersFrom .text 0 tmpl.toList

/-- A placeholder in a comment is none. -/
example : placeholders "up\x7b\x7b/* \x7b\x7b.Track\x7d\x7d */\x7d\x7d" = 0 := by decide +kernel

/-- Of a template that passed the trial of `Validate`, a placeholder outside other actions
    becomes the name of the track, and all else is the same for every track. -/
def ReplacesTrack (render : RenderQuery) (tmpl : String) : Prop :=
  (∃ q, render tmpl { track := "canary", window := "30s" } = .ok q) → ∀ window,
    ∃ parts : List String, parts.length = placeholders tmpl + 1 ∧
      ∀ track, render tmpl { track, window } = .ok (track.intercalate parts)

-- ============================================================================
-- Two tracks
-- ============================================================================

theorem length_intercalate {α : Type} (sep : List α) (parts : List (List α)) :
    (sep.intercalate parts).length =
      (parts.map List.length).sum + (parts.length - 1) * sep.length := by
  induction parts with
  | nil => simp
  | cons first rest ih =>
      cases rest with
      | nil => simp
      | cons second rest =>
          rw [List.intercalate_cons_cons, List.length_append, List.length_append, ih]
          simp only [List.map_cons, List.sum_cons, List.length_cons, Nat.add_sub_cancel,
            Nat.add_one_mul]
          omega

/-- What stands between parts can be read off the whole, if there are two. -/
theorem intercalate_inj {α : Type} {parts : List (List α)} (hparts : 2 ≤ parts.length)
    {sep sep' : List α} : sep.intercalate parts = sep'.intercalate parts ↔ sep = sep' := by
  refine ⟨fun h => ?_, fun h => by rw [h]⟩
  have hlength := congrArg List.length h
  rw [length_intercalate, length_intercalate, Nat.add_left_cancel_iff] at hlength
  have hsep : sep.length = sep'.length :=
    Nat.eq_of_mul_eq_mul_left (by omega) hlength
  match parts, hparts with
  | first :: second :: rest, _ =>
      rw [List.intercalate_cons_cons, List.intercalate_cons_cons, List.append_assoc,
        List.append_assoc] at h
      exact (List.append_inj (List.append_cancel_left h) hsep).1

theorem intercalate_track_inj {parts : List String} (hparts : 2 ≤ parts.length)
    {track track' : String} :
    track.intercalate parts = track'.intercalate parts ↔ track = track' := by
  rw [← String.toList_inj, String.toList_intercalate, String.toList_intercalate,
    intercalate_inj (by rwa [List.length_map]), String.toList_inj]

variable {F : Type} [Float64 F]

theorem validateEach_query {render : RenderQuery} {i : Nat} {seen : List String}
    {signals : List (SignalConfig F)} (h : validateEach render i seen signals = [])
    {sig : SignalConfig F} (hsig : sig ∈ signals) :
    ∃ field, validateQueryTemplate render field sig.query true = [] := by
  induction signals generalizing i seen with
  | nil => cases hsig
  | cons s rest ih =>
      unfold validateEach at h
      simp only [List.append_eq_nil_iff] at h
      obtain ⟨⟨⟨⟨-, hquery⟩, -⟩, -⟩, hrest⟩ := h
      rcases List.mem_cons.mp hsig with rfl | hsig
      · split at hquery
        · cases hquery
        · exact ⟨_, hquery⟩
      · exact ih hrest hsig

/-- The query of a signal of an accepted policy has passed the trial and has the
    placeholder somewhere in its text. -/
theorem Policy.query_valid {render : RenderQuery} {p : Policy F}
    (h : p.validate render = .ok ()) {sig : SignalConfig F} (hsig : sig ∈ p.signals) :
    contains sig.query trackPlaceholder ∧
      ∃ q, render sig.query { track := "canary", window := "30s" } = .ok q := by
  unfold Policy.validate at h
  dsimp only at h
  split at h
  · rename_i hnone
    have hsignals := (List.append_eq_nil_iff.mp hnone).2
    rw [validateSignals, if_neg (List.ne_nil_of_mem hsig)] at hsignals
    obtain ⟨field, hquery⟩ := validateEach_query hsignals hsig
    obtain ⟨hcontains, hrender⟩ := List.append_eq_nil_iff.mp hquery
    refine ⟨?_, ?_⟩
    · by_contra hno
      rw [problem, if_pos ⟨rfl, hno⟩] at hcontains
      cases hcontains
    · cases hq : render sig.query { track := "canary", window := "30s" } with
      | ok q => exact ⟨q, rfl⟩
      | error err =>
          rw [hq] at hrender
          cases hrender
  · cases h

namespace Evaluator

/-- A guardrail on a signal compares two different queries. -/
def ComparesTracks (e : Evaluator F) (sig : SignalConfig F) (track : String) : Prop :=
  ∃ canary baseline, e.renderFor sig.query track = .ok canary ∧
    e.renderFor sig.query e.policy.evaluation.baselineTrack = .ok baseline ∧ canary ≠ baseline

/-- The queries in the result of a signal are those rendered for the two tracks. -/
theorem queries_of_evaluateSignal {e : Evaluator F} {i : Nat} {sig : SignalConfig F}
    {track : String} {now : Int} {sr : SignalResult F}
    (h : e.evaluateSignal i sig track now = .ok sr) :
    e.renderFor sig.query track = .ok sr.query ∧ (sr.hasBaseline →
      e.renderFor sig.query e.policy.evaluation.baselineTrack = .ok sr.baselineQuery) := by
  obtain ⟨q, hq, h⟩ := bind_mapError_eq_ok.mp h
  cases ha : e.querier (.canary i) q now with
  | noData =>
      rw [ha] at h
      cases h
      exact ⟨hq, fun hbaseline => absurd hbaseline Bool.false_ne_true⟩
  | failure err =>
      rw [ha] at h
      cases h
  | value v =>
      rw [ha] at h
      cases hg : sig.relative with
      | none =>
          simp only [hg] at h
          cases h
          exact ⟨hq, fun hbaseline => absurd hbaseline Bool.false_ne_true⟩
      | some g =>
          simp only [hg] at h
          obtain ⟨baseQ, hbaseQ, h⟩ := bind_mapError_eq_ok.mp h
          cases hb : e.querier (.baseline i) baseQ now with
          | noData =>
              simp only [hb] at h
              split at h
              · cases h
                exact ⟨hq, fun hbaseline => absurd hbaseline Bool.false_ne_true⟩
              · cases h
                exact ⟨hq, fun hbaseline => absurd hbaseline Bool.false_ne_true⟩
          | failure err =>
              simp only [hb] at h
              cases h
          | value baseline =>
              simp only [hb] at h
              cases h
              exact ⟨hq, fun _ => hbaseQ⟩

end Evaluator

/-- A guardrail of an accepted policy compares two different queries if and only if the
    baseline is another track and the template has a placeholder outside other actions. -/
theorem guardrail_compares_iff (render : RenderQuery) (querier : Querier F) (p : Policy F)
    (hvalid : p.applyDefaults.validate render = .ok ()) (sig : SignalConfig F)
    (hsig : sig ∈ p.signals) (hrender : ReplacesTrack render sig.query) (track : String) :
    let e : Evaluator F := { policy := p.applyDefaults, querier, render }
    (e.ComparesTracks sig track ↔
      p.applyDefaults.evaluation.baselineTrack ≠ track ∧ 0 < placeholders sig.query) ∧
    ∀ i now sr, e.evaluateSignal i sig track now = .ok sr →
      e.renderFor sig.query track = .ok sr.query ∧ (sr.hasBaseline →
        e.renderFor sig.query p.applyDefaults.evaluation.baselineTrack = .ok sr.baselineQuery) := by
  intro e
  refine ⟨?_, fun i now sr => Evaluator.queries_of_evaluateSignal⟩
  obtain ⟨parts, hparts, hreplaced⟩ := hrender (Policy.query_valid hvalid hsig).2 e.windowStr
  have hqueries : e.ComparesTracks sig track ↔ track.intercalate parts ≠
      p.applyDefaults.evaluation.baselineTrack.intercalate parts := by
    constructor
    · rintro ⟨canary, baseline, hcanary, hbaseline, hne⟩
      rw [← Except.ok.inj ((hreplaced _).symm.trans hcanary),
        ← Except.ok.inj ((hreplaced _).symm.trans hbaseline)] at hne
      exact hne
    · exact fun hne => ⟨_, _, hreplaced _, hreplaced _, hne⟩
  rw [hqueries]
  constructor
  · refine fun hne => ⟨fun hsame => hne (by rw [hsame]), Nat.pos_of_ne_zero fun hnone => hne ?_⟩
    obtain ⟨part, rfl⟩ := List.length_eq_one_iff.mp (show parts.length = 1 by omega)
    rw [String.intercalate_singleton, String.intercalate_singleton]
  · rintro ⟨hother, hsome⟩ hsame
    exact hother ((intercalate_track_inj (by omega)).mp hsame).symm

/-- `RenderQuery` on a template whose only action is the placeholder of the track. -/
def renderTrack : RenderQuery := fun tmpl ctx =>
  .ok (String.ofList (replaceFrom trackPlaceholder.toList ctx.track.toList 0 tmpl.toList))

/-- The rate of failed requests, which may be at most twice that of the baseline. -/
def guardedErrorRate : SignalConfig ℚ :=
  { errorRate with relative := some { maxRatio := some 2, minRatio := none } }

theorem renderTrack_errorRate : ReplacesTrack renderTrack guardedErrorRate.query := by
  intro _ window
  refine ⟨["job:errors:rate\x7btrack=\"", "\"\x7d"], by decide +kernel, fun track => ?_⟩
  refine congrArg Except.ok (String.toList_inj.mp ?_)
  rw [String.toList_intercalate, String.toList_ofList]
  rfl

theorem guardrail_compares_demo :
    let e : Evaluator ℚ := {
      policy := demoPolicy 2 guardedErrorRate, querier := fun _ _ _ => .noData
      render := renderTrack }
    e.ComparesTracks guardedErrorRate "canary" :=
  (guardrail_compares_iff renderTrack (fun _ _ _ => .noData) (demoPolicy 2 guardedErrorRate)
    (by decide +kernel) guardedErrorRate (List.mem_singleton_self _) renderTrack_errorRate
    "canary").1.mpr (by decide +kernel)

/-- A policy with the canary as its own baseline is accepted, and its guardrail compares
    one query with itself. -/
theorem guardrail_compares_itself :
    let p := demoPolicy 2 guardedErrorRate
    let p := { p with evaluation := { p.evaluation with baselineTrack := "canary" } }
    let e : Evaluator ℚ := {
      policy := p.applyDefaults, querier := fun _ _ _ => .value 1, render := renderTrack }
    p.applyDefaults.validate renderTrack = .ok () ∧
    ReplacesTrack renderTrack guardedErrorRate.query ∧
    guardedErrorRate ∈ p.signals ∧ guardedErrorRate.relative.isSome ∧
    ¬ e.ComparesTracks guardedErrorRate "canary" := by
  refine ⟨by decide +kernel, renderTrack_errorRate, List.mem_singleton_self _, rfl, ?_⟩
  rintro ⟨canary, baseline, hcanary, hbaseline, hne⟩
  exact hne (Except.ok.inj (hcanary.symm.trans hbaseline))

end PassionProjects.ReleaseGuard
