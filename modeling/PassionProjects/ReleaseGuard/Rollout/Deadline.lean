/-
  PassionProjects.ReleaseGuard.Rollout.Deadline

  From when the deadline of a rollout is counted.  `MarkDeployed` starts the clock after
  the audited transition to OBSERVING, so that a failed audit write leaves a rollout that
  is observed with a clock that never was started.
-/

import PassionProjects.ReleaseGuard.Rollout.Progress

namespace PassionProjects.ReleaseGuard

open Raising Raising.Prog

variable {F : Type} [Float64 F] {env : Environment F} {s s' : System F} {wr : WindowResult F}
  {now : Int}

def reasonMaxDuration : String := "MAX_ROLLOUT_DURATION_EXCEEDED"

/-- An event that ends a rollout at its deadline. -/
def Event.AtDeadline (event : Event) : Prop :=
  event.toState = .paused ∧ event.reasons = [reasonMaxDuration]

instance (event : Event) : Decidable event.AtDeadline := inferInstanceAs (Decidable (_ ∧ _))

/-- A window ends the rollout at its deadline. -/
def TimedOut (env : Environment F) (s : System F) (wr : WindowResult F) (now : Int) : Prop :=
  let s' := s.after env (.recordWindow wr now)
  s'.rollout.state = .paused ∧
    ∃ record ∈ s'.history.records.drop s.history.records.length, record.1.AtDeadline

instance : Decidable (TimedOut env s wr now) := inferInstanceAs (Decidable (_ ∧ _))

-- ============================================================================
-- What is written before the deadline
-- ============================================================================

namespace Rollout

/-- The records meet a condition. -/
def Records (Q : List (Event × Option String) → Prop) (s : System F) : Prop :=
  Q s.history.records

variable {Q : List (Event × Option String) → Prop}

omit [Float64 F] in
theorem keeps_update {f : Rollout F → Rollout F} : Keeps (Records Q) (update f) := fun _ h => h

omit [Float64 F] in
theorem keeps_current : Keeps (Records Q) (current : Method F (Rollout F)) := fun _ h => h

theorem keeps_act {effect : Effect} : Keeps (Records Q) (act env effect) := fun _ h => h

omit [Float64 F] in
theorem keeps_currentState : Keeps (Records Q) (currentState : Method F State) :=
  .bind keeps_current fun _ => .pure

variable (hQ : ∀ records event err, Q records → ¬ Event.AtDeadline event →
  Q (records ++ [(event, err)]))
include hQ

/-- A transition elsewhere, or for other reasons. -/
theorem keeps_transitionLocked {target : State} {decision : Option Decision}
    {reasons : List String} {evidence : Option String}
    (h : ¬ (target = .paused ∧ reasons = [reasonMaxDuration])) :
    Keeps (Records Q) (transitionLocked env target decision reasons evidence now) := by
  refine .bind keeps_current fun r => .bind .check fun _ => .bind keeps_update fun _ =>
    .bind (fun s hs => ?_) fun err => ?_
  · exact hQ _ _ _ hs h
  · cases err with
    | none => exact .pure
    | some err => exact .raise

theorem keeps_applyActionLocked {effect : Effect} :
    Keeps (Records Q) (applyActionLocked env effect now) := by
  refine .bind keeps_current fun r => .bind keeps_act fun err => ?_
  cases err with
  | none =>
      exact .bind (keeps_transitionLocked hQ (by simp)) fun _ => keeps_currentState
  | some err =>
      exact .bind keeps_update fun _ => .bind (.attempt (keeps_transitionLocked hQ (by simp)))
        fun _ => .raise

theorem keeps_resolveMissing {evidence : Option String} :
    Keeps (Records Q) (resolveMissingTelemetryLocked env evidence now) := by
  refine .bind keeps_current fun r => ?_
  split
  · exact .bind (keeps_transitionLocked hQ (by simp)) fun _ => keeps_applyActionLocked hQ
  · exact .bind (keeps_transitionLocked hQ (by simp)) fun _ => keeps_currentState

theorem keeps_backToObserving {reason : String} {evidence : Option String} :
    Keeps (Records Q) (backToObservingLocked env reason evidence now) :=
  .bind (keeps_transitionLocked hQ (by simp)) fun _ => keeps_currentState

/-- No window before the deadline writes that the deadline was exceeded. -/
theorem recordWindow_onTime (hlate : ¬ s.rollout.Late now) (hs : Records Q s) :
    Records Q (recordWindow env wr now s).2 := by
  refine wp_result (W := fun _ => Records Q) (wp_bind (wp_current.mpr (wp_bind ?_)))
  by_cases hobserving : s.rollout.state ∈ observingStates
  · refine wp_check hobserving (wp_bind (wp_update.mpr ?_))
    dsimp only
    rw [if_neg (show ¬ timeSub now _ ≥ _ from hlate)]
    cases wr.classification with
    | healthy =>
        refine Keeps.bind keeps_update (fun _ => .bind (keeps_transitionLocked hQ (by simp))
          fun _ => .bind keeps_current fun r => .ite ?_ (keeps_backToObserving hQ)) _ hs
        exact .bind (keeps_transitionLocked hQ (by simp)) fun _ => keeps_applyActionLocked hQ
    | degraded =>
        refine Keeps.bind keeps_update (fun _ => .bind (keeps_transitionLocked hQ (by simp))
          fun _ => .bind keeps_current fun r => .ite ?_ (keeps_backToObserving hQ)) _ hs
        exact .bind (keeps_transitionLocked hQ (by simp)) fun _ => keeps_applyActionLocked hQ
    | inconclusive =>
        exact Keeps.bind keeps_update (fun _ => .bind (keeps_transitionLocked hQ (by simp))
          fun _ => .bind keeps_current fun r => .ite (keeps_resolveMissing hQ)
            (keeps_backToObserving hQ)) _ hs
    | other text hunknown => exact Keeps.raise _ hs
  · rw [check, if_neg hobserving]
    exact hs

-- ============================================================================
-- From the deadline on
-- ============================================================================

omit hQ

/-- What a transition leaves, with the event that it writes. -/
theorem transitionLocked_snd {target : State} {decision : Option Decision}
    {reasons : List String} {evidence : Option String} :
    (transitionLocked env target decision reasons evidence now s).2 =
      let event := Event.mk s.rollout.id now "state_transition" s.rollout.state target decision
        reasons evidence
      if target ∈ allowedTransitions s.rollout.state then
        s.moved event (env.record s.history event) else s := by
  dsimp only
  refine wp_result (m := transitionLocked env target decision reasons evidence now)
    (W := fun _ s' => s' = if target ∈ allowedTransitions s.rollout.state then _ else s)
    (wp_bind (wp_current.mpr (wp_bind ?_)))
  by_cases hallowed : target ∈ allowedTransitions s.rollout.state
  · refine wp_check hallowed (wp_bind (wp_update.mpr (wp_bind (wp_record.mpr ?_))))
    rw [if_pos hallowed]
    cases hrecord : env.record s.history (Event.mk s.rollout.id now "state_transition"
        s.rollout.state target decision reasons evidence) with
    | none => exact rfl
    | some err => exact rfl
  · rw [check, if_neg hallowed, if_neg hallowed]
    exact rfl

theorem recordWindow_late (hobserving : s.rollout.state ∈ observingStates)
    (hlate : s.rollout.Late now) :
    (recordWindow env wr now s).2 = (transitionLocked env .paused (some .inconclusive)
      [reasonMaxDuration] (env.marshalEvidence wr) now s.counted).2 := by
  refine wp_result (m := recordWindow env wr now) (W := fun _ s' => s' = _)
    (wp_bind (wp_current.mpr (wp_bind ?_)))
  refine wp_check hobserving (wp_bind (wp_update.mpr ?_))
  dsimp only
  rw [if_pos (show timeSub now _ ≥ _ from hlate)]
  exact wp_bind wp_left

end Rollout

/-- A window ends the rollout at its deadline if and only if the clock that the rollout
    holds has reached it and no failed audit write has left it in HEALTHY or DEGRADED. -/
theorem timedOut_iff (hobserving : s.rollout.state ∈ observingStates) :
    TimedOut env s wr now ↔ s.rollout.Late now ∧ s.rollout.state ∉ [.healthy, .degraded] := by
  have hafter : s.after env (.recordWindow wr now) = (Rollout.recordWindow env wr now s).2 :=
    bind_pure_snd
  unfold TimedOut
  rw [hafter]
  by_cases hlate : s.rollout.Late now
  · rw [Rollout.recordWindow_late hobserving hlate, Rollout.transitionLocked_snd]
    have hallowed : State.paused ∈ allowedTransitions s.counted.rollout.state ↔
        s.rollout.state ∉ [.healthy, .degraded] := by
      show State.paused ∈ allowedTransitions s.rollout.state ↔ _
      revert hobserving
      generalize s.rollout.state = state
      cases state <;> decide
    dsimp only
    split
    · rename_i hmoves
      have hadded : ∀ record,
          record ∈ (s.history.records ++ [record]).drop s.history.records.length := by simp
      exact iff_of_true ⟨rfl, _, hadded _, rfl, rfl⟩ ⟨hlate, hallowed.mp hmoves⟩
    · rename_i hstays
      refine iff_of_false (fun h => ?_) fun h => hstays (hallowed.mpr h.2)
      obtain ⟨-, record, hrecord, -⟩ := h
      rw [show s.counted.history = s.history from rfl, List.drop_length] at hrecord
      cases hrecord
  · refine iff_of_false (fun h => ?_) fun h => hlate h.1
    obtain ⟨-, record, hrecord, hdeadline⟩ := h
    have hwritten : Rollout.Records (fun records => s.history.records.length ≤ records.length ∧
        ∀ record ∈ records.drop s.history.records.length, ¬ record.1.AtDeadline)
        (Rollout.recordWindow env wr now s).2 :=
      Rollout.recordWindow_onTime (fun records event err ⟨hlength, hnone⟩ hevent => ?_) hlate
        ⟨Nat.le_refl _, by rw [List.drop_length]; exact fun _ hmem => nomatch hmem⟩
    · exact hwritten.2 record hrecord hdeadline
    · refine ⟨by rw [List.length_append]; omega, fun record hmem => ?_⟩
      rw [List.drop_append_of_le_length hlength, List.mem_append, List.mem_singleton] at hmem
      rcases hmem with hmem | rfl
      · exact hnone record hmem
      · exact hevent

-- ============================================================================
-- The deadline
-- ============================================================================

/-- The time that a call is given. -/
def Call.time : Call F → Int
  | .start now | .markDeployed now | .recordWindow _ now | .finalize now => now

/-- A window finds a rollout, deployed at `deployed`, in HEALTHY or DEGRADED before the
    deadline only; elsewhere the clock that the rollout holds started with the observation,
    or its deadline has come where that of the observation has. -/
def Punctual (s : System F) (deployed now : Int) : Prop :=
  if s.rollout.state ∈ [.healthy, .degraded] then
    now - deployed < s.rollout.policy.evaluation.maxRolloutDuration
  else s.rollout.observingSince = deployed ∨
    (s.rollout.Late now ↔ s.rollout.policy.evaluation.maxRolloutDuration ≤ now - deployed)

omit [Float64 F] in
theorem late_iff_of_observingSince (hsince : s.rollout.observingSince = deployed)
    (htime : deployed ≤ now) :
    s.rollout.Late now ↔ s.rollout.policy.evaluation.maxRolloutDuration ≤ now - deployed := by
  have hmax := s.rollout.policy.evaluation.maxRolloutDuration_le
  unfold Rollout.Late timeSub minDuration
  unfold maxDuration at *
  rw [hsince]
  omega

theorem punctual_iff (hobserving : s.rollout.state ∈ observingStates) (htime : deployed ≤ now) :
    (TimedOut env s wr now ↔
      s.rollout.policy.evaluation.maxRolloutDuration ≤ now - deployed) ↔
    Punctual s deployed now := by
  rw [timedOut_iff hobserving]
  unfold Punctual
  split
  · rename_i hleft
    exact ⟨fun h => not_le.mp fun hdue => (h.mpr hdue).2 hleft,
      fun hearly => iff_of_false (fun h => h.2 hleft) (not_le.mpr hearly)⟩
  · rename_i hopen
    rw [and_iff_left hopen]
    exact ⟨.inr, fun h => h.elim (late_iff_of_observingSince · htime) id⟩

/-- A run has one call of `MarkDeployed` that starts the observation; a window ends the
    rollout at its deadline exactly when that is due from this call on, if and only if it
    is punctual; and it is, if that call returns no error and is the last one of
    `MarkDeployed`, and no audit write of a classification failed. -/
theorem deadline_measured_iff (env : Environment F) (id : String) (p : Policy F)
    (calls : List (Call F)) (wr : WindowResult F) (now : Int)
    (hobserving : ((System.new id p).run env calls).rollout.state ∈ observingStates)
    (htimes : ((calls ++ [Call.recordWindow wr now]).map Call.time).Pairwise (· ≤ ·)) :
    let s := (System.new id p).run env calls
    ∃ before deployed after, Deployed env (System.new id p) calls before deployed after ∧
      (∀ before' deployed' after',
        Deployed env (System.new id p) calls before' deployed' after' → deployed' = deployed) ∧
      ((TimedOut env s wr now ↔ p.evaluation.maxRolloutDuration ≤ now - deployed) ↔
        Punctual s deployed now) ∧
      ((Rollout.markDeployed env deployed ((System.new id p).run env before)).1 = .ok () →
        (∀ time, .markDeployed time ∉ after) → s.ClassesRecorded → Punctual s deployed now) := by
  intro s
  obtain ⟨before, deployed, after, h⟩ := System.exists_deployed id p hobserving
  have htime : deployed ≤ now := by
    rw [List.map_append, List.pairwise_append] at htimes
    refine htimes.2.2 deployed ?_ now (List.mem_singleton_self _)
    exact List.mem_map.mpr ⟨.markDeployed deployed, by rw [h.calls]; simp, rfl⟩
  have hpolicy : s.rollout.policy = p := System.policy_run calls
  refine ⟨before, deployed, after, h, fun _ _ _ h' => (h'.unique h).2.1, ?_, ?_⟩
  · rw [← hpolicy]
    exact punctual_iff hobserving htime
  · intro hok honce hclasses
    have hstate : s.rollout.state = .observing := steady_run id p hclasses hobserving
    unfold Punctual
    rw [hstate, if_neg (by decide)]
    exact .inl (h.observingSince hok honce)

/-- Deployed at the start, a window half an hour later comes at the deadline. -/
theorem deadline_measured_demo :
    TimedOut (flakyAudit []) (demoRollout.run (flakyAudit []) deployment) (window .healthy)
        (atSecond 1800) ↔
      (demoPolicy 2 errorRate).evaluation.maxRolloutDuration ≤ atSecond 1800 - atSecond 0 := by
  obtain ⟨before, deployed, after, h, honly, hiff, -⟩ :=
    deadline_measured_iff (flakyAudit []) "r1" (demoPolicy 2 errorRate) deployment
      (window .healthy) (atSecond 1800) (by decide +kernel) (by decide +kernel)
  obtain rfl := honly [.start (atSecond 0)] (atSecond 0) [] ⟨rfl, by decide +kernel⟩
  exact hiff.mpr (by unfold Punctual; decide +kernel)

/-- The audit write of `MarkDeployed` fails: the first window, after fifteen seconds of an
    observation of half an hour, ends it at its deadline. -/
theorem timed_out_at_once :
    let calls : List (Call ℚ) := deployment
    let s := demoRollout.run (flakyAudit [1]) calls
    (demoPolicy 2 errorRate).validate renderPlaceholders = .ok () ∧
    s.rollout.state ∈ observingStates ∧
    Deployed (flakyAudit [1]) demoRollout calls [.start (atSecond 0)] (atSecond 0) [] ∧
    TimedOut (flakyAudit [1]) s (window .healthy) (atSecond 15) ∧
    ¬ (demoPolicy 2 errorRate).evaluation.maxRolloutDuration ≤ atSecond 15 - atSecond 0 := by
  exact ⟨by decide +kernel, by decide +kernel, ⟨rfl, by decide +kernel⟩, by decide +kernel,
    by decide +kernel⟩

end PassionProjects.ReleaseGuard
