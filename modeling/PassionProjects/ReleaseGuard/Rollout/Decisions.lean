/-
  PassionProjects.ReleaseGuard.Rollout.Decisions

  From the answers of the metrics to the promotion: what a HEALTHY window, and with it
  the window that promotes, says was observed; and whether what was decided is done.

  A rollout whose transition to PROMOTING or ROLLING_BACK could not be recorded keeps its
  decision, and no later call takes the action; where every such transition is recorded,
  the action is taken in the call that decides.
-/

import PassionProjects.ReleaseGuard.Evaluator.Evidence
import PassionProjects.ReleaseGuard.Rollout.Actions

namespace PassionProjects.ReleaseGuard

section Evidence

variable {F : Type} [Float64 F]

/-- Only a HEALTHY window promotes. -/
theorem System.healthy_of_promote {env : Environment F} {s : System F} {call : Call F}
    (h : .promote ∈ s.invoked env call) :
    ∃ wr now, call = .recordWindow wr now ∧ wr.classification = .healthy := by
  obtain ⟨wr, now, course, s₂, hcall, hdecided, heffect⟩ := System.of_invoked h
  obtain ⟨s₁, hclassified, -⟩ := hdecided.classified
  refine ⟨wr, now, hcall, ?_⟩
  rcases Policy.course_cases hclassified.leads with
    ⟨hclass, -⟩ | ⟨-, rfl⟩ | ⟨-, -, rfl⟩ | ⟨-, -, rfl⟩
  · exact hclass
  · cases heffect
  · cases heffect
  · cases heffect

/-- A HEALTHY window shows its evidence if and only if not every signal is optional and
    without data; and a promotion comes with a window that has a value, if the window was
    evaluated with such data. -/
theorem healthy_evidence_iff (e : Evaluator F) (track : String) (now : Int) :
    ((∀ r, e.evaluate track now = .ok r → r.classification = .healthy →
      e.Evidence track now r) ↔ ¬ e.Unobserved track now) ∧
    ∀ env id p calls call,
      .promote ∈ ((System.new id p).run env calls).invoked env call → ∃ wr when,
        call = .recordWindow wr when ∧ (e.evaluate track now = .ok wr →
          ¬ e.Unobserved track now → ∃ sr ∈ wr.signalResults, sr.hasValue = true) := by
  refine ⟨Evaluator.evidence_iff, fun env id p calls call hpromote => ?_⟩
  obtain ⟨wr, when, hcall, hhealthy⟩ := System.healthy_of_promote hpromote
  refine ⟨wr, when, hcall, fun heval hobserved => ?_⟩
  exact (Evaluator.evidence_of_healthy heval hhealthy hobserved).observed

/-- The rate of failed requests as an optional signal, when no query has any data. -/
def silentEvaluator : Evaluator ℚ where
  policy := demoPolicy 1 { errorRate with isOptional := true }
  querier _ _ _ := .noData
  render := renderPlaceholders

/-- The window is HEALTHY without a single value, and promotes. -/
theorem promoted_without_evidence :
    silentEvaluator.policy.validate renderPlaceholders = .ok () ∧
    ∃ r, silentEvaluator.evaluate "canary" (atSecond 15) = .ok r ∧
      r.classification = .healthy ∧ (∀ sr ∈ r.signalResults, sr.hasValue = false) ∧
      .promote ∈ ((System.new "r1" silentEvaluator.policy).run (flakyAudit [])
        deployment).invoked (flakyAudit []) (.recordWindow r (atSecond 15)) := by
  refine ⟨by decide +kernel, _, rfl, rfl, by decide +kernel, by decide +kernel⟩

end Evidence

section Decisions

variable {F : Type} [Float64 F] {env : Environment F} {s s' : System F}

/-- The action that a decision asks for. -/
def Decision.effect : Decision → Option Effect
  | .promote => some .promote
  | .rollback => some .rollback
  | .pause => none
  | .inconclusive => none

/-- The action of the decision, if it asks for one, was invoked exactly once. -/
def System.Done (s : System F) : Prop :=
  ∀ decision effect, s.rollout.finalDecision = some decision → decision.effect = some effect →
    (s.history.actions.map Prod.fst).count effect = 1

/-- No `Audit.Record` of a transition to PROMOTING or ROLLING_BACK failed. -/
def System.DecisionsRecorded (s : System F) : Prop :=
  ∀ record ∈ s.history.records, record.1.toState ∈ [.promoting, .rollingBack] → record.2 = none

-- ============================================================================
-- Closed rollouts
-- ============================================================================

/-- The states after an action was decided. -/
def State.Closed (state : State) : Prop := state ∈ [promoting, rollingBack, completed, failed]

instance (state : State) : Decidable state.Closed := inferInstanceAs (Decidable (_ ∈ _))

theorem State.target_of_closed {source target : State} (h : source.Closed)
    (hallowed : target ∈ allowedTransitions source) : target ∈ [.completed, .failed] := by
  unfold State.Closed at h
  cases source <;> cases target <;> revert h hallowed <;> decide

theorem Entered.unchanged {target : State} {decision : Option Decision}
    {res : Except RolloutError Unit} (h : Entered env s target decision res s')
    (hclosed : s.rollout.state.Closed) (htarget : target ∉ [.completed, .failed]) : s' = s := by
  rcases h.state with ⟨-, hsame⟩ | ⟨hallowed, -⟩
  · exact hsame
  · exact absurd (State.target_of_closed hclosed hallowed) htarget

/-- No call changes a rollout after an action was decided. -/
theorem System.after_of_closed (h : s.rollout.state.Closed) (call : Call F) :
    s.after env call = s := by
  cases call with
  | start now =>
      obtain ⟨_, hentered⟩ := s.after_start env now
      exact hentered.unchanged h (by decide)
  | markDeployed now =>
      rcases s.after_markDeployed env now with ⟨_, hentered⟩ | ⟨s₁, hentered, -⟩
      · exact hentered.unchanged h (by decide)
      · exact absurd (State.target_of_closed h hentered.state_of_ok.1) (by decide)
  | recordWindow wr now =>
      obtain ⟨_, hrecorded⟩ := s.after_recordWindow env now wr
      have hrefused : s.rollout.state ∉ observingStates := by
        unfold State.Closed at h
        cases hs : s.rollout.state <;> rw [hs] at h <;> revert h <;> decide
      rcases hrecorded.observing with hsame | hobserving
      · exact hsame
      · exact absurd hobserving hrefused
  | finalize now =>
      rcases s.after_finalize env now with hafter | ⟨hpaused, -⟩
      · exact hafter
      · rw [hpaused] at h
        exact absurd h (by decide)

-- ============================================================================
-- Where a rollout stands
-- ============================================================================

/-- No action was decided. -/
structure Undecided (s : System F) : Prop where
  recorded : s.DecisionsRecorded
  idle : ∀ decision, s.rollout.finalDecision = some decision → decision.effect = none

/-- No action was decided, or the one that was decided was not recorded and will not be
    taken, or it was taken. -/
inductive Standing (s : System F) : Prop where
  | undecided : Undecided s → Standing s
  | unrecorded {decision : Decision} {effect : Effect} : ¬ s.DecisionsRecorded →
      s.rollout.state.Closed → s.history.actions = [] →
      s.rollout.finalDecision = some decision → decision.effect = some effect → Standing s
  | taken {decision : Decision} {effect : Effect} : s.DecisionsRecorded →
      s.rollout.state.Closed → s.history.actions.map Prod.fst = [effect] →
      s.rollout.finalDecision = some decision → decision.effect = some effect → Standing s

omit [Float64 F] in
/-- What was decided is done if and only if the decision was recorded. -/
theorem Standing.done_iff (h : Standing s) : s.Done ↔ s.DecisionsRecorded := by
  cases h with
  | undecided h =>
      refine ⟨fun _ => h.recorded, fun _ decision effect hdecision heffect => ?_⟩
      rw [h.idle decision hdecision] at heffect
      cases heffect
  | @unrecorded decision effect hunrecorded _ hactions hdecision heffect =>
      refine ⟨fun hdone => ?_, fun hrecorded => absurd hrecorded hunrecorded⟩
      have hcount := hdone decision effect hdecision heffect
      rw [hactions] at hcount
      cases hcount
  | @taken decision effect hrecorded _ hactions hdecision heffect =>
      refine ⟨fun _ => hrecorded, fun _ decision' effect' hdecision' heffect' => ?_⟩
      obtain rfl := Option.some.inj (hdecision.symm.trans hdecision')
      obtain rfl := Option.some.inj (heffect.symm.trans heffect')
      rw [hactions]
      exact List.count_singleton_self

omit [Float64 F] in
/-- A course decides on an action, in PROMOTING or ROLLING_BACK, or pauses. -/
theorem Policy.course_effect {p : Policy F} {c : Classification} {course : Course}
    (h : p.course c = some course) :
    (course.effect = none ∧ course.decision.effect = none ∧ course.target = .paused) ∨
    ∃ effect, course.effect = some effect ∧ course.decision.effect = some effect ∧
      course.target ∈ [.promoting, .rollingBack] := by
  rcases Policy.course_cases h with ⟨-, rfl⟩ | ⟨-, rfl⟩ | ⟨-, -, rfl⟩ | ⟨-, -, rfl⟩
  · exact .inr ⟨_, rfl, rfl, by simp⟩
  · exact .inr ⟨_, rfl, rfl, by simp⟩
  · exact .inr ⟨_, rfl, rfl, by simp⟩
  · exact .inl ⟨rfl, rfl, rfl⟩

omit [Float64 F] in
theorem System.decisionsRecorded_moved {event : Event} {err : Option String} :
    (s.moved event err).DecisionsRecorded ↔ s.DecisionsRecorded ∧
      (event.toState ∈ [.promoting, .rollingBack] → err = none) := by
  simp only [System.DecisionsRecorded, System.moved, List.forall_mem_append,
    List.forall_mem_singleton]

variable {target : State} {decision : Option Decision} {res : Except RolloutError Unit}

/-- The records of a transition to any other state are no matter. -/
theorem Entered.decisionsRecorded (h : Entered env s target decision res s')
    (htarget : target ∉ [.promoting, .rollingBack]) :
    s'.DecisionsRecorded ↔ s.DecisionsRecorded := by
  have hmoved {event : Event} {err : Option String}
      (hmoves : Moves s.rollout target decision event) :
      (s.moved event err).DecisionsRecorded ↔ s.DecisionsRecorded := by
    rw [System.decisionsRecorded_moved, hmoves.toState]
    exact ⟨And.left, fun h => ⟨h, fun hto => absurd hto htarget⟩⟩
  cases h with
  | illegal _ => exact Iff.rfl
  | unrecorded hmoves _ => exact hmoved hmoves
  | recorded hmoves _ => exact hmoved hmoves

theorem Entered.finalDecision (h : Entered env s target none res s') :
    s'.rollout.finalDecision = s.rollout.finalDecision := by
  cases h with
  | illegal _ => rfl
  | unrecorded hmoves _ => simp [System.moved, hmoves.decision]
  | recorded hmoves _ => simp [System.moved, hmoves.decision]

namespace Undecided

omit [Float64 F] in
theorem bumped (h : Undecided s) (c : Classification) : Undecided (s.bumped c) := by
  obtain ⟨hrecorded, hidle⟩ := h
  cases c <;> exact ⟨hrecorded, hidle⟩

/-- A transition that decides no action. -/
theorem entered (h : Undecided s) (htarget : target ∉ [.promoting, .rollingBack])
    (hdecision : ∀ d ∈ decision, d.effect = none)
    (hentered : Entered env s target decision res s') : Undecided s' := by
  refine ⟨(hentered.decisionsRecorded htarget).mpr h.recorded, fun d hd => ?_⟩
  have hmoved {event : Event} {err : Option String} (hmoves : Moves s.rollout target decision event)
      (hd : (s.moved event err).rollout.finalDecision = some d) : d.effect = none := by
    replace hd : (event.decision <|> s.rollout.finalDecision) = some d := hd
    rw [hmoves.decision] at hd
    cases decision with
    | none => exact h.idle d hd
    | some d' => exact hdecision d hd
  cases hentered with
  | illegal _ => exact h.idle d hd
  | unrecorded hmoves _ => exact hmoved hmoves hd
  | recorded hmoves _ => exact hmoved hmoves hd

variable {wr : WindowResult F} {now : Int} {course : Course} {s₁ s₂ : System F}

theorem classified (h : Undecided s) (hclassified : Classified env wr now s course s₁) :
    Undecided s₁ := by
  refine (h.bumped _).entered ?_ (by simp) hclassified.entered
  rcases Policy.course_cases hclassified.leads with
    ⟨-, rfl⟩ | ⟨-, rfl⟩ | ⟨-, -, rfl⟩ | ⟨-, -, rfl⟩ <;> simp

/-- A decision that could not be recorded. -/
theorem unrecorded (h : Undecided s) (hledger : Ledger s) {err : RolloutError}
    (hclassified : Classified env wr now s course s₁)
    (hentered : Entered env s₁ course.target (some course.decision) (.error err) s') :
    Standing s' := by
  have hallowed := Policy.course_allowed hclassified.leads
  have hstate := hclassified.entered.state_of_ok.2
  rcases Policy.course_effect hclassified.leads with
    ⟨-, hnone, hpaused⟩ | ⟨effect, -, hsome, htarget⟩
  · exact .undecided ((h.classified hclassified).entered (by rw [hpaused]; decide)
      (by simpa using hnone) hentered)
  · obtain ⟨hledger₁, hactive⟩ := hledger.classified hclassified
    have hactions : s'.history.actions = [] := by
      rw [hentered.actions, hledger₁.idle hactive]
    cases hentered with
    | illegal hillegal => exact absurd (hstate ▸ hallowed.2.2.2.1) hillegal
    | @unrecorded event err hmoves _ =>
        refine .unrecorded (fun hrecorded => ?_) ?_ hactions ?_ hsome
        · have herr := (System.decisionsRecorded_moved.mp hrecorded).2 (hmoves.toState ▸ htarget)
          cases herr
        · show event.toState.Closed
          rw [hmoves.toState]
          unfold State.Closed
          revert htarget
          generalize course.target = t
          cases t <;> decide
        · show (event.decision <|> s₁.rollout.finalDecision) = some course.decision
          rw [hmoves.decision]
          rfl

/-- A decision that was recorded, and its action. -/
theorem acted (h : Undecided s) (hledger : Ledger s) (hdecided : Decided env wr now s course s₂)
    {effect : Effect} {err : Option String} (heffect : course.effect = some effect)
    (htarget : target ∈ [.completed, .failed])
    (hentered : Entered env (s₂.acted effect err) target none res s') : Standing s' := by
  obtain ⟨s₁, hclassified, hdecision⟩ := hdecided.classified
  obtain ⟨hledger₁, hactive⟩ := hledger.classified hclassified
  rcases Policy.course_effect hclassified.leads with ⟨hnone, -⟩ | ⟨effect', heffect', hsome, hto⟩
  · rw [hnone] at heffect
    cases heffect
  obtain rfl := Option.some.inj (heffect.symm.trans heffect')
  have hclosed : s₂.rollout.state ∈ [.promoting, .rollingBack] := by
    rw [hdecision.state_of_ok.2]
    exact hto
  have hallowed : target ∈ allowedTransitions s₂.rollout.state := by
    revert htarget hclosed
    generalize s₂.rollout.state = source
    cases source <;> cases target <;> decide
  have hrecorded : s₂.DecisionsRecorded ∧ s₂.rollout.finalDecision = some course.decision := by
    cases hdecision with
    | recorded hmoves _ =>
        refine ⟨System.decisionsRecorded_moved.mpr
          ⟨(h.classified hclassified).recorded, fun _ => rfl⟩, ?_⟩
        simp [System.moved, hmoves.decision]
  refine .taken ((hentered.decisionsRecorded ?_).mpr hrecorded.1) ?_ ?_ ?_ hsome
  · revert htarget
    cases target <;> decide
  · rw [hentered.state_of_allowed hallowed]
    unfold State.Closed
    revert htarget
    cases target <;> decide
  · rw [hentered.actions]
    show (s₂.history.actions ++ [(effect, err)]).map Prod.fst = [effect]
    rw [hdecision.actions, hledger₁.idle hactive]
    rfl
  · rw [hentered.finalDecision]
    exact hrecorded.2

end Undecided

-- ============================================================================
-- Runs
-- ============================================================================

namespace Standing

omit [Float64 F] in
theorem new (id : String) (p : Policy F) : Standing (System.new id p) :=
  .undecided ⟨by simp [System.DecisionsRecorded, System.new], by simp [System.new]⟩

theorem recorded (h : Undecided s) (hledger : Ledger s) {wr : WindowResult F} {now : Int}
    {res : Except RolloutError State} (hrecorded : Recorded env wr now s res s') :
    Standing s' := by
  cases hrecorded with
  | refused _ => exact .undecided h
  | late _ _ hentered =>
      have hcounted : Undecided s.counted := h.bumped (.other "" (by simp))
      exact .undecided (hcounted.entered (by decide) (by simp [Decision.effect]) hentered)
  | unknown _ _ _ => exact .undecided (h.bumped (.other "" (by simp)))
  | @unclassified course _ _ _ _ hleads hentered =>
      refine .undecided ((h.bumped _).entered ?_ (by simp) hentered)
      rcases Policy.course_cases hleads with
        ⟨-, rfl⟩ | ⟨-, rfl⟩ | ⟨-, -, rfl⟩ | ⟨-, -, rfl⟩ <;> simp
  | awaiting hclassified _ hentered =>
      exact .undecided ((h.classified hclassified).entered (by decide) (by simp) hentered)
  | undecided hclassified _ hentered => exact h.unrecorded hledger hclassified hentered
  | paused hdecided hnone =>
      obtain ⟨s₁, hclassified, hentered⟩ := hdecided.classified
      rcases Policy.course_effect hclassified.leads with ⟨-, hidle, hpaused⟩ | ⟨_, hsome, -⟩
      · exact .undecided ((h.classified hclassified).entered (by rw [hpaused]; decide)
          (by simpa using hidle) hentered)
      · rw [hnone] at hsome
        cases hsome
  | applied hdecided heffect _ hentered =>
      exact h.acted hledger hdecided heffect (by decide) hentered
  | failed hdecided heffect _ hentered =>
      exact h.acted hledger hdecided heffect (by decide) hentered

theorem after (h : Standing s) (hledger : Ledger s) (call : Call F) :
    Standing (s.after env call) := by
  by_cases hclosed : s.rollout.state.Closed
  · rw [System.after_of_closed hclosed]
    exact h
  have hundecided : Undecided s := by
    cases h with
    | undecided h => exact h
    | unrecorded _ hstate _ _ _ => exact absurd hstate hclosed
    | taken _ hstate _ _ _ => exact absurd hstate hclosed
  cases call with
  | start now =>
      obtain ⟨_, hentered⟩ := s.after_start env now
      exact .undecided (hundecided.entered (by decide) (by simp) hentered)
  | markDeployed now =>
      rcases s.after_markDeployed env now with ⟨_, hentered⟩ | ⟨s₁, hentered, hafter⟩
      · exact .undecided (hundecided.entered (by decide) (by simp) hentered)
      · obtain ⟨hrecorded, hidle⟩ := hundecided.entered (by decide) (by simp) hentered
        rw [hafter]
        exact .undecided ⟨hrecorded, hidle⟩
  | recordWindow wr now =>
      obtain ⟨_, hrecorded⟩ := s.after_recordWindow env now wr
      exact .recorded hundecided hledger hrecorded
  | finalize now =>
      rcases s.after_finalize env now with hafter | ⟨-, _, hentered⟩
      · rw [hafter]
        exact h
      · exact .undecided (hundecided.entered (by decide) (by simp) hentered)

theorem run (h : Standing s) (hledger : Ledger s) (calls : List (Call F)) :
    Standing (s.run env calls) := by
  induction calls generalizing s with
  | nil => exact h
  | cons call calls ih => exact ih (h.after hledger call) (hledger.after call)

/-- A decision that was not recorded is not recorded later. -/
theorem of_after (h : Standing s) {call : Call F}
    (hafter : (s.after env call).DecisionsRecorded) : s.DecisionsRecorded := by
  cases h with
  | undecided h => exact h.recorded
  | unrecorded _ hclosed _ _ _ =>
      rw [System.after_of_closed hclosed] at hafter
      exact hafter
  | taken hrecorded _ _ _ _ => exact hrecorded

theorem of_run (h : Standing s) (hledger : Ledger s) {calls : List (Call F)}
    (hrun : (s.run env calls).DecisionsRecorded) : s.DecisionsRecorded := by
  induction calls generalizing s with
  | nil => exact hrun
  | cons call calls ih => exact h.of_after (ih (h.after hledger call) (hledger.after call) hrun)

end Standing

/-- Only windows decide. -/
theorem System.decisionsRecorded_after (h : s.DecisionsRecorded) {call : Call F}
    (hwindow : call.windowClass = none) : (s.after env call).DecisionsRecorded := by
  cases call with
  | start now =>
      obtain ⟨_, hentered⟩ := s.after_start env now
      exact (hentered.decisionsRecorded (by decide)).mpr h
  | markDeployed now =>
      rcases s.after_markDeployed env now with ⟨_, hentered⟩ | ⟨s₁, hentered, hafter⟩
      · exact (hentered.decisionsRecorded (by decide)).mpr h
      · rw [hafter]
        exact (hentered.decisionsRecorded (by decide)).mpr h
  | recordWindow wr now => cases hwindow
  | finalize now =>
      rcases s.after_finalize env now with hafter | ⟨-, _, hentered⟩
      · rw [hafter]
        exact h
      · exact (hentered.decisionsRecorded (by decide)).mpr h

/-- After every window of a run what was decided is done if and only if no audit write of
    a transition to PROMOTING or ROLLING_BACK failed in it. -/
theorem decided_done_iff (env : Environment F) (id : String) (p : Policy F)
    (calls : List (Call F)) :
    (∀ before wr now after, calls = before ++ .recordWindow wr now :: after →
      ((System.new id p).run env (before ++ [.recordWindow wr now])).Done) ↔
    ((System.new id p).run env calls).DecisionsRecorded := by
  have hstanding (calls : List (Call F)) : Standing ((System.new id p).run env calls) :=
    (Standing.new id p).run (Ledger.new id p) calls
  constructor
  · intro hdone
    induction calls using List.reverseRecOn with
    | nil => exact (Standing.new id p).done_iff.mp fun _ _ hdecision => nomatch hdecision
    | append_singleton calls call ih =>
        have hbefore := ih fun before wr now after hcalls =>
          hdone before wr now (after ++ [call]) (by rw [hcalls, List.append_assoc]; rfl)
        cases hwindow : call.windowClass with
        | none =>
            rw [System.run_concat]
            exact System.decisionsRecorded_after hbefore hwindow
        | some c =>
            cases call with
            | recordWindow wr now => exact (hstanding _).done_iff.mp (hdone calls wr now [] rfl)
            | start _ => cases hwindow
            | markDeployed _ => cases hwindow
            | finalize _ => cases hwindow
  · intro hrecorded before wr now after hcalls
    refine (hstanding _).done_iff.mpr ?_
    rw [hcalls, ← List.singleton_append, ← List.append_assoc, System.run_append] at hrecorded
    exact (hstanding _).of_run ((Ledger.new id p).run _) hrecorded

/-- The audit write of the transition to PROMOTING fails: the rollout is decided, nothing
    was invoked, and no call changes that. -/
theorem decided_not_done :
    let s := (System.new "r1" (demoPolicy 1 errorRate)).run (flakyAudit [3])
      (deployment ++ [.recordWindow (window .healthy) (atSecond 15)])
    s.rollout.finalDecision = some .promote ∧ s.rollout.state = .promoting ∧
      s.history.actions = [] ∧ ¬ s.Done ∧
      ∀ call, s.after (flakyAudit [3]) call = s := by
  refine ⟨by decide +kernel, by decide +kernel, ?_, ?_, ?_⟩
  · apply List.eq_nil_of_length_eq_zero
    decide +kernel
  · intro hdone
    have hcount := hdone .promote .promote (by decide +kernel) rfl
    revert hcount
    decide +kernel
  · exact System.after_of_closed (by decide +kernel)

end Decisions

end PassionProjects.ReleaseGuard
