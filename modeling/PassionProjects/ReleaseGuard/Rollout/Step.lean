/-
  PassionProjects.ReleaseGuard.Rollout.Step

  All that one call can do to a rollout.  `Entered` says it for a transition and
  `Recorded` for a window; what is proved about runs is read off these.
-/

import PassionProjects.ReleaseGuard.Rollout.Machine

namespace PassionProjects.ReleaseGuard

open Raising Raising.Prog

variable {F : Type}

-- ============================================================================
-- The parts of a step
-- ============================================================================

namespace Rollout

/-- The streak of a class. -/
def streakOf (r : Rollout F) : Classification → Nat
  | .healthy => r.healthyStreak
  | .degraded => r.degradedStreak
  | .inconclusive => r.inconclusiveStreak
  | .other _ _ => 0

/-- A window of a class lengthens its streak and ends the others. -/
def bumped (r : Rollout F) : Classification → Rollout F
  | .healthy => { r with
      healthyStreak := r.healthyStreak + 1, degradedStreak := 0, inconclusiveStreak := 0 }
  | .degraded => { r with
      degradedStreak := r.degradedStreak + 1, healthyStreak := 0, inconclusiveStreak := 0 }
  | .inconclusive => { r with
      inconclusiveStreak := r.inconclusiveStreak + 1, healthyStreak := 0, degradedStreak := 0 }
  | .other _ _ => r

/-- The deadline of the observation has come. -/
def Late (r : Rollout F) (now : Int) : Prop :=
  r.policy.evaluation.maxRolloutDuration ≤ timeSub now r.observingSince

instance (r : Rollout F) (now : Int) : Decidable (r.Late now) :=
  inferInstanceAs (Decidable (_ ≤ _))

end Rollout

namespace System

/-- A window was counted. -/
def counted (s : System F) : System F :=
  { s with rollout := { s.rollout with windowCount := s.rollout.windowCount + 1 } }

/-- A window of a class was counted. -/
def bumped (s : System F) (c : Classification) : System F :=
  { s with rollout := s.counted.rollout.bumped c }

/-- A transition was made, and its record answered. -/
def moved (s : System F) (event : Event) (err : Option String) : System F where
  rollout := { s.rollout with
    state := event.toState, finalDecision := event.decision <|> s.rollout.finalDecision }
  history := { s.history with records := s.history.records ++ [(event, err)] }

/-- The clock of the observation was started. -/
def clocked (s : System F) (now : Int) : System F :=
  { s with rollout := { s.rollout with observingSince := now } }

/-- The action was invoked. -/
def acted (s : System F) (effect : Effect) (err : Option String) : System F where
  rollout := { s.rollout with lastErr := err <|> s.rollout.lastErr }
  history := { s.history with actions := s.history.actions ++ [(effect, err)] }

end System

/-- The event of a transition from the state a rollout is in. -/
structure Moves (r : Rollout F) (target : State) (decision : Option Decision) (event : Event) :
    Prop where
  allowed : target ∈ allowedTransitions r.state
  rolloutId : event.rolloutId = r.id
  fromState : event.fromState = r.state
  toState : event.toState = target
  decision : event.decision = decision

/-- Where a streak of windows of one class leads. -/
structure Course where
  state : State
  needed : Int
  target : State
  decision : Decision
  effect : Option Effect

/-- The course of each class under a policy. -/
def Policy.course (p : Policy F) : Classification → Option Course
  | .healthy => some {
      state := .healthy
      needed := p.evaluation.consecutiveHealthyWindows
      target := .promoting
      decision := .promote
      effect := some .promote }
  | .degraded => some {
      state := .degraded
      needed := p.evaluation.consecutiveUnhealthyWindows
      target := .rollingBack
      decision := .rollback
      effect := some .rollback }
  | .inconclusive =>
      if p.evaluation.onMissingTelemetry = .rollback then some {
        state := .inconclusive
        needed := p.evaluation.consecutiveUnhealthyWindows
        target := .rollingBack
        decision := .rollback
        effect := some .rollback }
      else some {
        state := .inconclusive
        needed := p.evaluation.consecutiveUnhealthyWindows
        target := .paused
        decision := .pause
        effect := none }
  | .other _ _ => none

/-- What the two courses of INCONCLUSIVE windows have in common. -/
theorem Policy.course_inconclusive (p : Policy F) : ∃ course,
    p.course .inconclusive = some course ∧ course.state = .inconclusive ∧
      course.needed = p.evaluation.consecutiveUnhealthyWindows := by
  by_cases haction : p.evaluation.onMissingTelemetry = .rollback
  · exact ⟨_, if_pos haction, rfl, rfl⟩
  · exact ⟨_, if_neg haction, rfl, rfl⟩

/-- The courses there are. -/
theorem Policy.course_cases {p : Policy F} {c : Classification} {course : Course}
    (h : p.course c = some course) :
    (c = .healthy ∧ course = ⟨.healthy, p.evaluation.consecutiveHealthyWindows, .promoting,
      .promote, some .promote⟩) ∨
    (c = .degraded ∧ course = ⟨.degraded, p.evaluation.consecutiveUnhealthyWindows, .rollingBack,
      .rollback, some .rollback⟩) ∨
    (c = .inconclusive ∧ p.evaluation.onMissingTelemetry = .rollback ∧
      course = ⟨.inconclusive, p.evaluation.consecutiveUnhealthyWindows, .rollingBack,
        .rollback, some .rollback⟩) ∨
    (c = .inconclusive ∧ p.evaluation.onMissingTelemetry ≠ .rollback ∧
      course = ⟨.inconclusive, p.evaluation.consecutiveUnhealthyWindows, .paused, .pause,
        none⟩) := by
  cases c with
  | healthy => exact .inl ⟨rfl, (Option.some.inj h).symm⟩
  | degraded => exact .inr (.inl ⟨rfl, (Option.some.inj h).symm⟩)
  | inconclusive =>
      unfold Policy.course at h
      by_cases haction : p.evaluation.onMissingTelemetry = .rollback
      · rw [if_pos haction] at h
        exact .inr (.inr (.inl ⟨rfl, haction, (Option.some.inj h).symm⟩))
      · rw [if_neg haction] at h
        exact .inr (.inr (.inr ⟨rfl, haction, (Option.some.inj h).symm⟩))
  | other text hunknown => cases h

/-- A course stays within the table of transitions. -/
theorem Policy.course_allowed {p : Policy F} {c : Classification} {course : Course}
    (h : p.course c = some course) : course.state ∈ allowedTransitions .observing ∧
      course.state ∈ observingStates ∧ .observing ∈ allowedTransitions course.state ∧
      course.target ∈ allowedTransitions course.state ∧
      course.target ∈ [.promoting, .rollingBack, .paused] := by
  rcases Policy.course_cases h with ⟨-, rfl⟩ | ⟨-, rfl⟩ | ⟨-, -, rfl⟩ | ⟨-, -, rfl⟩ <;>
    exact ⟨by simp [allowedTransitions], by simp [observingStates],
      by simp [allowedTransitions], by simp [allowedTransitions], by simp⟩

theorem System.bumped_policy (s : System F) (c : Classification) :
    (s.bumped c).rollout.policy = s.rollout.policy := by
  cases c <;> rfl

variable [Float64 F]

/-- What `transitionLocked` does. -/
inductive Entered (env : Environment F) (s : System F) (target : State)
    (decision : Option Decision) : Except RolloutError Unit → System F → Prop where
  | illegal : target ∉ allowedTransitions s.rollout.state → Entered env s target decision
      (.error (.illegalTransition s.rollout.id s.rollout.state target)) s
  | unrecorded {event : Event} {err : String} : Moves s.rollout target decision event →
      env.record s.history event = some err → Entered env s target decision
        (.error (.auditRecord s.rollout.id s.rollout.state target err)) (s.moved event (some err))
  | recorded {event : Event} : Moves s.rollout target decision event →
      env.record s.history event = none →
        Entered env s target decision (.ok ()) (s.moved event none)

/-- A window comes before the deadline to a rollout that is observed, and its class is
    recorded: `s` is the rollout before it and `s₁` the one after. -/
structure Classified (env : Environment F) (wr : WindowResult F) (now : Int) (s : System F)
    (course : Course) (s₁ : System F) : Prop where
  observing : s.rollout.state ∈ observingStates
  onTime : ¬ s.rollout.Late now
  leads : s.rollout.policy.course wr.classification = some course
  entered : Entered env (s.bumped wr.classification) course.state none (.ok ()) s₁

/-- Its streak is as long as needed, and the decision is recorded. -/
structure Decided (env : Environment F) (wr : WindowResult F) (now : Int) (s : System F)
    (course : Course) (s₂ : System F) : Prop where
  classified : ∃ s₁, Classified env wr now s course s₁ ∧
    Entered env s₁ course.target (some course.decision) (.ok ()) s₂
  enough : course.needed ≤ (s.bumped wr.classification).rollout.streakOf wr.classification

/-- What `RecordWindow` does. -/
inductive Recorded (env : Environment F) (wr : WindowResult F) (now : Int) (s : System F) :
    Except RolloutError State → System F → Prop where
  | refused : s.rollout.state ∉ observingStates →
      Recorded env wr now s (.error (.notObserving s.rollout.id s.rollout.state)) s
  | late {res : Except RolloutError Unit} {s' : System F} : s.rollout.state ∈ observingStates →
      s.rollout.Late now → Entered env s.counted .paused (some .inconclusive) res s' →
        Recorded env wr now s (res.map fun _ => s'.rollout.state) s'
  | unknown {text : String} {hunknown} : s.rollout.state ∈ observingStates →
      ¬ s.rollout.Late now → wr.classification = .other text hunknown →
        Recorded env wr now s (.error (.unknownClassification s.rollout.id text)) s.counted
  | unclassified {course : Course} {err : RolloutError} {s' : System F} :
      s.rollout.state ∈ observingStates → ¬ s.rollout.Late now →
      s.rollout.policy.course wr.classification = some course →
      Entered env (s.bumped wr.classification) course.state none (.error err) s' →
        Recorded env wr now s (.error err) s'
  | awaiting {course : Course} {s₁ s' : System F} {res : Except RolloutError Unit} :
      Classified env wr now s course s₁ →
      ¬ course.needed ≤ (s.bumped wr.classification).rollout.streakOf wr.classification →
      Entered env s₁ .observing none res s' →
        Recorded env wr now s (res.map fun _ => s'.rollout.state) s'
  | undecided {course : Course} {s₁ s' : System F} {err : RolloutError} :
      Classified env wr now s course s₁ →
      course.needed ≤ (s.bumped wr.classification).rollout.streakOf wr.classification →
      Entered env s₁ course.target (some course.decision) (.error err) s' →
        Recorded env wr now s (.error err) s'
  | paused {course : Course} {s' : System F} : Decided env wr now s course s' →
      course.effect = none → Recorded env wr now s (.ok s'.rollout.state) s'
  | applied {course : Course} {s₂ s' : System F} {effect : Effect}
      {res : Except RolloutError Unit} : Decided env wr now s course s₂ →
      course.effect = some effect → env.act s₂.history effect s₂.rollout.id = none →
      Entered env (s₂.acted effect none) .completed none res s' →
        Recorded env wr now s (res.map fun _ => s'.rollout.state) s'
  | failed {course : Course} {s₂ s' : System F} {effect : Effect} {err : String}
      {res : Except RolloutError Unit} : Decided env wr now s course s₂ →
      course.effect = some effect → env.act s₂.history effect s₂.rollout.id = some err →
      Entered env (s₂.acted effect (some err)) .failed none res s' →
        Recorded env wr now s (.error (.actionFailed s₂.rollout.id err)) s'

/-- A window is refused and changes nothing, or the rollout is observed. -/
theorem Recorded.observing {env : Environment F} {wr : WindowResult F} {now : Int}
    {s s' : System F} {res : Except RolloutError State} (h : Recorded env wr now s res s') :
    s' = s ∨ s.rollout.state ∈ observingStates := by
  cases h with
  | refused _ => exact .inl rfl
  | late hobserving _ _ => exact .inr hobserving
  | unknown hobserving _ _ => exact .inr hobserving
  | unclassified hobserving _ _ _ => exact .inr hobserving
  | awaiting hclassified _ _ => exact .inr hclassified.observing
  | undecided hclassified _ _ => exact .inr hclassified.observing
  | paused h _ => exact .inr h.classified.choose_spec.1.observing
  | applied h _ _ _ => exact .inr h.classified.choose_spec.1.observing
  | failed h _ _ _ => exact .inr h.classified.choose_spec.1.observing

namespace Entered

variable {env : Environment F} {s s' : System F} {target : State} {decision : Option Decision}
  {res : Except RolloutError Unit}

theorem streakOf (h : Entered env s target decision res s') (c : Classification) :
    s'.rollout.streakOf c = s.rollout.streakOf c := by
  cases h <;> cases c <;> rfl

theorem policy (h : Entered env s target decision res s') :
    s'.rollout.policy = s.rollout.policy := by
  cases h <;> rfl

theorem observingSince (h : Entered env s target decision res s') :
    s'.rollout.observingSince = s.rollout.observingSince := by
  cases h <;> rfl

theorem actions (h : Entered env s target decision res s') :
    s'.history.actions = s.history.actions := by
  cases h <;> rfl

/-- Where a transition leads: nowhere, if it is not allowed. -/
theorem state (h : Entered env s target decision res s') :
    (target ∉ allowedTransitions s.rollout.state ∧ s' = s) ∨
      (target ∈ allowedTransitions s.rollout.state ∧ s'.rollout.state = target) := by
  cases h with
  | illegal hillegal => exact .inl ⟨hillegal, rfl⟩
  | unrecorded hmoves _ => exact .inr ⟨hmoves.allowed, hmoves.toState⟩
  | recorded hmoves _ => exact .inr ⟨hmoves.allowed, hmoves.toState⟩

theorem state_of_ok (h : Entered env s target decision (.ok ()) s') :
    target ∈ allowedTransitions s.rollout.state ∧ s'.rollout.state = target := by
  cases h with
  | recorded hmoves _ => exact ⟨hmoves.allowed, hmoves.toState⟩

theorem state_of_allowed (h : Entered env s target decision res s')
    (hallowed : target ∈ allowedTransitions s.rollout.state) : s'.rollout.state = target :=
  h.state.elim (fun hno => absurd hallowed hno.1) And.right

end Entered

theorem Classified.policy {env : Environment F} {wr : WindowResult F} {now : Int}
    {s s₁ : System F} {course : Course} (h : Classified env wr now s course s₁) :
    s₁.rollout.policy = s.rollout.policy :=
  h.entered.policy.trans (s.bumped_policy _)

-- ============================================================================
-- The code does no more
-- ============================================================================

namespace Rollout

variable {env : Environment F} {s : System F} {now : Int} {target : State}
  {decision : Option Decision} {reasons : List String} {evidence : Option String}
  {Q : Unit → System F → Prop} {R : RolloutError → System F → Prop}

omit [Float64 F] in
theorem wp_current {Q : Rollout F → System F → Prop} :
    wp current Q R s ↔ Q s.rollout s := Iff.rfl

omit [Float64 F] in
theorem wp_update {f : Rollout F → Rollout F} :
    wp (update f) Q R s ↔ Q () { s with rollout := f s.rollout } := Iff.rfl

theorem wp_record {event : Event} {Q : Option String → System F → Prop} :
    wp (record env event) Q R s ↔ Q (env.record s.history event) { s with history :=
      { s.history with records := s.history.records ++
        [(event, env.record s.history event)] } } := Iff.rfl

theorem wp_act {effect : Effect} {Q : Option String → System F → Prop} :
    wp (act env effect) Q R s ↔ Q (env.act s.history effect s.rollout.id) { s with history :=
      { s.history with actions := s.history.actions ++
        [(effect, env.act s.history effect s.rollout.id)] } } := Iff.rfl

theorem wp_transitionLocked
    (hok : ∀ s', Entered env s target decision (.ok ()) s' → Q () s')
    (herr : ∀ err s', Entered env s target decision (.error err) s' → R err s') :
    wp (transitionLocked env target decision reasons evidence now) Q R s := by
  refine wp_bind (wp_current.mpr (wp_bind ?_))
  by_cases hallowed : target ∈ allowedTransitions s.rollout.state
  · refine wp_check hallowed (wp_bind (wp_update.mpr (wp_bind (wp_record.mpr ?_))))
    have hmoves : Moves s.rollout target decision (Event.mk s.rollout.id now "state_transition"
        s.rollout.state target decision reasons evidence) := ⟨hallowed, rfl, rfl, rfl, rfl⟩
    cases hrecord : env.record s.history (Event.mk s.rollout.id now "state_transition"
        s.rollout.state target decision reasons evidence) with
    | none => exact hok _ (.recorded hmoves hrecord)
    | some err => exact herr _ _ (.unrecorded hmoves hrecord)
  · rw [check, if_neg hallowed]
    exact herr _ _ (.illegal hallowed)

/-- What `transitionLocked` is known to do. -/
theorem entered_transitionLocked :
    Entered env s target decision
      (transitionLocked env target decision reasons evidence now s).1
      (transitionLocked env target decision reasons evidence now s).2 :=
  wp_result (wp_transitionLocked (fun _ h => h) fun _ _ h => h)

/-- A method that ends with a transition returns the state it left. -/
theorem wp_thenCurrentState {W : Except RolloutError State → System F → Prop}
    (h : ∀ res s', Entered env s target decision res s' →
      W (res.map fun _ => s'.rollout.state) s') :
    wp (transitionLocked env target decision reasons evidence now >>= fun _ => currentState)
      (fun state => W (.ok state)) (fun err => W (.error err)) s :=
  wp_bind (wp_transitionLocked (fun s' hs' => h _ s' hs') (fun _ s' hs' => h _ s' hs'))

variable {wr : WindowResult F} {course : Course} {s₁ s₂ : System F}

/-- The decision of a streak that is long enough, and its action. -/
theorem recorded_applyAction {effect : Effect} (h : Decided env wr now s course s₂)
    (heffect : course.effect = some effect) :
    wp (applyActionLocked env effect now) (fun state => Recorded env wr now s (.ok state))
      (fun err => Recorded env wr now s (.error err)) s₂ := by
  refine wp_bind (wp_current.mpr (wp_bind (wp_act.mpr ?_)))
  cases hact : env.act s₂.history effect s₂.rollout.id with
  | none =>
      exact wp_thenCurrentState fun res s' hs' => .applied h heffect hact hs'
  | some err =>
      refine wp_bind (wp_update.mpr (wp_bind ?_))
      exact .failed h heffect hact entered_transitionLocked

/-- A window before the deadline: the transition to its class and, where the streak is
    long enough, `decide`. -/
theorem recorded_class (count : Rollout F → Nat) (needed : Policy F → Int) {reason : String}
    {decide : Method F State} {codes : List String} {state : State} {c : Classification}
    (hc : wr.classification = c) (hobserving : s.rollout.state ∈ observingStates)
    (hlate : ¬ s.rollout.Late now)
    (hcourse : s.rollout.policy.course c = some course) (hstate : course.state = state)
    (hcount : ∀ r : Rollout F, count r = r.streakOf c)
    (hneeded : course.needed = needed s.rollout.policy)
    (hdecide : ∀ s₁, Classified env wr now s course s₁ →
      course.needed ≤ (s.bumped wr.classification).rollout.streakOf wr.classification →
      wp decide (fun state => Recorded env wr now s (.ok state))
        (fun err => Recorded env wr now s (.error err)) s₁) :
    wp (do
        transitionLocked env state none codes evidence now
        let r ← current
        if (count r : Int) ≥ needed r.policy then decide
        else backToObservingLocked env reason evidence now)
      (fun state => Recorded env wr now s (.ok state))
      (fun err => Recorded env wr now s (.error err)) (s.bumped c) := by
  subst hstate hc
  refine wp_bind (wp_transitionLocked (fun s₁ hs₁ => ?_) fun err s' hs' => ?_)
  · have hclassified : Classified env wr now s course s₁ := ⟨hobserving, hlate, hcourse, hs₁⟩
    refine wp_bind (wp_current.mpr ?_)
    rw [hcount, hs₁.streakOf, hclassified.policy, ← hneeded]
    split
    · exact hdecide s₁ hclassified ‹_›
    · exact wp_thenCurrentState fun res s' hs' => .awaiting hclassified ‹_› hs'
  · exact .unclassified hobserving hlate hcourse hs'

/-- A decision and its action. -/
theorem recorded_decide {effect : Effect} (hclassified : Classified env wr now s course s₁)
    (henough : course.needed ≤ (s.bumped wr.classification).rollout.streakOf wr.classification)
    (heffect : course.effect = some effect) (htarget : course.target = target)
    {decision : Decision} (hdecision : course.decision = decision) :
    wp (do
        transitionLocked env target (some decision) reasons evidence now
        applyActionLocked env effect now)
      (fun state => Recorded env wr now s (.ok state))
      (fun err => Recorded env wr now s (.error err)) s₁ := by
  subst htarget hdecision
  refine wp_bind (wp_transitionLocked (fun s₂ hs₂ => ?_) fun err s' hs' => ?_)
  · exact recorded_applyAction ⟨⟨s₁, hclassified, hs₂⟩, henough⟩ heffect
  · exact .undecided hclassified henough hs'

/-- A decision without an action. -/
theorem recorded_pause (hclassified : Classified env wr now s course s₁)
    (henough : course.needed ≤ (s.bumped wr.classification).rollout.streakOf wr.classification)
    (heffect : course.effect = none) (htarget : course.target = target)
    {decision : Decision} (hdecision : course.decision = decision) :
    wp (transitionToStateLocked env target decision reasons evidence now)
      (fun state => Recorded env wr now s (.ok state))
      (fun err => Recorded env wr now s (.error err)) s₁ := by
  subst htarget hdecision
  refine wp_thenCurrentState fun res s' hs' => ?_
  cases res with
  | ok _ => exact .paused ⟨⟨s₁, hclassified, hs'⟩, henough⟩ heffect
  | error err => exact .undecided hclassified henough hs'

/-- The action for telemetry that stays missing. -/
theorem recorded_resolveMissing (hclassified : Classified env wr now s course s₁)
    (henough : course.needed ≤ (s.bumped wr.classification).rollout.streakOf wr.classification)
    (hc : wr.classification = .inconclusive) :
    wp (resolveMissingTelemetryLocked env evidence now)
      (fun state => Recorded env wr now s (.ok state))
      (fun err => Recorded env wr now s (.error err)) s₁ := by
  refine wp_bind (wp_current.mpr ?_)
  have hcourse := hclassified.leads
  rw [hc, Policy.course] at hcourse
  rw [hclassified.policy]
  cases haction : s.rollout.policy.evaluation.onMissingTelemetry with
  | rollback =>
      rw [if_pos haction] at hcourse
      cases hcourse
      exact recorded_decide hclassified henough rfl rfl rfl
  | pause =>
      rw [if_neg (by simp [haction])] at hcourse
      cases hcourse
      exact recorded_pause hclassified henough rfl rfl rfl
  | other text hunknown =>
      rw [if_neg (by simp [haction])] at hcourse
      cases hcourse
      exact recorded_pause hclassified henough rfl rfl rfl

/-- All that `RecordWindow` can do. -/
theorem recorded_recordWindow :
    Recorded env wr now s (recordWindow env wr now s).1 (recordWindow env wr now s).2 := by
  refine wp_result (wp_bind (wp_current.mpr (wp_bind ?_)))
  by_cases hobserving : s.rollout.state ∈ observingStates
  · refine wp_check hobserving (wp_bind (wp_update.mpr ?_))
    dsimp only
    by_cases hlate : s.rollout.Late now
    · rw [if_pos (show timeSub now _ ≥ _ from hlate)]
      exact wp_thenCurrentState (s := s.counted) fun _ _ h => .late hobserving hlate h
    · rw [if_neg (show ¬ timeSub now _ ≥ _ from hlate)]
      cases hc : wr.classification with
      | healthy =>
          refine wp_bind (wp_update.mpr ?_)
          exact recorded_class healthyStreak (fun p => p.evaluation.consecutiveHealthyWindows) hc
            hobserving hlate rfl rfl (fun _ => rfl) rfl fun s₁ hclassified henough =>
              recorded_decide hclassified henough rfl rfl rfl
      | degraded =>
          refine wp_bind (wp_update.mpr ?_)
          exact recorded_class degradedStreak (fun p => p.evaluation.consecutiveUnhealthyWindows)
            hc hobserving hlate rfl rfl (fun _ => rfl) rfl fun s₁ hclassified henough =>
              recorded_decide hclassified henough rfl rfl rfl
      | inconclusive =>
          refine wp_bind (wp_update.mpr ?_)
          obtain ⟨course, hcourse, hstate, hneeded⟩ := s.rollout.policy.course_inconclusive
          exact recorded_class inconclusiveStreak
            (fun p => p.evaluation.consecutiveUnhealthyWindows) hc hobserving hlate hcourse hstate
            (fun _ => rfl) hneeded fun s₁ hclassified henough =>
              recorded_resolveMissing hclassified henough hc
      | other text hunknown => exact .unknown hobserving hlate hc
  · rw [check, if_neg hobserving]
    exact .refused hobserving

/-- A window is refused where the rollout is not observed. -/
theorem recordWindow_refused (h : s.rollout.state ∉ observingStates) :
    recordWindow env wr now s = (.error (.notObserving s.rollout.id s.rollout.state), s) := by
  refine wp_result (m := recordWindow env wr now) (W := fun res s' =>
    (res, s') = (.error (.notObserving s.rollout.id s.rollout.state), s))
    (wp_bind (wp_current.mpr (wp_bind ?_)))
  rw [check, if_neg h]
  exact rfl

end Rollout

-- ============================================================================
-- Calls
-- ============================================================================

namespace System

variable (env : Environment F) (s : System F) (now : Int)

theorem after_start : ∃ res, Entered env s .deploying none res (s.after env (.start now)) :=
  ⟨_, Rollout.entered_transitionLocked⟩

theorem after_recordWindow (wr : WindowResult F) :
    ∃ res, Recorded env wr now s res (s.after env (.recordWindow wr now)) := by
  refine ⟨(Rollout.recordWindow env wr now s).1, ?_⟩
  have hafter : s.after env (.recordWindow wr now) = (Rollout.recordWindow env wr now s).2 :=
    bind_pure_snd
  rw [hafter]
  exact Rollout.recorded_recordWindow

/-- The clock of the observation starts where the transition was recorded. -/
theorem after_markDeployed :
    (∃ err, Entered env s .observing none (.error err) (s.after env (.markDeployed now))) ∨
    ∃ s₁, Entered env s .observing none (.ok ()) s₁ ∧
      s.after env (.markDeployed now) = s₁.clocked now := by
  refine wp_result (m := Rollout.markDeployed env now) (W := fun _ s' =>
    (∃ err, Entered env s .observing none (.error err) s') ∨
    ∃ s₁, Entered env s .observing none (.ok ()) s₁ ∧ s' = s₁.clocked now)
    (wp_bind (Rollout.wp_transitionLocked (fun s₁ hs₁ => .inr ⟨s₁, hs₁, rfl⟩)
      fun err s' hs' => .inl ⟨err, hs'⟩))

theorem after_finalize : s.after env (.finalize now) = s ∨ s.rollout.state = .paused ∧
    ∃ res, Entered env s .completed none res (s.after env (.finalize now)) := by
  refine wp_result (m := Rollout.finalize env now) (W := fun _ s' => s' = s ∨
    s.rollout.state = .paused ∧ ∃ res, Entered env s .completed none res s')
    (wp_bind (Rollout.wp_current.mpr ?_))
  split
  · exact .inl rfl
  · refine wp_bind ?_
    by_cases hpaused : s.rollout.state = .paused
    · exact wp_check hpaused (Rollout.wp_transitionLocked
        (fun s' hs' => .inr ⟨hpaused, _, hs'⟩) fun _ s' hs' => .inr ⟨hpaused, _, hs'⟩)
    · rw [check, if_neg hpaused]
      exact .inl rfl

end System

/-- What a call that is no window enters. -/
def Call.enters : Call F → Option State
  | .start _ => some .deploying
  | .markDeployed _ => some .observing
  | .recordWindow _ _ => none
  | .finalize _ => some .completed

/-- All that a call can do. -/
inductive Stepped (env : Environment F) (s : System F) : Call F → System F → Prop where
  | finalized {now : Int} : Stepped env s (.finalize now) s
  | entered {call : Call F} {target : State} {res : Except RolloutError Unit} {s' : System F} :
      call.enters = some target → Entered env s target none res s' → Stepped env s call s'
  | clocked {now : Int} {s' : System F} : Entered env s .observing none (.ok ()) s' →
      Stepped env s (.markDeployed now) (s'.clocked now)
  | recorded {wr : WindowResult F} {now : Int} {res : Except RolloutError State} {s' : System F} :
      Recorded env wr now s res s' → Stepped env s (.recordWindow wr now) s'

namespace System

variable {env : Environment F} {s : System F}

theorem stepped (env : Environment F) (s : System F) (call : Call F) :
    Stepped env s call (s.after env call) := by
  cases call with
  | start now =>
      obtain ⟨_, hentered⟩ := s.after_start env now
      exact .entered rfl hentered
  | markDeployed now =>
      rcases s.after_markDeployed env now with ⟨_, hentered⟩ | ⟨s₁, hentered, hafter⟩
      · exact .entered rfl hentered
      · rw [hafter]
        exact .clocked hentered
  | recordWindow wr now =>
      obtain ⟨_, hrecorded⟩ := s.after_recordWindow env now wr
      exact .recorded hrecorded
  | finalize now =>
      rcases s.after_finalize env now with hafter | ⟨-, _, hentered⟩
      · rw [hafter]
        exact .finalized
      · exact .entered rfl hentered

theorem run_append (calls calls' : List (Call F)) :
    s.run env (calls ++ calls') = (s.run env calls).run env calls' := List.foldl_append

theorem run_concat (calls : List (Call F)) (call : Call F) :
    s.run env (calls ++ [call]) = (s.run env calls).after env call := run_append calls [call]

end System

end PassionProjects.ReleaseGuard
