/-
  PassionProjects.ReleaseGuard.Rollout.Progress

  Whether a window can still be recorded.  A rollout is in HEALTHY, DEGRADED or
  INCONCLUSIVE between calls only where the audit write of a classification failed, and
  there the next window is an illegal transition; in OBSERVING every window is recorded
  and the deadline pauses, if the clock runs since the observation began.
-/

import PassionProjects.ReleaseGuard.Rollout.Actions

namespace PassionProjects.ReleaseGuard

variable {F : Type} [Float64 F] {env : Environment F} {s s' : System F} {target : State}
  {decision : Option Decision} {res : Except RolloutError Unit} {wr : WindowResult F} {now : Int}

-- ============================================================================
-- Records are only added
-- ============================================================================

/-- Records were added, each with what `Audit.Record` answered. -/
def Answered (env : Environment F) (s s' : System F) : Prop :=
  ∃ more, s'.history.records = s.history.records ++ more ∧ ∀ record ∈ more, ∃ history,
    s.history.records.length ≤ history.records.length ∧ record.2 = env.record history record.1

namespace Answered

variable {s₁ s₂ s₃ : System F}

theorem refl : Answered env s s := ⟨[], (List.append_nil _).symm, by simp⟩

theorem trans (h : Answered env s₁ s₂) (h' : Answered env s₂ s₃) : Answered env s₁ s₃ := by
  obtain ⟨more, hmore, hanswers⟩ := h
  obtain ⟨more', hmore', hanswers'⟩ := h'
  refine ⟨more ++ more', by rw [hmore', hmore, List.append_assoc], fun record hrecord => ?_⟩
  rcases List.mem_append.mp hrecord with hrecord | hrecord
  · exact hanswers record hrecord
  · obtain ⟨history, hlength, hanswer⟩ := hanswers' record hrecord
    refine ⟨history, le_trans ?_ hlength, hanswer⟩
    rw [hmore, List.length_append]
    exact Nat.le_add_right _ _

theorem records (h : Answered env s₁ s₂) : s₁.history.records <+: s₂.history.records := by
  obtain ⟨more, hmore, -⟩ := h
  exact ⟨more, hmore.symm⟩

end Answered

theorem Entered.answered (h : Entered env s target decision res s') : Answered env s s' := by
  cases h with
  | illegal _ => exact .refl
  | unrecorded _ hanswer =>
      exact ⟨[_], rfl, by simpa using ⟨s.history, le_refl _, hanswer.symm⟩⟩
  | recorded _ hanswer =>
      exact ⟨[_], rfl, by simpa using ⟨s.history, le_refl _, hanswer.symm⟩⟩

theorem Recorded.answered {res : Except RolloutError State} (h : Recorded env wr now s res s') :
    Answered env s s' := by
  have hclass {course : Course} {s₁ : System F} (h : Classified env wr now s course s₁) :
      Answered env s s₁ := h.entered.answered
  have hdecided {course : Course} {s₂ : System F} (h : Decided env wr now s course s₂) :
      Answered env s s₂ := by
    obtain ⟨s₁, hclassified, hentered⟩ := h.classified
    exact (hclass hclassified).trans hentered.answered
  cases h with
  | refused _ => exact .refl
  | late _ _ hentered => exact hentered.answered
  | unknown _ _ _ => exact .refl
  | unclassified _ _ _ hentered => exact hentered.answered
  | awaiting hclassified _ hentered => exact (hclass hclassified).trans hentered.answered
  | undecided hclassified _ hentered => exact (hclass hclassified).trans hentered.answered
  | paused h _ => exact hdecided h
  | applied h _ _ hentered => exact (hdecided h).trans hentered.answered
  | failed h _ _ hentered => exact (hdecided h).trans hentered.answered

theorem System.answered_after (env : Environment F) (s : System F) (call : Call F) :
    Answered env s (s.after env call) := by
  cases call with
  | start now =>
      obtain ⟨_, hentered⟩ := s.after_start env now
      exact hentered.answered
  | markDeployed now =>
      rcases s.after_markDeployed env now with ⟨_, hentered⟩ | ⟨s₁, hentered, hafter⟩
      · exact hentered.answered
      · rw [hafter]
        exact hentered.answered
  | recordWindow wr now =>
      obtain ⟨_, hrecorded⟩ := s.after_recordWindow env now wr
      exact hrecorded.answered
  | finalize now =>
      rcases s.after_finalize env now with hafter | ⟨-, _, hentered⟩
      · rw [hafter]
        exact .refl
      · exact hentered.answered

-- ============================================================================
-- One window
-- ============================================================================

/-- The state that a window of a class takes. -/
def Classification.state : Classification → Option State
  | .healthy => some .healthy
  | .degraded => some .degraded
  | .inconclusive => some .inconclusive
  | .other _ _ => none

omit [Float64 F] in
theorem Policy.course_state {p : Policy F} {c : Classification} {course : Course}
    (h : p.course c = some course) : c.state = some course.state := by
  rcases Policy.course_cases h with ⟨rfl, rfl⟩ | ⟨rfl, rfl⟩ | ⟨rfl, -, rfl⟩ | ⟨rfl, -, rfl⟩ <;> rfl

/-- Every `Audit.Record` during a window succeeds. -/
def AuditsDuring (env : Environment F) (s : System F) (wr : WindowResult F) (now : Int) : Prop :=
  ∀ record ∈ (Rollout.recordWindow env wr now s).2.history.records.drop s.history.records.length,
    record.2 = none

/-- A window is no illegal transition; before the deadline of an observation that began at
    `deployed` its classification is recorded, and from the deadline on it pauses the rollout. -/
structure Progresses (env : Environment F) (s : System F) (deployed : Int) (wr : WindowResult F)
    (now : Int) : Prop where
  legal : ∀ id source target, (Rollout.recordWindow env wr now s).1 ≠
    .error (.illegalTransition id source target)
  recorded : now - deployed < s.rollout.policy.evaluation.maxRolloutDuration → ∃ event,
    s.history.records ++ [(event, none)] <+: (Rollout.recordWindow env wr now s).2.history.records ∧
      some event.toState = wr.classification.state
  paused : s.rollout.policy.evaluation.maxRolloutDuration ≤ now - deployed →
    (Rollout.recordWindow env wr now s).2.rollout.state = .paused

/-- The states in which the next window is recorded. -/
def Receptive (s : System F) (now : Int) : Prop :=
  s.rollout.state = .observing ∨ (s.rollout.state = .inconclusive ∧ s.rollout.Late now)

/-- A window of this class is the last of those without telemetry that pause the rollout. -/
def Rollout.PausesOn (r : Rollout F) (c : Classification) : Prop :=
  c = .inconclusive ∧ r.policy.evaluation.onMissingTelemetry ≠ .rollback ∧
    r.policy.evaluation.consecutiveUnhealthyWindows ≤ r.inconclusiveStreak + 1

/-- The deadline of the clock comes with that of an observation that began at `deployed`, or
    the window pauses the rollout without it. -/
def ClockAgrees (s : System F) (deployed : Int) (wr : WindowResult F) (now : Int) : Prop :=
  if s.rollout.Late now then s.rollout.policy.evaluation.maxRolloutDuration ≤ now - deployed
  else s.rollout.policy.evaluation.maxRolloutDuration ≤ now - deployed →
    s.rollout.PausesOn wr.classification

theorem Entered.legal (h : Entered env s target decision res s')
    (hallowed : target ∈ allowedTransitions s.rollout.state) :
    ∀ id source target, res ≠ .error (.illegalTransition id source target) := by
  intro id source target' heq
  cases h with
  | illegal hillegal => exact hillegal hallowed
  | unrecorded _ _ => cases heq
  | recorded _ _ => cases heq

/-- The record of a classification is the first of a window. -/
theorem Classified.record {course : Course} {s₁ : System F}
    (h : Classified env wr now s course s₁) : ∃ event,
    s₁.history.records = s.history.records ++ [(event, none)] ∧
      some event.toState = wr.classification.state := by
  have hstate := Policy.course_state h.leads
  cases h.entered with
  | @recorded event hmoves _ => exact ⟨event, rfl, by rw [hstate, hmoves.toState]⟩

theorem legal_map {res : Except RolloutError Unit} {f : Unit → State}
    (h : ∀ id source target, res ≠ .error (.illegalTransition id source target)) :
    ∀ id source target, res.map f ≠ .error (.illegalTransition id source target) := by
  intro id source target heq
  cases res with
  | ok _ => cases heq
  | error err =>
      cases heq
      exact h id source target rfl

/-- In a receptive state a window is recorded, or it pauses from the deadline of the clock on. -/
theorem Recorded.progresses {res : Except RolloutError State} (h : Recorded env wr now s res s')
    (hobserving : s.rollout.state ∈ observingStates) (hknown : wr.classification.Known)
    (haudits : ∀ record ∈ s'.history.records.drop s.history.records.length, record.2 = none)
    (hreceptive : Receptive s now) :
    (∀ id source target, res ≠ .error (.illegalTransition id source target)) ∧
    (¬ s.rollout.Late now → ∃ event,
      s.history.records ++ [(event, none)] <+: s'.history.records ∧
        some event.toState = wr.classification.state) ∧
    (s.rollout.Late now → s'.rollout.state = .paused) := by
  have hrecord {course : Course} {s₁ : System F} (h : Classified env wr now s course s₁)
      (hmore : s₁.history.records <+: s'.history.records) : ∃ event,
      s.history.records ++ [(event, none)] <+: s'.history.records ∧
        some event.toState = wr.classification.state := by
    obtain ⟨event, hevent, hstate⟩ := h.record
    exact ⟨event, hevent ▸ hmore, hstate⟩
  have hnext {course : Course} {s₁ : System F} (h : Classified env wr now s course s₁) :
      .observing ∈ allowedTransitions s₁.rollout.state ∧
        course.target ∈ allowedTransitions s₁.rollout.state := by
    have hallowed := Policy.course_allowed h.leads
    rw [h.entered.state_of_ok.2]
    exact ⟨hallowed.2.2.1, hallowed.2.2.2.1⟩
  cases h with
  | refused hrefused => exact absurd hobserving hrefused
  | late _ hlate hentered =>
      have hallowed : State.paused ∈ allowedTransitions s.counted.rollout.state := by
        show State.paused ∈ allowedTransitions s.rollout.state
        rcases hreceptive with hstate | ⟨hstate, -⟩ <;> rw [hstate] <;> decide
      exact ⟨legal_map (hentered.legal hallowed), fun htime => absurd hlate htime,
        fun _ => hentered.state_of_allowed hallowed⟩
  | unknown _ _ hunknown =>
      rw [hunknown] at hknown
      exact hknown.elim
  | unclassified _ htime hleads hentered =>
      exfalso
      have hstate : (s.bumped wr.classification).rollout.state = .observing := by
        have hs := hreceptive.resolve_right fun hlate => htime hlate.2
        rw [← hs]
        cases wr.classification <;> rfl
      cases hentered with
      | illegal hillegal => exact hillegal (hstate ▸ (Policy.course_allowed hleads).1)
      | @unrecorded event err hmoves _ =>
          have hnone := haudits (event, some err) (by simp [System.moved, System.bumped])
          cases hnone
  | awaiting hclassified _ hentered =>
      exact ⟨legal_map (hentered.legal (hnext hclassified).1),
        fun _ => hrecord hclassified hentered.answered.records,
        fun hlate => absurd hlate hclassified.onTime⟩
  | undecided hclassified _ hentered =>
      refine ⟨fun id source target heq => ?_, fun _ =>
        hrecord hclassified hentered.answered.records,
        fun hlate => absurd hlate hclassified.onTime⟩
      cases heq
      exact hentered.legal (hnext hclassified).2 _ _ _ rfl
  | paused hdecided _ =>
      obtain ⟨s₁, hclassified, hentered⟩ := hdecided.classified
      exact ⟨fun _ _ _ heq => (by cases heq), fun _ =>
        hrecord hclassified hentered.answered.records,
        fun hlate => absurd hlate hclassified.onTime⟩
  | @applied _ s₂ _ _ _ hdecided _ _ hcompleted =>
      obtain ⟨s₁, hclassified, hentered⟩ := hdecided.classified
      have hallowed : State.completed ∈ allowedTransitions s₂.rollout.state := by
        rw [hentered.state_of_ok.2]
        have htarget := (Policy.course_allowed hclassified.leads).2.2.2.2
        revert htarget
        generalize Course.target _ = target
        cases target <;> decide
      exact ⟨legal_map (hcompleted.legal hallowed),
        fun _ => hrecord hclassified (hentered.answered.records.trans hcompleted.answered.records),
        fun hlate => absurd hlate hclassified.onTime⟩
  | failed hdecided _ _ hfailed =>
      obtain ⟨s₁, hclassified, hentered⟩ := hdecided.classified
      exact ⟨fun _ _ _ heq => (by cases heq),
        fun _ => hrecord hclassified (hentered.answered.records.trans hfailed.answered.records),
        fun hlate => absurd hlate hclassified.onTime⟩

/-- A window that is no illegal transition finds a receptive state. -/
theorem Recorded.receptive {res : Except RolloutError State} (h : Recorded env wr now s res s')
    (hobserving : s.rollout.state ∈ observingStates) (hknown : wr.classification.Known)
    (hlegal : ∀ id source target, res ≠ .error (.illegalTransition id source target)) :
    Receptive s now := by
  have hclass {course : Course} (hleads : s.rollout.policy.course wr.classification = some course)
      (hallowed : course.state ∈ allowedTransitions (s.bumped wr.classification).rollout.state) :
      Receptive s now := by
    have hstate : (s.bumped wr.classification).rollout.state = s.rollout.state := by
      cases wr.classification <;> rfl
    rw [hstate] at hallowed
    refine .inl ?_
    obtain ⟨hfrom, hclasses, -⟩ := Policy.course_allowed hleads
    revert hobserving hallowed hfrom hclasses
    generalize s.rollout.state = source
    generalize course.state = target
    cases source <;> cases target <;> decide
  cases h with
  | refused hrefused => exact absurd hobserving hrefused
  | late _ hlate hentered =>
      have hallowed : State.paused ∈ allowedTransitions s.rollout.state := by
        rcases hentered.state with ⟨hillegal, -⟩ | ⟨hallowed, -⟩
        · cases hentered with
          | illegal _ => exact absurd rfl (hlegal _ _ _)
          | unrecorded hmoves _ => exact hmoves.allowed
          | recorded hmoves _ => exact hmoves.allowed
        · exact hallowed
      have hstate : s.rollout.state = .observing ∨ s.rollout.state = .inconclusive := by
        revert hobserving hallowed
        generalize s.rollout.state = source
        cases source <;> decide
      exact hstate.imp_right fun h => ⟨h, hlate⟩
  | unknown _ _ hunknown =>
      rw [hunknown] at hknown
      exact hknown.elim
  | unclassified _ _ hleads hentered =>
      cases hentered with
      | illegal _ => exact absurd rfl (hlegal _ _ _)
      | unrecorded hmoves _ => exact hclass hleads hmoves.allowed
  | awaiting hclassified _ _ =>
      exact hclass hclassified.leads hclassified.entered.state_of_ok.1
  | undecided hclassified _ _ =>
      exact hclass hclassified.leads hclassified.entered.state_of_ok.1
  | paused hdecided _ =>
      obtain ⟨s₁, hclassified, -⟩ := hdecided.classified
      exact hclass hclassified.leads hclassified.entered.state_of_ok.1
  | applied hdecided _ _ _ =>
      obtain ⟨s₁, hclassified, -⟩ := hdecided.classified
      exact hclass hclassified.leads hclassified.entered.state_of_ok.1
  | failed hdecided _ _ _ =>
      obtain ⟨s₁, hclassified, -⟩ := hdecided.classified
      exact hclass hclassified.leads hclassified.entered.state_of_ok.1

omit [Float64 F] in
theorem System.bumped_streakOf (s : System F) (c d : Classification) :
    (s.bumped c).rollout.streakOf d = (s.rollout.bumped c).streakOf d := by
  cases c <;> cases d <;> rfl

omit [Float64 F] in
/-- The course that ends in PAUSED. -/
theorem Rollout.pausesOn_iff {r : Rollout F} {c : Classification} {course : Course}
    (hleads : r.policy.course c = some course) :
    r.PausesOn c ↔ course.effect = none ∧ course.needed ≤ (r.bumped c).streakOf c := by
  unfold PausesOn
  rcases Policy.course_cases hleads with ⟨rfl, rfl⟩ | ⟨rfl, rfl⟩ | ⟨rfl, haction, rfl⟩ |
    ⟨rfl, haction, rfl⟩
  · simp
  · simp
  · simp [haction]
  · simp [haction, bumped, streakOf]

/-- While audit writes succeed a transition fails only where it is not allowed. -/
theorem Entered.illegal_of_audits {err : RolloutError} {n : Nat}
    (h : Entered env s target decision (.error err) s') (hn : n ≤ s.history.records.length)
    (haudits : ∀ record ∈ s'.history.records.drop n, record.2 = none) :
    ∃ id source target, err = .illegalTransition id source target := by
  cases h with
  | illegal _ => exact ⟨_, _, _, rfl⟩
  | @unrecorded event err _ _ =>
      have hmem : (event, some err) ∈ (s.history.records ++ [(event, some err)]).drop n := by
        rw [List.drop_append_of_le_length hn]
        exact List.mem_append_right _ (List.mem_singleton_self _)
      have hnone := haudits _ hmem
      cases hnone

/-- Before the deadline of the clock only missing telemetry pauses. -/
theorem Recorded.paused_iff {res : Except RolloutError State} (h : Recorded env wr now s res s')
    (hobserving : s.rollout.state ∈ observingStates) (hknown : wr.classification.Known)
    (haudits : ∀ record ∈ s'.history.records.drop s.history.records.length, record.2 = none)
    (hlegal : ∀ id source target, res ≠ .error (.illegalTransition id source target))
    (htime : ¬ s.rollout.Late now) :
    s'.rollout.state = .paused ↔ s.rollout.PausesOn wr.classification := by
  have hacted {course : Course} {s₂ : System F} {effect : Effect} {err : Option String}
      {target : State} {res : Except RolloutError Unit} (hdecided : Decided env wr now s course s₂)
      (heffect : course.effect = some effect)
      (hentered : Entered env (s₂.acted effect err) target none res s')
      (htarget : target ≠ .paused) :
      s'.rollout.state = .paused ↔ s.rollout.PausesOn wr.classification := by
    obtain ⟨s₁, hclassified, hdecides⟩ := hdecided.classified
    refine iff_of_false (fun hpaused => ?_) fun hpauses => ?_
    · rcases hentered.state with ⟨-, rfl⟩ | ⟨-, hstate⟩
      · have hdecision : course.target = .paused := hdecides.state_of_ok.2.symm.trans hpaused
        rcases Policy.course_cases hclassified.leads with ⟨-, rfl⟩ | ⟨-, rfl⟩ | ⟨-, -, rfl⟩ |
          ⟨-, -, rfl⟩
        · cases hdecision
        · cases hdecision
        · cases hdecision
        · cases heffect
      · exact htarget (hstate.symm.trans hpaused)
    · have hnone := ((Rollout.pausesOn_iff hclassified.leads).mp hpauses).1
      rw [heffect] at hnone
      cases hnone
  cases h with
  | refused hrefused => exact absurd hobserving hrefused
  | late _ hlate _ => exact absurd hlate htime
  | unknown _ _ hunknown =>
      rw [hunknown] at hknown
      exact hknown.elim
  | unclassified _ _ _ hentered =>
      obtain ⟨id, source, target, rfl⟩ := hentered.illegal_of_audits (Nat.le_refl _) haudits
      exact absurd rfl (hlegal id source target)
  | awaiting hclassified hshort hentered =>
      have hallowed := (Policy.course_allowed hclassified.leads).2.2.1
      rw [hentered.state_of_allowed (hclassified.entered.state_of_ok.2 ▸ hallowed)]
      refine iff_of_false (by decide) fun hpauses => hshort ?_
      rw [System.bumped_streakOf]
      exact ((Rollout.pausesOn_iff hclassified.leads).mp hpauses).2
  | undecided hclassified _ hentered =>
      have hgrown := hclassified.entered.answered.records.length_le
      obtain ⟨id, source, target, rfl⟩ := hentered.illegal_of_audits hgrown haudits
      exact absurd rfl (hlegal id source target)
  | paused hdecided heffect =>
      obtain ⟨s₁, hclassified, hentered⟩ := hdecided.classified
      have henough := hdecided.enough
      rw [System.bumped_streakOf] at henough
      refine iff_of_true ?_ ((Rollout.pausesOn_iff hclassified.leads).mpr ⟨heffect, henough⟩)
      rw [hentered.state_of_ok.2]
      rcases Policy.course_cases hclassified.leads with ⟨-, rfl⟩ | ⟨-, rfl⟩ | ⟨-, -, rfl⟩ |
        ⟨-, -, rfl⟩
      · cases heffect
      · cases heffect
      · cases heffect
      · rfl
  | applied hdecided heffect _ hentered => exact hacted hdecided heffect hentered (by decide)
  | failed hdecided heffect _ hentered => exact hacted hdecided heffect hentered (by decide)

/-- From the deadline of the clock on no classification is recorded. -/
theorem Recorded.event_of_late {res : Except RolloutError State}
    (h : Recorded env wr now s res s') (hlate : s.rollout.Late now) {event : Event}
    (hevent : s.history.records ++ [(event, none)] <+: s'.history.records) :
    event.toState = .paused := by
  have hsame {s' : System F} (hrecords : s'.history.records = s.history.records)
      (hevent : s.history.records ++ [(event, none)] <+: s'.history.records) :
      event.toState = .paused := by
    have hlength := hevent.length_le
    rw [hrecords, List.length_append, List.length_singleton] at hlength
    omega
  cases h with
  | refused _ => exact hsame rfl hevent
  | late _ _ hentered =>
      have hadded {event' : Event} {err : Option String}
          (hmoves : Moves s.counted.rollout .paused (some .inconclusive) event')
          (hevent : s.history.records ++ [(event, none)] <+:
            s.history.records ++ [(event', err)]) : event.toState = .paused := by
        rw [List.prefix_append_right_inj, List.singleton_prefix_cons_iff] at hevent
        rw [(Prod.mk.inj hevent).1, hmoves.toState]
      cases hentered with
      | illegal _ => exact hsame rfl hevent
      | unrecorded hmoves _ => exact hadded hmoves hevent
      | recorded hmoves _ => exact hadded hmoves hevent
  | unknown _ htime _ => exact absurd hlate htime
  | unclassified _ htime _ _ => exact absurd hlate htime
  | awaiting h _ _ => exact absurd hlate h.onTime
  | undecided h _ _ => exact absurd hlate h.onTime
  | paused h _ => exact absurd hlate h.classified.choose_spec.1.onTime
  | applied h _ _ _ => exact absurd hlate h.classified.choose_spec.1.onTime
  | failed h _ _ _ => exact absurd hlate h.classified.choose_spec.1.onTime

theorem progresses_iff {deployed : Int} (hobserving : s.rollout.state ∈ observingStates)
    (hknown : wr.classification.Known) (haudits : AuditsDuring env s wr now) :
    Progresses env s deployed wr now ↔ Receptive s now ∧ ClockAgrees s deployed wr now := by
  have hrecorded : Recorded env wr now s (Rollout.recordWindow env wr now s).1
      (Rollout.recordWindow env wr now s).2 := Rollout.recorded_recordWindow
  unfold ClockAgrees
  constructor
  · intro h
    have hreceptive := hrecorded.receptive hobserving hknown h.legal
    refine ⟨hreceptive, ?_⟩
    split
    · rename_i hlate
      by_contra hearly
      obtain ⟨event, hevent, hstate⟩ := h.recorded (Int.not_le.mp hearly)
      rw [hrecorded.event_of_late hlate hevent] at hstate
      cases hclass : wr.classification <;> rw [hclass] at hstate <;> cases hstate
    · rename_i htime
      exact fun hdue => (hrecorded.paused_iff hobserving hknown haudits h.legal htime).mp
        (h.paused hdue)
  · rintro ⟨hreceptive, hclock⟩
    obtain ⟨hlegal, hclass, hpaused⟩ := hrecorded.progresses hobserving hknown haudits hreceptive
    refine ⟨hlegal, fun hearly => hclass fun hlate => ?_, fun hdue => ?_⟩
    · rw [if_pos hlate] at hclock
      exact absurd hearly (Int.not_lt.mpr hclock)
    · by_cases hlate : s.rollout.Late now
      · exact hpaused hlate
      · rw [if_neg hlate] at hclock
        exact (hrecorded.paused_iff hobserving hknown haudits hlegal hlate).mpr (hclock hdue)

-- ============================================================================
-- Runs
-- ============================================================================

/-- No audit write of a classification failed. -/
def System.ClassesRecorded (s : System F) : Prop :=
  ∀ record ∈ s.history.records, record.1.toState ∈ [.healthy, .degraded, .inconclusive] →
    record.2 = none

/-- From now on every `Audit.Record` succeeds. -/
def AuditsFrom (env : Environment F) (s : System F) : Prop :=
  ∀ history event, s.history.records.length ≤ history.records.length →
    env.record history event = none

/-- Between calls a rollout that is observed is in OBSERVING. -/
def System.Steady (s : System F) : Prop :=
  s.rollout.state ∈ observingStates → s.rollout.state = .observing

theorem Entered.steady (h : Entered env s target decision res s') (hs : s.Steady)
    (htarget : target ∈ observingStates → target = .observing) : s'.Steady := by
  intro hobserving
  rcases h.state with ⟨-, rfl⟩ | ⟨-, hstate⟩
  · exact hs hobserving
  · rw [hstate] at hobserving ⊢
    exact htarget hobserving

/-- A window leaves a steady rollout steady, unless its classification is not recorded. -/
theorem Recorded.steady {res : Except RolloutError State} (h : Recorded env wr now s res s')
    (hs : s.Steady)
    (hrecorded : ∀ record ∈ s'.history.records.drop s.history.records.length,
      record.1.toState ∈ [.healthy, .degraded, .inconclusive] → record.2 = none) : s'.Steady := by
  have hdecided {course : Course} {s₂ : System F} (h : Decided env wr now s course s₂) :
      s₂.Steady := by
    obtain ⟨s₁, hclassified, hentered⟩ := h.classified
    intro hobserving
    rw [hentered.state_of_ok.2] at hobserving
    exact absurd (State.active_of_observing hobserving) (Policy.course_decides hclassified.leads)
  have hacted {course : Course} {s₂ : System F} (h : Decided env wr now s course s₂)
      (effect : Effect) (err : Option String) : (s₂.acted effect err).Steady := by
    have hsteady := hdecided h
    exact hsteady
  cases h with
  | refused _ => exact hs
  | late _ _ hentered =>
      have hcounted : s.counted.Steady := hs
      exact hentered.steady hcounted (by decide)
  | unknown _ _ _ => exact hs
  | @unclassified course _ _ hobserving _ hleads hentered =>
      exfalso
      have hstate : (s.bumped wr.classification).rollout.state = .observing := by
        rw [← hs hobserving]
        cases wr.classification <;> rfl
      have hallowed := (Policy.course_allowed hleads).1
      cases hentered with
      | illegal hillegal => exact hillegal (hstate ▸ hallowed)
      | @unrecorded event err hmoves _ =>
          have hclass : event.toState ∈ [.healthy, .degraded, .inconclusive] := by
            rw [hmoves.toState]
            have hobserved := (Policy.course_allowed hleads).2.1
            revert hallowed hobserved
            generalize course.state = target
            cases target <;> decide
          have hnone := hrecorded (event, some err) (by simp [System.moved, System.bumped]) hclass
          cases hnone
  | awaiting hclassified _ hentered =>
      intro _
      refine hentered.state_of_allowed ?_
      rw [hclassified.entered.state_of_ok.2]
      exact (Policy.course_allowed hclassified.leads).2.2.1
  | undecided hclassified _ hentered =>
      intro hobserving
      have hallowed := (Policy.course_allowed hclassified.leads).2.2.2.1
      rw [hentered.state_of_allowed (hclassified.entered.state_of_ok.2 ▸ hallowed)] at hobserving
      exact absurd (State.active_of_observing hobserving) (Policy.course_decides hclassified.leads)
  | paused h _ => exact hdecided h
  | applied h _ _ hentered =>
      exact hentered.steady (hacted h _ _) (by decide)
  | failed h _ _ hentered =>
      exact hentered.steady (hacted h _ _) (by decide)

theorem System.Steady.after (hs : s.Steady) (call : Call F)
    (hrecorded : ∀ record ∈ (s.after env call).history.records.drop s.history.records.length,
      record.1.toState ∈ [.healthy, .degraded, .inconclusive] → record.2 = none) :
    (s.after env call).Steady := by
  cases call with
  | start now =>
      obtain ⟨_, hentered⟩ := s.after_start env now
      exact hentered.steady hs (by decide)
  | markDeployed now =>
      rcases s.after_markDeployed env now with ⟨_, hentered⟩ | ⟨s₁, hentered, hafter⟩
      · exact hentered.steady hs (by decide)
      · rw [hafter]
        have hclocked : s₁.Steady := hentered.steady hs (by decide)
        exact hclocked
  | recordWindow wr now =>
      obtain ⟨_, h⟩ := s.after_recordWindow env now wr
      exact h.steady hs hrecorded
  | finalize now =>
      rcases s.after_finalize env now with hafter | ⟨-, _, hentered⟩
      · rw [hafter]
        exact hs
      · exact hentered.steady hs (by decide)

/-- A run in which every classification is recorded is steady. -/
theorem steady_run (id : String) (p : Policy F) {calls : List (Call F)}
    (h : ((System.new id p).run env calls).ClassesRecorded) :
    ((System.new id p).run env calls).Steady := by
  induction calls using List.reverseRecOn with
  | nil => exact fun hobserving => absurd hobserving (by simp [System.run, System.new,
      observingStates])
  | append_singleton calls call ih =>
      rw [System.run_concat] at h ⊢
      have hgrown := (System.answered_after env ((System.new id p).run env calls) call).records
      refine (ih fun record hrecord => h record (hgrown.subset hrecord)).after call ?_
      exact fun record hrecord => h record (List.mem_of_mem_drop hrecord)

theorem AuditsFrom.after (h : AuditsFrom env s) (call : Call F) :
    AuditsFrom env (s.after env call) := fun history event hlength =>
  h history event (le_trans (System.answered_after env s call).records.length_le hlength)

/-- While audit writes succeed a steady rollout stays steady. -/
theorem System.Steady.run (hs : s.Steady) (h : AuditsFrom env s) (calls : List (Call F)) :
    (s.run env calls).Steady := by
  induction calls generalizing s with
  | nil => exact hs
  | cons call calls ih =>
      refine ih (hs.after call fun record hrecord _ => ?_) (h.after call)
      obtain ⟨more, hmore, hanswers⟩ := System.answered_after env s call
      rw [hmore, List.drop_left] at hrecord
      obtain ⟨history, hlength, hanswer⟩ := hanswers record hrecord
      rw [hanswer]
      exact h history record.1 hlength

/-- From the deadline on a window leaves no steady rollout observed. -/
theorem Recorded.left_of_late {res : Except RolloutError State} (h : Recorded env wr now s res s')
    (hs : s.Steady) (hbegun : s.rollout.state.Begun) (hlate : s.rollout.Late now) : s'.Left := by
  cases h with
  | refused hrefused => exact ⟨hbegun, hrefused⟩
  | late hobserving _ hentered =>
      have hallowed : State.paused ∈ allowedTransitions s.counted.rollout.state := by
        show State.paused ∈ allowedTransitions s.rollout.state
        rw [hs hobserving]
        decide
      unfold System.Left
      rw [hentered.state_of_allowed hallowed]
      decide
  | unknown _ htime _ => exact absurd hlate htime
  | unclassified _ htime _ _ => exact absurd hlate htime
  | awaiting h _ _ => exact absurd hlate h.onTime
  | undecided h _ _ => exact absurd hlate h.onTime
  | paused h _ => exact absurd hlate h.classified.choose_spec.1.onTime
  | applied h _ _ _ => exact absurd hlate h.classified.choose_spec.1.onTime
  | failed h _ _ _ => exact absurd hlate h.classified.choose_spec.1.onTime

/-- A steady rollout keeps its clock: `MarkDeployed` is refused. -/
theorem System.Steady.observingSince_after (hs : s.Steady) (hbegun : s.rollout.state.Begun)
    (call : Call F) : (s.after env call).rollout.observingSince = s.rollout.observingSince := by
  have hstepped := s.stepped env call
  cases call with
  | markDeployed now =>
      rcases s.after_markDeployed env now with ⟨_, hentered⟩ | ⟨s₁, hentered, -⟩
      · exact hentered.observingSince
      · have hallowed := hentered.state_of_ok.1
        have hobserving := State.observing_of_allowed hallowed (by decide) hbegun
        rw [hs hobserving] at hallowed
        exact absurd hallowed (by decide)
  | start now => exact hstepped.clock.2 fun _ heq => by cases heq
  | recordWindow wr now => exact hstepped.clock.2 fun _ heq => by cases heq
  | finalize now => exact hstepped.clock.2 fun _ heq => by cases heq

theorem System.Steady.observingSince_run (hs : s.Steady) (hbegun : s.rollout.state.Begun)
    (haudits : AuditsFrom env s) (calls : List (Call F)) :
    (s.run env calls).rollout.observingSince = s.rollout.observingSince := by
  induction calls using List.reverseRecOn with
  | nil => rfl
  | append_singleton calls call ih =>
      rw [System.run_concat]
      exact ((hs.run haudits calls).observingSince_after (System.begun_run hbegun calls) call).trans
        ih

/-- The clock runs since the observation began, if the audit writes of `MarkDeployed` and of the
    classifications succeeded. -/
theorem Deployed.observingSince_of_classes {id : String} {p : Policy F}
    {first rest : List (Call F)} {deployed : Int}
    (h : Deployed env (System.new id p) (first ++ .markDeployed deployed :: rest) first deployed
      rest)
    (hok : (Rollout.markDeployed env deployed ((System.new id p).run env first)).1 = .ok ())
    (hclasses :
      ((System.new id p).run env (first ++ .markDeployed deployed :: rest)).ClassesRecorded) :
    ((System.new id p).run env (first ++ .markDeployed deployed :: rest)).rollout.observingSince =
      deployed := by
  induction rest using List.reverseRecOn with
  | nil => exact h.observingSince hok fun _ hmem => absurd hmem List.not_mem_nil
  | append_singleton rest call ih =>
      rw [← List.cons_append, ← List.append_assoc, System.run_concat] at hclasses ⊢
      generalize hs : (System.new id p).run env (first ++ .markDeployed deployed :: rest) = s at *
      have hgrown := (System.answered_after env s call).records
      have hprefix : s.ClassesRecorded := fun record hrecord =>
        hclasses record (hgrown.subset hrecord)
      have hsteady : s.Steady := hs ▸ steady_run id p (hs.symm ▸ hprefix)
      have hbegun : s.rollout.state.Begun := by
        rw [← hs, System.run_append]
        refine System.begun_run (s := ((System.new id p).run env first).after env _) ?_ rest
        rw [h.observing]
        decide
      rw [hsteady.observingSince_after hbegun call]
      exact ih ⟨rfl, h.deploying⟩ hprefix

theorem clockAgrees_of_observingSince {deployed : Int}
    (hpos : 0 < s.rollout.policy.evaluation.maxRolloutDuration)
    (hsince : s.rollout.observingSince = deployed) : ClockAgrees s deployed wr now := by
  have hlate : s.rollout.Late now ↔
      s.rollout.policy.evaluation.maxRolloutDuration ≤ now - deployed := by
    unfold Rollout.Late
    rw [hsince]
    refine le_timeSub_iff ?_ s.rollout.policy.evaluation.maxRolloutDuration_le now deployed
    unfold minDuration
    omega
  unfold ClockAgrees
  split
  · exact hlate.mp ‹_›
  · exact fun hdue => absurd (hlate.mpr hdue) ‹_›

/-- Of every rollout under a valid policy that is observed, since a call of `MarkDeployed` at
    `deployed`: a window while audit writes succeed is recorded before the deadline and pauses
    from the deadline on, if and only if it finds a receptive state and a clock that agrees; both
    hold for every window in OBSERVING with the clock of that call, which is what the rollout is
    left with if the audit writes of that call and of the classifications succeeded; and if audit
    writes succeed from OBSERVING on, a window from the deadline on ends the observation for
    good. -/
theorem window_progresses_iff {render : RenderQuery} (env : Environment F) (id : String)
    (p : Policy F) (hvalid : p.validate render = .ok ()) (calls : List (Call F))
    (hobserving : ((System.new id p).run env calls).rollout.state ∈ observingStates) :
    let s := (System.new id p).run env calls
    ∃ first deployed rest, Deployed env (System.new id p) calls first deployed rest ∧
      (∀ wr now, wr.classification.Known → AuditsDuring env s wr now →
        (Progresses env s deployed wr now ↔ Receptive s now ∧ ClockAgrees s deployed wr now)) ∧
      (s.rollout.state = .observing → s.rollout.observingSince = deployed →
        ∀ wr now, Receptive s now ∧ ClockAgrees s deployed wr now) ∧
      (s.ClassesRecorded →
        (Rollout.markDeployed env deployed ((System.new id p).run env first)).1 = .ok () →
          s.rollout.state = .observing ∧ s.rollout.observingSince = deployed) ∧
      (s.rollout.state = .observing → s.rollout.observingSince ≤ deployed → AuditsFrom env s →
        ∀ before wr now after, p.evaluation.maxRolloutDuration ≤ now - deployed →
          (s.run env (before ++ .recordWindow wr now :: after)).rollout.state ∉
            observingStates) := by
  intro s
  obtain ⟨first, deployed, rest, h⟩ := System.exists_deployed id p hobserving
  have hpolicy : s.rollout.policy = p := System.policy_run calls
  refine ⟨first, deployed, rest, h, fun wr now => progresses_iff hobserving, ?_, ?_, ?_⟩
  · intro hstate hsince wr now
    have hpos : 0 < s.rollout.policy.evaluation.maxRolloutDuration := by
      rw [hpolicy]
      exact Policy.maxRolloutDuration_pos hvalid
    exact ⟨.inl hstate, clockAgrees_of_observingSince hpos hsince⟩
  · intro hclasses hok
    have hsteady : s.Steady := steady_run id p hclasses
    obtain rfl := h.calls
    exact ⟨hsteady hobserving, h.observingSince_of_classes hok hclasses⟩
  · intro hstate hsince haudits before wr now after hdue
    have hsteady : s.Steady := fun _ => hstate
    have hbegun : s.rollout.state.Begun := State.begun_of_observing hobserving
    have hearly : (s.run env before).rollout.observingSince ≤ deployed := by
      rw [hsteady.observingSince_run hbegun haudits before]
      exact hsince
    have hlate : (s.run env before).rollout.Late now :=
      late_of_due hearly (by rw [System.policy_run, hpolicy]; exact hdue)
    obtain ⟨_, hrecorded⟩ := (s.run env before).after_recordWindow env now wr
    have hleft := hrecorded.left_of_late (hsteady.run haudits before)
      (System.begun_run hbegun before) hlate
    rw [← List.singleton_append, ← List.append_assoc, System.run_append, System.run_concat]
    exact (hleft.run after).2

/-- An observation whose third window comes a second before the deadline. -/
theorem window_progresses_demo :
    Progresses (flakyAudit []) (demoRollout.run (flakyAudit []) (deployment ++
      [.recordWindow (window .healthy) (atSecond 15),
        .recordWindow (window .degraded) (atSecond 30)])) (atSecond 0) (window .healthy)
          (atSecond 1799) := by
  obtain ⟨first, deployed, rest, h, hprogresses, hagrees, hclasses, -⟩ :=
    window_progresses_iff (flakyAudit []) "r1" (demoPolicy 2 errorRate)
      (show (demoPolicy 2 errorRate).validate renderPlaceholders = .ok () by decide +kernel)
      (deployment ++ [.recordWindow (window .healthy) (atSecond 15),
        .recordWindow (window .degraded) (atSecond 30)]) (by decide +kernel)
  obtain ⟨rfl, rfl, -⟩ := h.unique (⟨rfl, by decide +kernel⟩ :
    Deployed (flakyAudit []) demoRollout (deployment ++ _) [.start (atSecond 0)]
      (atSecond 0) [_, _])
  obtain ⟨hstate, hsince⟩ :=
    hclasses (by unfold System.ClassesRecorded; decide +kernel) (by decide +kernel)
  refine (hprogresses (window .healthy) (atSecond 1799) (by decide) ?_).mpr
    (hagrees hstate hsince _ _)
  unfold AuditsDuring
  decide +kernel

/-- The audit write of a HEALTHY window failed: the next window is an illegal transition
    though its audit writes would succeed, and the deadline is one too.  The audit write of
    `MarkDeployed` failed: the first window, fifteen seconds later, is not recorded but pauses. -/
theorem wedged_in_healthy :
    let s := demoRollout.run (flakyAudit [2])
      (deployment ++ [.recordWindow (window .healthy) (atSecond 15)])
    let s' := demoRollout.run (flakyAudit [1]) deployment
    (demoPolicy 2 errorRate).validate renderPlaceholders = .ok () ∧
    (s.rollout.state ∈ observingStates ∧ AuditsFrom (flakyAudit [2]) s ∧
      (Rollout.recordWindow (flakyAudit [2]) (window .healthy) (atSecond 30) s).1 =
        .error (.illegalTransition "r1" .healthy .healthy) ∧
      (demoPolicy 2 errorRate).evaluation.maxRolloutDuration ≤ atSecond 1900 - atSecond 0 ∧
      (Rollout.recordWindow (flakyAudit [2]) (window .healthy) (atSecond 1900) s).1 =
        .error (.illegalTransition "r1" .healthy .paused) ∧
      (s.after (flakyAudit [2]) (.recordWindow (window .healthy)
        (atSecond 1900))).rollout.state = .healthy) ∧
    s'.rollout.state ∈ observingStates ∧ AuditsFrom (flakyAudit [1]) s' ∧
    atSecond 15 - atSecond 0 < (demoPolicy 2 errorRate).evaluation.maxRolloutDuration ∧
    (s'.after (flakyAudit [1]) (.recordWindow (window .healthy)
      (atSecond 15))).rollout.state = .paused ∧
    ¬ Progresses (flakyAudit [1]) s' (atSecond 0) (window .healthy) (atSecond 15) := by
  have hfrom {n : Nat} {s : System ℚ} (hlength : s.history.records.length = n + 1) :
      AuditsFrom (flakyAudit [n]) s := by
    intro history event hle
    rw [hlength] at hle
    exact if_neg (by simp; omega)
  refine ⟨by decide +kernel, ⟨by decide +kernel, hfrom (by decide +kernel), by decide +kernel,
    by decide +kernel, by decide +kernel, by decide +kernel⟩, by decide +kernel,
    hfrom (by decide +kernel), by decide +kernel, by decide +kernel, fun h => ?_⟩
  have hlate : (demoRollout.run (flakyAudit [1]) deployment).rollout.Late (atSecond 15) := by
    decide +kernel
  obtain ⟨-, hclock⟩ := (progresses_iff (by decide +kernel) (by decide)
    (by unfold AuditsDuring; decide +kernel)).mp h
  unfold ClockAgrees at hclock
  rw [if_pos hlate] at hclock
  exact absurd hclock (by decide +kernel)

end PassionProjects.ReleaseGuard
