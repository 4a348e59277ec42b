/-
  PassionProjects.ReleaseGuard.Rollout.Reference

  What the machine is for, as a scan of the windows after the deployment, and that the
  machine computes it where audit writes and the action succeed.
-/

import PassionProjects.ReleaseGuard.Rollout.Actions

namespace PassionProjects.ReleaseGuard

open Streak Transition

variable {F : Type}

-- ============================================================================
-- The reference
-- ============================================================================

/-- What one window decides, after windows of the classes `past` that decided nothing: the
    deadline comes first, then the run of equal classes that ends with the window. -/
def verdict (p : Policy F) (deployed : Int) (past : List Classification)
    (w : Classification × Int) : Option (State × Decision) :=
  let run := streak w.1 (past ++ [w.1])
  if p.evaluation.maxRolloutDuration ≤ w.2 - deployed then some (.paused, .inconclusive)
  else match w.1 with
  | .healthy =>
      if p.evaluation.consecutiveHealthyWindows ≤ run then some (.completed, .promote) else none
  | .degraded =>
      if p.evaluation.consecutiveUnhealthyWindows ≤ run then some (.completed, .rollback)
      else none
  | .inconclusive =>
      if p.evaluation.consecutiveUnhealthyWindows ≤ run then
        if p.evaluation.onMissingTelemetry = .rollback then some (.completed, .rollback)
        else some (.paused, .pause)
      else none
  | .other _ _ => none

/-- The verdict of the first window that decides. -/
def scan (p : Policy F) (deployed : Int) :
    List Classification → List (Classification × Int) → Option (State × Decision)
  | _, [] => none
  | past, w :: rest =>
      match verdict p deployed past w with
      | some decided => some decided
      | none => scan p deployed (past ++ [w.1]) rest

/-- The state and the decision that a scan ends with. -/
def outcome : Option (State × Decision) → State × Option Decision
  | none => (.observing, none)
  | some (state, decision) => (state, some decision)

variable [Float64 F]

/-- Audit writes and the action succeed. -/
structure Faultless (env : Environment F) : Prop where
  record : ∀ history event, env.record history event = none
  act : ∀ history effect id, env.act history effect id = none

-- ============================================================================
-- One step
-- ============================================================================

variable {env : Environment F} {s s' : System F} {target : State} {decision : Option Decision}
  {res : Except RolloutError Unit} {p : Policy F} {deployed : Int} {past : List Classification}
  {wr : WindowResult F} {now : Int}

theorem Entered.of_faultless (h : Entered env s target decision res s') (henv : Faultless env)
    (hallowed : target ∈ allowedTransitions s.rollout.state) : res = .ok () ∧
      s'.rollout.state = target ∧
      s'.rollout.finalDecision = (decision <|> s.rollout.finalDecision) := by
  cases h with
  | illegal hillegal => exact absurd hallowed hillegal
  | unrecorded _ hrecord =>
      rw [henv.record] at hrecord
      cases hrecord
  | recorded hmoves _ => exact ⟨rfl, hmoves.toState, by rw [← hmoves.decision]; rfl⟩

/-- A rollout that is observed, after windows that decided nothing. -/
structure Watching (p : Policy F) (deployed : Int) (past : List Classification) (s : System F) :
    Prop where
  state : s.rollout.state = .observing
  policy : s.rollout.policy = p
  observingSince : s.rollout.observingSince = deployed
  undecided : s.rollout.finalDecision = none
  streakOf : ∀ c : Classification, c.Known → s.rollout.streakOf c = streak c past

/-- A rollout that a scan has decided. -/
structure Stopped (decided : State × Decision) (s : System F) : Prop where
  state : s.rollout.state = decided.1
  finalDecision : s.rollout.finalDecision = some decided.2
  terminal : decided.1 ∈ [.paused, .completed]

/-- A verdict in terms of the course of the class. -/
theorem verdict_eq {course : Course} (h : p.course wr.classification = some course) :
    verdict p deployed past (wr.classification, now) =
      if p.evaluation.maxRolloutDuration ≤ now - deployed then some (.paused, .inconclusive)
      else if course.needed ≤ streak wr.classification (past ++ [wr.classification]) then
        some (if course.effect = none then .paused else .completed, course.decision)
      else none := by
  unfold verdict
  rcases Policy.course_cases h with ⟨hc, rfl⟩ | ⟨hc, rfl⟩ | ⟨hc, haction, rfl⟩ |
    ⟨hc, haction, rfl⟩
  · simp [hc]
  · simp [hc]
  · simp [hc, haction]
  · simp [hc, haction]

omit [Float64 F] in
/-- The deadline of the machine is that of the reference. -/
theorem Watching.late_iff (h : Watching p deployed past s)
    (hpos : 0 < p.evaluation.maxRolloutDuration) :
    s.rollout.Late now ↔ p.evaluation.maxRolloutDuration ≤ now - deployed := by
  unfold Rollout.Late
  rw [h.policy, h.observingSince]
  refine le_timeSub_iff ?_ p.evaluation.maxRolloutDuration_le now deployed
  unfold minDuration
  omega

/-- The streak of a window is the run that ends with it. -/
theorem Watching.streakOf_bumped (h : Watching p deployed past s) (hc : wr.classification.Known)
    {c : Classification} (hknown : c.Known) :
    (s.bumped wr.classification).rollout.streakOf c =
      streak c (past ++ [wr.classification]) := by
  have hbumped : (s.bumped wr.classification).rollout.streakOf c =
      if wr.classification = c then s.rollout.streakOf c + 1 else 0 :=
    Rollout.streakOf_bumped hc c
  rw [hbumped, streak_concat, h.streakOf c hknown]

omit [Float64 F] in
theorem System.bumped_rollout (s : System F) (c : Classification) :
    (s.bumped c).rollout.state = s.rollout.state ∧
      (s.bumped c).rollout.observingSince = s.rollout.observingSince ∧
      (s.bumped c).rollout.finalDecision = s.rollout.finalDecision := by
  cases c <;> exact ⟨rfl, rfl, rfl⟩

/-- After the classification of a window is recorded. -/
theorem Watching.classified (h : Watching p deployed past s) (henv : Faultless env)
    {course : Course} {s₁ : System F} (hclassified : Classified env wr now s course s₁) :
    s₁.rollout.state = course.state ∧ s₁.rollout.finalDecision = none := by
  have hstate := hclassified.entered.state_of_ok
  obtain ⟨-, hto, hfinal⟩ := hclassified.entered.of_faultless henv hstate.1
  refine ⟨hto, ?_⟩
  rw [hfinal, (s.bumped_rollout _).2.2, h.undecided]
  rfl

/-- After the decision is recorded. -/
theorem Decided.of_faultless (henv : Faultless env)
    {course : Course} {s₂ : System F} (hdecided : Decided env wr now s course s₂) :
    s.rollout.policy.course wr.classification = some course ∧
      s₂.rollout.state = course.target ∧ s₂.rollout.finalDecision = some course.decision := by
  obtain ⟨s₁, hclassified, hentered⟩ := hdecided.classified
  obtain ⟨-, hto, hfinal⟩ := hentered.of_faultless henv hentered.state_of_ok.1
  exact ⟨hclassified.leads, hto, by rw [hfinal]; rfl⟩

/-- One window is decided as the reference says. -/
theorem Watching.recorded (h : Watching p deployed past s) (henv : Faultless env)
    (hpos : 0 < p.evaluation.maxRolloutDuration) (hc : wr.classification.Known)
    {res : Except RolloutError State} (hrecorded : Recorded env wr now s res s') :
    (∃ decided, verdict p deployed past (wr.classification, now) = some decided ∧
      Stopped decided s') ∨
    (verdict p deployed past (wr.classification, now) = none ∧
      Watching p deployed (past ++ [wr.classification]) s') := by
  have hobserving : s.rollout.state ∈ observingStates := by
    rw [h.state]
    decide
  have htime {course : Course} {s₁ : System F} (hclassified : Classified env wr now s course s₁) :
      ¬ p.evaluation.maxRolloutDuration ≤ now - deployed := fun hle =>
    hclassified.onTime ((h.late_iff hpos).mpr hle)
  have hverdict {course : Course} {s₁ : System F}
      (hclassified : Classified env wr now s course s₁) :
      verdict p deployed past (wr.classification, now) =
        if course.needed ≤ (s.bumped wr.classification).rollout.streakOf wr.classification then
          some (if course.effect = none then .paused else .completed, course.decision)
        else none := by
    rw [verdict_eq (h.policy ▸ hclassified.leads), if_neg (htime hclassified),
      h.streakOf_bumped hc hc]
  cases hrecorded with
  | refused hrefused => exact absurd hobserving hrefused
  | late _ hlate hentered =>
      have hallowed : State.paused ∈ allowedTransitions s.counted.rollout.state := by
        show State.paused ∈ allowedTransitions s.rollout.state
        rw [h.state]
        decide
      obtain ⟨-, hto, hfinal⟩ := hentered.of_faultless henv hallowed
      refine .inl ⟨(.paused, .inconclusive), ?_, hto, hfinal, by decide⟩
      unfold verdict
      exact if_pos ((h.late_iff hpos).mp hlate)
  | unknown _ _ hunknown =>
      rw [hunknown] at hc
      exact hc.elim
  | unclassified _ _ hleads hentered =>
      have hallowed := (Policy.course_allowed hleads).1
      rw [← h.state, ← (s.bumped_rollout wr.classification).1] at hallowed
      cases (hentered.of_faultless henv hallowed).1
  | @awaiting course s₁ _ _ hclassified hnot hentered =>
      obtain ⟨hstate, hundecided⟩ := h.classified henv hclassified
      have hallowed := (Policy.course_allowed hclassified.leads).2.2.1
      obtain ⟨-, hto, hfinal⟩ := hentered.of_faultless henv (hstate ▸ hallowed)
      refine .inr ⟨by rw [hverdict hclassified, if_neg hnot], hto, ?_, ?_, ?_, fun c hknown => ?_⟩
      · rw [hentered.policy, hclassified.policy, h.policy]
      · rw [hentered.observingSince, hclassified.entered.observingSince,
          (s.bumped_rollout _).2.1, h.observingSince]
      · rw [hfinal, hundecided]
        rfl
      · rw [hentered.streakOf, hclassified.entered.streakOf, h.streakOf_bumped hc hknown]
  | undecided hclassified _ hentered =>
      obtain ⟨hstate, -⟩ := h.classified henv hclassified
      have hallowed := (Policy.course_allowed hclassified.leads).2.2.2.1
      cases (hentered.of_faultless henv (hstate ▸ hallowed)).1
  | paused hdecided hnone =>
      obtain ⟨hleads, hstate, hfinal⟩ := hdecided.of_faultless henv
      obtain ⟨s₁, hclassified, -⟩ := hdecided.classified
      refine .inl ⟨_, by rw [hverdict hclassified, if_pos hdecided.enough, if_pos hnone],
        ?_, hfinal, by simp⟩
      rw [hstate]
      rcases Policy.course_cases hleads with ⟨-, rfl⟩ | ⟨-, rfl⟩ | ⟨-, -, rfl⟩ | ⟨-, -, rfl⟩
      · cases hnone
      · cases hnone
      · cases hnone
      · rfl
  | @applied course s₂ _ effect _ hdecided heffect _ hentered =>
      obtain ⟨hleads, hstate, hfinal⟩ := hdecided.of_faultless henv
      obtain ⟨s₁, hclassified, -⟩ := hdecided.classified
      have hallowed : State.completed ∈ allowedTransitions s₂.rollout.state := by
        rw [hstate]
        rcases Policy.course_cases hleads with ⟨-, rfl⟩ | ⟨-, rfl⟩ | ⟨-, -, rfl⟩ | ⟨-, -, rfl⟩ <;>
          simp [allowedTransitions]
      obtain ⟨-, hto, hfinal'⟩ := hentered.of_faultless henv hallowed
      have hsome : course.effect ≠ none := by simp [heffect]
      refine .inl ⟨_, by rw [hverdict hclassified, if_pos hdecided.enough, if_neg hsome],
        hto, ?_, by simp⟩
      rw [hfinal', ← hfinal]
      rfl
  | failed hdecided _ hact _ =>
      rw [henv.act] at hact
      cases hact

-- ============================================================================
-- Runs
-- ============================================================================

/-- A window is refused once the rollout is decided, and changes nothing. -/
theorem Stopped.refused {decided : State × Decision} (h : Stopped decided s) :
    Rollout.recordWindow env wr now s =
      (.error (.notObserving s.rollout.id s.rollout.state), s) := by
  have hrefused : s.rollout.state ∉ observingStates := by
    rw [h.state]
    have hterminal := h.terminal
    revert hterminal
    generalize decided.1 = state
    cases state <;> decide
  exact Rollout.recordWindow_refused hrefused

theorem Stopped.after {decided : State × Decision} (h : Stopped decided s) :
    s.after env (.recordWindow wr now) = s := by
  show (perform env (.recordWindow wr now) s).2 = s
  unfold perform
  rw [Raising.Prog.bind_pure_snd, h.refused]

/-- A window as the reference sees it. -/
def observed (w : WindowResult F × Int) : Classification × Int := (w.1.classification, w.2)

/-- A window as a call. -/
def feed (w : WindowResult F × Int) : Call F := .recordWindow w.1 w.2

theorem Stopped.run {decided : State × Decision} (h : Stopped decided s)
    (env : Environment F) (windows : List (WindowResult F × Int)) :
    s.run env (windows.map feed) = s := by
  induction windows with
  | nil => rfl
  | cons w windows ih =>
      show (s.after env (feed w)).run env (windows.map feed) = s
      rw [feed, h.after, ih]

/-- A run of windows ends as the scan of them. -/
theorem Watching.run (h : Watching p deployed past s) (henv : Faultless env)
    (hpos : 0 < p.evaluation.maxRolloutDuration) {windows : List (WindowResult F × Int)}
    (hknown : ∀ w ∈ windows, w.1.classification.Known) :
    (∃ decided, scan p deployed past (windows.map observed) = some decided ∧
      Stopped decided (s.run env (windows.map feed))) ∨
    (scan p deployed past (windows.map observed) = none ∧
      (s.run env (windows.map feed)).rollout.state = .observing ∧
      (s.run env (windows.map feed)).rollout.finalDecision = none) := by
  induction windows generalizing past s with
  | nil => exact .inr ⟨rfl, h.state, h.undecided⟩
  | cons w windows ih =>
      obtain ⟨_, hrecorded⟩ := s.after_recordWindow env w.2 w.1
      have hw := hknown w (List.mem_cons_self ..)
      have hrest : ∀ w' ∈ windows, w'.1.classification.Known := fun w' hw' =>
        hknown w' (List.mem_cons_of_mem _ hw')
      show (∃ decided, scan p deployed past (observed w :: windows.map observed) = some decided ∧
          Stopped decided ((s.after env (feed w)).run env (windows.map feed))) ∨
        (scan p deployed past (observed w :: windows.map observed) = none ∧
          ((s.after env (feed w)).run env (windows.map feed)).rollout.state = .observing ∧
          ((s.after env (feed w)).run env (windows.map feed)).rollout.finalDecision = none)
      unfold scan
      rcases h.recorded henv hpos hw hrecorded with ⟨decided, hverdict, hstopped⟩ |
        ⟨hverdict, hwatching⟩
      · rw [observed, hverdict]
        refine .inl ⟨decided, rfl, ?_⟩
        have hsame := hstopped.run env windows
        rw [feed, hsame]
        exact hstopped
      · rw [observed, hverdict]
        exact ih hwatching hrest

/-- A rollout after `Start`, `MarkDeployed` and some windows. -/
def observation (env : Environment F) (id : String) (p : Policy F) (started deployed : Int)
    (windows : List (WindowResult F × Int)) : System F :=
  (System.new id p).run env (.start started :: .markDeployed deployed :: windows.map feed)

variable {id : String} {started : Int}

theorem watching_deployed (henv : Faultless env) :
    Watching p deployed [] (observation env id p started deployed []) := by
  obtain ⟨_, hstart⟩ := (System.new id p).after_start env started
  obtain ⟨-, hdeploying, hnone⟩ := hstart.of_faultless henv
    (by simp [System.new, allowedTransitions])
  have hallowed : State.observing ∈ allowedTransitions
      ((System.new id p).after env (.start started)).rollout.state := by
    rw [hdeploying]
    decide
  rcases ((System.new id p).after env (.start started)).after_markDeployed env deployed with
    ⟨_, hentered⟩ | ⟨s₁, hentered, hafter⟩
  · cases (hentered.of_faultless henv hallowed).1
  · obtain ⟨-, hobserving, hfinal⟩ := hentered.of_faultless henv hallowed
    have hrun : observation env id p started deployed [] = s₁.clocked deployed := hafter
    rw [hrun]
    refine ⟨hobserving, ?_, rfl, ?_, fun c hknown => ?_⟩
    · show s₁.rollout.policy = p
      rw [hentered.policy, hstart.policy]
      rfl
    · show s₁.rollout.finalDecision = none
      rw [hfinal, hnone]
      rfl
    · have hstreak : s₁.rollout.streakOf c = (System.new id p).rollout.streakOf c := by
        rw [hentered.streakOf, hstart.streakOf]
      cases c <;> exact hstreak

theorem observation_eq (windows : List (WindowResult F × Int)) :
    observation env id p started deployed windows =
      (observation env id p started deployed []).run env (windows.map feed) := rfl

/-- After `Start` and `MarkDeployed` the machine computes the reference: its state and
    decision are those of the scan, windows after the one that decides are refused without
    any change, and its events lead from PENDING to its state by allowed transitions, with
    the decision on exactly one. -/
theorem computes_reference (env : Environment F) (henv : Faultless env) (render : RenderQuery)
    (id : String) (p : Policy F) (hvalid : p.validate render = .ok ()) (started deployed : Int)
    (windows : List (WindowResult F × Int))
    (hknown : ∀ w ∈ windows, w.1.classification.Known) :
    ((observation env id p started deployed windows).rollout.state,
      (observation env id p started deployed windows).rollout.finalDecision) =
        outcome (scan p deployed [] (windows.map observed)) ∧
    (∀ before w after, windows = before ++ w :: after →
      scan p deployed [] (before.map observed) ≠ none →
      Rollout.recordWindow env w.1 w.2 (observation env id p started deployed before) =
        (.error (.notObserving (observation env id p started deployed before).rollout.id
          (observation env id p started deployed before).rollout.state),
          observation env id p started deployed before)) ∧
    Trail Event.fromState Event.toState (fun source target => target ∈ allowedTransitions source)
      .pending (observation env id p started deployed windows).events
      (observation env id p started deployed windows).rollout.state ∧
    (observation env id p started deployed windows).events.filterMap Event.decision =
      (observation env id p started deployed windows).rollout.finalDecision.toList := by
  have hpos := Policy.maxRolloutDuration_pos hvalid
  have hwatching : Watching p deployed [] (observation env id p started deployed []) :=
    watching_deployed henv
  have hledger : Ledger (observation env id p started deployed windows) :=
    (Ledger.new id p).run _
  refine ⟨?_, fun before w after hwindows hscan => ?_, hledger.trail, hledger.decisions⟩
  · rcases hwatching.run henv hpos hknown with ⟨decided, hscan, hstopped⟩ |
      ⟨hscan, hstate, hundecided⟩
    · rw [hscan, observation_eq, hstopped.state, hstopped.finalDecision]
      rfl
    · rw [hscan, observation_eq, hstate, hundecided]
      rfl
  · have hbefore : ∀ w ∈ before, w.1.classification.Known := fun w' hw' =>
      hknown w' (hwindows ▸ List.mem_append_left _ hw')
    rcases hwatching.run henv hpos hbefore with ⟨decided, -, hstopped⟩ | ⟨hnone, -⟩
    · rw [← observation_eq] at hstopped
      exact hstopped.refused
    · exact absurd hnone hscan

/-- Two windows that miss data after a HEALTHY one pause the rollout. -/
theorem computes_reference_demo :
    outcome (scan (demoPolicy 2 errorRate) (atSecond 0) []
      [(.healthy, atSecond 15), (.inconclusive, atSecond 30), (.inconclusive, atSecond 45),
        (.healthy, atSecond 60)]) = (.paused, some .pause) ∧
    (observation (flakyAudit []) "r1" (demoPolicy 2 errorRate) (atSecond 0) (atSecond 0)
      [(window .healthy, atSecond 15), (window .inconclusive, atSecond 30),
        (window .inconclusive, atSecond 45), (window .healthy, atSecond 60)]).rollout.state =
      .paused := by
  have hscan : outcome (scan (demoPolicy 2 errorRate) (atSecond 0) []
      [(.healthy, atSecond 15), (.inconclusive, atSecond 30), (.inconclusive, atSecond 45),
        (.healthy, atSecond 60)]) = (.paused, some .pause) := by decide +kernel
  have hfaultless : Faultless (flakyAudit []) := ⟨fun _ _ => rfl, fun _ _ _ => rfl⟩
  refine ⟨hscan, ?_⟩
  have hboth := (computes_reference (flakyAudit []) hfaultless renderPlaceholders "r1"
    (demoPolicy 2 errorRate) (by decide +kernel) (atSecond 0) (atSecond 0)
    [(window .healthy, atSecond 15), (window .inconclusive, atSecond 30),
      (window .inconclusive, atSecond 45), (window .healthy, atSecond 60)] (by decide +kernel)).1
  exact congrArg Prod.fst (hboth.trans hscan)

end PassionProjects.ReleaseGuard
