/-
  PassionProjects.ReleaseGuard.Rollout.Actions

  When the action of a rollout is invoked: once at most and, as long as no window that
  comes too late finds a rollout that an audit failure left in HEALTHY or DEGRADED, or a
  clock that was started again, only after as many windows in a row as the policy asks for,
  and before the deadline.
-/

import PassionProjects.Lib.Lines
import PassionProjects.ReleaseGuard.Rollout.Observation

namespace PassionProjects.ReleaseGuard

open Streak Transition

variable {F : Type} [Float64 F]

/-- The class of the window that a call feeds. -/
def Call.windowClass : Call F → Option Classification
  | .recordWindow wr _ => some wr.classification
  | _ => none

/-- The classes of the windows of a sequence of calls. -/
def windowClasses (calls : List (Call F)) : List Classification :=
  calls.filterMap Call.windowClass

/-- The methods of the action that a call invokes. -/
def System.invoked (env : Environment F) (s : System F) (call : Call F) : List Effect :=
  ((s.after env call).history.actions.drop s.history.actions.length).map Prod.fst

-- ============================================================================
-- What invokes an action
-- ============================================================================

variable {env : Environment F} {s s' : System F} {wr : WindowResult F} {now : Int}

theorem Recorded.actions {res : Except RolloutError State} (h : Recorded env wr now s res s') :
    s'.history.actions = s.history.actions ∨
    ∃ course s₂ effect err, Decided env wr now s course s₂ ∧ course.effect = some effect ∧
      s'.history.actions = s.history.actions ++ [(effect, err)] := by
  have hbumped : (s.bumped wr.classification).history.actions = s.history.actions := rfl
  have hdecided {course : Course} {s₂ : System F} (h : Decided env wr now s course s₂) :
      s₂.history.actions = s.history.actions := by
    obtain ⟨s₁, hclassified, hentered⟩ := h.classified
    rw [hentered.actions, hclassified.entered.actions, hbumped]
  have hacted {course : Course} {s₂ : System F} (h : Decided env wr now s course s₂)
      (effect : Effect) (err : Option String) :
      (s₂.acted effect err).history.actions = s.history.actions ++ [(effect, err)] := by
    rw [← hdecided h]
    rfl
  cases h with
  | refused _ => exact .inl rfl
  | late _ _ hentered => exact .inl hentered.actions
  | unknown _ _ _ => exact .inl rfl
  | unclassified _ _ _ hentered => exact .inl hentered.actions
  | awaiting hclassified _ hentered =>
      exact .inl (hentered.actions.trans hclassified.entered.actions)
  | undecided hclassified _ hentered =>
      exact .inl (hentered.actions.trans hclassified.entered.actions)
  | paused h _ => exact .inl (hdecided h)
  | applied h heffect _ hentered =>
      exact .inr ⟨_, _, _, _, h, heffect, hentered.actions.trans (hacted h _ _)⟩
  | failed h heffect _ hentered =>
      exact .inr ⟨_, _, _, _, h, heffect, hentered.actions.trans (hacted h _ _)⟩

/-- A call invokes an action only where a window decides. -/
theorem System.after_actions (env : Environment F) (s : System F) (call : Call F) :
    (s.after env call).history.actions = s.history.actions ∨
    ∃ wr now course s₂ effect err, call = .recordWindow wr now ∧
      Decided env wr now s course s₂ ∧ course.effect = some effect ∧
      (s.after env call).history.actions = s.history.actions ++ [(effect, err)] := by
  cases call with
  | start now =>
      obtain ⟨_, hentered⟩ := s.after_start env now
      exact .inl hentered.actions
  | markDeployed now =>
      rcases s.after_markDeployed env now with ⟨_, hentered⟩ | ⟨s₁, hentered, hafter⟩
      · exact .inl hentered.actions
      · rw [hafter]
        exact .inl hentered.actions
  | recordWindow wr now =>
      obtain ⟨_, hrecorded⟩ := s.after_recordWindow env now wr
      rcases hrecorded.actions with hsame | ⟨course, s₂, effect, err, h, heffect, hmore⟩
      · exact .inl hsame
      · exact .inr ⟨wr, now, course, s₂, effect, err, rfl, h, heffect, hmore⟩
  | finalize now =>
      rcases s.after_finalize env now with hafter | ⟨-, _, hentered⟩
      · exact .inl (by rw [hafter])
      · exact .inl hentered.actions

theorem System.of_invoked {call : Call F} {effect : Effect} (h : effect ∈ s.invoked env call) :
    ∃ wr now course s₂, call = .recordWindow wr now ∧ Decided env wr now s course s₂ ∧
      course.effect = some effect := by
  unfold System.invoked at h
  rcases s.after_actions env call with
    hsame | ⟨wr, now, course, s₂, effect', err, hcall, hdecided, heffect, hmore⟩
  · rw [hsame, List.drop_length] at h
    exact absurd h List.not_mem_nil
  · rw [hmore, List.drop_left] at h
    obtain rfl := List.mem_singleton.mp h
    exact ⟨wr, now, course, s₂, hcall, hdecided, heffect⟩

-- ============================================================================
-- Streaks over a run
-- ============================================================================

/-- The streaks of a rollout are no longer than those of the windows it was fed. -/
structure Tracked (p : Policy F) (calls : List (Call F)) (s : System F) : Prop where
  policy : s.rollout.policy = p
  fresh : ¬ s.rollout.state.Begun → ∀ c, s.rollout.streakOf c = 0
  streaks : s.rollout.state ∈ observingStates →
    ∀ c, s.rollout.streakOf c ≤ streak c (windowClasses calls)

/-- A window from the deadline of the clock on does not find the rollout in HEALTHY or
    DEGRADED. -/
def InTime (s : System F) : Call F → Prop
  | .recordWindow _ now => s.rollout.Late now → s.rollout.state ∉ [.healthy, .degraded]
  | _ => True

/-- The clock that a window finds from the deadline of the observation on does not run since
    later than the observation. -/
def ClockKept (env : Environment F) (s₀ : System F) (before : List (Call F)) : Call F → Prop
  | .recordWindow _ now => ∀ calls deployed after, Deployed env s₀ before calls deployed after →
      (s₀.run env before).rollout.policy.evaluation.maxRolloutDuration ≤ now - deployed →
        (s₀.run env before).rollout.observingSince ≤ deployed
  | _ => True

/-- A call after the calls `before`, on the schedule of the observation. -/
def OnSchedule (env : Environment F) (s₀ : System F) (before : List (Call F)) (call : Call F) :
    Prop :=
  InTime (s₀.run env before) call ∧ ClockKept env s₀ before call

namespace Tracked

variable {p : Policy F} {calls : List (Call F)}

theorem new (id : String) (p : Policy F) : Tracked p [] (System.new id p) where
  policy := rfl
  fresh _ c := by cases c <;> rfl
  streaks _ c := by cases c <;> exact Nat.zero_le _

/-- After a window that was counted. -/
theorem bumped (h : Tracked p calls s) (now : Int) (hc : wr.classification.Known)
    (hobserving : s.rollout.state ∈ observingStates)
    (huncounted : Uncounted (s.bumped wr.classification) s') :
    (∀ c, s'.rollout.streakOf c ≤ streak c (windowClasses (calls ++ [.recordWindow wr now]))) ∧
      Tracked p (calls ++ [.recordWindow wr now]) s' := by
  have hbound : ∀ c, s'.rollout.streakOf c ≤
      streak c (windowClasses (calls ++ [.recordWindow wr now])) := by
    intro c
    have hclasses : windowClasses (calls ++ [.recordWindow wr now]) =
        windowClasses calls ++ [wr.classification] := List.filterMap_append
    have hstreak : (s.bumped wr.classification).rollout.streakOf c =
        if wr.classification = c then s.rollout.streakOf c + 1 else 0 :=
      Rollout.streakOf_bumped hc c
    rw [huncounted.streakOf, hstreak, hclasses, streak_concat]
    split
    · exact Nat.succ_le_succ (h.streaks hobserving c)
    · exact Nat.le_refl 0
  have hstate : (s.bumped wr.classification).rollout.state = s.rollout.state := by
    cases wr.classification <;> rfl
  have hbegun : s'.rollout.state.Begun :=
    huncounted.begun (hstate ▸ State.begun_of_observing hobserving)
  refine ⟨hbound, ?_, fun hfresh => absurd hbegun hfresh, fun _ => hbound⟩
  rw [huncounted.policy, s.bumped_policy, h.policy]

/-- A transition without a window. -/
theorem entered (h : Tracked p calls s) {target : State} {res : Except RolloutError Unit}
    (hentered : Entered env s target none res s') : Tracked p calls s' := by
  have huncounted := hentered.uncounted
  refine ⟨huncounted.policy.trans h.policy, fun hfresh c => ?_, fun hobserving c => ?_⟩
  · rw [huncounted.streakOf]
    exact h.fresh (fun hbegun => hfresh (huncounted.begun hbegun)) c
  · rw [huncounted.streakOf]
    by_cases hbegun : s.rollout.state.Begun
    · refine h.streaks ?_ c
      rcases hentered.state with ⟨-, rfl⟩ | ⟨hallowed, hstate⟩
      · exact hobserving
      · exact State.observing_of_allowed hallowed (hstate ▸ hobserving) hbegun
    · rw [h.fresh hbegun c]
      exact Nat.zero_le _

/-- A window in time is counted. -/
theorem recorded (h : Tracked p calls s) (hc : wr.classification.Known)
    (htime : InTime s (.recordWindow wr now)) {res : Except RolloutError State}
    (hrecorded : Recorded env wr now s res s') :
    Tracked p (calls ++ [.recordWindow wr now]) s' := by
  rcases hrecorded.counts with ⟨hrefused, rfl⟩ | ⟨hobserving, hlate, res, hentered⟩ |
    ⟨hunknown, -⟩ | ⟨hobserving, huncounted⟩
  · exact ⟨h.policy, h.fresh, fun hobserving => absurd hobserving hrefused⟩
  · -- the deadline ends the observation
    have hallowed : State.paused ∈ allowedTransitions s.counted.rollout.state := by
      have hstate := htime hlate
      show State.paused ∈ allowedTransitions s.rollout.state
      cases hs : s.rollout.state <;> rw [hs] at hstate hobserving <;>
        revert hstate hobserving <;> decide
    have hpaused := hentered.state_of_allowed hallowed
    refine ⟨hentered.policy.trans h.policy, fun hfresh => ?_, fun hobserving' => ?_⟩
    · rw [hpaused] at hfresh
      exact absurd (by decide) hfresh
    · rw [hpaused] at hobserving'
      exact absurd hobserving' (by decide)
  · exact absurd hc hunknown
  · exact (h.bumped now hc hobserving huncounted).2

theorem clocked (h : Tracked p calls s) (now : Int) : Tracked p calls (s.clocked now) where
  policy := h.policy
  fresh hfresh c := by
    have hzero := h.fresh hfresh c
    cases c <;> exact hzero
  streaks hobserving c := by
    have hstreak := h.streaks hobserving c
    cases c <;> exact hstreak

theorem quiet (h : Tracked p calls s) {call : Call F} (hnone : call.windowClass = none) :
    Tracked p (calls ++ [call]) s := by
  have hsame : windowClasses (calls ++ [call]) = windowClasses calls := by
    simp [windowClasses, hnone]
  exact ⟨h.policy, h.fresh, hsame ▸ h.streaks⟩

theorem after (h : Tracked p calls s) (call : Call F) (hc : ∀ c ∈ call.windowClass, c.Known)
    (htime : InTime s call) : Tracked p (calls ++ [call]) (s.after env call) := by
  cases call with
  | start now =>
      obtain ⟨_, hentered⟩ := s.after_start env now
      exact (h.entered hentered).quiet rfl
  | markDeployed now =>
      rcases s.after_markDeployed env now with ⟨_, hentered⟩ | ⟨s₁, hentered, hafter⟩
      · exact (h.entered hentered).quiet rfl
      · rw [hafter]
        exact ((h.entered hentered).clocked now).quiet rfl
  | recordWindow wr now =>
      obtain ⟨_, hrecorded⟩ := s.after_recordWindow env now wr
      exact h.recorded (hc _ rfl) htime hrecorded
  | finalize now =>
      rcases s.after_finalize env now with hafter | ⟨-, _, hentered⟩
      · rw [hafter]
        exact h.quiet rfl
      · exact (h.entered hentered).quiet rfl

/-- Where a window decides, its streak is that of the windows fed. -/
theorem enough (h : Tracked p calls s) (hc : wr.classification.Known) {course : Course}
    {s₂ : System F} (hdecided : Decided env wr now s course s₂) :
    List.replicate course.needed.toNat wr.classification <:+
      windowClasses (calls ++ [.recordWindow wr now]) := by
  obtain ⟨s₁, hclassified, -⟩ := hdecided.classified
  have hbound := (h.bumped now hc hclassified.observing
    hclassified.entered.uncounted).1 wr.classification
  rw [hclassified.entered.streakOf] at hbound
  refine le_streak_iff.mp (le_trans ?_ hbound)
  exact Int.toNat_le.mpr hdecided.enough

end Tracked

-- ============================================================================
-- Safety of the actions
-- ============================================================================

/-- The windows that the policy asks for before an action. -/
def Justified (p : Policy F) (classes : List Classification) : Effect → Prop
  | .promote => List.replicate p.evaluation.consecutiveHealthyWindows.toNat .healthy <:+ classes
  | .rollback =>
      List.replicate p.evaluation.consecutiveUnhealthyWindows.toNat .degraded <:+ classes ∨
      (p.evaluation.onMissingTelemetry = .rollback ∧
        List.replicate p.evaluation.consecutiveUnhealthyWindows.toNat .inconclusive <:+ classes)

theorem justified_of_decided {p : Policy F} {calls : List (Call F)} (h : Tracked p calls s)
    (hc : wr.classification.Known) {course : Course} {s₂ : System F}
    (hdecided : Decided env wr now s course s₂) {effect : Effect}
    (heffect : course.effect = some effect) :
    Justified p (windowClasses (calls ++ [.recordWindow wr now])) effect := by
  have henough := h.enough hc hdecided
  obtain ⟨s₁, hclassified, -⟩ := hdecided.classified
  have hleads := hclassified.leads
  rw [h.policy] at hleads
  rcases Policy.course_cases hleads with ⟨hclass, rfl⟩ | ⟨hclass, rfl⟩ | ⟨hclass, haction, rfl⟩ |
    ⟨-, -, rfl⟩
  · cases heffect
    rw [hclass] at henough
    exact henough
  · cases heffect
    rw [hclass] at henough
    exact .inl henough
  · cases heffect
    rw [hclass] at henough
    exact .inr ⟨haction, henough⟩
  · cases heffect

theorem tracked_run (env : Environment F) (id : String) (p : Policy F) (calls : List (Call F))
    (hknown : ∀ c ∈ windowClasses calls, c.Known)
    (hschedule : ∀ before call after, calls = before ++ call :: after →
      OnSchedule env (System.new id p) before call) :
    Tracked p calls ((System.new id p).run env calls) := by
  induction calls using List.reverseRecOn with
  | nil => exact Tracked.new id p
  | append_singleton calls call ih =>
      rw [windowClasses, List.filterMap_append] at hknown
      have htracked := ih (fun c hc => hknown c (List.mem_append_left _ hc))
        fun before call' after hcalls => hschedule before call' (after ++ [call]) (by
          rw [hcalls, List.append_assoc, List.cons_append])
      rw [System.run_concat]
      refine htracked.after call (fun c hc => hknown c ?_) (hschedule calls call [] rfl).1
      exact List.mem_append_right _ (List.mem_filterMap.mpr ⟨call, List.mem_singleton_self _, hc⟩)

omit [Float64 F] in
/-- A clock that runs since no later than the observation has reached the deadline where the
    observation has. -/
theorem late_of_due {deployed : Int} (hsince : s.rollout.observingSince ≤ deployed)
    (hdue : s.rollout.policy.evaluation.maxRolloutDuration ≤ now - deployed) :
    s.rollout.Late now := by
  have hmax := s.rollout.policy.evaluation.maxRolloutDuration_le
  unfold Rollout.Late timeSub
  omega

/-- In a run on schedule the action is invoked at most once, only before the deadline, counted
    from the call of `MarkDeployed` that started the observation, and only after the windows
    that the policy asks for. -/
theorem actions_safe (env : Environment F) (id : String) (p : Policy F) (calls : List (Call F))
    (hknown : ∀ c ∈ windowClasses calls, c.Known)
    (hschedule : ∀ before call after, calls = before ++ call :: after →
      OnSchedule env (System.new id p) before call) :
    ((System.new id p).run env calls).history.actions.length ≤ 1 ∧
    ∀ before call after, calls = before ++ call :: after →
      ∀ effect ∈ ((System.new id p).run env before).invoked env call,
        (∃ wr now, call = .recordWindow wr now ∧
          ∃ first deployed rest, Deployed env (System.new id p) before first deployed rest ∧
            now - deployed < p.evaluation.maxRolloutDuration) ∧
        Justified p (windowClasses (before ++ [call])) effect := by
  refine ⟨((Ledger.new id p).run calls).once, fun before call after hcalls effect hinvoked => ?_⟩
  obtain ⟨wr, now, course, s₂, rfl, hdecided, heffect⟩ := System.of_invoked hinvoked
  have htracked : Tracked p before ((System.new id p).run env before) := by
    refine tracked_run env id p before (fun c hc => hknown c ?_) fun first call' rest hbefore =>
      hschedule first call' (rest ++ .recordWindow wr now :: after) ?_
    · rw [hcalls, windowClasses, List.filterMap_append]
      exact List.mem_append_left _ hc
    · rw [hcalls, hbefore, List.append_assoc, List.cons_append]
  have hc : wr.classification.Known := hknown _ (by
    rw [hcalls]
    simp [windowClasses, Call.windowClass])
  refine ⟨⟨wr, now, rfl, ?_⟩, justified_of_decided htracked hc hdecided heffect⟩
  obtain ⟨s₁, hclassified, -⟩ := hdecided.classified
  obtain ⟨first, deployed, rest, hdeployed⟩ :=
    System.exists_deployed id p hclassified.observing
  refine ⟨first, deployed, rest, hdeployed, ?_⟩
  by_contra hdue
  rw [← htracked.policy, Int.not_lt] at hdue
  have hsince := (hschedule before _ after hcalls).2 first deployed rest hdeployed hdue
  exact hclassified.onTime (late_of_due hsince hdue)

-- ============================================================================
-- A window that comes too late
-- ============================================================================

/-- Audit writes fail at the given places of the history, and the action succeeds. -/
def flakyAudit (failing : List Nat) : Environment ℚ where
  marshalEvidence _ := none
  record history _ :=
    if history.records.length ∈ failing then some "no space left on device" else none
  act _ _ _ := none

/-- A window of the canary, with its class alone. -/
def window (c : Classification) : WindowResult ℚ :=
  { timestamp := 0, track := "canary", classification := c }

/-- Some seconds into the rollout. -/
def atSecond (n : Int) : Int := (63900000000 + n) * 10 ^ 9

/-- The rollouts of the policy that asks for two windows of each kind. -/
def demoRollout : System ℚ := System.new "r1" (demoPolicy 2 errorRate)

def deployment : List (Call ℚ) := [.start (atSecond 0), .markDeployed (atSecond 0)]

/-- Two HEALTHY windows, the second one at the end of the half hour. -/
def promotion : List (Call ℚ) := deployment ++
  [.recordWindow (window .healthy) (atSecond 15), .recordWindow (window .healthy) (atSecond 1799)]

theorem promotion_onSchedule {before after : List (Call ℚ)} {call : Call ℚ}
    (h : promotion = before ++ call :: after) :
    OnSchedule (flakyAudit []) demoRollout before call := by
  have hdeployed (more : List (Call ℚ)) : Deployed (flakyAudit []) demoRollout
      (deployment ++ more) [.start (atSecond 0)] (atSecond 0) more :=
    ⟨rfl, by decide +kernel⟩
  rcases before with _ | ⟨_, _ | ⟨_, _ | ⟨_, _ | ⟨_, more⟩⟩⟩⟩
  · cases h
    exact ⟨trivial, trivial⟩
  · cases h
    exact ⟨trivial, trivial⟩
  · cases h
    refine ⟨fun hlate => absurd hlate (by decide +kernel), fun calls deployed after h _ => ?_⟩
    obtain ⟨-, rfl, -⟩ := h.unique (hdeployed [])
    decide +kernel
  · cases h
    refine ⟨fun hlate => absurd hlate (by decide +kernel), fun calls deployed after h _ => ?_⟩
    obtain ⟨-, rfl, -⟩ := h.unique (hdeployed [_])
    decide +kernel
  · have hlength := congrArg List.length h
    simp [promotion, deployment] at hlength

/-- In a run on schedule the second HEALTHY window promotes, half an hour less a second after the
    canary was deployed. -/
theorem actions_safe_demo :
    .promote ∈ (demoRollout.run (flakyAudit []) (promotion.take 3)).invoked (flakyAudit [])
      (.recordWindow (window .healthy) (atSecond 1799)) ∧
    (∃ first deployed rest, Deployed (flakyAudit []) demoRollout (promotion.take 3) first deployed
      rest ∧ atSecond 1799 - deployed < (demoPolicy 2 errorRate).evaluation.maxRolloutDuration) ∧
    Justified (demoPolicy 2 errorRate) [.healthy, .healthy] .promote := by
  have hinvoked : .promote ∈ (demoRollout.run (flakyAudit []) (promotion.take 3)).invoked
      (flakyAudit []) (.recordWindow (window .healthy) (atSecond 1799)) := by decide +kernel
  obtain ⟨⟨wr, now, hcall, htime⟩, hwindows⟩ :=
    (actions_safe (flakyAudit []) "r1" (demoPolicy 2 errorRate) promotion (by decide +kernel)
      fun _ _ _ => promotion_onSchedule).2 (promotion.take 3) _ [] rfl .promote hinvoked
  cases hcall
  exact ⟨hinvoked, htime, hwindows⟩

/-- The audit write of a HEALTHY window fails, a DEGRADED window comes after the deadline
    and is not counted, and `MarkDeployed` is accepted again. -/
def retriedDeployment : List (Call ℚ) := deployment ++ [
  .recordWindow (window .healthy) (atSecond 15),
  .recordWindow (window .degraded) (atSecond 1900),
  .markDeployed (atSecond 1900)]

/-- The audit write of a HEALTHY window fails, and `MarkDeployed`, accepted again, starts the
    clock again. -/
def restartedClock : List (Call ℚ) := deployment ++ [
  .recordWindow (window .healthy) (atSecond 15),
  .markDeployed (atSecond 1000)]

/-- The next HEALTHY window promotes, though the one before it was DEGRADED, or though the
    observation began more than half an hour ago. -/
theorem promoted_after_degraded :
    (demoPolicy 2 errorRate).validate renderPlaceholders = .ok () ∧
    ((∀ c ∈ windowClasses retriedDeployment, c.Known) ∧
      .promote ∈ (demoRollout.run (flakyAudit [2]) retriedDeployment).invoked (flakyAudit [2])
        (.recordWindow (window .healthy) (atSecond 1915)) ∧
      ¬ Justified (demoPolicy 2 errorRate) (windowClasses (retriedDeployment ++
        [.recordWindow (window .healthy) (atSecond 1915)])) .promote) ∧
    Deployed (flakyAudit [2]) demoRollout restartedClock [.start (atSecond 0)] (atSecond 0)
      [.recordWindow (window .healthy) (atSecond 15), .markDeployed (atSecond 1000)] ∧
    .promote ∈ (demoRollout.run (flakyAudit [2]) restartedClock).invoked (flakyAudit [2])
      (.recordWindow (window .healthy) (atSecond 2000)) ∧
    ¬ atSecond 2000 - atSecond 0 < (demoPolicy 2 errorRate).evaluation.maxRolloutDuration := by
  refine ⟨by decide +kernel, ⟨by decide +kernel, by decide +kernel, ?_⟩,
    ⟨rfl, by decide +kernel⟩, by decide +kernel, by decide +kernel⟩
  show ¬ List.replicate 2 Classification.healthy <:+ [.healthy, .degraded, .healthy]
  decide +kernel

end PassionProjects.ReleaseGuard
