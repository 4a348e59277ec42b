/-
  PassionProjects.ReleaseGuard.Rollout.Observation

  The observation of a canary: what its windows count for, which call of `MarkDeployed`
  starts it, and the clock, which that method sets after the audited transition.
-/

import PassionProjects.ReleaseGuard.Rollout.Ledger

namespace PassionProjects.ReleaseGuard

open Raising Raising.Prog

variable {F : Type} [Float64 F] {env : Environment F} {s s' : System F} {wr : WindowResult F}
  {now : Int}

-- ============================================================================
-- What a window counts for
-- ============================================================================

/-- One of the three classifications that an evaluation gives. -/
def Classification.Known : Classification → Prop
  | .other _ _ => False
  | _ => True

instance : (c : Classification) → Decidable c.Known
  | .healthy => .isTrue trivial
  | .degraded => .isTrue trivial
  | .inconclusive => .isTrue trivial
  | .other _ _ => .isFalse id

omit [Float64 F] in
/-- A window of a class makes its streak one longer and the others zero. -/
theorem Rollout.streakOf_bumped {r : Rollout F} {c : Classification} (hc : c.Known)
    (d : Classification) :
    (r.bumped c).streakOf d = if c = d then r.streakOf d + 1 else 0 := by
  cases c with
  | other _ _ => exact hc.elim
  | healthy => cases d <;> simp [bumped, streakOf]
  | degraded => cases d <;> simp [bumped, streakOf]
  | inconclusive => cases d <;> simp [bumped, streakOf]

/-- The canary was deployed. -/
def State.Begun (state : State) : Prop := state ∉ [pending, deploying]

instance (state : State) : Decidable state.Begun := inferInstanceAs (Decidable (_ ∉ _))

theorem State.begun_of_allowed {source target : State} (h : target ∈ allowedTransitions source)
    (hsource : source.Begun) : target.Begun := by
  unfold State.Begun at *
  cases source <;> cases target <;> revert h hsource <;> decide

theorem State.begun_of_observing {state : State} (h : state ∈ observingStates) :
    state.Begun := by
  unfold State.Begun
  cases state <;> revert h <;> decide

/-- An observation goes on where it was, or starts. -/
theorem State.observing_of_allowed {source target : State}
    (h : target ∈ allowedTransitions source) (htarget : target ∈ observingStates)
    (hsource : source.Begun) : source ∈ observingStates := by
  unfold State.Begun at hsource
  cases source <;> cases target <;> revert h htarget hsource <;> decide

/-- No window was counted from one system to another. -/
structure Uncounted (s s' : System F) : Prop where
  streakOf : ∀ c, s'.rollout.streakOf c = s.rollout.streakOf c
  policy : s'.rollout.policy = s.rollout.policy
  begun : s.rollout.state.Begun → s'.rollout.state.Begun

omit [Float64 F] in
theorem Uncounted.trans {s₁ s₂ s₃ : System F} (h : Uncounted s₁ s₂) (h' : Uncounted s₂ s₃) :
    Uncounted s₁ s₃ where
  streakOf c := (h'.streakOf c).trans (h.streakOf c)
  policy := h'.policy.trans h.policy
  begun hbegun := h'.begun (h.begun hbegun)

omit [Float64 F] in
theorem Uncounted.acted (effect : Effect) (err : Option String) :
    Uncounted s (s.acted effect err) where
  streakOf c := by cases c <;> rfl
  policy := rfl
  begun := id

omit [Float64 F] in
theorem Uncounted.counted : Uncounted s s.counted where
  streakOf c := by cases c <;> rfl
  policy := rfl
  begun := id

theorem Entered.uncounted {target : State} {decision : Option Decision}
    {res : Except RolloutError Unit} (h : Entered env s target decision res s') :
    Uncounted s s' where
  streakOf := h.streakOf
  policy := h.policy
  begun hs := by
    rcases h.state with ⟨-, rfl⟩ | ⟨hallowed, hstate⟩
    · exact hs
    · rw [hstate]
      exact State.begun_of_allowed hallowed hs

/-- What a window is to a rollout: refused, too late, of no class, or counted once. -/
theorem Recorded.counts {res : Except RolloutError State} (h : Recorded env wr now s res s') :
    (s.rollout.state ∉ observingStates ∧ s' = s) ∨
    (s.rollout.state ∈ observingStates ∧ s.rollout.Late now ∧
      ∃ res, Entered env s.counted .paused (some .inconclusive) res s') ∨
    (¬ wr.classification.Known ∧ Uncounted s s') ∨
    (s.rollout.state ∈ observingStates ∧ Uncounted (s.bumped wr.classification) s') := by
  have hdecided {course : Course} {s₂ : System F} (h : Decided env wr now s course s₂) :
      s.rollout.state ∈ observingStates ∧ Uncounted (s.bumped wr.classification) s₂ := by
    obtain ⟨s₁, hclassified, hentered⟩ := h.classified
    exact ⟨hclassified.observing, hclassified.entered.uncounted.trans hentered.uncounted⟩
  cases h with
  | refused hrefused => exact .inl ⟨hrefused, rfl⟩
  | late hobserving hlate hentered => exact .inr (.inl ⟨hobserving, hlate, _, hentered⟩)
  | unknown _ _ hunknown =>
      exact .inr (.inr (.inl ⟨by rw [hunknown]; exact id, .counted⟩))
  | unclassified hobserving _ _ hentered =>
      exact .inr (.inr (.inr ⟨hobserving, hentered.uncounted⟩))
  | awaiting hclassified _ hentered =>
      exact .inr (.inr (.inr ⟨hclassified.observing,
        hclassified.entered.uncounted.trans hentered.uncounted⟩))
  | undecided hclassified _ hentered =>
      exact .inr (.inr (.inr ⟨hclassified.observing,
        hclassified.entered.uncounted.trans hentered.uncounted⟩))
  | paused h _ => exact .inr (.inr (.inr (hdecided h)))
  | applied h _ _ hentered =>
      obtain ⟨hobserving, huncounted⟩ := hdecided h
      exact .inr (.inr (.inr ⟨hobserving,
        (huncounted.trans (.acted _ _)).trans hentered.uncounted⟩))
  | failed h _ _ hentered =>
      obtain ⟨hobserving, huncounted⟩ := hdecided h
      exact .inr (.inr (.inr ⟨hobserving,
        (huncounted.trans (.acted _ _)).trans hentered.uncounted⟩))

/-- Once the canary is deployed, it stays so. -/
theorem System.begun_after (hs : s.rollout.state.Begun) (call : Call F) :
    (s.after env call).rollout.state.Begun := by
  cases call with
  | start now =>
      obtain ⟨_, hentered⟩ := s.after_start env now
      exact hentered.uncounted.begun hs
  | markDeployed now =>
      rcases s.after_markDeployed env now with ⟨_, hentered⟩ | ⟨s₁, hentered, hafter⟩
      · exact hentered.uncounted.begun hs
      · rw [hafter]
        exact hentered.uncounted.begun hs
  | recordWindow wr now =>
      obtain ⟨_, hrecorded⟩ := s.after_recordWindow env now wr
      rcases hrecorded.counts with ⟨-, hsame⟩ | ⟨-, -, _, hentered⟩ | ⟨-, huncounted⟩ |
        ⟨-, huncounted⟩
      · rw [hsame]
        exact hs
      · exact hentered.uncounted.begun hs
      · exact huncounted.begun hs
      · refine huncounted.begun ?_
        cases wr.classification <;> exact hs
  | finalize now =>
      rcases s.after_finalize env now with hafter | ⟨-, _, hentered⟩
      · rw [hafter]
        exact hs
      · exact hentered.uncounted.begun hs

-- ============================================================================
-- The end of the observation
-- ============================================================================

/-- A rollout whose observation is over. -/
def System.Left (s : System F) : Prop :=
  s.rollout.state.Begun ∧ s.rollout.state ∉ observingStates

theorem Entered.left (h : Entered env s target decision res s') (hs : s.Left) : s'.Left := by
  refine ⟨h.uncounted.begun hs.1, fun hobserving => ?_⟩
  rcases h.state with ⟨-, rfl⟩ | ⟨hallowed, hstate⟩
  · exact hs.2 hobserving
  · exact hs.2 (State.observing_of_allowed hallowed (hstate ▸ hobserving) hs.1)

theorem System.Left.after (hs : s.Left) (call : Call F) : (s.after env call).Left := by
  cases call with
  | start now =>
      obtain ⟨_, hentered⟩ := s.after_start env now
      exact hentered.left hs
  | markDeployed now =>
      rcases s.after_markDeployed env now with ⟨_, hentered⟩ | ⟨s₁, hentered, hafter⟩
      · exact hentered.left hs
      · rw [hafter]
        have hclocked : s₁.Left := hentered.left hs
        exact hclocked
  | recordWindow wr now =>
      obtain ⟨_, hrecorded⟩ := s.after_recordWindow env now wr
      rcases hrecorded.observing with hsame | hobserving
      · rw [hsame]
        exact hs
      · exact absurd hobserving hs.2
  | finalize now =>
      rcases s.after_finalize env now with hafter | ⟨-, _, hentered⟩
      · rw [hafter]
        exact hs
      · exact hentered.left hs

theorem System.Left.run (hs : s.Left) (calls : List (Call F)) : (s.run env calls).Left := by
  induction calls generalizing s with
  | nil => exact hs
  | cons call calls ih => exact ih (hs.after call)

theorem System.begun_run (hs : s.rollout.state.Begun) (calls : List (Call F)) :
    (s.run env calls).rollout.state.Begun := by
  induction calls generalizing s with
  | nil => exact hs
  | cons call calls ih => exact ih (System.begun_after hs call)

-- ============================================================================
-- The start of the observation
-- ============================================================================

/-- The call of `MarkDeployed`, after the calls `before`, that starts the observation. -/
structure Deployed (env : Environment F) (s : System F) (calls before : List (Call F))
    (deployed : Int) (after : List (Call F)) : Prop where
  calls : calls = before ++ .markDeployed deployed :: after
  deploying : (s.run env before).rollout.state = .deploying

variable {calls before after : List (Call F)} {deployed : Int}

theorem Deployed.append (h : Deployed env s calls before deployed after) (more : List (Call F)) :
    Deployed env s (calls ++ more) before deployed (after ++ more) where
  calls := by rw [h.calls, List.append_assoc, List.cons_append]
  deploying := h.deploying

/-- Only `MarkDeployed` in DEPLOYING starts an observation. -/
theorem System.deploying_of_begun {call : Call F} (hs : ¬ s.rollout.state.Begun)
    (hafter : (s.after env call).rollout.state ∈ observingStates) :
    s.rollout.state = .deploying ∧ ∃ now, call = .markDeployed now := by
  have hentered {target : State} {res : Except RolloutError Unit} {s' : System F}
      (htarget : call.enters = some target) (h : Entered env s target none res s')
      (hobserving : s'.rollout.state ∈ observingStates) :
      s.rollout.state = .deploying ∧ ∃ now, call = .markDeployed now := by
    rcases h.state with ⟨-, rfl⟩ | ⟨hallowed, hstate⟩
    · exact absurd (State.begun_of_observing hobserving) hs
    · rw [hstate] at hobserving
      cases call with
      | start now => cases htarget; exact absurd hobserving (by decide)
      | recordWindow wr now => cases htarget
      | finalize now => cases htarget; exact absurd hobserving (by decide)
      | markDeployed now =>
          cases htarget
          refine ⟨?_, now, rfl⟩
          unfold State.Begun at hs
          cases hsource : s.rollout.state <;> rw [hsource] at hs hallowed <;>
            revert hs hallowed <;> decide
  generalize hs' : s.after env call = s' at hafter
  have hstepped : Stepped env s call s' := hs' ▸ s.stepped env call
  cases hstepped with
  | finalized => exact absurd (State.begun_of_observing hafter) hs
  | entered htarget h => exact hentered htarget h hafter
  | clocked h => exact hentered rfl h hafter
  | recorded h =>
      rcases h.observing with rfl | hobserving
      · exact absurd (State.begun_of_observing hafter) hs
      · exact absurd (State.begun_of_observing hobserving) hs

/-- A rollout that is observed was deployed by a call. -/
theorem System.exists_deployed (id : String) (p : Policy F)
    (h : ((System.new id p).run env calls).rollout.state ∈ observingStates) :
    ∃ before deployed after, Deployed env (System.new id p) calls before deployed after := by
  induction calls using List.reverseRecOn with
  | nil => exact absurd h (by simp [System.run, System.new, observingStates])
  | append_singleton calls call ih =>
      by_cases hobserving : ((System.new id p).run env calls).rollout.state ∈ observingStates
      · obtain ⟨before, deployed, after, hdeployed⟩ := ih hobserving
        exact ⟨before, deployed, _, hdeployed.append [call]⟩
      · rw [System.run_concat] at h
        by_cases hbegun : ((System.new id p).run env calls).rollout.state.Begun
        · exact absurd h (System.Left.after ⟨hbegun, hobserving⟩ call).2
        · obtain ⟨hdeploying, now, rfl⟩ := System.deploying_of_begun hbegun h
          exact ⟨calls, now, [], rfl, hdeploying⟩

theorem Deployed.observing (h : Deployed env s calls before deployed after) :
    ((s.run env before).after env (.markDeployed deployed)).rollout.state = .observing := by
  have hallowed : State.observing ∈ allowedTransitions (s.run env before).rollout.state := by
    rw [h.deploying]
    decide
  rcases (s.run env before).after_markDeployed env deployed with
    ⟨_, hentered⟩ | ⟨s₁, hentered, hafter⟩
  · exact hentered.state_of_allowed hallowed
  · rw [hafter]
    exact hentered.state_of_allowed hallowed

/-- It is deployed once. -/
theorem Deployed.unique (h : Deployed env s calls before deployed after)
    {before' after' : List (Call F)} {deployed' : Int}
    (h' : Deployed env s calls before' deployed' after') :
    before = before' ∧ deployed = deployed' ∧ after = after' := by
  have hlonger {before before' after after' more : List (Call F)} {deployed deployed' : Int}
      (h : Deployed env s calls before deployed after)
      (h' : Deployed env s calls before' deployed' after') (hmore : before' = before ++ more)
      (hrest : .markDeployed deployed :: after = more ++ .markDeployed deployed' :: after') :
      more = [] := by
    cases more with
    | nil => rfl
    | cons call more =>
        cases hrest
        have hbegun : (s.run env before').rollout.state.Begun := by
          rw [hmore, System.run_append]
          refine System.begun_run (?_ : State.Begun
            ((s.run env before).after env (.markDeployed deployed)).rollout.state) more
          rw [h.observing]
          decide
        rw [h'.deploying] at hbegun
        exact absurd hbegun (by decide)
  rcases List.append_eq_append_iff.mp (h.calls.symm.trans h'.calls) with
    ⟨more, hmore, hrest⟩ | ⟨more, hmore, hrest⟩
  · obtain rfl := hlonger h h' hmore hrest
    cases hrest
    exact ⟨by rw [hmore, List.append_nil], rfl, rfl⟩
  · obtain rfl := hlonger h' h hmore hrest
    cases hrest
    exact ⟨by rw [hmore, List.append_nil], rfl, rfl⟩

-- ============================================================================
-- The clock
-- ============================================================================

/-- A policy that is valid has a deadline after the start. -/
theorem Policy.maxRolloutDuration_pos {render : RenderQuery} {p : Policy F}
    (h : p.validate render = .ok ()) : 0 < p.evaluation.maxRolloutDuration := by
  have hnone := Policy.evaluation_valid h
  by_contra hle
  simp only [EvaluationConfig.validate, List.append_eq_nil_iff, if_pos (not_lt.mp hle)] at hnone
  simp at hnone

/-- The clock and the policy of a rollout are the same in both. -/
structure SameClock (s s' : System F) : Prop where
  since : s'.rollout.observingSince = s.rollout.observingSince
  policy : s'.rollout.policy = s.rollout.policy

theorem Entered.sameClock {target : State} {decision : Option Decision}
    {res : Except RolloutError Unit} (h : Entered env s target decision res s') : SameClock s s' :=
  ⟨h.observingSince, h.policy⟩

omit [Float64 F] in
theorem SameClock.trans {s₁ s₂ s₃ : System F} (h : SameClock s₁ s₂) (h' : SameClock s₂ s₃) :
    SameClock s₁ s₃ :=
  ⟨h'.since.trans h.since, h'.policy.trans h.policy⟩

omit [Float64 F] in
theorem SameClock.bumped (s : System F) (c : Classification) : SameClock s (s.bumped c) := by
  cases c <;> exact ⟨rfl, rfl⟩

theorem Recorded.sameClock {res : Except RolloutError State}
    (h : Recorded env wr now s res s') : SameClock s s' := by
  have hclassified {course : Course} {s₁ : System F} (h : Classified env wr now s course s₁) :
      SameClock s s₁ := (SameClock.bumped s _).trans h.entered.sameClock
  have hdecided {course : Course} {s₂ : System F} (h : Decided env wr now s course s₂) :
      SameClock s s₂ := by
    obtain ⟨s₁, hclass, hentered⟩ := h.classified
    exact (hclassified hclass).trans hentered.sameClock
  cases h with
  | refused _ => exact ⟨rfl, rfl⟩
  | late _ _ hentered => exact ⟨hentered.observingSince, hentered.policy⟩
  | unknown _ _ _ => exact ⟨rfl, rfl⟩
  | unclassified _ _ _ hentered => exact (SameClock.bumped s _).trans hentered.sameClock
  | awaiting h _ hentered => exact (hclassified h).trans hentered.sameClock
  | undecided h _ hentered => exact (hclassified h).trans hentered.sameClock
  | paused h _ => exact hdecided h
  | applied h _ _ hentered =>
      exact (hdecided h).trans ⟨hentered.observingSince, hentered.policy⟩
  | failed h _ _ hentered =>
      exact (hdecided h).trans ⟨hentered.observingSince, hentered.policy⟩

/-- Only `MarkDeployed` sets the clock, and no call the policy. -/
theorem Stepped.clock {call : Call F} (h : Stepped env s call s') :
    s'.rollout.policy = s.rollout.policy ∧
      ((∀ now, call ≠ .markDeployed now) →
        s'.rollout.observingSince = s.rollout.observingSince) := by
  cases h with
  | finalized => exact ⟨rfl, fun _ => rfl⟩
  | entered _ h => exact ⟨h.policy, fun _ => h.observingSince⟩
  | clocked h => exact ⟨h.policy, fun hother => absurd rfl (hother _)⟩
  | recorded h => exact ⟨h.sameClock.policy, fun _ => h.sameClock.since⟩

theorem System.policy_run (calls : List (Call F)) :
    (s.run env calls).rollout.policy = s.rollout.policy := by
  induction calls generalizing s with
  | nil => rfl
  | cons call calls ih => exact ih.trans (s.stepped env call).clock.1

theorem System.observingSince_run (h : ∀ now, .markDeployed now ∉ calls) :
    (s.run env calls).rollout.observingSince = s.rollout.observingSince := by
  induction calls generalizing s with
  | nil => rfl
  | cons call calls ih =>
      refine (ih fun now hmem => h now (List.mem_cons_of_mem _ hmem)).trans ?_
      exact (s.stepped env call).clock.2 fun now hcall => h now (hcall ▸ List.mem_cons_self)

/-- The clock starts with the observation, if `MarkDeployed` returns no error and is not
    called again. -/
theorem Deployed.observingSince (h : Deployed env s calls before deployed after)
    (hok : (Rollout.markDeployed env deployed (s.run env before)).1 = .ok ())
    (honce : ∀ now, .markDeployed now ∉ after) :
    (s.run env calls).rollout.observingSince = deployed := by
  have hclock : ((s.run env before).after env (.markDeployed deployed)).rollout.observingSince =
      deployed := by
    refine wp_result (m := Rollout.markDeployed env deployed) (s := s.run env before)
      (W := fun res s' => res = .ok () → s'.rollout.observingSince = deployed)
      (wp_bind (Rollout.wp_transitionLocked (fun s₁ _ _ => rfl) fun err s' _ herr => ?_)) hok
    cases herr
  rw [h.calls, System.run_append]
  exact (System.observingSince_run (s := (s.run env before).after env (.markDeployed deployed))
    honce).trans hclock

end PassionProjects.ReleaseGuard
