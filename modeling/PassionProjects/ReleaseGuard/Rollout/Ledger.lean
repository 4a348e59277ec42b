/-
  PassionProjects.ReleaseGuard.Rollout.Ledger

  What holds of the audit trail and of the actions after any calls and with any
  failures: the events lead from PENDING to the current state by allowed transitions,
  the decision is on one of them, and there is at most one action.
-/

import PassionProjects.Lib.Transition
import PassionProjects.ReleaseGuard.Rollout.Step

namespace PassionProjects.ReleaseGuard

open Transition

variable {F : Type}

namespace State

/-- The states before a decision. -/
def Active (state : State) : Prop := state ∈ [pending, deploying] ++ observingStates

instance (state : State) : Decidable state.Active := inferInstanceAs (Decidable (_ ∈ _))

theorem active_of_observing {state : State} (h : state ∈ observingStates) : state.Active :=
  List.mem_append_right _ h

/-- No transition leads back to a state before the decision. -/
theorem active_of_allowed {source target : State} (h : target ∈ allowedTransitions source)
    (hactive : target.Active) : source.Active := by
  cases source <;> cases target <;> revert h hactive <;> decide

end State

/-- The events that `Audit.Record` was called with. -/
def System.events (s : System F) : List Event := s.history.records.map Prod.fst

theorem System.moved_events (s : System F) (event : Event) (err : Option String) :
    (s.moved event err).events = s.events ++ [event] := List.map_append

/-- What a course decides is no state before the decision. -/
theorem Policy.course_decides {p : Policy F} {c : Classification} {course : Course}
    (h : p.course c = some course) : ¬ course.target.Active := by
  have hinactive : ∀ state ∈ [State.promoting, .rollingBack, .paused], ¬ state.Active := by
    decide
  exact hinactive _ (Policy.course_allowed h).2.2.2.2

structure Ledger (s : System F) : Prop where
  trail : Trail Event.fromState Event.toState (fun source target =>
    target ∈ allowedTransitions source) .pending s.events s.rollout.state
  decisions : s.events.filterMap Event.decision = s.rollout.finalDecision.toList
  undecided : s.rollout.state.Active → s.rollout.finalDecision = none
  idle : s.rollout.state.Active → s.history.actions = []
  once : s.history.actions.length ≤ 1

namespace Ledger

variable {s s' : System F} {target : State} {decision : Decision}

theorem new (id : String) (policy : Policy F) : Ledger (System.new id policy) :=
  ⟨rfl, rfl, fun _ => rfl, fun _ => rfl, Nat.zero_le 1⟩

theorem bumped (h : Ledger s) (c : Classification) : Ledger (s.bumped c) := by
  obtain ⟨htrail, hdecisions, hundecided, hidle, honce⟩ := h
  cases c <;> exact ⟨htrail, hdecisions, hundecided, hidle, honce⟩

/-- A transition without a decision. -/
theorem moved (h : Ledger s) {event : Event} (hmoves : Moves s.rollout target none event)
    (err : Option String) : Ledger (s.moved event err) := by
  have hactive : event.toState.Active → s.rollout.state.Active :=
    State.active_of_allowed (hmoves.toState ▸ hmoves.allowed)
  refine ⟨?_, ?_, fun hto => ?_, fun hto => h.idle (hactive hto), h.once⟩
  · rw [System.moved_events]
    exact h.trail.concat hmoves.fromState (hmoves.toState ▸ hmoves.allowed)
  · rw [System.moved_events, List.filterMap_append, h.decisions]
    simp [System.moved, hmoves.decision]
  · show (event.decision <|> s.rollout.finalDecision) = none
    rw [hmoves.decision, h.undecided (hactive hto)]
    rfl

/-- The transition that decides. -/
theorem decided (h : Ledger s) {event : Event} (hactive : s.rollout.state.Active)
    (htarget : ¬ target.Active) (hmoves : Moves s.rollout target (some decision) event)
    (err : Option String) : Ledger (s.moved event err) := by
  have hto : ¬ event.toState.Active := hmoves.toState ▸ htarget
  refine ⟨?_, ?_, fun hto' => absurd hto' hto, fun hto' => absurd hto' hto, h.once⟩
  · rw [System.moved_events]
    exact h.trail.concat hmoves.fromState (hmoves.toState ▸ hmoves.allowed)
  · rw [System.moved_events, List.filterMap_append, h.decisions, h.undecided hactive]
    simp [System.moved, hmoves.decision]

theorem acted (h : Ledger s) (hidle : s.history.actions = []) (hstate : ¬ s.rollout.state.Active)
    (effect : Effect) (err : Option String) : Ledger (s.acted effect err) := by
  refine ⟨h.trail, h.decisions, fun hactive => absurd hactive hstate,
    fun hactive => absurd hactive hstate, ?_⟩
  show (s.history.actions ++ [(effect, err)]).length ≤ 1
  rw [hidle]
  exact Nat.le_refl 1

variable [Float64 F] {env : Environment F} {res : Except RolloutError Unit}

theorem entered (h : Ledger s) (hentered : Entered env s target none res s') : Ledger s' := by
  cases hentered with
  | illegal _ => exact h
  | unrecorded hmoves _ => exact h.moved hmoves _
  | recorded hmoves _ => exact h.moved hmoves _

theorem enteredDecided (h : Ledger s) (hactive : s.rollout.state.Active)
    (htarget : ¬ target.Active) (hentered : Entered env s target (some decision) res s') :
    Ledger s' := by
  cases hentered with
  | illegal _ => exact h
  | unrecorded hmoves _ => exact h.decided hactive htarget hmoves _
  | recorded hmoves _ => exact h.decided hactive htarget hmoves _

variable {wr : WindowResult F} {now : Int} {course : Course} {s₁ s₂ : System F}

theorem classified (h : Ledger s) (hclassified : Classified env wr now s course s₁) :
    Ledger s₁ ∧ s₁.rollout.state.Active := by
  refine ⟨(h.bumped _).entered hclassified.entered, ?_⟩
  rw [hclassified.entered.state_of_ok.2]
  exact State.active_of_observing (Policy.course_allowed hclassified.leads).2.1

theorem decidedFor (h : Ledger s) (hdecided : Decided env wr now s course s₂) :
    Ledger s₂ ∧ s₂.history.actions = [] ∧ ¬ s₂.rollout.state.Active := by
  obtain ⟨s₁, hclassified, hentered⟩ := hdecided.classified
  obtain ⟨hledger, hactive⟩ := h.classified hclassified
  have htarget := (Policy.course_decides hclassified.leads)
  refine ⟨hledger.enteredDecided hactive htarget hentered, ?_, ?_⟩
  · rw [hentered.actions, hledger.idle hactive]
  · rw [hentered.state_of_ok.2]
    exact htarget

/-- A window keeps the ledger. -/
theorem recorded (h : Ledger s) {res : Except RolloutError State}
    (hrecorded : Recorded env wr now s res s') : Ledger s' := by
  cases hrecorded with
  | refused _ => exact h
  | late hobserving _ hentered =>
      have hcounted : Ledger s.counted := h.bumped (.other "" (by simp))
      exact hcounted.enteredDecided (State.active_of_observing hobserving) (by decide) hentered
  | unknown _ _ _ => exact h.bumped (.other "" (by simp))
  | unclassified _ _ _ hentered => exact (h.bumped _).entered hentered
  | awaiting hclassified _ hentered => exact (h.classified hclassified).1.entered hentered
  | undecided hclassified _ hentered =>
      obtain ⟨hledger, hactive⟩ := h.classified hclassified
      exact hledger.enteredDecided hactive (Policy.course_decides hclassified.leads) hentered
  | paused hdecided _ => exact (h.decidedFor hdecided).1
  | applied hdecided _ _ hentered =>
      obtain ⟨hledger, hidle, hstate⟩ := h.decidedFor hdecided
      exact (hledger.acted hidle hstate _ _).entered hentered
  | failed hdecided _ _ hentered =>
      obtain ⟨hledger, hidle, hstate⟩ := h.decidedFor hdecided
      exact (hledger.acted hidle hstate _ _).entered hentered

/-- Every call keeps the ledger. -/
theorem after (h : Ledger s) (call : Call F) : Ledger (s.after env call) := by
  cases call with
  | start now =>
      obtain ⟨_, hentered⟩ := s.after_start env now
      exact h.entered hentered
  | markDeployed now =>
      rcases s.after_markDeployed env now with
        ⟨_, hentered⟩ | ⟨s₁, hentered, hafter⟩
      · exact h.entered hentered
      · rw [hafter]
        obtain ⟨htrail, hdecisions, hundecided, hidle, honce⟩ := h.entered hentered
        exact ⟨htrail, hdecisions, hundecided, hidle, honce⟩
  | recordWindow wr now =>
      obtain ⟨_, hrecorded⟩ := s.after_recordWindow env now wr
      exact h.recorded hrecorded
  | finalize now =>
      rcases s.after_finalize env now with hafter | ⟨-, _, hentered⟩
      · rw [hafter]
        exact h
      · exact h.entered hentered

/-- Every run keeps the ledger. -/
theorem run (h : Ledger s) (calls : List (Call F)) : Ledger (s.run env calls) := by
  induction calls generalizing s with
  | nil => exact h
  | cons call calls ih => exact ih (h.after call)

end Ledger

end PassionProjects.ReleaseGuard
