/-
  PassionProjects.Lib.Transition

  Labelled transition systems, their runs, and forward simulations; states reached by steps
  that a guard permits, and what all of them satisfy; runs that never end, and what a fair
  one comes to; trails of steps that were written down.

  A run is the list of the labels it shows with the states it reaches.  An abstract system
  `Follows` a run when it can show the same labels and agrees with the concrete system after
  each of them.  A `Simulation` is proved for one step and gives this for every run.
-/

import Mathlib.Data.List.Basic
import Mathlib.Data.List.Induction

namespace PassionProjects.Transition

variable {σ α : Type}

/-- Reached from an initial state by steps whose action was permitted in the state
    before. -/
inductive Reached (init : σ → Prop) (step : σ → α → Option σ) (permits : σ → α → Prop) :
    σ → Prop where
  | start {s : σ} : init s → Reached init step permits s
  | next {s s' : σ} {a : α} :
      Reached init step permits s → permits s a → step s a = some s' →
        Reached init step permits s'

namespace Reached

variable {init : σ → Prop} {step : σ → α → Option σ} {permits permits' : σ → α → Prop} {s : σ}

/-- What holds at first and is kept by every permitted step holds of every state reached. -/
theorem invariant {I : σ → Prop} (hinit : ∀ s, init s → I s)
    (hstep : ∀ s a s', I s → permits s a → step s a = some s' → I s')
    (h : Reached init step permits s) : I s := by
  induction h with
  | start hs => exact hinit _ hs
  | next _ hpermits hs ih => exact hstep _ _ _ ih hpermits hs

/-- The same with an invariant that is known already. -/
theorem invariant_of {I J : σ → Prop} (hJ : ∀ s, Reached init step permits s → J s)
    (hinit : ∀ s, init s → I s)
    (hstep : ∀ s a s', J s → I s → permits s a → step s a = some s' → I s')
    (h : Reached init step permits s) : I s := by
  induction h with
  | start hs => exact hinit _ hs
  | next hr hpermits hs ih => exact hstep _ _ _ (hJ _ hr) ih hpermits hs

end Reached

section Actions

variable (step : σ → α → Option σ) (permits : σ → α → Prop) [∀ s a, Decidable (permits s a)]

/-- The state after a list of actions, where all of them are permitted and can be
    taken. -/
def runActions : List α → σ → Option σ
  | [], s => some s
  | a :: rest, s => if permits s a then (step s a).bind (runActions rest) else none

variable {step permits}

theorem Reached.of_actions {init : σ → Prop} {actions : List α} {s s' : σ}
    (hs : Reached init step permits s) (h : runActions step permits actions s = some s') :
    Reached init step permits s' := by
  induction actions generalizing s with
  | nil => exact Option.some.inj h ▸ hs
  | cons a rest ih =>
      unfold runActions at h
      split at h
      · obtain ⟨s₁, hstep, hrest⟩ := Option.bind_eq_some_iff.mp h
        exact ih (.next hs ‹_› hstep) hrest
      · exact absurd h (by simp)

theorem Reached.of_isSome {init : σ → Prop} {actions : List α} {s : σ} (hs : init s)
    (h : (runActions step permits actions s).isSome) :
    Reached init step permits ((runActions step permits actions s).get h) :=
  .of_actions (.start hs) (Option.some_get h).symm

end Actions

-- ============================================================================
-- Runs that never end
-- ============================================================================

structure Execution (init : σ → Prop) (step : σ → α → Option σ) where
  state : Nat → σ
  action : Nat → α
  start : init (state 0)
  next : ∀ n, step (state n) (action n) = some (state (n + 1))

namespace Execution

variable {init : σ → Prop} {step : σ → α → Option σ} (e : Execution init step)

theorem reached (n : Nat) : Reached init step (fun _ _ => True) (e.state n) := by
  induction n with
  | zero => exact .start e.start
  | succ n ih => exact .next ih trivial (e.next n)

/-- An action that can be taken from some time on is taken. -/
def WeaklyFair (a : α) : Prop :=
  ∀ n, (∀ m, n ≤ m → (step (e.state m) a).isSome) → ∃ m, n ≤ m ∧ e.action m = a

/-- What lasts until an action is taken, and lets it be taken, does not last. -/
theorem leadsTo {P Q : σ → Prop} {a : α} (hfair : e.WeaklyFair a)
    (hstep : ∀ n, P (e.state n) → P (e.state (n + 1)) ∨ Q (e.state (n + 1)))
    (henabled : ∀ n, P (e.state n) → (step (e.state n) a).isSome)
    (heffect : ∀ n, P (e.state n) → e.action n = a → Q (e.state (n + 1)))
    {n : Nat} (hP : P (e.state n)) : ∃ m, n ≤ m ∧ Q (e.state m) := by
  by_contra hnone
  have hlasts : ∀ k, P (e.state (n + k)) := by
    intro k
    induction k with
    | zero => exact hP
    | succ k ih =>
        exact (hstep _ ih).resolve_right fun hQ =>
          hnone ⟨n + k + 1, Nat.le_add_right_of_le (Nat.le_add_right n k), hQ⟩
  have hforever : ∀ m, n ≤ m → P (e.state m) := by
    intro m hm
    obtain ⟨k, rfl⟩ := Nat.exists_eq_add_of_le hm
    exact hlasts k
  obtain ⟨m, hm, haction⟩ := hfair n fun m hm => henabled m (hforever m hm)
  exact hnone ⟨m + 1, Nat.le_succ_of_le hm, heffect m (hforever m hm) haction⟩

end Execution

-- ============================================================================
-- Runs of a function
-- ============================================================================

section Throughout

variable (step : σ → α → σ) (P : σ → α → Prop)

/-- `P` holds before every step of a run. -/
def Throughout : σ → List α → Prop
  | _, [] => True
  | s, a :: as => P s a ∧ Throughout (step s a) as

instance Throughout.decidable [∀ s a, Decidable (P s a)] :
    (s : σ) → (as : List α) → Decidable (Throughout step P s as)
  | _, [] => .isTrue trivial
  | s, a :: as => @instDecidableAnd _ _ _ (Throughout.decidable (step s a) as)

variable {step P}

theorem Throughout.append {s : σ} {as bs : List α} :
    Throughout step P s (as ++ bs) ↔
      Throughout step P s as ∧ Throughout step P (as.foldl step s) bs := by
  induction as generalizing s with
  | nil => exact ⟨fun h => ⟨trivial, h⟩, And.right⟩
  | cons a as ih =>
      rw [List.cons_append, Throughout, Throughout, ih, and_assoc, List.foldl_cons]

/-- What holds of the state and of the steps so far, and is kept by every step before
    which `P` holds. -/
theorem Throughout.invariant {I : List α → σ → Prop} {s : σ}
    (hstep : ∀ as a s, I as s → P s a → I (as ++ [a]) (step s a)) (hinit : I [] s)
    {as : List α} (h : Throughout step P s as) : I as (as.foldl step s) := by
  induction as using List.reverseRecOn with
  | nil => exact hinit
  | append_singleton as a ih =>
      obtain ⟨has, hlast, -⟩ := Throughout.append.mp h
      rw [List.foldl_append]
      exact hstep as a _ (ih has) hlast

end Throughout

-- ============================================================================
-- Trails
-- ============================================================================

section Trails

variable {ε : Type} (source target : ε → σ) (allowed : σ → σ → Prop)

/-- The entries of a list lead from one state to another without a gap, each by a step
    that is allowed. -/
def Trail : σ → List ε → σ → Prop
  | s, [], t => s = t
  | s, e :: es, t => source e = s ∧ allowed s (target e) ∧ Trail (target e) es t

variable {source target allowed}

/-- A trail goes on with a step from where it ends. -/
theorem Trail.concat {s t : σ} {es : List ε} {e : ε} (h : Trail source target allowed s es t)
    (hsource : source e = t) (hallowed : allowed t (target e)) :
    Trail source target allowed s (es ++ [e]) (target e) := by
  induction es generalizing s with
  | nil =>
      obtain rfl : s = t := h
      exact ⟨hsource, hallowed, rfl⟩
  | cons e' es ih =>
      obtain ⟨hfirst, hstep, hrest⟩ := h
      exact ⟨hfirst, hstep, ih hrest⟩

end Trails

end PassionProjects.Transition

namespace PassionProjects.Refinement

/-- The steps of a system with states `σ` and labels `ε`. -/
abbrev Steps (σ ε : Type) := σ → ε → σ → Prop

/-- A run from a state: each label with the state after it. -/
inductive Runs {σ ε : Type} (step : Steps σ ε) : σ → List (ε × σ) → Prop where
  | nil (s : σ) : Runs step s []
  | cons {s s' : σ} {e : ε} {rest : List (ε × σ)} :
      step s e s' → Runs step s' rest → Runs step s ((e, s') :: rest)

/-- An abstract system shows the labels of a run, and agrees with it after each. -/
inductive Follows {σ τ ε : Type} (astep : Steps τ ε) (agrees : σ → τ → Prop) :
    τ → List (ε × σ) → Prop where
  | nil (t : τ) : Follows astep agrees t []
  | cons {s : σ} {t t' : τ} {e : ε} {rest : List (ε × σ)} :
      astep t e t' → agrees s t' → Follows astep agrees t' rest →
        Follows astep agrees t ((e, s) :: rest)

variable {σ τ ε : Type}

theorem Follows.uncons {astep : Steps τ ε} {agrees : σ → τ → Prop} {t : τ} {e : ε} {s : σ}
    {rest : List (ε × σ)} (h : Follows astep agrees t ((e, s) :: rest)) :
    ∃ t', astep t e t' ∧ agrees s t' ∧ Follows astep agrees t' rest := by
  cases h with
  | cons hstep hagrees hrest => exact ⟨_, hstep, hagrees, hrest⟩

/-- The state a run ends in. -/
def lastState (s : σ) (run : List (ε × σ)) : σ := (run.getLast?.map Prod.snd).getD s

@[simp] theorem lastState_nil (s : σ) : lastState s ([] : List (ε × σ)) = s := rfl

@[simp] theorem lastState_cons (s s' : σ) (e : ε) (rest : List (ε × σ)) :
    lastState s ((e, s') :: rest) = lastState s' rest := by
  cases rest with
  | nil => rfl
  | cons x xs =>
      have hne : x :: xs ≠ [] := List.cons_ne_nil _ _
      simp [lastState, List.getLast?_eq_some_getLast hne]

@[simp] theorem lastState_concat (s s' : σ) (e : ε) (run : List (ε × σ)) :
    lastState s (run ++ [(e, s')]) = s' := by simp [lastState]

/-- One concrete step is one abstract step. -/
structure Simulation (step : Steps σ ε) (astep : Steps τ ε) (rel agrees : σ → τ → Prop) :
    Prop where
  step : ∀ {s t e s'}, rel s t → step s e s' → ∃ t', astep t e t' ∧ rel s' t'
  agrees : ∀ {s t}, rel s t → agrees s t

theorem Runs.append {step : Steps σ ε} {s : σ} {xs ys : List (ε × σ)} :
    Runs step s (xs ++ ys) ↔ Runs step s xs ∧ Runs step (lastState s xs) ys := by
  induction xs generalizing s with
  | nil => exact ⟨fun h => ⟨.nil s, h⟩, fun h => h.2⟩
  | cons x xs ih =>
      obtain ⟨e, s'⟩ := x
      rw [List.cons_append, lastState_cons]
      constructor
      · rintro (_ | ⟨hstep, hrest⟩)
        obtain ⟨hxs, hys⟩ := ih.mp hrest
        exact ⟨.cons hstep hxs, hys⟩
      · rintro ⟨_ | ⟨hstep, hxs⟩, hys⟩
        exact .cons hstep (ih.mpr ⟨hxs, hys⟩)

namespace Simulation

variable {step : Steps σ ε} {astep : Steps τ ε} {rel agrees : σ → τ → Prop}

/-- Every run is followed. -/
theorem follows (h : Simulation step astep rel agrees) {s : σ} {t : τ} (hrel : rel s t)
    {run : List (ε × σ)} (hrun : Runs step s run) : Follows astep agrees t run := by
  induction hrun generalizing t with
  | nil s => exact .nil t
  | cons hstep hrest ih =>
      obtain ⟨t', hastep, hrel'⟩ := h.step hrel hstep
      exact .cons hastep (h.agrees hrel') (ih hrel')

/-- Every state a run reaches is related to some abstract state. -/
theorem reaches (h : Simulation step astep rel agrees) {s : σ} {t : τ} (hrel : rel s t)
    {run : List (ε × σ)} (hrun : Runs step s run) : ∃ t', rel (lastState s run) t' := by
  induction hrun generalizing t with
  | nil s => exact ⟨t, hrel⟩
  | cons hstep hrest ih =>
      obtain ⟨t', -, hrel'⟩ := h.step hrel hstep
      rw [lastState_cons]
      exact ih hrel'

/-- Every state on the way is related to some abstract state. -/
theorem related (h : Simulation step astep rel agrees) {s : σ} {t : τ} (hrel : rel s t)
    {run : List (ε × σ)} (hrun : Runs step s run) : ∀ x ∈ run, ∃ t', rel x.2 t' := by
  induction hrun generalizing t with
  | nil s => simp
  | cons hstep hrest ih =>
      obtain ⟨t', -, hrel'⟩ := h.step hrel hstep
      intro x hx
      rcases List.mem_cons.mp hx with rfl | hx
      · exact ⟨t', hrel'⟩
      · exact ih hrel' x hx

/-- Labels that leave the abstract state alone leave the relation as it was. -/
theorem quiet (h : Simulation step astep rel agrees) {s : σ} {t : τ} (hrel : rel s t)
    {run : List (ε × σ)} (hrun : Runs step s run)
    (hquiet : ∀ x ∈ run, ∀ t t', astep t x.1 t' → t' = t) : rel (lastState s run) t := by
  induction hrun with
  | nil s => exact hrel
  | cons hstep hrest ih =>
      obtain ⟨t', hastep, hrel'⟩ := h.step hrel hstep
      rw [hquiet _ (List.mem_cons_self ..) _ _ hastep] at hrel'
      rw [lastState_cons]
      exact ih hrel' fun x hx => hquiet x (List.mem_cons_of_mem _ hx)

/-- What was agreed on before some quiet steps in the middle of a run is agreed on
    after them. -/
theorem unchanged (h : Simulation step astep rel agrees) {s : σ} {t : τ} (hrel : rel s t)
    {pre mid post : List (ε × σ)} {e : ε} {s₁ : σ}
    (hrun : Runs step s (pre ++ (e, s₁) :: (mid ++ post)))
    (hquiet : ∀ x ∈ mid, ∀ t t', astep t x.1 t' → t' = t) :
    ∃ t', agrees s₁ t' ∧ agrees (lastState s₁ mid) t' := by
  obtain ⟨hpre, hrest⟩ := Runs.append.mp hrun
  obtain ⟨t₀, hrel₀⟩ := h.reaches hrel hpre
  cases hrest with
  | cons hstep hrest =>
      obtain ⟨t₁, -, hrel₁⟩ := h.step hrel₀ hstep
      exact ⟨t₁, h.agrees hrel₁, h.agrees (h.quiet hrel₁ (Runs.append.mp hrest).1 hquiet)⟩

end Simulation

end PassionProjects.Refinement
