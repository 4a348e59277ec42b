/-
  PassionProjects.Lib.Faults

  Programs that run against a faulty environment, and the weakest-precondition
  rules they are verified with.

  A program is a sequence of steps on a state `σ`.  Before each step the
  environment picks a `Fault`: the step happens, it returns an error (possibly
  after part of its effect), or the process stops there.  A `Policy` says which
  faults may strike which step, so that "no step of this kind fails" is a
  choice of policy and not a hypothesis on a run.

  `Prog.wp pol p Q C s` says: started in `s`, whatever the environment does
  within `pol`, a run of `p` that returns satisfies `Q`, and a run that is
  stopped leaves a state that satisfies the crash condition `C`.
-/

import Mathlib.Logic.Basic

namespace PassionProjects.Faults

/-- What the environment does to one step of a program.  The number says how
    much of the step's effect has happened when it fails or the process stops;
    each step gives it its own meaning. -/
inductive Fault where
  | none
  | error (n : Nat)
  | crash (n : Nat)
  deriving DecidableEq, Repr

/-- Which faults may strike an operation `o`, seen from the state before it. -/
abbrev Policy (ω σ : Type) := σ → ω → Fault → Bool

/-- How a run ends: it returns a value, or the process stops on the way. -/
inductive Outcome (σ α : Type) where
  | done (a : α) (s : σ) (env : List Fault)
  | crashed (s : σ)
  deriving Repr

/-- A run ends as described by `Q` (it returned) or by `C` (it was stopped). -/
def Outcome.Sat {σ α : Type} (Q : α → σ → Prop) (C : σ → Prop) : Outcome σ α → Prop
  | .done a s _ => Q a s
  | .crashed s => C s

/-- What a run returned, if it was not stopped. -/
def Outcome.returned {σ α : Type} : Outcome σ α → Option (α × σ × List Fault)
  | .done a s env => some (a, s, env)
  | .crashed _ => none

theorem Outcome.returned_eq_some {σ α : Type} {o : Outcome σ α} {a : α} {s : σ} {env : List Fault} :
    o.returned = some (a, s, env) ↔ o = .done a s env := by
  cases o with
  | done a' s' env' => simp [Outcome.returned]
  | crashed s' => simp [Outcome.returned]

/-- A program over states `σ` whose steps are named by `ω`.  It consumes the
    environment's choices from a list; an exhausted list means no more faults. -/
def Prog (ω σ α : Type) := Policy ω σ → List Fault → σ → Outcome σ α

variable {ω σ α β : Type}

namespace Prog

/-- Return a value without taking a step. -/
protected def pure (a : α) : Prog ω σ α := fun _ env s => .done a s env

/-- Run `p`, then `f` on its result; a stopped `p` stops the whole program. -/
protected def bind (p : Prog ω σ α) (f : α → Prog ω σ β) : Prog ω σ β := fun pol env s =>
  match p pol env s with
  | .done a s env => f a pol env s
  | .crashed s => .crashed s

instance : Monad (Prog ω σ) where
  pure := Prog.pure
  bind := Prog.bind

/-- The fault that strikes `o` next: a choice the policy forbids does nothing. -/
def nextFault (pol : Policy ω σ) (o : ω) (s : σ) : List Fault → Fault
  | [] => .none
  | f :: _ => if pol s o f then f else .none

/-- One step: `run f` is its effect under fault `f`.  Under `.crash` only the
    state it leaves matters. -/
def step (o : ω) (run : Fault → σ → α × σ) : Prog ω σ α := fun pol env s =>
  match nextFault pol o s env with
  | .crash n => .crashed (run (.crash n) s).2
  | f => .done (run f s).1 (run f s).2 env.tail

/-- Look at the state; no fault can strike. -/
def read (f : σ → α) : Prog ω σ α := fun _ env s => .done (f s) s env

/-- Update bookkeeping state; no fault can strike. -/
def modify (f : σ → σ) : Prog ω σ Unit := fun _ env s => .done () (f s) env

/-- The process is killed here, whatever the environment does. -/
def halt : Prog ω σ α := fun _ _ s => .crashed s

/-- Whatever the environment does within `pol`, `p` started in `s` returns with
    `Q` or is stopped with `C`. -/
def wp (pol : Policy ω σ) (p : Prog ω σ α) (Q : α → σ → Prop) (C : σ → Prop) (s : σ) : Prop :=
  ∀ env, (p pol env s).Sat Q C

variable {pol : Policy ω σ} {Q Q' : α → σ → Prop} {C C' : σ → Prop} {s : σ}

theorem wp_pure {a : α} : wp pol (pure a) Q C s ↔ Q a s :=
  ⟨fun h => h [], fun h _ => h⟩

theorem wp_read {f : σ → α} : wp pol (read f) Q C s ↔ Q (f s) s :=
  ⟨fun h => h [], fun h _ => h⟩

theorem wp_modify {f : σ → σ} {Q : Unit → σ → Prop} :
    wp pol (modify f) Q C s ↔ Q () (f s) :=
  ⟨fun h => h [], fun h _ => h⟩

/-- The sequencing rule: the rest of the program is verified from every state
    the first part can return in, with the same crash condition. -/
theorem wp_bind {p : Prog ω σ α} {f : α → Prog ω σ β} {Q : β → σ → Prop}
    (h : wp pol p (fun a s' => wp pol (f a) Q C s') C s) :
    wp pol (p >>= f) Q C s := by
  intro env
  have hp := h env
  show (Prog.bind p f pol env s).Sat Q C
  unfold Prog.bind
  cases hrun : p pol env s with
  | done a s' env' => rw [hrun] at hp; exact hp env'
  | crashed s' => rw [hrun] at hp; exact hp

/-- The fault that strikes a step is one its policy lets through. -/
theorem nextFault_allowed (pol : Policy ω σ) (o : ω) (s : σ) (env : List Fault) :
    nextFault pol o s env = .none ∨ pol s o (nextFault pol o s env) = true := by
  cases env with
  | nil => exact Or.inl rfl
  | cons f env =>
      by_cases hf : pol s o f = true
      · exact Or.inr (by simp [nextFault, hf])
      · exact Or.inl (by simp [nextFault, hf])

/-- The step rule: one obligation for each kind of fault the policy lets through. -/
theorem wp_step {o : ω} {run : Fault → σ → α × σ}
    (hok : Q (run .none s).1 (run .none s).2)
    (herr : ∀ n, pol s o (.error n) = true → Q (run (.error n) s).1 (run (.error n) s).2)
    (hcrash : ∀ n, pol s o (.crash n) = true → C (run (.crash n) s).2) :
    wp pol (step o run) Q C s := by
  intro env
  have hallowed := nextFault_allowed pol o s env
  unfold step
  cases hf : nextFault pol o s env with
  | none => exact hok
  | error n => exact herr n (by simpa [hf] using hallowed)
  | crash n => exact hcrash n (by simpa [hf] using hallowed)

/-- Weaken the postcondition and the crash condition. -/
theorem wp_mono {p : Prog ω σ α} (h : wp pol p Q C s)
    (hQ : ∀ a s', Q a s' → Q' a s') (hC : ∀ s', C s' → C' s') :
    wp pol p Q' C' s := by
  intro env
  have hp := h env
  cases hrun : p pol env s with
  | done a s' env' => rw [hrun] at hp; exact hQ a s' hp
  | crashed s' => rw [hrun] at hp; exact hC s' hp

/-- Two facts about the same run hold together. -/
theorem wp_and {p : Prog ω σ α} (h : wp pol p Q C s) (h' : wp pol p Q' C' s) :
    wp pol p (fun a s' => Q a s' ∧ Q' a s') (fun s' => C s' ∧ C' s') s := by
  intro env
  have hp := h env
  have hp' := h' env
  cases hrun : p pol env s with
  | done a s' env' => rw [hrun] at hp hp'; exact ⟨hp, hp'⟩
  | crashed s' => rw [hrun] at hp hp'; exact ⟨hp, hp'⟩

/-- What a weakest precondition says about a run that returned. -/
theorem wp_done {p : Prog ω σ α} (h : wp pol p Q C s) {env env' : List Fault} {a : α} {s' : σ}
    (hrun : p pol env s = .done a s' env') : Q a s' := by
  have hp := h env
  rw [hrun] at hp
  exact hp

/-- What a weakest precondition says about a run that was stopped. -/
theorem wp_crashed {p : Prog ω σ α} (h : wp pol p Q C s) {env : List Fault} {s' : σ}
    (hrun : p pol env s = .crashed s') : C s' := by
  have hp := h env
  rw [hrun] at hp
  exact hp

/-- The environment may stop the process somewhere. -/
def MayStop (pol : Policy ω σ) : Prop := ∃ s o n, pol s o (.crash n) = true

/-- Whatever the environment does, `p` leaves alone what `f` reads of the state. -/
def Keeps {γ : Type} (f : σ → γ) (p : Prog ω σ α) : Prop :=
  ∀ pol s, wp pol p (fun _ s' => f s' = f s) (fun s' => f s' = f s ∧ MayStop pol) s

variable {γ : Type} {f : σ → γ}

theorem keeps_pure (a : α) : Keeps f (pure a : Prog ω σ α) := fun _ _ => wp_pure.mpr rfl

theorem keeps_read (r : σ → α) : Keeps f (read r : Prog ω σ α) := fun _ _ => wp_read.mpr rfl

theorem keeps_modify {r : σ → σ} (h : ∀ s, f (r s) = f s) : Keeps f (modify r : Prog ω σ Unit) :=
  fun _ s => wp_modify.mpr (h s)

theorem keeps_step {o : ω} {run : Fault → σ → α × σ} (h : ∀ fault s, f (run fault s).2 = f s) :
    Keeps f (step o run) :=
  fun _ s => wp_step (h _ s) (fun _ _ => h _ s) fun _ hn => ⟨h _ s, _, _, _, hn⟩

theorem keeps_bind {p : Prog ω σ α} {g : α → Prog ω σ β} (hp : Keeps f p)
    (hg : ∀ a, Keeps f (g a)) : Keeps f (p >>= g) := by
  intro pol s
  refine wp_bind (wp_mono (hp pol s) ?_ fun _ h => h)
  intro a s' hs
  rw [← hs]
  exact hg a pol s'

/-- Whatever the environment does, `p` keeps `I`, also where it is stopped. -/
def Preserves (I : σ → Prop) (p : Prog ω σ α) : Prop :=
  ∀ pol s, I s → wp pol p (fun _ => I) I s

variable {I : σ → Prop}

theorem preserves_pure (a : α) : Preserves I (pure a : Prog ω σ α) :=
  fun _ _ hs => wp_pure.mpr hs

theorem preserves_read (r : σ → α) : Preserves I (read r : Prog ω σ α) :=
  fun _ _ hs => wp_read.mpr hs

theorem preserves_modify {r : σ → σ} (h : ∀ s, I s → I (r s)) :
    Preserves I (modify r : Prog ω σ Unit) := fun _ s hs => wp_modify.mpr (h s hs)

theorem preserves_step {o : ω} {run : Fault → σ → α × σ}
    (h : ∀ fault s, I s → I (run fault s).2) : Preserves I (step o run) :=
  fun _ s hs => wp_step (h _ s hs) (fun _ _ => h _ s hs) fun _ _ => h _ s hs

theorem preserves_bind {p : Prog ω σ α} {g : α → Prog ω σ β} (hp : Preserves I p)
    (hg : ∀ a, Preserves I (g a)) : Preserves I (p >>= g) := fun pol s hs =>
  wp_bind (wp_mono (hp pol s hs) (fun a s' => hg a pol s') fun _ => id)

/-- Whatever the environment does, what `p` returns satisfies `R`. -/
def Returns (R : α → Prop) (p : Prog ω σ α) : Prop :=
  ∀ pol s, wp pol p (fun a _ => R a) (fun _ => True) s

variable {R : α → Prop}

theorem returns_any (p : Prog ω σ α) : Returns (fun _ => True) p := by
  intro pol s env
  cases p pol env s with
  | done a s' env' => trivial
  | crashed s' => trivial

theorem returns_pure {a : α} (h : R a) : Returns R (pure a : Prog ω σ α) :=
  fun _ _ => wp_pure.mpr h

theorem returns_bind {S : β → Prop} {p : Prog ω σ α} {g : α → Prog ω σ β} (hp : Returns R p)
    (hg : ∀ a, R a → Returns S (g a)) : Returns S (p >>= g) := fun pol s =>
  wp_bind (wp_mono (hp pol s) (fun a s' ha => hg a ha pol s') fun _ => id)

end Prog

end PassionProjects.Faults
