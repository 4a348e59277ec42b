/-
  PassionProjects.Lib.Generators

  Generators as machines: one turn yields an element, goes on without one, or raises.
  `next` is within a number of turns; a generator streams `f` when its elements are those
  of `f`, each after finitely many turns.
-/

import Mathlib.Logic.Relation
import Mathlib.Tactic.Choose

namespace PassionProjects.Generators

/-- What one turn comes to. -/
inductive Turn (ε σ α : Type) where
  | yield (a : α) (s : σ)
  | pass (s : σ)
  | raise (e : ε) (s : σ)

section

variable {ε σ α : Type} (turn : σ → Turn ε σ α)

/-- The next element, or what is raised, within so many turns. -/
def next : Nat → σ → Option (Except ε α × σ)
  | 0, _ => none
  | turns + 1, s =>
      match turn s with
      | .yield a s' => some (.ok a, s')
      | .pass s' => next turns s'
      | .raise e s' => some (.error e, s')

/-- The next element after finitely many turns. -/
def Yields (s : σ) (a : α) (s' : σ) : Prop := ∃ turns, next turn turns s = some (.ok a, s')

/-- The elements from here on. -/
def Streams (s : σ) (f : Nat → α) : Prop :=
  ∃ t : Nat → σ, t 0 = s ∧ ∀ n, Yields turn (t n) (f n) (t (n + 1))

/-- Turns without an element. -/
def Passes : σ → σ → Prop := Relation.ReflTransGen fun s s' => turn s = .pass s'

variable {turn} {s s' : σ} {a : α} {f : Nat → α}

theorem next_mono {r : Except ε α × σ} {turns more : Nat} (h : next turn turns s = some r)
    (hle : turns ≤ more) : next turn more s = some r := by
  induction turns generalizing s more with
  | zero => exact nomatch h
  | succ turns ih =>
      obtain ⟨more, rfl⟩ := Nat.exists_eq_add_of_le' (Nat.zero_lt_of_lt hle)
      unfold next at h ⊢
      cases hturn : turn s with
      | yield a s' => rwa [hturn] at h
      | pass s' =>
          rw [hturn] at h
          exact ih h (Nat.le_of_succ_le_succ hle)
      | raise e s' => rwa [hturn] at h

theorem yields_of_turn (h : turn s = .yield a s') : Yields turn s a s' :=
  ⟨1, by rw [next, h]⟩

theorem Passes.yields {t : σ} (h : Passes turn s s') (hyields : Yields turn s' a t) :
    Yields turn s a t := by
  induction h using Relation.ReflTransGen.head_induction_on with
  | refl => exact hyields
  | head hpass _ ih =>
      obtain ⟨turns, hturns⟩ := ih
      exact ⟨turns + 1, by rw [next, hpass]; exact hturns⟩

/-- The first element, and the stream of the others. -/
theorem Streams.next (h : Streams turn s f) :
    ∃ s', Yields turn s (f 0) s' ∧ Streams turn s' fun i => f (i + 1) := by
  obtain ⟨t, rfl, hf⟩ := h
  exact ⟨t 1, hf 0, fun n => t (n + 1), rfl, fun n => hf (n + 1)⟩

theorem Passes.streams (h : Passes turn s s') (hstreams : Streams turn s' f) :
    Streams turn s f := by
  obtain ⟨t, ht, hf⟩ := hstreams
  refine ⟨fun n => if n = 0 then s else t n, if_pos rfl, fun n => ?_⟩
  cases n with
  | zero => exact h.yields (ht ▸ hf 0)
  | succ n => exact hf (n + 1)

/-- An invariant that names the next element gives the stream. -/
theorem streams_of_invariant {I : σ → Nat → Prop} {n : Nat} (hinit : I s n)
    (hstep : ∀ s n, I s n → ∃ s', Yields turn s (f n) s' ∧ I s' (n + 1)) :
    Streams turn s fun i => f (n + i) := by
  choose g hyields hkeeps using hstep
  let rest : (i : Nat) → { t : σ // I t (n + i) } := fun i =>
    Nat.rec ⟨s, hinit⟩ (fun i t => ⟨g t.1 (n + i) t.2, hkeeps t.1 (n + i) t.2⟩) i
  exact ⟨fun i => (rest i).1, rfl, fun i => hyields (rest i).1 (n + i) (rest i).2⟩

end

end PassionProjects.Generators
