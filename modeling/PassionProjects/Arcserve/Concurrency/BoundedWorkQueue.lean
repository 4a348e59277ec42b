/-
  PassionProjects.Arcserve.Concurrency.BoundedWorkQueue

  The bounded task queue (`bounded_work_queue.cpp`), one mutex section a function.

  A blocking `push` that finds no room is a step that cannot be taken yet.
-/

import Mathlib.Data.List.Basic

namespace PassionProjects.Arcserve.Concurrency

structure BoundedWorkQueue (τ : Type) where
  capacity : Nat
  tasks : List τ := []
  closed : Bool := false
  deriving DecidableEq, Repr

namespace BoundedWorkQueue

variable {τ : Type}

/-- `try_push`. -/
def tryPush (q : BoundedWorkQueue τ) (task : τ) : Bool × BoundedWorkQueue τ :=
  if q.closed ∨ q.tasks.length ≥ q.capacity then (false, q)
  else (true, { q with tasks := q.tasks ++ [task] })

/-- `push`: none while it has to wait. -/
def push (q : BoundedWorkQueue τ) (task : τ) : Option (Bool × BoundedWorkQueue τ) :=
  if q.closed then some (false, q)
  else if q.tasks.length < q.capacity then some (true, { q with tasks := q.tasks ++ [task] })
  else none

/-- `pop` of a task. -/
def pop (q : BoundedWorkQueue τ) : Option (τ × BoundedWorkQueue τ) :=
  match q.tasks with
  | [] => none
  | task :: rest => some (task, { q with tasks := rest })

/-- `drain`. -/
def drain (q : BoundedWorkQueue τ) : List τ × BoundedWorkQueue τ :=
  (q.tasks, { q with tasks := [] })

/-- `close`. -/
def close (q : BoundedWorkQueue τ) : BoundedWorkQueue τ := { q with closed := true }

theorem tryPush_cases (q : BoundedWorkQueue τ) (task : τ) :
    q.tryPush task = (false, q) ∨
      q.tryPush task = (true, { q with tasks := q.tasks ++ [task] }) := by
  unfold tryPush
  split
  · exact Or.inl rfl
  · exact Or.inr rfl

/-- A push that went through: the queue is closed, or the task is behind the others. -/
theorem push_cases {q q' : BoundedWorkQueue τ} {task : τ} {queued : Bool}
    (h : q.push task = some (queued, q')) :
    (queued = false ∧ q.closed = true ∧ q' = q) ∨
      (queued = true ∧ q.closed = false ∧ q' = { q with tasks := q.tasks ++ [task] }) := by
  unfold push at h
  split at h
  · obtain ⟨rfl, rfl⟩ := Prod.mk.inj (Option.some.inj h)
    exact Or.inl ⟨rfl, ‹_›, rfl⟩
  · split at h
    · obtain ⟨rfl, rfl⟩ := Prod.mk.inj (Option.some.inj h)
      exact Or.inr ⟨rfl, Bool.eq_false_iff.mpr ‹_›, rfl⟩
    · exact absurd h (by simp)

/-- A push waits only at a full queue that is open. -/
theorem push_eq_none {q : BoundedWorkQueue τ} {task : τ} :
    q.push task = none ↔ q.closed = false ∧ q.capacity ≤ q.tasks.length := by
  unfold push
  split
  · simp_all
  · split
    · simp_all
    · simp_all

theorem pop_eq_some {q q' : BoundedWorkQueue τ} {task : τ} (h : q.pop = some (task, q')) :
    q.tasks = task :: q'.tasks ∧ q'.capacity = q.capacity ∧ q'.closed = q.closed := by
  unfold pop at h
  split at h
  · exact absurd h (by simp)
  · obtain ⟨rfl, rfl⟩ := Prod.mk.inj (Option.some.inj h)
    exact ⟨‹_›, rfl, rfl⟩

end BoundedWorkQueue

end PassionProjects.Arcserve.Concurrency
