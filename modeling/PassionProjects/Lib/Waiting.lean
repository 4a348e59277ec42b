/-
  PassionProjects.Lib.Waiting

  Threads that sleep on a condition variable, and what they have in their hands.

  A thread is known by its place in a list, and `asleep` says of its state that it waits
  on the condition variable.  `notifyOne` wakes a sleeper, whichever it is, and is lost
  where there is none; `notifyAll` wakes them all.  What several holders have together is
  a multiset, so that passing an item on leaves it as it is.
-/

import Mathlib.Algebra.BigOperators.Group.Multiset.Basic
import Mathlib.Data.List.Basic

namespace PassionProjects.Waiting

variable {θ : Type} {asleep p : θ → Bool} {wake : θ → θ} {threads threads' : List θ}

def notifyAll (asleep : θ → Bool) (wake : θ → θ) (threads : List θ) : List θ :=
  threads.map fun thread => if asleep thread then wake thread else thread

/-- Wakes the sleeper it is given; without one, nobody may be asleep. -/
def notifyOne (asleep : θ → Bool) (wake : θ → θ) (threads : List θ) : Option Nat → Option (List θ)
  | some i =>
    match threads[i]? with
    | some thread => if asleep thread then some (threads.set i (wake thread)) else none
    | none => none
  | none => if threads.any asleep then none else some threads

/-- One thread goes on to another state. -/
theorem countP_set {i : Nat} {old : θ} (hi : threads[i]? = some old) (p : θ → Bool) (new : θ) :
    (threads.set i new).countP p + (p old).toNat = threads.countP p + (p new).toNat := by
  induction threads generalizing i with
  | nil => exact absurd hi (by simp)
  | cons first rest ih =>
      cases i with
      | zero =>
          obtain rfl := Option.some.inj hi
          rw [List.set_cons_zero, List.countP_cons, List.countP_cons]
          cases p first <;> cases p new <;> simp
      | succ i =>
          have hrest := ih hi
          rw [List.set_cons_succ, List.countP_cons, List.countP_cons]
          omega

theorem notifyOne_cases {sleeper : Option Nat}
    (h : notifyOne asleep wake threads sleeper = some threads') :
    (threads.countP asleep = 0 ∧ threads' = threads) ∨
      ∃ i thread, threads[i]? = some thread ∧ asleep thread = true ∧
        threads' = threads.set i (wake thread) := by
  unfold notifyOne at h
  cases sleeper with
  | none =>
      dsimp only at h
      split at h
      · exact absurd h (by simp)
      · rename_i hnone
        obtain rfl := Option.some.inj h
        refine Or.inl ⟨List.countP_eq_zero.mpr fun thread hmem hasleep => ?_, rfl⟩
        exact hnone (List.any_eq_true.mpr ⟨thread, hmem, hasleep⟩)
  | some i =>
      dsimp only at h
      cases hi : threads[i]? with
      | none => simp [hi] at h
      | some thread =>
          simp only [hi] at h
          split at h
          · obtain rfl := Option.some.inj h
            exact Or.inr ⟨i, thread, hi, ‹_›, rfl⟩
          · exact absurd h (by simp)

/-- After a `notifyAll` nobody is asleep. -/
theorem countP_notifyAll_asleep (hwake : ∀ thread, asleep thread = true →
    asleep (wake thread) = false) : (notifyAll asleep wake threads).countP asleep = 0 := by
  rw [notifyAll, List.countP_map, List.countP_eq_zero]
  intro thread _
  dsimp only [Function.comp]
  split
  · rw [hwake thread ‹_›]
    exact Bool.false_ne_true
  · assumption

/-- A `notifyAll` only concerns the sleepers. -/
theorem countP_notifyAll (hwake : ∀ thread, asleep thread = true → p (wake thread) = p thread) :
    (notifyAll asleep wake threads).countP p = threads.countP p := by
  rw [notifyAll, List.countP_map]
  congr 1
  funext thread
  dsimp only [Function.comp]
  split
  · exact hwake thread ‹_›
  · rfl

theorem getElem?_notifyAll (i : Nat) :
    (notifyAll asleep wake threads)[i]? =
      threads[i]?.map fun thread => if asleep thread then wake thread else thread :=
  List.getElem?_map

end PassionProjects.Waiting

namespace PassionProjects.Custody

variable {η ι : Type}

/-- What the holders of a list have together. -/
def held (items : η → Multiset ι) (holders : List η) : Multiset ι := (holders.map items).sum

/-- One holder apart from the others. -/
theorem held_set (items : η → Multiset ι) {holders : List η} {i : Nat} {h : η}
    (hi : holders[i]? = some h) :
    ∃ others, held items holders = items h + others ∧
      ∀ h', held items (holders.set i h') = items h' + others := by
  induction holders generalizing i with
  | nil => exact absurd hi (by simp)
  | cons first rest ih =>
      cases i with
      | zero =>
          obtain rfl := Option.some.inj hi
          exact ⟨held items rest, rfl, fun _ => rfl⟩
      | succ i =>
          obtain ⟨others, hheld, hset⟩ := ih hi
          refine ⟨items first + others, ?_, fun h' => ?_⟩
          · show items first + held items rest = _
            rw [hheld, add_left_comm]
          · show items first + held items (rest.set i h') = _
            rw [hset h', add_left_comm]

/-- Holders with nothing. -/
theorem held_replicate {items : η → Multiset ι} {h : η} (hempty : items h = 0) (n : Nat) :
    held items (List.replicate n h) = 0 := by
  rw [held, List.map_replicate, List.sum_replicate, hempty, nsmul_zero]

end PassionProjects.Custody
