/-
  PassionProjects.Arcserve.Concurrency.QueueThreads

  Any number of threads at one bounded work queue.

  A call enters the queue's mutex once, or once more each time it is woken; what it does
  there is one step, in which a `push` without room and a `pop` without a task fall
  asleep.  The notification that follows is a step of its own, after the mutex was given
  back, so that other threads get in between.  `accepted` and `handed` write down which
  tasks the queue took and which a `pop` or a `drain` was given.
-/

import PassionProjects.Arcserve.Concurrency.BoundedWorkQueue
import PassionProjects.Lib.Transition
import PassionProjects.Lib.Waiting

namespace PassionProjects.Arcserve.Concurrency

open Transition Waiting

variable {τ : Type}

inductive Call (τ : Type) where
  | tryPush (task : τ)
  | push (task : τ)
  | pop
  | drain
  | close
  deriving DecidableEq, Repr

/-- What a call returned; `ready` once its caller is done with that. -/
inductive Answer (τ : Type) where
  | ready
  | pushed (queued : Bool)
  | popped (task : Option τ)
  | drained (tasks : List τ)
  | closed
  deriving DecidableEq, Repr

/-- Where a thread is: between two calls, asleep, woken and about to look again, or
    about to notify. -/
inductive Thread (τ : Type) where
  | returned (answer : Answer τ)
  | asleepPush (task : τ)
  | wokenPush (task : τ)
  | asleepPop
  | wokenPop
  | notifyNotEmpty (answer : Answer τ)
  | notifyNotFull (answer : Answer τ)
  | notifyAllNotEmpty (answer : Answer τ)
  | notifyAllNotFull (answer : Answer τ)
  deriving DecidableEq, Repr

inductive Stage where
  | returned
  | asleepPush
  | wokenPush
  | asleepPop
  | wokenPop
  | notifyNotEmpty
  | notifyNotFull
  | notifyAllNotEmpty
  | notifyAllNotFull
  deriving DecidableEq, Repr

namespace Thread

def stage : Thread τ → Stage
  | .returned _ => .returned
  | .asleepPush _ => .asleepPush
  | .wokenPush _ => .wokenPush
  | .asleepPop => .asleepPop
  | .wokenPop => .wokenPop
  | .notifyNotEmpty _ => .notifyNotEmpty
  | .notifyNotFull _ => .notifyNotFull
  | .notifyAllNotEmpty _ => .notifyAllNotEmpty
  | .notifyAllNotFull _ => .notifyAllNotFull

def isAt (stage : Stage) (thread : Thread τ) : Bool := thread.stage = stage

def wake : Thread τ → Thread τ
  | .asleepPush task => .wokenPush task
  | .asleepPop => .wokenPop
  | thread => thread

end Thread

/-- What a call does while it has the mutex: the queue and the thread after it, and the
    tasks that came in and went out. -/
structure Section (τ : Type) where
  queue : BoundedWorkQueue τ
  thread : Thread τ
  accepted : List τ := []
  handed : List (List τ) := []

/-- The section of a call, from the mutex to where it is given back. -/
def Call.enter (q : BoundedWorkQueue τ) : Call τ → Section τ
  | .tryPush task =>
    match q.tryPush task with
    | (true, q) => { queue := q, thread := .notifyNotEmpty (.pushed true), accepted := [task] }
    | (false, q) => { queue := q, thread := .returned (.pushed false) }
  | .push task =>
    match q.push task with
    | none => { queue := q, thread := .asleepPush task }
    | some (true, q) =>
      { queue := q, thread := .notifyNotEmpty (.pushed true), accepted := [task] }
    | some (false, q) => { queue := q, thread := .returned (.pushed false) }
  | .pop =>
    match q.pop with
    | some (task, q) =>
      { queue := q, thread := .notifyNotFull (.popped (some task)), handed := [[task]] }
    | none =>
      if q.closed then { queue := q, thread := .returned (.popped none) }
      else { queue := q, thread := .asleepPop }
  | .drain =>
    match q.drain with
    | ([], q) => { queue := q, thread := .returned (.drained []) }
    | (drained, q) =>
      { queue := q, thread := .notifyAllNotFull (.drained drained), handed := [drained] }
  | .close => { queue := q.close, thread := .notifyAllNotEmpty .closed }

/-- What a section comes to. -/
inductive Outcome (q : BoundedWorkQueue τ) : Call τ → Section τ → Prop where
  | accepted {c : Call τ} {task : τ} (hc : c = .tryPush task ∨ c = .push task)
      (hopen : q.closed = false) (hroom : q.tasks.length < q.capacity) :
      Outcome q c { queue := { q with tasks := q.tasks ++ [task] }
                    thread := .notifyNotEmpty (.pushed true), accepted := [task] }
  | refused {c : Call τ} {task : τ}
      (hc : c = .tryPush task ∨ (c = .push task ∧ q.closed = true)) :
      Outcome q c { queue := q, thread := .returned (.pushed false) }
  | sleepPush {task : τ} (hopen : q.closed = false) (hfull : q.capacity ≤ q.tasks.length) :
      Outcome q (.push task) { queue := q, thread := .asleepPush task }
  | popped {task : τ} {rest : List τ} (htasks : q.tasks = task :: rest) :
      Outcome q .pop { queue := { q with tasks := rest }
                       thread := .notifyNotFull (.popped (some task)), handed := [[task]] }
  | finished (hclosed : q.closed = true) (hempty : q.tasks = []) :
      Outcome q .pop { queue := q, thread := .returned (.popped none) }
  | sleepPop (hopen : q.closed = false) (hempty : q.tasks = []) :
      Outcome q .pop { queue := q, thread := .asleepPop }
  | drainedNone (hempty : q.tasks = []) :
      Outcome q .drain { queue := q, thread := .returned (.drained []) }
  | drained (hne : q.tasks ≠ []) :
      Outcome q .drain { queue := { q with tasks := ([] : List τ) }
                         thread := .notifyAllNotFull (.drained q.tasks), handed := [q.tasks] }
  | closing : Outcome q .close { queue := q.close, thread := .notifyAllNotEmpty .closed }

theorem enter_outcome (q : BoundedWorkQueue τ) (c : Call τ) : Outcome q c (c.enter q) := by
  cases c with
  | tryPush task =>
      rw [Call.enter, BoundedWorkQueue.tryPush]
      split
      · rename_i htry
        split at htry
        · exact absurd htry (by simp)
        · rename_i hroom
          obtain rfl := (Prod.mk.inj htry).2
          obtain ⟨hopen, hlt⟩ := not_or.mp hroom
          exact .accepted (.inl rfl) (Bool.eq_false_iff.mpr hopen) (Nat.not_le.mp hlt)
      · rename_i htry
        split at htry
        · obtain rfl := (Prod.mk.inj htry).2
          exact .refused (.inl rfl)
        · exact absurd htry (by simp)
  | push task =>
      rw [Call.enter]
      cases hpush : q.push task with
      | none =>
          obtain ⟨hopen, hfull⟩ := BoundedWorkQueue.push_eq_none.mp hpush
          exact .sleepPush hopen hfull
      | some pushed =>
          obtain ⟨queued, q'⟩ := pushed
          rcases BoundedWorkQueue.push_cases hpush with ⟨rfl, hclosed, rfl⟩ | ⟨rfl, hopen, rfl⟩
          · exact .refused (.inr ⟨rfl, hclosed⟩)
          · have hroom : q.tasks.length < q.capacity := by
              unfold BoundedWorkQueue.push at hpush
              rw [if_neg (by simp [hopen])] at hpush
              split at hpush
              · assumption
              · exact absurd hpush (by simp)
            exact .accepted (.inr rfl) hopen hroom
  | pop =>
      rw [Call.enter, BoundedWorkQueue.pop]
      cases htasks : q.tasks with
      | nil =>
          dsimp only
          split
          · exact .finished ‹_› htasks
          · exact .sleepPop (Bool.eq_false_iff.mpr ‹_›) htasks
      | cons task rest => exact .popped htasks
  | drain =>
      obtain ⟨capacity, tasks, closed⟩ := q
      cases tasks with
      | nil => exact .drainedNone rfl
      | cons task rest => exact .drained (by simp)
  | close => exact .closing

/-- The queue with the threads that use it. -/
structure System (τ : Type) where
  queue : BoundedWorkQueue τ
  threads : List (Thread τ)
  accepted : List τ := []
  handed : List (List τ) := []
  deriving DecidableEq, Repr

inductive Action (τ : Type) where
  | call (i : Nat) (c : Call τ)
  | resume (i : Nat)
  | notify (i : Nat) (sleeper : Option Nat)
  | spurious (i : Nat)
  | collect (i : Nat)

namespace System

/-- Thread `i` after its section. -/
def entered (s : System τ) (i : Nat) (sec : Section τ) : System τ where
  queue := sec.queue
  threads := s.threads.set i sec.thread
  accepted := s.accepted ++ sec.accepted
  handed := s.handed ++ sec.handed

/-- Thread `i` calls, looks again once it is awake, sends its notification or is done
    with an answer; a sleeper may also wake up by itself. -/
def step (s : System τ) : Action τ → Option (System τ)
  | .call i c =>
    match s.threads[i]? with
    | some (.returned _) => some (s.entered i (c.enter s.queue))
    | _ => none
  | .resume i =>
    match s.threads[i]? with
    | some (.wokenPush task) => some (s.entered i ((Call.push task).enter s.queue))
    | some .wokenPop => some (s.entered i (Call.pop.enter s.queue))
    | _ => none
  | .notify i sleeper =>
    match s.threads[i]? with
    | some (.notifyNotEmpty answer) =>
      (notifyOne (Thread.isAt .asleepPop) Thread.wake (s.threads.set i (.returned answer))
        sleeper).map fun threads => { s with threads }
    | some (.notifyNotFull answer) =>
      (notifyOne (Thread.isAt .asleepPush) Thread.wake (s.threads.set i (.returned answer))
        sleeper).map fun threads => { s with threads }
    | some (.notifyAllNotEmpty answer) =>
      let threads := s.threads.set i (.notifyAllNotFull answer)
      some { s with threads := notifyAll (Thread.isAt .asleepPop) Thread.wake threads }
    | some (.notifyAllNotFull answer) =>
      let threads := s.threads.set i (.returned answer)
      some { s with threads := notifyAll (Thread.isAt .asleepPush) Thread.wake threads }
    | _ => none
  | .spurious i =>
    match s.threads[i]? with
    | some (.asleepPush task) => some { s with threads := s.threads.set i (.wokenPush task) }
    | some .asleepPop => some { s with threads := s.threads.set i .wokenPop }
    | _ => none
  | .collect i =>
    match s.threads[i]? with
    | some (.returned _) => some { s with threads := s.threads.set i (.returned .ready) }
    | _ => none

/-- So many threads at a new queue. -/
def init (capacity threads : Nat) (s : System τ) : Prop :=
  s = { queue := { capacity }, threads := List.replicate threads (.returned .ready) }

/-- States of any interleaving. -/
def Reachable (capacity threads : Nat) : System τ → Prop :=
  Reached (init capacity threads) step fun _ _ => True

end System

variable {i : Nat} {old : Thread τ}

/-- The threads that may go through the section of a call: any that is between two calls,
    and one that was woken in that call. -/
def Thread.mayEnter : Thread τ → Call τ → Prop
  | .returned _, _ => True
  | .wokenPush task, .push task' => task = task'
  | .wokenPop, .pop => True
  | _, _ => False

theorem Thread.mayEnter.stage {c : Call τ} (h : old.mayEnter c) :
    old.stage = .returned ∨ (old.stage = .wokenPush ∧ ∃ task, c = .push task) ∨
      (old.stage = .wokenPop ∧ c = .pop) := by
  cases old with
  | returned _ => exact .inl rfl
  | wokenPush task =>
      cases c with
      | push task' => exact .inr (.inl ⟨rfl, task', rfl⟩)
      | _ => exact h.elim
  | wokenPop =>
      cases c with
      | pop => exact .inr (.inr ⟨rfl, rfl⟩)
      | _ => exact h.elim
  | _ => exact h.elim

-- ============================================================================
-- Steps
-- ============================================================================

namespace System

variable {s s' : System τ} {a : Action τ}

/-- What a step does. -/
inductive Stepped (s : System τ) : Action τ → System τ → Prop where
  | enter {a : Action τ} {i : Nat} {old : Thread τ} {c : Call τ} (hi : s.threads[i]? = some old)
      (ha : (a = .call i c ∧ old.stage = .returned) ∨ (a = .resume i ∧ old.stage ≠ .returned))
      (hold : old.mayEnter c) :
      Stepped s a (s.entered i (c.enter s.queue))
  | notifyOne {i : Nat} {old : Thread τ} {answer : Answer τ} {asleep : Stage}
      {threads : List (Thread τ)} {sleeper : Option Nat} (hi : s.threads[i]? = some old)
      (hold : (old = .notifyNotEmpty answer ∧ asleep = .asleepPop) ∨
        (old = .notifyNotFull answer ∧ asleep = .asleepPush))
      (hnotify : notifyOne (Thread.isAt asleep) Thread.wake
        (s.threads.set i (.returned answer)) sleeper = some threads) :
      Stepped s (.notify i sleeper) { s with threads }
  | notifyAll {i : Nat} {old new : Thread τ} {answer : Answer τ} {asleep : Stage}
      {sleeper : Option Nat} (hi : s.threads[i]? = some old)
      (hold : (old = .notifyAllNotEmpty answer ∧ new = .notifyAllNotFull answer ∧
          asleep = .asleepPop) ∨
        (old = .notifyAllNotFull answer ∧ new = .returned answer ∧ asleep = .asleepPush)) :
      Stepped s (.notify i sleeper) { s with
        threads := notifyAll (Thread.isAt asleep) Thread.wake (s.threads.set i new) }
  | spurious {i : Nat} {old : Thread τ} (hi : s.threads[i]? = some old)
      (hold : old.stage = .asleepPush ∨ old.stage = .asleepPop) :
      Stepped s (.spurious i) { s with threads := s.threads.set i old.wake }
  | collect {i : Nat} {answer : Answer τ} (hi : s.threads[i]? = some (.returned answer)) :
      Stepped s (.collect i) { s with threads := s.threads.set i (.returned .ready) }

theorem stepped (h : s.step a = some s') : Stepped s a s' := by
  unfold step at h
  cases a with
  | call i c =>
      dsimp only at h
      split at h
      · rename_i hi
        obtain rfl := Option.some.inj h
        exact .enter hi (.inl ⟨rfl, rfl⟩) trivial
      · exact absurd h (by simp)
  | resume i =>
      dsimp only at h
      split at h
      · rename_i hi
        obtain rfl := Option.some.inj h
        exact .enter hi (.inr ⟨rfl, by simp [Thread.stage]⟩) rfl
      · rename_i hi
        obtain rfl := Option.some.inj h
        exact .enter hi (.inr ⟨rfl, by simp [Thread.stage]⟩) trivial
      · exact absurd h (by simp)
  | notify i sleeper =>
      dsimp only at h
      split at h
      · obtain ⟨threads, hnotify, rfl⟩ := Option.map_eq_some_iff.mp h
        exact .notifyOne ‹_› (.inl ⟨rfl, rfl⟩) hnotify
      · obtain ⟨threads, hnotify, rfl⟩ := Option.map_eq_some_iff.mp h
        exact .notifyOne ‹_› (.inr ⟨rfl, rfl⟩) hnotify
      · obtain rfl := Option.some.inj h
        exact .notifyAll ‹_› (.inl ⟨rfl, rfl, rfl⟩)
      · obtain rfl := Option.some.inj h
        exact .notifyAll ‹_› (.inr ⟨rfl, rfl, rfl⟩)
      · exact absurd h (by simp)
  | spurious i =>
      dsimp only at h
      split at h
      · rename_i hi
        obtain rfl := Option.some.inj h
        exact .spurious hi (.inl rfl)
      · rename_i hi
        obtain rfl := Option.some.inj h
        exact .spurious hi (.inr rfl)
      · exact absurd h (by simp)
  | collect i =>
      dsimp only at h
      split at h
      · obtain rfl := Option.some.inj h
        exact .collect ‹_›
      · exact absurd h (by simp)

-- ============================================================================
-- Nothing is lost
-- ============================================================================

/-- A section puts what it accepts behind the tasks and hands over what is in front. -/
theorem enter_conserves (q : BoundedWorkQueue τ) (c : Call τ) :
    (c.enter q).handed.flatten ++ (c.enter q).queue.tasks = q.tasks ++ (c.enter q).accepted ∧
      (c.enter q).queue.capacity = q.capacity := by
  generalize hsec : c.enter q = sec
  cases hsec ▸ enter_outcome q c with
  | accepted hc hopen hroom => exact ⟨rfl, rfl⟩
  | refused hc => exact ⟨(List.append_nil _).symm, rfl⟩
  | sleepPush hopen hfull => exact ⟨(List.append_nil _).symm, rfl⟩
  | popped htasks =>
      rw [htasks, List.append_nil]
      exact ⟨rfl, rfl⟩
  | finished hclosed hempty => exact ⟨(List.append_nil _).symm, rfl⟩
  | sleepPop hopen hempty => exact ⟨(List.append_nil _).symm, rfl⟩
  | drainedNone hempty => exact ⟨(List.append_nil _).symm, rfl⟩
  | drained hne =>
      dsimp only
      rw [List.flatten_singleton]
      exact ⟨rfl, rfl⟩
  | closing => exact ⟨(List.append_nil _).symm, rfl⟩

/-- A closed queue stays closed and takes nothing more. -/
theorem enter_closed {q : BoundedWorkQueue τ} (hclosed : q.closed = true) (c : Call τ) :
    (c.enter q).queue.closed = true ∧ (c.enter q).accepted = [] := by
  generalize hsec : c.enter q = sec
  cases hsec ▸ enter_outcome q c with
  | accepted hc hopen hroom => exact absurd hclosed (by simp [hopen])
  | closing => exact ⟨rfl, rfl⟩
  | _ => exact ⟨hclosed, rfl⟩

/-- Each task that was accepted is handed over once, in that order, or still waits. -/
structure Conserved (capacity : Nat) (s : System τ) : Prop where
  fifo : s.handed.flatten ++ s.queue.tasks = s.accepted
  capacity : s.queue.capacity = capacity

theorem conserved_init {capacity n : Nat} (h : s.init capacity n) : Conserved capacity s := by
  obtain rfl := h
  exact ⟨rfl, rfl⟩

theorem Conserved.step {capacity : Nat} (h : Conserved capacity s) (hs : s.step a = some s') :
    Conserved capacity s' := by
  cases stepped hs with
  | @enter _ i old c hi ha hold =>
      obtain ⟨hsection, hcapacity⟩ := enter_conserves s.queue c
      refine ⟨?_, hcapacity.trans h.capacity⟩
      show (s.handed ++ (c.enter s.queue).handed).flatten ++ (c.enter s.queue).queue.tasks =
        s.accepted ++ (c.enter s.queue).accepted
      rw [List.flatten_append, List.append_assoc, hsection, ← List.append_assoc, h.fifo]
  | notifyOne => exact ⟨h.fifo, h.capacity⟩
  | notifyAll => exact ⟨h.fifo, h.capacity⟩
  | spurious => exact ⟨h.fifo, h.capacity⟩
  | collect => exact ⟨h.fifo, h.capacity⟩

theorem closed_step (hclosed : s.queue.closed = true) (hs : s.step a = some s') :
    s'.queue.closed = true ∧ s'.accepted = s.accepted := by
  cases stepped hs with
  | @enter _ i old c hi ha hold =>
      obtain ⟨hstays, hnone⟩ := enter_closed hclosed c
      exact ⟨hstays, (congrArg (s.accepted ++ ·) hnone).trans (List.append_nil _)⟩
  | notifyOne => exact ⟨hclosed, rfl⟩
  | notifyAll => exact ⟨hclosed, rfl⟩
  | spurious => exact ⟨hclosed, rfl⟩
  | collect => exact ⟨hclosed, rfl⟩

end System

end PassionProjects.Arcserve.Concurrency
