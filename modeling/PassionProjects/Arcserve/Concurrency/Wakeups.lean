/-
  PassionProjects.Arcserve.Concurrency.Wakeups

  No thread of a bounded work queue sleeps for want of a notification.

  The threads at each stage are counted.  While somebody sleeps in `pop`, there are as
  many threads that were notified, or are about to notify, as there are tasks; and in
  `push`, as there are free slots.
-/

import PassionProjects.Arcserve.Concurrency.QueueThreads

namespace PassionProjects.Arcserve.Concurrency

open Transition Waiting

variable {τ : Type}

variable {threads threads' : List (Thread τ)} {i : Nat} {old : Thread τ}

-- ============================================================================
-- What is counted
-- ============================================================================

/-- How many threads are at a stage. -/
def number (threads : List (Thread τ)) (stage : Stage) : Nat :=
  threads.countP (Thread.isAt stage)

theorem number_set (hi : threads[i]? = some old) (new : Thread τ) (stage : Stage) :
    number (threads.set i new) stage + (old.isAt stage).toNat =
      number threads stage + (new.isAt stage).toNat :=
  countP_set hi _ new

theorem number_pos {stage : Stage} (h : 0 < number threads stage) :
    ∃ thread ∈ threads, thread.stage = stage := by
  obtain ⟨thread, hmem, hat⟩ := List.countP_pos_iff.mp h
  exact ⟨thread, hmem, of_decide_eq_true hat⟩

theorem number_pos_of {thread : Thread τ} (hi : threads[i]? = some thread) :
    0 < number threads thread.stage :=
  List.countP_pos_iff.mpr ⟨thread, List.mem_of_getElem? hi, decide_eq_true rfl⟩

/-- Enough threads are awake or will be woken.  While somebody sleeps in `pop`, each task
    has a thread that was notified of it or is about to notify; while somebody sleeps in
    `push`, so has each free slot, or all of them are about to be notified. -/
structure Covered (q : BoundedWorkQueue τ) (n : Stage → Nat) : Prop where
  bound : q.tasks.length ≤ q.capacity
  pop : 0 < n .asleepPop → q.tasks.length ≤ n .notifyNotEmpty + n .wokenPop
  pop_closed : 0 < n .asleepPop → q.closed = true → 0 < n .notifyAllNotEmpty
  push : 0 < n .asleepPush → 0 < n .notifyAllNotEmpty + n .notifyAllNotFull ∨
    q.capacity - q.tasks.length ≤ n .notifyNotFull + n .wokenPush
  push_closed : 0 < n .asleepPush → q.closed = true →
    0 < n .notifyAllNotEmpty + n .notifyAllNotFull

theorem covered_init {capacity n : Nat} {s : System τ} (h : s.init capacity n) :
    Covered s.queue (number s.threads) := by
  obtain rfl := h
  have hnone : ∀ stage, stage ≠ .returned →
      number (List.replicate n (Thread.returned (.ready : Answer τ))) stage = 0 := by
    intro stage hstage
    refine List.countP_eq_zero.mpr fun thread hmem hat => ?_
    rw [List.eq_of_mem_replicate hmem] at hat
    exact hstage (of_decide_eq_true hat).symm
  have hpop := hnone .asleepPop (by decide)
  have hpush := hnone .asleepPush (by decide)
  refine ⟨Nat.zero_le _, ?_, ?_, ?_, ?_⟩
  · exact fun hasleep => absurd hpop (Nat.ne_of_gt hasleep)
  · exact fun hasleep => absurd hpop (Nat.ne_of_gt hasleep)
  · exact fun hasleep => absurd hpush (Nat.ne_of_gt hasleep)
  · exact fun hasleep => absurd hpush (Nat.ne_of_gt hasleep)

/-- A thread goes from one stage to another. -/
def Moved (n : Stage → Nat) (a b : Stage) (n' : Stage → Nat) : Prop :=
  ∀ stage, n' stage + (decide (a = stage)).toNat = n stage + (decide (b = stage)).toNat

theorem moved_set (hi : threads[i]? = some old) (new : Thread τ) :
    Moved (number threads) old.stage new.stage (number (threads.set i new)) :=
  fun stage => number_set hi new stage

section Moves

variable {q : BoundedWorkQueue τ} {n n' : Stage → Nat} {a : Stage}

/-- A task more, and a thread that will notify of it. -/
theorem Covered.accept (h : Covered q n) (hopen : q.closed = false)
    (hroom : q.tasks.length < q.capacity) (task : τ) (ha : a = .returned ∨ a = .wokenPush)
    (hn : Moved n a .notifyNotEmpty n') :
    Covered { q with tasks := q.tasks ++ [task] } n' := by
  obtain ⟨hbound, hpop, hpopClosed, hpush, hpushClosed⟩ := h
  have hlength : (q.tasks ++ [task]).length = q.tasks.length + 1 := List.length_append
  unfold Moved at hn
  constructor <;> grind

/-- A thread that was woken leaves with nothing only when the queue is closed. -/
theorem Covered.leave (h : Covered q n)
    (ha : a = .returned ∨ (a = .wokenPush ∧ q.closed = true) ∨
      (a = .wokenPop ∧ q.closed = true ∧ q.tasks = []))
    (hn : Moved n a .returned n') : Covered q n' := by
  obtain ⟨hbound, hpop, hpopClosed, hpush, hpushClosed⟩ := h
  unfold Moved at hn
  constructor <;> grind

theorem Covered.sleepPush (h : Covered q n) (hopen : q.closed = false)
    (hfull : q.capacity ≤ q.tasks.length) (ha : a = .returned ∨ a = .wokenPush)
    (hn : Moved n a .asleepPush n') : Covered q n' := by
  obtain ⟨hbound, hpop, hpopClosed, hpush, hpushClosed⟩ := h
  unfold Moved at hn
  constructor <;> grind

theorem Covered.sleepPop (h : Covered q n) (hopen : q.closed = false) (hempty : q.tasks = [])
    (ha : a = .returned ∨ a = .wokenPop) (hn : Moved n a .asleepPop n') : Covered q n' := by
  obtain ⟨hbound, hpop, hpopClosed, hpush, hpushClosed⟩ := h
  unfold Moved at hn
  constructor <;> grind

/-- A slot more, and a thread that will notify of it. -/
theorem Covered.take (h : Covered q n) {task : τ} {rest : List τ} (htasks : q.tasks = task :: rest)
    (ha : a = .returned ∨ a = .wokenPop) (hn : Moved n a .notifyNotFull n') :
    Covered { q with tasks := rest } n' := by
  obtain ⟨hbound, hpop, hpopClosed, hpush, hpushClosed⟩ := h
  have hlength : q.tasks.length = rest.length + 1 := by rw [htasks, List.length_cons]
  unfold Moved at hn
  constructor <;> grind

/-- All slots are free, and all sleepers will be notified. -/
theorem Covered.drained (h : Covered q n) (hn : Moved n .returned .notifyAllNotFull n') :
    Covered { q with tasks := ([] : List τ) } n' := by
  obtain ⟨hbound, hpop, hpopClosed, hpush, hpushClosed⟩ := h
  unfold Moved at hn
  constructor <;> grind

theorem Covered.closing (h : Covered q n) (hn : Moved n .returned .notifyAllNotEmpty n') :
    Covered q.close n' := by
  obtain ⟨hbound, hpop, hpopClosed, hpush, hpushClosed⟩ := h
  unfold Moved at hn
  constructor <;> grind [BoundedWorkQueue.close]

/-- The next sleeper in `pop` is awake for the task, or there is none. -/
theorem Covered.notifyOnePop {n₁ : Stage → Nat} (h : Covered q n)
    (hn : Moved n .notifyNotEmpty .returned n₁)
    (hwake : (n₁ .asleepPop = 0 ∧ n' = n₁) ∨ Moved n₁ .asleepPop .wokenPop n') : Covered q n' := by
  obtain ⟨hbound, hpop, hpopClosed, hpush, hpushClosed⟩ := h
  unfold Moved at hn hwake
  rcases hwake with ⟨hnone, rfl⟩ | hwake
  · constructor <;> grind
  · constructor <;> grind

theorem Covered.notifyOnePush {n₁ : Stage → Nat} (h : Covered q n)
    (hn : Moved n .notifyNotFull .returned n₁)
    (hwake : (n₁ .asleepPush = 0 ∧ n' = n₁) ∨ Moved n₁ .asleepPush .wokenPush n') :
    Covered q n' := by
  obtain ⟨hbound, hpop, hpopClosed, hpush, hpushClosed⟩ := h
  unfold Moved at hn hwake
  rcases hwake with ⟨hnone, rfl⟩ | hwake
  · constructor <;> grind
  · constructor <;> grind

/-- Nobody sleeps in `pop` any more, and the sleepers in `push` are still to be notified. -/
theorem Covered.notifyAllPop {n₁ : Stage → Nat} (h : Covered q n)
    (hn : Moved n .notifyAllNotEmpty .notifyAllNotFull n₁) (hnone : n' .asleepPop = 0)
    (hothers : ∀ stage, stage ≠ .asleepPop → stage ≠ .wokenPop → n' stage = n₁ stage) :
    Covered q n' := by
  obtain ⟨hbound, hpop, hpopClosed, hpush, hpushClosed⟩ := h
  unfold Moved at hn
  constructor <;> grind

theorem Covered.notifyAllPush {n₁ : Stage → Nat} (h : Covered q n)
    (hn : Moved n .notifyAllNotFull .returned n₁) (hnone : n' .asleepPush = 0)
    (hothers : ∀ stage, stage ≠ .asleepPush → stage ≠ .wokenPush → n' stage = n₁ stage) :
    Covered q n' := by
  obtain ⟨hbound, hpop, hpopClosed, hpush, hpushClosed⟩ := h
  unfold Moved at hn
  constructor <;> grind

theorem Covered.spurious (h : Covered q n)
    (hn : Moved n .asleepPop .wokenPop n' ∨ Moved n .asleepPush .wokenPush n') :
    Covered q n' := by
  obtain ⟨hbound, hpop, hpopClosed, hpush, hpushClosed⟩ := h
  unfold Moved at hn
  rcases hn with hn | hn
  · constructor <;> grind
  · constructor <;> grind

end Moves

theorem Covered.enter {q : BoundedWorkQueue τ} {c : Call τ} (h : Covered q (number threads))
    (hi : threads[i]? = some old) (hold : old.mayEnter c) :
    Covered (c.enter q).queue (number (threads.set i (c.enter q).thread)) := by
  have hmoved := moved_set hi (c.enter q).thread
  have hstage := hold.stage
  generalize hsec : c.enter q = sec at hmoved ⊢
  cases hsec ▸ enter_outcome q c with
  | accepted hc hopen hroom => exact h.accept hopen hroom _ (by grind) hmoved
  | refused hc => exact h.leave (by grind) hmoved
  | sleepPush hopen hfull => exact h.sleepPush hopen hfull (by grind) hmoved
  | popped htasks => exact h.take htasks (by grind) hmoved
  | finished hclosed hempty => exact h.leave (by grind) hmoved
  | sleepPop hopen hempty => exact h.sleepPop hopen hempty (by grind) hmoved
  | drainedNone hempty => exact h.leave (by grind) hmoved
  | drained hne =>
      have hreturned : old.stage = .returned := by grind
      exact h.drained (hreturned ▸ hmoved)
  | closing =>
      have hreturned : old.stage = .returned := by grind
      exact h.closing (hreturned ▸ hmoved)

-- ============================================================================
-- Nobody is left asleep
-- ============================================================================

namespace System

variable {s s' : System τ} {a : Action τ}

/-- A `notify_one` wakes a sleeper, or there is none. -/
theorem moved_notifyOne {threads threads' : List (Thread τ)} {asleep woken : Stage}
    {sleeper : Option Nat}
    (hwoken : (asleep = .asleepPop ∧ woken = .wokenPop) ∨
      (asleep = .asleepPush ∧ woken = .wokenPush))
    (h : notifyOne (Thread.isAt asleep) Thread.wake threads sleeper = some threads') :
    (number threads asleep = 0 ∧ number threads' = number threads) ∨
      Moved (number threads) asleep woken (number threads') := by
  rcases notifyOne_cases h with ⟨hnone, rfl⟩ | ⟨i, thread, hi, hat, rfl⟩
  · exact .inl ⟨hnone, rfl⟩
  · have hstage : thread.stage = asleep := of_decide_eq_true hat
    have hwake : thread.wake.stage = woken := by
      cases thread <;> grind [Thread.stage, Thread.wake]
    have hmoved := moved_set hi thread.wake
    rw [hstage, hwake] at hmoved
    exact .inr hmoved

theorem number_notifyAll_asleep (threads : List (Thread τ)) {asleep : Stage}
    (hasleep : asleep = .asleepPop ∨ asleep = .asleepPush) :
    number (notifyAll (Thread.isAt asleep) Thread.wake threads) asleep = 0 := by
  refine countP_notifyAll_asleep fun thread hat => decide_eq_false ?_
  have hstage : thread.stage = asleep := of_decide_eq_true hat
  cases thread <;> grind [Thread.stage, Thread.wake]

/-- A `notify_all` wakes the threads that sleep on its condition variable, and no others. -/
theorem number_notifyAll (threads : List (Thread τ)) {asleep woken stage : Stage}
    (hwoken : (asleep = .asleepPop ∧ woken = .wokenPop) ∨
      (asleep = .asleepPush ∧ woken = .wokenPush))
    (hasleep : stage ≠ asleep) (hother : stage ≠ woken) :
    number (notifyAll (Thread.isAt asleep) Thread.wake threads) stage = number threads stage := by
  refine countP_notifyAll fun thread hat => ?_
  have hstage : thread.stage = asleep := of_decide_eq_true hat
  cases thread <;> grind [Thread.stage, Thread.wake, Thread.isAt]

theorem covered_step (h : Covered s.queue (number s.threads)) (hs : s.step a = some s') :
    Covered s'.queue (number s'.threads) := by
  cases stepped hs with
  | enter hi ha hold => exact h.enter hi hold
  | @notifyOne i old answer asleep threads sleeper hi hold hnotify =>
      have hmoved := moved_set hi (.returned answer)
      rcases hold with ⟨rfl, rfl⟩ | ⟨rfl, rfl⟩
      · exact h.notifyOnePop hmoved (moved_notifyOne (.inl ⟨rfl, rfl⟩) hnotify)
      · exact h.notifyOnePush hmoved (moved_notifyOne (.inr ⟨rfl, rfl⟩) hnotify)
  | @notifyAll i old new answer asleep sleeper hi hold =>
      have hmoved := moved_set hi new
      rcases hold with ⟨rfl, rfl, rfl⟩ | ⟨rfl, rfl, rfl⟩
      · exact h.notifyAllPop hmoved (number_notifyAll_asleep _ (.inl rfl))
          fun stage => number_notifyAll _ (.inl ⟨rfl, rfl⟩)
      · exact h.notifyAllPush hmoved (number_notifyAll_asleep _ (.inr rfl))
          fun stage => number_notifyAll _ (.inr ⟨rfl, rfl⟩)
  | @spurious i old hi hold =>
      have hmoved := moved_set hi old.wake
      cases old with
      | asleepPush task => exact h.spurious (.inr hmoved)
      | asleepPop => exact h.spurious (.inl hmoved)
      | _ => simp [Thread.stage] at hold
  | collect hi => exact h.leave (.inl rfl) (moved_set hi _)

/-- A thread that is about to notify a sleeper in `pop`, or was woken there and is about
    to take what there is. -/
def wakesPop (thread : Thread τ) : Prop :=
  thread.stage = .notifyNotEmpty ∨ thread.stage = .wokenPop ∨ thread.stage = .notifyAllNotEmpty

/-- The same of `push`; a `close` notifies the sleepers in `pop` first. -/
def wakesPush (thread : Thread τ) : Prop :=
  thread.stage = .notifyNotFull ∨ thread.stage = .wokenPush ∨ thread.stage = .notifyAllNotEmpty ∨
    thread.stage = .notifyAllNotFull

/-- What holds of a queue and its threads in every state. -/
structure Served (capacity : Nat) (s : System τ) : Prop where
  bound : s.queue.tasks.length ≤ capacity
  fifo : s.handed.flatten ++ s.queue.tasks = s.accepted
  closed : s.queue.closed = true →
    ∀ s', Reached (· = s) step (fun _ _ => True) s' → s'.accepted = s.accepted
  covered : Covered s.queue (number s.threads)
  asleep_pop : ∀ i : Nat, s.threads[i]? = some .asleepPop →
    s.queue.tasks ≠ [] ∨ s.queue.closed = true →
      ∃ thread ∈ s.threads, wakesPop thread
  asleep_push : ∀ (i : Nat) (task : τ), s.threads[i]? = some (.asleepPush task) →
    s.queue.tasks.length < capacity ∨ s.queue.closed = true →
      ∃ thread ∈ s.threads, wakesPush thread

theorem awake_for_pop (h : Covered s.queue (number s.threads)) {i : Nat}
    (hi : s.threads[i]? = some .asleepPop) (hwork : s.queue.tasks ≠ [] ∨ s.queue.closed = true) :
    ∃ thread ∈ s.threads, wakesPop thread := by
  have hasleep := number_pos_of hi
  have hsome : 0 < number s.threads .notifyNotEmpty ∨ 0 < number s.threads .wokenPop ∨
      0 < number s.threads .notifyAllNotEmpty := by
    rcases hwork with hne | hclosed
    · have hlength := List.length_pos_iff.mpr hne
      have htasks := h.pop hasleep
      omega
    · exact .inr (.inr (h.pop_closed hasleep hclosed))
  rcases hsome with hpos | hpos | hpos
  all_goals obtain ⟨thread, hmem, hstage⟩ := number_pos hpos
  · exact ⟨thread, hmem, .inl hstage⟩
  · exact ⟨thread, hmem, .inr (.inl hstage)⟩
  · exact ⟨thread, hmem, .inr (.inr hstage)⟩

theorem awake_for_push (h : Covered s.queue (number s.threads)) {i : Nat} {task : τ}
    (hi : s.threads[i]? = some (.asleepPush task))
    (hroom : s.queue.tasks.length < s.queue.capacity ∨ s.queue.closed = true) :
    ∃ thread ∈ s.threads, wakesPush thread := by
  have hasleep := number_pos_of hi
  have hsome : 0 < number s.threads .notifyNotFull ∨ 0 < number s.threads .wokenPush ∨
      0 < number s.threads .notifyAllNotEmpty ∨ 0 < number s.threads .notifyAllNotFull := by
    rcases hroom with hroom | hclosed
    · have hslots := h.push hasleep
      omega
    · have hall := h.push_closed hasleep hclosed
      omega
  rcases hsome with hpos | hpos | hpos | hpos
  all_goals obtain ⟨thread, hmem, hstage⟩ := number_pos hpos
  · exact ⟨thread, hmem, .inl hstage⟩
  · exact ⟨thread, hmem, .inr (.inl hstage)⟩
  · exact ⟨thread, hmem, .inr (.inr (.inl hstage))⟩
  · exact ⟨thread, hmem, .inr (.inr (.inr hstage))⟩

/-- Any number of threads, in any order of steps. -/
theorem Reachable.served {capacity n : Nat} (h : Reachable capacity n s) : Served capacity s := by
  have hcovered : Covered s.queue (number s.threads) :=
    h.invariant (I := fun s => Covered s.queue (number s.threads)) (fun _ => covered_init)
      fun _ _ _ hcovered _ => covered_step hcovered
  have hconserved : Conserved capacity s :=
    h.invariant (fun _ => conserved_init) fun _ _ _ hconserved _ => hconserved.step
  obtain ⟨hfifo, rfl⟩ := hconserved
  refine ⟨hcovered.bound, hfifo, fun hclosed s' hs' => ?_, hcovered,
    fun i hi => awake_for_pop hcovered hi, fun i task hi => awake_for_push hcovered hi⟩
  have hkept : s'.queue.closed = true ∧ s'.accepted = s.accepted := by
    refine hs'.invariant (I := fun s' => s'.queue.closed = true ∧ s'.accepted = s.accepted)
      (fun s' hsame => ?_) fun s₁ _ s₂ hkept _ hstep => ?_
    · obtain rfl : s' = s := hsame
      exact ⟨hclosed, rfl⟩
    · obtain ⟨hstays, hnone⟩ := closed_step hkept.1 hstep
      exact ⟨hstays, hnone.trans hkept.2⟩
  exact hkept.2

end System

end PassionProjects.Arcserve.Concurrency
