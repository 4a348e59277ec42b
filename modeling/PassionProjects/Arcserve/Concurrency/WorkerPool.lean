/-
  PassionProjects.Arcserve.Concurrency.WorkerPool

  The worker pool (`worker_pool.cpp`): threads that pop tasks from one queue and run them,
  and callers of `submit` and `stop`.

  A task is held from the `pop` that handed it out until its thread has run it; with what
  was run, the tasks that are held are those that were handed out.  A worker leaves only
  when the queue is closed and empty, so that after the last one has left nothing is held
  and nothing waits.
-/

import PassionProjects.Arcserve.Concurrency.Wakeups
import PassionProjects.Lib.Waiting

namespace PassionProjects.Arcserve.Concurrency

open Custody Transition Waiting

variable {τ : Type}

-- ============================================================================
-- What a thread holds
-- ============================================================================

/-- What the call of a thread returns or has returned. -/
def Thread.answer : Thread τ → Option (Answer τ)
  | .returned answer => some answer
  | .notifyNotEmpty answer => some answer
  | .notifyNotFull answer => some answer
  | .notifyAllNotEmpty answer => some answer
  | .notifyAllNotFull answer => some answer
  | _ => none

/-- The tasks a thread was handed and is not done with. -/
def Thread.holds (thread : Thread τ) : Multiset τ :=
  match thread.answer with
  | some (.popped (some task)) => {task}
  | some (.drained tasks) => tasks
  | _ => 0

theorem holds_of_answer_none {thread : Thread τ} (h : thread.answer = none) : thread.holds = 0 := by
  rw [Thread.holds, h]

namespace System

variable {s s' : System τ} {a : Action τ}

/-- What a section hands over is what its thread holds then. -/
theorem holds_enter (q : BoundedWorkQueue τ) (c : Call τ) :
    (c.enter q).thread.holds = ((c.enter q).handed.flatten : Multiset τ) := by
  generalize hsec : c.enter q = sec
  cases hsec ▸ enter_outcome q c with
  | drained hne =>
      dsimp only
      rw [List.flatten_singleton]
      rfl
  | _ => rfl

/-- No thread has another answer, and those between two calls stay as they are. -/
structure Keeps (threads threads' : List (Thread τ)) : Prop where
  answers : threads'.map Thread.answer = threads.map Thread.answer
  returned : ∀ (j : Nat) (answer : Answer τ), threads[j]? = some (.returned answer) →
    threads'[j]? = some (.returned answer)

theorem Keeps.trans {threads threads' threads'' : List (Thread τ)} (h : Keeps threads threads')
    (h' : Keeps threads' threads'') : Keeps threads threads'' :=
  ⟨h'.answers.trans h.answers, fun j answer hj => h'.returned j answer (h.returned j answer hj)⟩

theorem keeps_set {threads : List (Thread τ)} {i : Nat} {old new : Thread τ}
    (hi : threads[i]? = some old) (hanswer : new.answer = old.answer)
    (hstage : old.stage ≠ .returned) : Keeps threads (threads.set i new) := by
  constructor
  · rw [List.map_set, hanswer]
    refine List.ext_getElem? fun j => ?_
    by_cases hj : i = j
    · subst hj
      obtain ⟨hlt, -⟩ := List.getElem?_eq_some_iff.mp hi
      rw [List.getElem?_set_self (by rwa [List.length_map]), List.getElem?_map, hi, Option.map_some]
    · rw [List.getElem?_set_ne hj]
  · intro j answer hj
    have hne : i ≠ j := by
      rintro rfl
      rw [hi] at hj
      obtain rfl := Option.some.inj hj
      exact hstage rfl
    rw [List.getElem?_set_ne hne]
    exact hj

theorem answer_wake (thread : Thread τ) : thread.wake.answer = thread.answer := by
  cases thread <;> rfl

theorem keeps_notifyOne {threads threads' : List (Thread τ)} {asleep : Stage}
    {sleeper : Option Nat} (hasleep : asleep ≠ .returned)
    (h : notifyOne (Thread.isAt asleep) Thread.wake threads sleeper = some threads') :
    Keeps threads threads' := by
  rcases notifyOne_cases h with ⟨-, rfl⟩ | ⟨k, thread, hk, hat, rfl⟩
  · exact ⟨rfl, fun _ _ => id⟩
  · have hstage : thread.stage = asleep := of_decide_eq_true hat
    exact keeps_set hk (answer_wake thread) (hstage ▸ hasleep)

theorem keeps_notifyAll (threads : List (Thread τ)) {asleep : Stage}
    (hasleep : asleep ≠ .returned) :
    Keeps threads (notifyAll (Thread.isAt asleep) Thread.wake threads) := by
  constructor
  · rw [notifyAll, List.map_map]
    refine List.map_congr_left fun thread _ => ?_
    dsimp only [Function.comp]
    split
    · exact answer_wake thread
    · rfl
  · intro j answer hj
    have hawake : ¬ Thread.isAt asleep (Thread.returned answer) = true :=
      fun hat => hasleep (of_decide_eq_true hat).symm
    rw [getElem?_notifyAll, hj, Option.map_some, if_neg hawake]

/-- What a step means for what the threads hold. -/
inductive Turned (s : System τ) : Action τ → System τ → Prop where
  | entered {a : Action τ} {i : Nat} {old : Thread τ} {c : Call τ} (hi : s.threads[i]? = some old)
      (ha : (a = .call i c ∧ old.stage = .returned) ∨ (a = .resume i ∧ old.answer = none))
      (hold : old.mayEnter c) : Turned s a (s.entered i (c.enter s.queue))
  | kept {a : Action τ} {threads : List (Thread τ)} (hkeeps : Keeps s.threads threads)
      (ha : (∃ i sleeper, a = .notify i sleeper) ∨ ∃ i, a = .spurious i) :
      Turned s a { s with threads }
  | collected {i : Nat} {answer : Answer τ} (hi : s.threads[i]? = some (.returned answer)) :
      Turned s (.collect i) { s with threads := s.threads.set i (.returned .ready) }

theorem turned (h : s.step a = some s') : Turned s a s' := by
  have hpop : Stage.asleepPop ≠ .returned := by decide
  have hpush : Stage.asleepPush ≠ .returned := by decide
  cases stepped h with
  | @enter _ i old c hi ha hold =>
      refine .entered hi ?_ hold
      rcases ha with ha | ⟨rfl, hwoken⟩
      · exact .inl ha
      · refine .inr ⟨rfl, ?_⟩
        cases old with
        | returned answer => exact absurd rfl hwoken
        | wokenPush task => rfl
        | wokenPop => rfl
        | _ => exact hold.elim
  | @notifyOne i old answer asleep threads sleeper hi hold hnotify =>
      refine .kept ?_ (.inl ⟨i, sleeper, rfl⟩)
      have hset : Keeps s.threads (s.threads.set i (.returned answer)) := by
        rcases hold with ⟨rfl, -⟩ | ⟨rfl, -⟩
        · exact keeps_set hi rfl (by simp [Thread.stage])
        · exact keeps_set hi rfl (by simp [Thread.stage])
      rcases hold with ⟨-, rfl⟩ | ⟨-, rfl⟩
      · exact hset.trans (keeps_notifyOne hpop hnotify)
      · exact hset.trans (keeps_notifyOne hpush hnotify)
  | @notifyAll i old new answer asleep sleeper hi hold =>
      refine .kept ?_ (.inl ⟨i, sleeper, rfl⟩)
      have hset : Keeps s.threads (s.threads.set i new) := by
        rcases hold with ⟨rfl, rfl, -⟩ | ⟨rfl, rfl, -⟩
        · exact keeps_set hi rfl (by simp [Thread.stage])
        · exact keeps_set hi rfl (by simp [Thread.stage])
      rcases hold with ⟨-, -, rfl⟩ | ⟨-, -, rfl⟩
      · exact hset.trans (keeps_notifyAll _ hpop)
      · exact hset.trans (keeps_notifyAll _ hpush)
  | @spurious i old hi hold =>
      refine .kept (keeps_set hi (answer_wake old) fun hreturned => ?_) (.inr ⟨i, rfl⟩)
      rw [hreturned] at hold
      simp at hold
  | collect hi => exact .collected hi

/-- Only when the queue is closed and empty a `pop` returns without a task. -/
def Finished (s : System τ) : Prop :=
  some (.popped none) ∈ s.threads.map Thread.answer → s.queue.closed = true ∧ s.queue.tasks = []

theorem enter_finished {q : BoundedWorkQueue τ} (hclosed : q.closed = true) (hempty : q.tasks = [])
    (c : Call τ) : (c.enter q).queue.closed = true ∧ (c.enter q).queue.tasks = [] := by
  obtain ⟨hstays, hnone⟩ := enter_closed hclosed c
  obtain ⟨hsection, -⟩ := enter_conserves q c
  rw [hempty, hnone, List.append_nil, List.append_eq_nil_iff] at hsection
  exact ⟨hstays, hsection.2⟩

theorem Finished.step (h : Finished s) (hs : s.step a = some s') : Finished s' := by
  cases turned hs with
  | @entered _ i old c hi ha hold =>
      intro hmem
      have hmem :
          some (.popped none) ∈ (s.threads.set i (c.enter s.queue).thread).map Thread.answer :=
        hmem
      rw [List.map_set] at hmem
      rcases List.mem_or_eq_of_mem_set hmem with hmem | hnew
      · obtain ⟨hclosed, hempty⟩ := h hmem
        exact enter_finished hclosed hempty c
      · show (c.enter s.queue).queue.closed = true ∧ (c.enter s.queue).queue.tasks = []
        generalize hsec : c.enter s.queue = sec at hnew ⊢
        cases hsec ▸ enter_outcome s.queue c with
        | finished hclosed hempty => exact ⟨hclosed, hempty⟩
        | _ => simp [Thread.answer] at hnew
  | kept hkeeps ha => exact fun hmem => h (hkeeps.answers ▸ hmem)
  | @collected i answer hi =>
      intro hmem
      have hmem :
        some (.popped none) ∈ (s.threads.set i (.returned .ready)).map Thread.answer := hmem
      rw [List.map_set] at hmem
      rcases List.mem_or_eq_of_mem_set hmem with hmem | hnew
      · exact h hmem
      · simp [Thread.answer] at hnew

/-- The tasks that all threads hold. -/
def held (s : System τ) : Multiset τ := Custody.held Thread.holds s.threads

theorem Keeps.held {threads threads' : List (Thread τ)} (h : Keeps threads threads') :
    Custody.held Thread.holds threads' = Custody.held Thread.holds threads := by
  have hanswers := h.answers
  have hmap : ∀ l : List (Thread τ), l.map Thread.holds =
      (l.map Thread.answer).map fun
        | some (.popped (some task)) => {task}
        | some (.drained tasks) => tasks
        | _ => 0 := by
    intro l
    rw [List.map_map]
    rfl
  rw [Custody.held, Custody.held, hmap, hmap, hanswers]

/-- A thread that held nothing when it called holds what its section handed out. -/
theorem held_entered {i : Nat} {old : Thread τ} {c : Call τ} (hi : s.threads[i]? = some old)
    (hnothing : old.holds = 0) :
    (s.entered i (c.enter s.queue)).held + (s.handed.flatten : Multiset τ) =
      s.held + ((s.entered i (c.enter s.queue)).handed.flatten : Multiset τ) := by
  obtain ⟨others, hheld, hset⟩ := held_set Thread.holds hi
  show Custody.held _ (s.threads.set i (c.enter s.queue).thread) + _ =
    Custody.held _ s.threads + ((s.handed ++ (c.enter s.queue).handed).flatten : Multiset τ)
  rw [hset, hheld, hnothing, holds_enter, List.flatten_append, ← Multiset.coe_add, zero_add,
    add_comm _ others, add_assoc, add_comm (Multiset.ofList (c.enter s.queue).handed.flatten)]

end System

-- ============================================================================
-- The pool
-- ============================================================================

/-- `default_worker_count`, where `hardware_concurrency` reports `detected`. -/
def defaultWorkerCount (detected : Nat) : Nat := if detected = 0 then 1 else detected

/-- `resolve_worker_count`. -/
def resolveWorkerCount (detected configured : Nat) : Nat :=
  if configured = 0 then defaultWorkerCount detected else configured

theorem resolveWorkerCount_pos (detected configured : Nat) :
    0 < resolveWorkerCount detected configured := by
  unfold resolveWorkerCount defaultWorkerCount
  split
  · split
    · exact Nat.one_pos
    · exact Nat.pos_of_ne_zero ‹_›
  · exact Nat.pos_of_ne_zero ‹_›

/-- How far the `stop` has come that set `stopped_`, and which thread called it. -/
inductive Stopping where
  | notYet
  | exchanged (i : Nat)
  | closing (i : Nat)
  | joined
  deriving DecidableEq, Repr

def Stopping.caller : Stopping → Option Nat
  | .exchanged i => some i
  | .closing i => some i
  | _ => none

/-- `WorkerPool`.  The threads below `workers` are in `worker_loop`; the others call
    `submit` and `stop`, and may do so for a task that runs. -/
structure WorkerPool (τ : Type) where
  workers : Nat
  system : System τ
  stopped : Bool := false
  stopping : Stopping := .notYet
  stopReturns : Nat := 0
  ran : List τ := []
  tasksCompleted : Nat := 0
  tasksFailed : Nat := 0
  deriving DecidableEq, Repr

namespace WorkerPool

/-- What may happen: calls of `submit` and `stop`, the `close` and the `join`s in a
    `stop`, a turn of `worker_loop`, and what goes on inside a call of the queue. -/
inductive Action (τ : Type) where
  | submit (i : Nat) (task : τ)
  | stop (i : Nat)
  | close (i : Nat)
  | join (i : Nat)
  | pop (i : Nat)
  | run (i : Nat) (threw : Bool)
  | resume (i : Nat)
  | notify (i : Nat) (sleeper : Option Nat)
  | spurious (i : Nat)

/-- The step of the queue's threads that a step of the pool contains. -/
def onSystem (p : WorkerPool τ) (a : Concurrency.Action τ) : Option (WorkerPool τ) :=
  (p.system.step a).map fun system => { p with system }

/-- A caller that is not inside a `stop`. -/
def mayCall (p : WorkerPool τ) (i : Nat) : Prop :=
  p.workers ≤ i ∧ p.stopping.caller ≠ some i

instance (p : WorkerPool τ) (i : Nat) : Decidable (p.mayCall i) :=
  inferInstanceAs (Decidable (_ ∧ _))

def isReturned : Option (Thread τ) → Bool
  | some (.returned _) => true
  | _ => false

/-- A worker whose `pop` returned nothing has left `worker_loop`. -/
def hasExited : Thread τ → Bool
  | .returned (.popped none) => true
  | _ => false

def step (p : WorkerPool τ) : Action τ → Option (WorkerPool τ)
  | .submit i task => if p.mayCall i then p.onSystem (.call i (.tryPush task)) else none
  | .stop i =>
    if p.mayCall i ∧ isReturned p.system.threads[i]? then
      if p.stopped then some { p with stopReturns := p.stopReturns + 1 }
      else some { p with stopped := true, stopping := .exchanged i }
    else none
  | .close i =>
    if p.stopping = .exchanged i then
      ({ p with stopping := .closing i } : WorkerPool τ).onSystem (.call i .close)
    else none
  | .join i =>
    if p.stopping = .closing i ∧ isReturned p.system.threads[i]? ∧
        (p.system.threads.take p.workers).all hasExited then
      some { p with stopping := .joined, stopReturns := p.stopReturns + 1 }
    else none
  | .pop i =>
    match p.system.threads[i]? with
    | some (.returned .ready) => if i < p.workers then p.onSystem (.call i .pop) else none
    | _ => none
  | .run i threw =>
    match p.system.threads[i]? with
    | some (.returned (.popped (some task))) =>
      ({ p with
        ran := p.ran ++ [task]
        tasksCompleted := p.tasksCompleted + (!threw).toNat
        tasksFailed := p.tasksFailed + threw.toNat } : WorkerPool τ).onSystem (.collect i)
    | _ => none
  | .resume i => p.onSystem (.resume i)
  | .notify i sleeper => p.onSystem (.notify i sleeper)
  | .spurious i => p.onSystem (.spurious i)

/-- A new pool and the threads that will call it. -/
def new (workers callers capacity : Nat) : WorkerPool τ where
  workers := workers
  system := { queue := { capacity }
              threads := List.replicate (workers + callers) (.returned .ready) }

/-- States of any run of a pool. -/
def Reachable (detected configured callers capacity : Nat) : WorkerPool τ → Prop :=
  Reached (· = new (resolveWorkerCount detected configured) callers capacity) step
    fun _ _ => True

-- ============================================================================
-- What every run keeps
-- ============================================================================

variable {p p' : WorkerPool τ} {workers callers capacity : Nat}

/-- A thread that only ever submits, closes or does nothing. -/
def isCaller (thread : Thread τ) : Prop :=
  thread.answer = some .ready ∨ (∃ queued, thread.answer = some (.pushed queued)) ∨
    thread.answer = some .closed

theorem holds_of_isCaller {thread : Thread τ} (h : isCaller thread) : thread.holds = 0 := by
  rcases h with h | ⟨queued, h⟩ | h
  · rw [Thread.holds, h]
  · rw [Thread.holds, h]
  · rw [Thread.holds, h]

/-- What is held or was run is what was handed out; workers and callers keep to their
    calls; and after the join the workers are gone. -/
structure Sound (workers callers capacity : Nat) (p : WorkerPool τ) : Prop where
  size : p.workers = workers ∧ p.system.threads.length = workers + callers
  reachable : System.Reachable capacity (workers + callers) p.system
  finished : p.system.Finished
  held : (p.ran : Multiset τ) + p.system.held = (p.system.handed.flatten : Multiset τ)
  callers : ∀ (j : Nat) (thread : Thread τ), workers ≤ j → p.system.threads[j]? = some thread →
    isCaller thread
  stopper : ∀ i, p.stopping.caller = some i → workers ≤ i
  exited : p.stopping = .joined → ∀ j < workers,
    p.system.threads[j]? = some (.returned (.popped none))
  counted : p.tasksCompleted + p.tasksFailed = p.ran.length

theorem sound_new (workers callers capacity : Nat) :
    Sound workers callers capacity (new workers callers capacity : WorkerPool τ) := by
  have hready : ∀ thread ∈ List.replicate (workers + callers) (Thread.returned (.ready : Answer τ)),
      thread = .returned .ready := fun thread hmem => List.eq_of_mem_replicate hmem
  refine ⟨⟨rfl, List.length_replicate⟩, .start rfl, fun hmem => ?_, ?_, fun j thread _ hj => ?_,
    fun i hstopper => absurd hstopper (by simp [new, Stopping.caller]),
    fun hjoined => absurd hjoined (by simp [new]), rfl⟩
  · obtain ⟨thread, hmem, hanswer⟩ := List.mem_map.mp hmem
    rw [hready thread hmem] at hanswer
    simp [Thread.answer] at hanswer
  · have hnothing : (Thread.returned (.ready : Answer τ)).holds = 0 := rfl
    show (0 : Multiset τ) + Custody.held Thread.holds (List.replicate _ _) = _
    rw [held_replicate hnothing, zero_add]
    rfl
  · rw [hready thread (List.mem_of_getElem? hj)]
    exact .inl rfl

/-- The steps of the queue's threads that a pool lets happen. -/
def allowed (p : WorkerPool τ) : Concurrency.Action τ → Prop
  | .call i c => (p.workers ≤ i ∧ ((∃ task, c = .tryPush task) ∨ c = .close)) ∨
      (i < p.workers ∧ c = .pop ∧ p.system.threads[i]? = some (.returned .ready))
  | .collect _ => False
  | _ => True

theorem isCaller_enter (q : BoundedWorkQueue τ) {c : Call τ}
    (hc : (∃ task, c = .tryPush task) ∨ c = .close) : isCaller (c.enter q).thread := by
  generalize hsec : c.enter q = sec
  cases hsec ▸ enter_outcome q c with
  | accepted hc' hopen hroom => exact .inr (.inl ⟨true, rfl⟩)
  | refused hc' => exact .inr (.inl ⟨false, rfl⟩)
  | closing => exact .inr (.inr rfl)
  | _ => simp at hc

theorem Sound.turn {a : Concurrency.Action τ} {system : System τ}
    (h : Sound workers callers capacity p) (hallowed : p.allowed a)
    (hs : p.system.step a = some system) : Sound workers callers capacity { p with system } := by
  obtain ⟨⟨rfl, hlength⟩, hreachable, hfinished, hheld, hcallers, hstopper, hexited, hcounted⟩ := h
  have hreachable' : System.Reachable capacity (p.workers + callers) system :=
    .next hreachable trivial hs
  have hfinished' := hfinished.step hs
  cases System.turned hs with
  | @entered _ i old c hi ha hold =>
      -- whoever goes through a section held nothing before
      have hnothing : old.holds = 0 := by
        rcases ha with ⟨rfl, -⟩ | ⟨-, hnone⟩
        · rcases hallowed with ⟨hcaller, -⟩ | ⟨-, -, hready⟩
          · exact holds_of_isCaller (hcallers i old hcaller hi)
          · obtain rfl := Option.some.inj (hi.symm.trans hready)
            rfl
        · exact holds_of_answer_none hnone
      refine ⟨⟨rfl, ?_⟩, hreachable', hfinished', ?_, fun j thread hj hthread => ?_,
        hstopper, fun hjoined j hj => ?_, hcounted⟩
      · exact (List.length_set ..).trans hlength
      · have hentered := System.held_entered (c := c) hi hnothing
        refine add_right_cancel (b := (p.system.handed.flatten : Multiset τ)) ?_
        rw [add_assoc, hentered, ← add_assoc, hheld, add_comm]
      · by_cases hij : i = j
        · subst hij
          have hnew : thread = (c.enter p.system.queue).thread := by
            obtain ⟨hlt, -⟩ := List.getElem?_eq_some_iff.mp hi
            exact (Option.some.inj ((List.getElem?_set_self hlt).symm.trans hthread)).symm
          rw [hnew]
          rcases ha with ⟨rfl, -⟩ | ⟨-, hnone⟩
          · rcases hallowed with ⟨-, hc⟩ | ⟨hlt, -⟩
            · exact isCaller_enter _ hc
            · exact absurd hlt (Nat.not_lt.mpr hj)
          · have hcaller := hcallers i old hj hi
            simp [isCaller, hnone] at hcaller
        · exact hcallers j thread hj ((List.getElem?_set_ne hij).symm.trans hthread)
      · have hgone := hexited hjoined j hj
        have hij : i ≠ j := by
          rintro rfl
          obtain rfl := Option.some.inj (hi.symm.trans hgone)
          rcases ha with ⟨rfl, -⟩ | ⟨-, hnone⟩
          · rcases hallowed with ⟨hle, -⟩ | ⟨-, -, hready⟩
            · exact absurd hj (Nat.not_lt.mpr hle)
            · exact absurd (hi.symm.trans hready) (by simp)
          · exact absurd hnone (by simp [Thread.answer])
        exact (List.getElem?_set_ne hij).trans hgone
  | @kept _ threads hkeeps ha =>
      refine ⟨⟨rfl, ?_⟩, hreachable', hfinished', ?_, fun j thread hj hthread => ?_,
        hstopper, fun hjoined j hj => hkeeps.returned j _ (hexited hjoined j hj), hcounted⟩
      · have hsame := congrArg List.length hkeeps.answers
        rw [List.length_map, List.length_map] at hsame
        exact hsame.trans hlength
      · show (p.ran : Multiset τ) + Custody.held Thread.holds threads = _
        rw [hkeeps.held]
        exact hheld
      · have hanswer : (p.system.threads.map Thread.answer)[j]? = some thread.answer := by
          have hthread : threads[j]? = some thread := hthread
          rw [← hkeeps.answers, List.getElem?_map, hthread, Option.map_some]
        rw [List.getElem?_map, Option.map_eq_some_iff] at hanswer
        obtain ⟨old, hold, hsame⟩ := hanswer
        have hcaller := hcallers j old hj hold
        unfold isCaller at hcaller ⊢
        rw [← hsame]
        exact hcaller
  | collected hi => exact hallowed.elim

/-- A worker that is done with its task. -/
theorem Sound.run (h : Sound workers callers capacity p) {i : Nat} {task : τ} (threw : Bool)
    (hi : p.system.threads[i]? = some (.returned (.popped (some task)))) {system : System τ}
    (hs : p.system.step (.collect i) = some system) :
    Sound workers callers capacity { p with
      ran := p.ran ++ [task]
      tasksCompleted := p.tasksCompleted + (!threw).toNat
      tasksFailed := p.tasksFailed + threw.toNat
      system := system } := by
  obtain ⟨⟨rfl, hlength⟩, hreachable, hfinished, hheld, hcallers, hstopper, hexited, hcounted⟩ := h
  have hreachable' : System.Reachable capacity (p.workers + callers) system :=
    .next hreachable trivial hs
  have hfinished' := hfinished.step hs
  have hsystem : system = { p.system with
      threads := p.system.threads.set i (.returned .ready) } := by
    simp only [System.step, hi] at hs
    exact (Option.some.inj hs).symm
  obtain ⟨others, hbefore, hset⟩ := held_set Thread.holds hi
  refine ⟨⟨rfl, ?_⟩, hreachable', hfinished', ?_, fun j thread hj hthread => ?_, hstopper,
    fun hjoined j hj => ?_, ?_⟩
  · rw [hsystem]
    exact (List.length_set ..).trans hlength
  · -- the task goes from what is held to what was run
    have hheld' : system.held = others := by
      rw [hsystem]
      exact (hset _).trans (zero_add others)
    have htask : p.system.held = {task} + others := hbefore
    rw [hheld', hsystem, ← hheld, htask, ← add_assoc, ← Multiset.coe_add]
    rfl
  · rw [hsystem] at hthread
    by_cases hij : i = j
    · subst hij
      have hcaller := hcallers i _ hj hi
      simp [isCaller, Thread.answer] at hcaller
    · exact hcallers j thread hj ((List.getElem?_set_ne hij).symm.trans hthread)
  · have hgone := hexited hjoined j hj
    have hij : i ≠ j := by
      rintro rfl
      exact absurd (hi.symm.trans hgone) (by simp)
    rw [hsystem]
    exact (List.getElem?_set_ne hij).trans hgone
  · show p.tasksCompleted + (!threw).toNat + (p.tasksFailed + threw.toNat) =
      (p.ran ++ [task]).length
    rw [List.length_append, List.length_singleton, ← hcounted]
    cases threw
    · exact Nat.add_right_comm _ _ _
    · exact (Nat.add_assoc _ _ _).symm

theorem onSystem_eq_some {a : Concurrency.Action τ} (h : p.onSystem a = some p') :
    ∃ system, p.system.step a = some system ∧ p' = { p with system } := by
  obtain ⟨system, hs, rfl⟩ := Option.map_eq_some_iff.mp h
  exact ⟨system, hs, rfl⟩

theorem Sound.onSystem {a : Concurrency.Action τ} (h : Sound workers callers capacity p)
    (hallowed : p.allowed a) (hs : p.onSystem a = some p') :
    Sound workers callers capacity p' := by
  obtain ⟨system, hstep, rfl⟩ := onSystem_eq_some hs
  exact h.turn hallowed hstep

/-- Where a `stop` stands is of no concern to the threads before the join. -/
theorem Sound.withStopping (h : Sound workers callers capacity p) {stopping : Stopping}
    (hcaller : ∀ i, stopping.caller = some i → workers ≤ i) (hstopping : stopping ≠ .joined)
    (stopped : Bool) : Sound workers callers capacity { p with stopped, stopping } :=
  ⟨h.size, h.reachable, h.finished, h.held, h.callers, hcaller,
    fun hjoined => absurd hjoined hstopping, h.counted⟩

/-- The join waits until every worker has left. -/
theorem Sound.join (h : Sound workers callers capacity p)
    (hall : (p.system.threads.take p.workers).all hasExited = true) (stopReturns : Nat) :
    Sound workers callers capacity { p with stopping := .joined, stopReturns } := by
  refine ⟨h.size, h.reachable, h.finished, h.held, h.callers,
    fun i hstopper => absurd hstopper (by simp [Stopping.caller]), fun _ j hj => ?_, h.counted⟩
  obtain ⟨rfl, hlength⟩ := h.size
  have hlt : j < p.system.threads.length := by omega
  have hmem : p.system.threads[j] ∈ p.system.threads.take p.workers :=
    List.mem_take_iff_getElem.mpr ⟨j, by omega, rfl⟩
  have hexited := List.all_eq_true.mp hall _ hmem
  rw [List.getElem?_eq_getElem hlt]
  unfold hasExited at hexited
  split at hexited
  · exact congrArg some ‹_›
  · exact absurd hexited (by simp)

theorem Sound.step {a : Action τ} (h : Sound workers callers capacity p) (hs : p.step a = some p') :
    Sound workers callers capacity p' := by
  obtain ⟨rfl, hlength⟩ := h.size
  unfold WorkerPool.step at hs
  cases a with
  | submit i task =>
      dsimp only at hs
      split at hs
      · have hallowed : p.allowed (.call i (.tryPush task)) :=
          Or.inl ⟨‹p.mayCall i›.1, .inl ⟨task, rfl⟩⟩
        exact h.onSystem hallowed hs
      · exact absurd hs (by simp)
  | stop i =>
      dsimp only at hs
      split at hs
      · rename_i hmay
        split at hs
        · obtain rfl := Option.some.inj hs
          exact ⟨h.size, h.reachable, h.finished, h.held, h.callers, h.stopper, h.exited, h.counted⟩
        · obtain rfl := Option.some.inj hs
          refine h.withStopping (fun j hj => ?_) (by simp) true
          obtain rfl : i = j := Option.some.inj hj
          exact hmay.1.1
      · exact absurd hs (by simp)
  | close i =>
      dsimp only at hs
      split at hs
      · have hcaller : p.workers ≤ i := h.stopper i (by rw [‹p.stopping = _›]; rfl)
        have hclosing : Sound p.workers callers capacity { p with stopping := .closing i } := by
          refine h.withStopping (fun j hj => ?_) (by simp) p.stopped
          obtain rfl : i = j := Option.some.inj hj
          exact hcaller
        have hallowed : WorkerPool.allowed { p with stopping := .closing i } (.call i .close) :=
          Or.inl ⟨hcaller, .inr rfl⟩
        exact hclosing.onSystem hallowed hs
      · exact absurd hs (by simp)
  | join i =>
      dsimp only at hs
      split at hs
      · rename_i hjoin
        obtain rfl := Option.some.inj hs
        exact h.join hjoin.2.2 _
      · exact absurd hs (by simp)
  | pop i =>
      dsimp only at hs
      split at hs
      · split at hs
        · have hallowed : p.allowed (.call i .pop) := Or.inr ⟨‹i < _›, rfl, ‹_›⟩
          exact h.onSystem hallowed hs
        · exact absurd hs (by simp)
      · exact absurd hs (by simp)
  | run i threw =>
      dsimp only at hs
      split at hs
      · rename_i task hi
        obtain ⟨system, hstep, rfl⟩ := onSystem_eq_some hs
        exact h.run threw hi hstep
      · exact absurd hs (by simp)
  | resume i =>
      have hallowed : p.allowed (.resume i) := trivial
      exact h.onSystem hallowed hs
  | notify i sleeper =>
      have hallowed : p.allowed (.notify i sleeper) := trivial
      exact h.onSystem hallowed hs
  | spurious i =>
      have hallowed : p.allowed (.spurious i) := trivial
      exact h.onSystem hallowed hs

theorem Reachable.sound {detected configured callers capacity : Nat}
    (h : Reachable detected configured callers capacity p) :
    Sound (resolveWorkerCount detected configured) callers capacity p := by
  refine h.invariant (fun p hnew => ?_) fun _ _ _ hsound _ => hsound.step
  obtain rfl : p = new _ _ _ := hnew
  exact sound_new _ _ _

/-- After the join nobody holds a task. -/
theorem Sound.held_joined (h : Sound workers callers capacity p) (hjoined : p.stopping = .joined) :
    p.system.held = 0 := by
  refine List.sum_eq_zero fun tasks hmem => ?_
  obtain ⟨thread, hthread, rfl⟩ := List.mem_map.mp hmem
  obtain ⟨j, hj⟩ := List.mem_iff_getElem?.mp hthread
  by_cases hlt : j < workers
  · obtain rfl := Option.some.inj (hj.symm.trans (h.exited hjoined j hlt))
    rfl
  · exact holds_of_isCaller (h.callers j thread (Nat.not_lt.mp hlt) hj)

/-- What holds of a pool in every state. -/
structure RunsAll (capacity : Nat) (p : WorkerPool τ) : Prop where
  served : p.system.Served capacity
  at_most_once : (p.ran : Multiset τ) ≤ p.system.accepted
  all_run : p.stopping = .joined → p.ran.Perm p.system.accepted
  counted : p.tasksCompleted + p.tasksFailed = p.ran.length

theorem Sound.runsAll (h : Sound workers callers capacity p) (hworkers : 0 < workers) :
    RunsAll capacity p := by
  have hserved := h.reachable.served
  have haccepted : (p.ran : Multiset τ) + p.system.held + (p.system.queue.tasks : Multiset τ) =
      p.system.accepted := by
    rw [h.held, Multiset.coe_add, hserved.fifo]
  refine ⟨hserved, ?_, fun hjoined => ?_, h.counted⟩
  · rw [← haccepted, add_assoc]
    exact Multiset.le_add_right _ _
  · -- a worker has left, so that nothing waits
    have hmem : some (.popped none) ∈ p.system.threads.map Thread.answer :=
      List.mem_map.mpr ⟨_, List.mem_of_getElem? (h.exited hjoined 0 hworkers), rfl⟩
    obtain ⟨-, hempty⟩ := h.finished hmem
    rw [h.held_joined hjoined, hempty, Multiset.coe_nil, add_zero, add_zero] at haccepted
    exact Multiset.coe_eq_coe.mp haccepted

/-- The queue serves every interleaving of its threads, and a pool has run what it
    accepted when the `stop` that joins its workers has returned. -/
theorem neither_lost_nor_repeated {threads queueCapacity detected configured callers capacity : Nat}
    {s : System τ} (hs : System.Reachable queueCapacity threads s)
    (hp : Reachable detected configured callers capacity p) :
    s.Served queueCapacity ∧ RunsAll capacity p :=
  ⟨hs.served, hp.sound.runsAll (resolveWorkerCount_pos detected configured)⟩

/-- A sleeper that is notified of a task, and a pool of one worker that is stopped behind
    a task that throws. -/
theorem neither_lost_nor_repeated_stopped :
    System.Served 1 ({ queue := { capacity := 1, tasks := [7] }, accepted := [7]
                       threads := [.wokenPop, .returned (.pushed true)] } : System Nat) ∧
      RunsAll 1 ({ workers := 1, stopped := true, stopping := .joined, stopReturns := 1, ran := [7]
                   tasksFailed := 1
                   system := { queue := { capacity := 1, closed := true }
                               accepted := [7], handed := [[7]]
                               threads := [.returned (.popped none), .returned .closed] } } :
        WorkerPool Nat) := by
  have hs : System.Reachable 1 2 _ := Reached.of_actions (.start rfl)
    (show runActions System.step _ [.call 0 .pop, .call 1 (.tryPush 7), .notify 1 (some 0)]
      _ = some _ from rfl)
  have hp : Reachable 0 0 1 1 _ := Reached.of_actions (.start rfl)
    (show runActions step _ [.submit 1 7, .notify 1 none, .pop 0, .notify 0 none, .run 0 true,
      .stop 1, .close 1, .notify 1 none, .notify 1 none, .pop 0, .join 1]
      (new 1 1 1) = some _ from rfl)
  exact neither_lost_nor_repeated hs hp

/-- A second `stop` returns while the first is still at it and a task has not been run. -/
theorem second_stop_returns_early :
    ¬ ∀ p : WorkerPool Nat, Reachable 1 1 2 1 p → 0 < p.stopReturns →
      p.ran.Perm p.system.accepted := by
  intro hall
  have hp : Reachable 1 1 2 1 _ := Reached.of_actions (.start rfl)
    (show runActions step _ [.submit 1 7, .notify 1 none, .stop 1, .stop 2]
      (new 1 2 1) = some _ from rfl)
  exact absurd (hall _ hp Nat.one_pos).length_eq (by decide)

end WorkerPool

end PassionProjects.Arcserve.Concurrency
