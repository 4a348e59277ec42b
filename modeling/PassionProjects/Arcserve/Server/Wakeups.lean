/-
  PassionProjects.Arcserve.Server.Wakeups

  Results that are awaited, whether they come, and the eventfd that announces them.

  A request that goes to the pool is passed on from the pool's queue to a worker, to
  the completion queue, and to `on_worker_result`.  `worker_loop` swallows what the
  task throws, and with it the only job of the connection.

  A worker pushes a completion and then writes to the eventfd; the reactor reads the
  eventfd and then drains the queue.  `Announced` is what the two orders give
  together, over all interleavings: what is in the queue is announced, will be, or is
  about to be drained.  `Move` says once what a step does to this protocol.
-/

import PassionProjects.Arcserve.Server.Invariant

namespace PassionProjects.Arcserve.Server.State

section Awaited

open Net Reactor Buffers Protocol Concurrency Transition

variable {cfg : Config} {d : Descriptors} {s : State}

/-- An open connection has one job, for the request it completed last, where it awaits
    a result, and else none. -/
def ResultsComing (cfg : Config) (s : State) : Prop :=
  s.phase ≠ .returned → s.phase ≠ .unwound → ∀ fd id, s.server.connections fd = some id →
    jobsOf id s.jobs = (if (s.server.heap id).awaitingWorkerResult then 1 else 0) ∧
      ∀ j ∈ s.jobs, j.conn = id →
        ∃ request, (s.server.wires id).requests.getLast? = some request ∧ j.IsFor cfg request

/-- In a run in which no handler call of a worker throws, every result comes. -/
theorem Runs.resultsComing (h : Runs cfg d (fun s a => ¬ handlerThrows cfg s a) s) :
    ResultsComing cfg s := by
  intro hreturned hunwound fd id hfd
  have hsound := Runs.exact (fun _ _ hok => hok) h
  have hjobs := hsound.accounted (hsound.threw_false hunwound) hreturned
  have halive := hsound.coherent.isAlive hfd
  refine ⟨hjobs.owed id halive, fun j hj hconn => ?_⟩
  rw [← hconn] at halive ⊢
  exact hjobs.current j hj halive

/-- A client sends a request and a worker takes it. -/
def requestDispatched : List Action := clientConnects ++
  [.epollReturns [(7, kReadable)], .dispatch { recvs := [.data sampleRequest] }, .endBatch,
    .takeTask 0, .runTask 0]

theorem resultsComing_dispatched :
    ResultsComing sampleConfig (after sampleConfig sampleDescriptors
      (fun s a => ¬ handlerThrows sampleConfig s a) requestDispatched (by decide +kernel)) :=
  Runs.resultsComing (runs_after _ _ _ _ _)

/-- The same server with a handler that throws. -/
def throwingConfig : Config := { sampleConfig with handler := fun _ _ => none }

/-- The connection awaits a result for ever. -/
theorem requestDispatched_lost :
    ¬ ∀ s, Reachable throwingConfig sampleDescriptors s → ResultsComing throwingConfig s := by
  intro hall
  have hone := hall _ (runs_after _ _ _ requestDispatched (by decide +kernel)) (by decide +kernel)
    (by decide +kernel) 7 0 (by decide +kernel)
  exact absurd hone.1 (by decide +kernel)

end Awaited

section Wakeups

open Net Reactor Buffers Protocol Concurrency Transition

variable {cfg : Config} {d : Descriptors} {s s' : State} {a : Action} {i : Nat} {w w' : Worker}

/-- The reactor is in `on_completion_readable` and has not called `drain` yet. -/
def BeforeDrain (s : State) : Prop := ∃ batch, s.phase = .reading batch ∨ s.phase = .draining batch

theorem not_beforeDrain {phase : Phase} (hphase : s.phase = phase)
    (hreading : ∀ batch, phase ≠ .reading batch) (hdraining : ∀ batch, phase ≠ .draining batch) :
    ¬ s.BeforeDrain := by
  rintro ⟨batch, h | h⟩
  · exact hreading batch (hphase.symm.trans h)
  · exact hdraining batch (hphase.symm.trans h)

-- ============================================================================
-- What a step does
-- ============================================================================

inductive Move (s : State) : Action → State → Prop where
  | reactor {a : Action} {s' : State} : s'.workers = s.workers →
      s'.completions.capacity = s.completions.capacity → s'.counter ≤ s.counter →
      (s'.completions.tasks = [] ∨ s'.completions.tasks = s.completions.tasks ∧
        (s'.BeforeDrain ∨ s'.counter = s.counter ∧ ¬ s.BeforeDrain)) → Move s a s'
  | worked {a : Action} {s' : State} {i : Nat} {w w' : Worker} : s.workers[i]? = some w →
      w ≠ .signalling → s'.workers = s.workers.set i w' → s'.completions = s.completions →
      s'.counter = s.counter → s'.phase = s.phase → Move s a s'
  | pushed {a : Action} {s' : State} {i : Nat} {completion : Completion} :
      s.workers[i]? = some (.posting completion) → s'.workers = s.workers.set i .signalling →
      s'.completions.capacity = s.completions.capacity → s'.phase = s.phase → Move s a s'
  | signalled {s' : State} {i : Nat} : s.workers[i]? = some .signalling →
      s'.workers = s.workers.set i .idle → s'.completions = s.completions →
      0 < s'.counter → s'.phase = s.phase → Move s (.signal i) s'

/-- A step of the reactor outside of `on_completion_readable`. -/
theorem Move.outside (hnot : ¬ s.BeforeDrain) (hworkers : s'.workers = s.workers)
    (hcompletions : s'.completions.tasks = s.completions.tasks)
    (hcapacity : s'.completions.capacity = s.completions.capacity)
    (hcounter : s'.counter = s.counter) : Move s a s' :=
  .reactor hworkers hcapacity (Nat.le_of_eq hcounter)
    (Or.inr ⟨hcompletions, Or.inr ⟨hcounter, hnot⟩⟩)

/-- The completion is pushed before the eventfd is written. -/
theorem move_pushCompletion (hstep : Server.step cfg d s (.pushCompletion i) = some s') :
    Move s (.pushCompletion i) s' := by
  simp only [Server.step] at hstep
  split at hstep
  · next completion hworker =>
      split at hstep
      · next queue hpush =>
          obtain rfl := Option.some.inj hstep
          obtain ⟨hfalse, -⟩ | ⟨-, -, rfl⟩ := BoundedWorkQueue.push_cases hpush
          · exact absurd hfalse (by simp)
          · exact .pushed hworker rfl rfl rfl
      · next queue hpush =>
          obtain rfl := Option.some.inj hstep
          obtain ⟨-, -, rfl⟩ | ⟨htrue, -⟩ := BoundedWorkQueue.push_cases hpush
          · exact .worked hworker (by simp) rfl rfl rfl rfl
          · exact absurd htrue (by simp)
      · exact absurd hstep (by simp)
  · exact absurd hstep (by simp)

/-- A write to the eventfd leaves its counter positive. -/
theorem counter_signal (hstep : Server.step cfg d s (.signal i) = some s') : 0 < s'.counter := by
  simp only [Server.step] at hstep
  split at hstep
  · obtain rfl := Option.some.inj hstep
    exact Nat.lt_min.mpr ⟨Nat.succ_pos _, by decide⟩
  · exact absurd hstep (by simp)

theorem move_signal (hstep : Server.step cfg d s (.signal i) = some s') :
    Move s (.signal i) s' := by
  have hcounter := counter_signal hstep
  simp only [Server.step] at hstep
  split at hstep
  · next hworker =>
      obtain rfl := Option.some.inj hstep
      exact .signalled hworker rfl rfl hcounter rfl
  · exact absurd hstep (by simp)

/-- The eventfd is read before the queue is drained. -/
theorem move_readCompletionFd (hstep : Server.step cfg d s .readCompletionFd = some s') :
    Move s .readCompletionFd s' := by
  simp only [Server.step] at hstep
  split at hstep
  · next batch hphase =>
      split at hstep <;> obtain rfl := Option.some.inj hstep
      · exact .reactor rfl rfl (Nat.zero_le _) (Or.inr ⟨rfl, Or.inl ⟨batch, Or.inl hphase⟩⟩)
      · exact .reactor rfl rfl (Nat.le_refl _) (Or.inr ⟨rfl, Or.inl ⟨batch, Or.inr rfl⟩⟩)
  · exact absurd hstep (by simp)

theorem move_dispatch {kernel : Kernel} (hstep : Server.step cfg d s (.dispatch kernel) = some s') :
    Move s (.dispatch kernel) s' := by
  simp only [Server.step] at hstep
  split at hstep
  · next fd events batch hphase =>
      have hnot := not_beforeDrain hphase (by simp) (by simp)
      split at hstep
      · obtain rfl := Option.some.inj hstep
        exact .outside hnot rfl rfl rfl rfl
      · split at hstep <;> obtain rfl := Option.some.inj hstep <;>
          exact .outside hnot rfl rfl rfl rfl
  · exact absurd hstep (by simp)

theorem move_deliver {kernel : Kernel} (hstep : Server.step cfg d s (.deliver kernel) = some s') :
    Move s (.deliver kernel) s' := by
  simp only [Server.step] at hstep
  split at hstep
  · next batch hphase =>
      obtain rfl := Option.some.inj hstep
      exact .outside (not_beforeDrain hphase (by simp) (by simp)) rfl rfl rfl rfl
  · next completion rest batch hphase =>
      obtain rfl := Option.some.inj hstep
      exact .outside (not_beforeDrain hphase (by simp) (by simp)) rfl rfl rfl rfl
  · exact absurd hstep (by simp)

theorem step_move (hstep : Server.step cfg d s a = some s') : Move s a s' := by
  cases a with
  | pushCompletion i => exact move_pushCompletion hstep
  | signal i => exact move_signal hstep
  | readCompletionFd => exact move_readCompletionFd hstep
  | dispatch kernel => exact move_dispatch hstep
  | deliver kernel => exact move_deliver hstep
  | runTask i =>
      simp only [Server.step] at hstep
      split at hstep
      · next task hworker =>
          split at hstep <;> obtain rfl := Option.some.inj hstep <;>
            exact .worked hworker (by simp) rfl rfl rfl rfl
      · exact absurd hstep (by simp)
  | takeTask i =>
      simp only [Server.step] at hstep
      split at hstep
      · next task pool hworker hpop =>
          obtain rfl := Option.some.inj hstep
          exact .worked hworker (by simp) rfl rfl rfl rfl
      · exact absurd hstep (by simp)
  | drainCompletions =>
      simp only [Server.step] at hstep
      split at hstep
      · obtain rfl := Option.some.inj hstep
        exact .reactor rfl rfl (Nat.le_refl _) (Or.inl rfl)
      · exact absurd hstep (by simp)
  | requestStop =>
      obtain rfl := Option.some.inj hstep
      by_cases hbefore : s.BeforeDrain
      · exact .reactor rfl rfl (Nat.le_refl _) (Or.inr ⟨rfl, Or.inl hbefore⟩)
      · exact .outside hbefore rfl rfl rfl rfl
  | epollReturns batch =>
      simp only [Server.step] at hstep
      split at hstep
      · next hphase =>
          obtain rfl := Option.some.inj hstep
          exact .outside (not_beforeDrain hphase.1 (by simp) (by simp)) rfl rfl rfl rfl
      · exact absurd hstep (by simp)
  | endBatch =>
      simp only [Server.step] at hstep
      split at hstep
      · next hphase =>
          split at hstep <;> obtain rfl := Option.some.inj hstep <;>
            exact .outside (not_beforeDrain hphase (by simp) (by simp)) rfl rfl rfl rfl
      · exact absurd hstep (by simp)

-- ============================================================================
-- No completion without a wake-up
-- ============================================================================

/-- What is in the queue was announced, will be, or is about to be drained. -/
def Announced (s : State) : Prop :=
  s.completions.tasks ≠ [] →
    0 < s.counter ∨ s.BeforeDrain ∨ ∃ i : Nat, s.workers[i]? = some .signalling

/-- A worker that does something else leaves those that signal. -/
theorem signalling_set (hi : s.workers[i]? = some w) (hw : w ≠ .signalling)
    (h : ∃ j : Nat, s.workers[j]? = some .signalling) :
    ∃ j : Nat, (s.workers.set i w')[j]? = some .signalling := by
  obtain ⟨j, hj⟩ := h
  have hne : i ≠ j := by
    rintro rfl
    exact hw (Option.some.inj (hi.symm.trans hj))
  exact ⟨j, (List.getElem?_set_ne hne).trans hj⟩

theorem Announced.move (h : Announced s) (hmove : Move s a s') : Announced s' := by
  intro hne
  cases hmove with
  | reactor hworkers _ _ hqueue =>
      rcases hqueue with hempty | ⟨htasks, hbefore | ⟨hcounter, hnot⟩⟩
      · exact absurd hempty hne
      · exact Or.inr (Or.inl hbefore)
      · rw [htasks] at hne
        rw [hcounter, hworkers]
        exact (h hne).imp_right fun hrest => Or.inr (hrest.resolve_left hnot)
  | worked hworker hw hworkers hcompletions hcounter hphase =>
      rw [hcompletions] at hne
      rw [hcounter, BeforeDrain, hphase, hworkers]
      exact (h hne).imp_right fun hrest => hrest.imp_right (signalling_set hworker hw)
  | @pushed _ _ i _ hworker hworkers _ _ =>
      refine Or.inr (Or.inr ⟨i, ?_⟩)
      rw [hworkers]
      exact List.getElem?_set_self (List.getElem?_eq_some_iff.mp hworker).1
  | signalled _ _ _ hcounter _ => exact Or.inl hcounter

theorem Runs.announced (h : Reachable cfg d s) : Announced s := by
  refine Reached.invariant (I := Announced) ?_ ?_ h
  · rintro s rfl hne
    exact absurd rfl hne
  · exact fun s a s' hs _ hstep => hs.move (step_move hstep)

/-- The queue is as large as configured, and a server without a pool has no use for it. -/
structure Configured (cfg : Config) (s : State) : Prop where
  capacity : s.completions.capacity = cfg.completionQueueCapacity
  inline : cfg.workerPool = none → s.workers = [] ∧ s.completions.tasks = [] ∧ s.counter = 0

theorem Configured.move (h : Configured cfg s) (hmove : Move s a s') : Configured cfg s' := by
  have hnobody : ∀ {i : Nat} {w : Worker}, s.workers[i]? = some w → cfg.workerPool ≠ none := by
    intro i w hworker hinline
    rw [(h.inline hinline).1] at hworker
    exact absurd hworker (by simp)
  cases hmove with
  | reactor hworkers hcapacity hcounter hqueue =>
      refine ⟨hcapacity.trans h.capacity, fun hinline => ?_⟩
      obtain ⟨hnone, hempty, hzero⟩ := h.inline hinline
      refine ⟨hworkers.trans hnone, ?_, Nat.le_zero.mp (hzero ▸ hcounter)⟩
      rcases hqueue with htasks | ⟨htasks, -⟩
      · exact htasks
      · exact htasks.trans hempty
  | worked hworker _ _ hcompletions _ _ =>
      exact ⟨by rw [hcompletions, h.capacity], fun hinline => absurd hinline (hnobody hworker)⟩
  | pushed hworker _ hcapacity _ =>
      exact ⟨hcapacity.trans h.capacity, fun hinline => absurd hinline (hnobody hworker)⟩
  | signalled hworker _ hcompletions _ _ =>
      exact ⟨by rw [hcompletions, h.capacity], fun hinline => absurd hinline (hnobody hworker)⟩

theorem Runs.configured (h : Reachable cfg d s) : Configured cfg s := by
  refine Reached.invariant (I := Configured cfg) ?_ ?_ h
  · rintro s rfl
    exact ⟨rfl, fun hinline => ⟨by simp [initial, hinline], rfl, rfl⟩⟩
  · exact fun s a s' hs _ hstep => hs.move (step_move hstep)

-- ============================================================================
-- Blocking
-- ============================================================================

/-- `epoll_wait` has the completion eventfd to report. -/
def EpollWakes (d : Descriptors) (s : State) : Prop :=
  0 < s.counter ∧ s.server.callbacks d.completion = some .completion ∧
    s.server.interest d.completion = some kReadable

theorem Runs.epollWakes (h : Reachable cfg d s) (hcounter : 0 < s.counter) : EpollWakes d s := by
  have hpool : cfg.workerPool.isSome = true := by
    cases hinline : cfg.workerPool with
    | some pool => rfl
    | none => exact absurd ((Runs.configured h).inline hinline).2.2 (Nat.ne_of_gt hcounter)
  have hlistener : d.completion ≠ d.listener := by
    have hnodup := d.nodup
    simp only [List.nodup_cons, List.mem_cons, List.not_mem_nil, or_false, not_or] at hnodup
    exact fun heq => hnodup.2.2.1 heq.symm
  obtain ⟨hcallback, hinterest⟩ := h.sound.coherent.fixed d.completion (by simp [Descriptors.all])
  refine ⟨hcounter, ?_, ?_⟩
  · rw [hcallback]
    simp [initialServer, hlistener, hpool]
  · rw [hinterest]
    simp [initialServer, hpool]

/-- A worker that waits in `push` waits at a full queue, and so at one that is not
    empty. -/
theorem tasks_of_blocked {completion : Completion} (h : Reachable cfg d s)
    (hcapacity : 1 ≤ cfg.completionQueueCapacity)
    (hblocked : s.completions.push completion = none) :
    s.completions.tasks ≠ [] := by
  intro hempty
  have hfull := (BoundedWorkQueue.push_eq_none.mp hblocked).2
  rw [hempty, (Runs.configured h).capacity] at hfull
  exact absurd (Nat.le_trans hcapacity hfull) (by simp)

/-- As long as the reactor waits, a worker that is to signal is not disturbed. -/
theorem Move.signalling (hmove : Move s a s') (hi : s.workers[i]? = some .signalling) :
    s'.workers[i]? = some .signalling ∨ 0 < s'.counter := by
  have hother : ∀ {j : Nat} {w w' : Worker}, s.workers[j]? = some w → w ≠ .signalling →
      (s.workers.set j w')[i]? = some .signalling := by
    intro j w w' hj hw
    have hne : j ≠ i := by
      rintro rfl
      exact hw (Option.some.inj (hj.symm.trans hi))
    exact (List.getElem?_set_ne hne).trans hi
  cases hmove with
  | reactor hworkers _ _ _ => exact Or.inl (by rw [hworkers]; exact hi)
  | worked hworker hw hworkers _ _ _ => exact Or.inl (by rw [hworkers]; exact hother hworker hw)
  | pushed hworker hworkers _ _ =>
      exact Or.inl (by rw [hworkers]; exact hother hworker (by simp))
  | signalled _ _ _ hcounter _ => exact Or.inr hcounter

theorem signal_enabled (hi : s.workers[i]? = some .signalling) :
    (Server.step cfg d s (.signal i)).isSome = true := by
  simp only [Server.step, hi, Option.isSome_some]

/-- An `epoll_wait` that starts, or goes on, with a completion in the queue ends, where
    every worker that is to signal comes to it. -/
theorem waiting_ends (e : Execution (fun s => s = initial cfg d) (Server.step cfg d))
    (hfair : ∀ i, e.WeaklyFair (.signal i)) {n : Nat}
    (htasks : (e.state n).completions.tasks ≠ []) (hphase : (e.state n).phase = .waiting) :
    ∃ m, n ≤ m ∧ ((e.state m).phase ≠ .waiting ∨ EpollWakes d (e.state m)) := by
  rcases Runs.announced (e.reached n) htasks with hcounter | hbefore | ⟨i, hi⟩
  · exact ⟨n, Nat.le_refl n, Or.inr (Runs.epollWakes (e.reached n) hcounter)⟩
  · exact absurd hbefore (not_beforeDrain hphase (by simp) (by simp))
  · refine e.leadsTo (P := fun s => s.workers[i]? = some .signalling)
      (Q := fun s => s.phase ≠ .waiting ∨ EpollWakes d s) (hfair i) (fun m hm => ?_)
      (fun m hm => signal_enabled hm) (fun m _ haction => ?_) hi
    · refine ((step_move (e.next m)).signalling hm).imp_right fun hcounter => ?_
      exact Or.inr (Runs.epollWakes (e.reached (m + 1)) hcounter)
    · have hstep := e.next m
      rw [haction] at hstep
      exact Or.inr (Runs.epollWakes (e.reached (m + 1)) (counter_signal hstep))

/-- No wake-up is lost: a completion in the queue is announced, and neither the reactor
    in `epoll_wait` nor a worker in `push` waits for ever on the other. -/
theorem no_lost_wakeup (hcapacity : 1 ≤ cfg.completionQueueCapacity) :
    (∀ s, Reachable cfg d s → s.completions.tasks ≠ [] →
      0 < s.counter ∨ s.BeforeDrain ∨ ∃ i : Nat, s.workers[i]? = some .signalling) ∧
    ∀ e : Execution (fun s => s = initial cfg d) (Server.step cfg d),
      (∀ i, e.WeaklyFair (.signal i)) → ∀ n, (e.state n).phase = .waiting →
        ((e.state n).completions.tasks ≠ [] ∨ ∃ (i : Nat) (completion : Completion),
          (e.state n).workers[i]? = some (.posting completion) ∧
            (e.state n).completions.push completion = none) →
        ∃ m, n ≤ m ∧ ((e.state m).phase ≠ .waiting ∨ EpollWakes d (e.state m)) := by
  refine ⟨fun s h => Runs.announced h, fun e hfair n hphase hcase => ?_⟩
  rcases hcase with htasks | ⟨i, completion, -, hblocked⟩
  · exact waiting_ends e hfair htasks hphase
  · exact waiting_ends e hfair (tasks_of_blocked (e.reached n) hcapacity hblocked) hphase

/-- A worker has pushed the response and not yet written to the eventfd. -/
def responsePosted : List Action := clientConnects ++
  [.epollReturns [(7, kReadable)], .dispatch { recvs := [.data sampleRequest] }, .endBatch,
    .takeTask 0, .runTask 0, .pushCompletion 0]

theorem no_lost_wakeup_posted :
    let s := after sampleConfig sampleDescriptors (fun _ _ => True) responsePosted
      (by decide +kernel)
    0 < s.counter ∨ s.BeforeDrain ∨ ∃ i : Nat, s.workers[i]? = some .signalling :=
  (no_lost_wakeup (by decide)).1 _ (runs_after _ _ _ _ _) (by decide +kernel)

end Wakeups

end PassionProjects.Arcserve.Server.State
