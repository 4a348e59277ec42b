/-
  PassionProjects.Arcserve.Server.Jobs

  The requests that are on their way through the pool.

  A job is with the pool's queue, a worker, the completion queue or the reactor's
  drained completions; `State.jobs` is all of them.  `Effect` says once what a step
  can do to the server and to the jobs, and every invariant is proved from it.
-/

import PassionProjects.Arcserve.Server.Registry
import PassionProjects.Lib.Waiting

namespace PassionProjects.Arcserve.Server

open Net Reactor Buffers Protocol Concurrency Custody

/-- A request that waits for the handler, or the handler's answer to it. -/
inductive Job where
  | task (task : Task)
  | result (completion : Completion)
  deriving DecidableEq

def Job.conn : Job → ConnId
  | .task t => t.conn
  | .result c => c.conn

/-- The job is one for this request. -/
def Job.IsFor (cfg : Config) (request : HttpRequest) : Job → Prop
  | .task t => t.request = request ∧ t.requestKeepAlive = request.keepAlive
  | .result c => c.requestKeepAlive = request.keepAlive ∧
      ∃ n, cfg.handler n request = some c.response

def Worker.jobs : Worker → Multiset Job
  | .running task => {.task task}
  | .posting completion => {.result completion}
  | _ => 0

/-- The events of the batch that are still to be dispatched. -/
def Phase.batch : Phase → Batch
  | .dispatching batch => batch
  | .reading batch => batch
  | .draining batch => batch
  | .delivering _ batch => batch
  | _ => []

/-- The completions that were drained and not yet delivered. -/
def Phase.undelivered : Phase → List Completion
  | .delivering completions _ => completions
  | _ => []

namespace State

/-- The tasks of the pool's queue. -/
def queued (s : State) : Multiset Job := (s.server.pool.tasks.map Job.task : List Job)

/-- The results in `completion_queue_`, and those that were drained from it. -/
def finished (s : State) : Multiset Job :=
  ((s.completions.tasks ++ s.phase.undelivered).map Job.result : List Job)

def jobs (s : State) : Multiset Job := s.queued + held Worker.jobs s.workers + s.finished

variable {cfg : Config} {d : Descriptors} {s s' : State} {a : Action} {i : Nat}

-- ============================================================================
-- What a step does
-- ============================================================================

/-- A step that is no handler of the reactor. -/
structure Shared (s s' : State) : Prop where
  server : ∃ kernel pool handlerCalls, s'.server = { s.server with kernel, pool, handlerCalls }
  unwound : s.phase = .unwound → s'.phase = .unwound
  returned : s.phase = .returned → s'.phase = .returned
  closed : s'.completions.closed = true → s.completions.closed = true ∨ s'.phase = .returned
  batch : s'.reported = s.reported ∧ s'.phase.batch ⊆ s.phase.batch ∨
    s'.reported = s.server.connections

/-- A step of the reactor or of a worker. -/
inductive Effect (cfg : Config) (d : Descriptors) (s : State) : Action → State → Prop where
  | passed {a : Action} {s' : State} : Shared s s' → s'.jobs = s.jobs → Effect cfg d s a s'
  /-- a worker has run a task -/
  | answered {i : Nat} {s' : State} {task : Task} {response : HttpResponse}
      {others : Multiset Job} :
      Shared s s' → cfg.handler s.server.handlerCalls task.request = some response →
        s.jobs = .task task ::ₘ others →
        s'.jobs = .result ⟨task.conn, response, task.requestKeepAlive⟩ ::ₘ others →
          Effect cfg d s (.runTask i) s'
  /-- the handler threw, and the worker goes on -/
  | lost {i : Nat} {s' : State} {task : Task} :
      Shared s s' → s.workers[i]? = some (.running task) →
        cfg.handler s.server.handlerCalls task.request = none →
        s.jobs = .task task ::ₘ s'.jobs → Effect cfg d s (.runTask i) s'
  /-- the completion queue was closed -/
  | refused {i : Nat} {s' : State} :
      Shared s s' → s.completions.closed = true → Effect cfg d s (.pushCompletion i) s'
  | listened {kernel : Kernel} {fd : Fd} {events : EventMask} {batch : Batch} :
      s.phase = .dispatching ((fd, events) :: batch) → s.server.callbacks fd = some .listener →
        Effect cfg d s (.dispatch kernel)
          (s.afterHandler ({ s.server with kernel }.onListenerReadable cfg d) (.dispatching batch))
  | served {kernel : Kernel} {fd : Fd} {events : EventMask} {batch : Batch} :
      s.phase = .dispatching ((fd, events) :: batch) → s.server.callbacks fd = some .client →
        Effect cfg d s (.dispatch kernel)
          (s.afterHandler ({ s.server with kernel }.onClientEvent cfg fd events)
            (.dispatching batch))
  | delivered {kernel : Kernel} {completion : Completion} {rest : List Completion}
      {batch : Batch} :
      s.phase = .delivering (completion :: rest) batch →
        Effect cfg d s (.deliver kernel)
          (s.afterHandler ({ s.server with kernel }.onWorkerResult cfg completion)
            (.delivering rest batch))

/-- The jobs of the workers, one worker apart. -/
theorem jobs_setWorker {w : Worker} (hi : s.workers[i]? = some w) :
    ∃ others, s.jobs = s.queued + (w.jobs + others) + s.finished ∧
      ∀ w', held Worker.jobs (s.workers.set i w') = w'.jobs + others := by
  obtain ⟨others, hheld, hset⟩ := held_set Worker.jobs hi
  exact ⟨others, by rw [jobs, hheld], hset⟩

/-- A step that leaves the phase and the reactor's data alone. -/
theorem shared_worker {kernel : Kernel} {pool : BoundedWorkQueue Task} {handlerCalls : Nat}
    {workers : List Worker} {completions : BoundedWorkQueue Completion} {counter : Nat}
    (hclosed : completions.closed = s.completions.closed) :
    Shared s { s with
      server := { s.server with kernel, pool, handlerCalls }
      workers := workers
      completions := completions
      counter := counter } where
  server := ⟨_, _, _, rfl⟩
  unwound h := h
  returned h := h
  closed h := Or.inl (hclosed.symm.trans h)
  batch := Or.inl ⟨rfl, List.Subset.refl _⟩

/-- A step of the reactor that only changes the phase and the completion queue. -/
theorem shared_phase {phase : Phase} {completions : BoundedWorkQueue Completion} {counter : Nat}
    (hphase : s.phase ≠ .unwound ∧ s.phase ≠ .returned)
    (hclosed : completions.closed = true → s.completions.closed = true ∨ phase = .returned)
    (hbatch : phase.batch ⊆ s.phase.batch) :
    Shared s { s with phase := phase, completions := completions, counter := counter } where
  server := ⟨_, _, _, rfl⟩
  unwound h := absurd h hphase.1
  returned h := absurd h hphase.2
  closed := hclosed
  batch := Or.inl ⟨rfl, hbatch⟩

/-- `pop` passes a task from the pool's queue to the worker. -/
theorem effect_takeTask (h : step cfg d s (.takeTask i) = some s') :
    Effect cfg d s (.takeTask i) s' := by
  simp only [step] at h
  split at h
  · next task pool hworker hpop =>
      obtain rfl := Option.some.inj h
      obtain ⟨others, hjobs, hset⟩ := jobs_setWorker hworker
      obtain ⟨htasks, -, -⟩ := BoundedWorkQueue.pop_eq_some hpop
      refine .passed (shared_worker rfl) ?_
      rw [hjobs]
      show (pool.tasks.map Job.task : Multiset Job) + held Worker.jobs (s.workers.set i _) +
        s.finished = _
      rw [hset, queued, htasks, List.map_cons, ← Multiset.cons_coe]
      show _ + ({Job.task task} + others) + _ = Job.task task ::ₘ _ + (0 + others) + _
      rw [zero_add, Multiset.singleton_add, Multiset.cons_add, Multiset.add_cons]
  · exact absurd h (by simp)

/-- The handler's answer takes the place of the task. -/
theorem effect_runTask (h : step cfg d s (.runTask i) = some s') :
    Effect cfg d s (.runTask i) s' := by
  simp only [step] at h
  split at h
  · next task hworker =>
      obtain ⟨others, hjobs, hset⟩ := jobs_setWorker hworker
      have hfirst : s.jobs = .task task ::ₘ (s.queued + others + s.finished) := by
        rw [hjobs]
        show _ + ({Job.task task} + others) + _ = _
        rw [Multiset.singleton_add, Multiset.add_cons, Multiset.cons_add]
      split at h
      · next response hanswer =>
          obtain rfl := Option.some.inj h
          refine .answered (shared_worker rfl) hanswer hfirst ?_
          show s.queued + held Worker.jobs (s.workers.set i _) + s.finished = _
          rw [hset]
          show _ + ({Job.result _} + others) + _ = _
          rw [Multiset.singleton_add, Multiset.add_cons, Multiset.cons_add]
      · next hthrew =>
          obtain rfl := Option.some.inj h
          refine .lost (shared_worker rfl) hworker hthrew ?_
          show _ = _ ::ₘ (s.queued + held Worker.jobs (s.workers.set i _) + s.finished)
          rw [hset, hfirst]
          show _ = _ ::ₘ (_ + (0 + others) + _)
          rw [zero_add]
  · exact absurd h (by simp)

/-- `push` passes the result from the worker to the completion queue. -/
theorem effect_pushCompletion (h : step cfg d s (.pushCompletion i) = some s') :
    Effect cfg d s (.pushCompletion i) s' := by
  simp only [step] at h
  split at h
  · next completion hworker =>
      split at h
      · next queue hpush =>
          obtain rfl := Option.some.inj h
          obtain ⟨hfalse, -⟩ | ⟨-, -, rfl⟩ := BoundedWorkQueue.push_cases hpush
          · exact absurd hfalse (by simp)
          · obtain ⟨others, hjobs, hset⟩ := jobs_setWorker hworker
            refine .passed (shared_worker rfl) ?_
            rw [hjobs]
            show s.queued + held Worker.jobs (s.workers.set i _) +
              (((s.completions.tasks ++ [completion]) ++ s.phase.undelivered).map Job.result :
                Multiset Job) = _
            rw [hset, finished, List.append_assoc, List.map_append, List.map_append,
              List.map_append, ← Multiset.coe_add, ← Multiset.coe_add, ← Multiset.coe_add,
              List.map_cons, List.map_nil, Multiset.coe_singleton]
            show _ + (0 + others) + (_ + ({Job.result completion} + _)) =
              _ + ({Job.result completion} + others) + _
            rw [zero_add]
            simp only [Multiset.singleton_add, Multiset.add_cons, Multiset.cons_add, add_assoc]
      · next queue hpush =>
          obtain rfl := Option.some.inj h
          obtain ⟨-, hclosed, rfl⟩ | ⟨htrue, -⟩ := BoundedWorkQueue.push_cases hpush
          · exact .refused (shared_worker rfl) hclosed
          · exact absurd htrue (by simp)
      · exact absurd h (by simp)
  · exact absurd h (by simp)

/-- The `write(2)` to the eventfd passes nothing on. -/
theorem effect_signal (h : step cfg d s (.signal i) = some s') :
    Effect cfg d s (.signal i) s' := by
  simp only [step] at h
  split at h
  · next hworker =>
      obtain rfl := Option.some.inj h
      obtain ⟨others, hjobs, hset⟩ := jobs_setWorker hworker
      refine .passed (shared_worker rfl) ?_
      rw [hjobs]
      show s.queued + held Worker.jobs (s.workers.set i _) + s.finished = _
      rw [hset]
      rfl
  · exact absurd h (by simp)

theorem jobs_of_phase {phase : Phase} (h : phase.undelivered = s.phase.undelivered) :
    jobs { s with phase } = s.jobs := by
  show s.queued + _ + ((s.completions.tasks ++ phase.undelivered).map Job.result : List Job) = _
  rw [h]
  rfl

/-- One event of the batch, or one call on a descriptor of the server. -/
theorem effect_dispatch {kernel : Kernel} (h : step cfg d s (.dispatch kernel) = some s') :
    Effect cfg d s (.dispatch kernel) s' := by
  simp only [step] at h
  split at h
  · next fd events batch hphase =>
      have hopen : s.phase ≠ .unwound ∧ s.phase ≠ .returned := by rw [hphase]; simp
      have hskip : ∀ phase : Phase, phase.batch = batch → phase.undelivered = [] →
          Effect cfg d s (.dispatch kernel) { s with phase } := by
        intro phase hbatch hnone
        refine .passed (shared_phase hopen Or.inl ?_) (jobs_of_phase ?_)
        · rw [hbatch, hphase]
          exact List.subset_cons_self _ _
        · rw [hnone, hphase]
          rfl
      split at h
      · obtain rfl := Option.some.inj h
        exact hskip _ rfl rfl
      · split at h
        · obtain rfl := Option.some.inj h
          exact hskip _ rfl rfl
        · obtain rfl := Option.some.inj h
          exact .listened hphase ‹_›
        · obtain rfl := Option.some.inj h
          exact hskip _ rfl rfl
        · obtain rfl := Option.some.inj h
          exact .served hphase ‹_›
  · exact absurd h (by simp)

theorem effect_deliver {kernel : Kernel} (h : step cfg d s (.deliver kernel) = some s') :
    Effect cfg d s (.deliver kernel) s' := by
  simp only [step] at h
  split at h
  · next batch hphase =>
      obtain rfl := Option.some.inj h
      refine .passed (shared_phase (by rw [hphase]; simp) Or.inl ?_) (jobs_of_phase ?_)
      · rw [hphase]
        exact List.Subset.refl _
      · rw [hphase]
        rfl
  · next completion rest batch hphase =>
      obtain rfl := Option.some.inj h
      exact .delivered hphase
  · exact absurd h (by simp)

/-- `drain` passes the results from the completion queue to the reactor. -/
theorem effect_drainCompletions (h : step cfg d s .drainCompletions = some s') :
    Effect cfg d s .drainCompletions s' := by
  simp only [step] at h
  split at h
  · next batch hphase =>
      obtain rfl := Option.some.inj h
      refine .passed (shared_phase (by rw [hphase]; simp) Or.inl ?_) ?_
      · rw [hphase]
        exact List.Subset.refl _
      · have hfinished : s.finished = (s.completions.tasks.map Job.result : List Job) := by
          rw [finished, hphase, show (Phase.draining batch).undelivered = [] from rfl,
            List.append_nil]
        rw [jobs, jobs, hfinished]
        rfl
  · exact absurd h (by simp)

theorem effect_readCompletionFd (h : step cfg d s .readCompletionFd = some s') :
    Effect cfg d s .readCompletionFd s' := by
  simp only [step] at h
  split at h
  · next batch hphase =>
      have hopen : s.phase ≠ .unwound ∧ s.phase ≠ .returned := by rw [hphase]; simp
      split at h
      · obtain rfl := Option.some.inj h
        exact .passed (shared_phase hopen Or.inl (List.Subset.refl _)) rfl
      · obtain rfl := Option.some.inj h
        refine .passed (shared_phase hopen Or.inl ?_) (jobs_of_phase ?_)
        · rw [hphase]
          exact List.Subset.refl _
        · rw [hphase]
          rfl
  · exact absurd h (by simp)

/-- `run` goes back to `epoll_wait`, or returns and closes the completion queue. -/
theorem effect_endBatch (h : step cfg d s .endBatch = some s') : Effect cfg d s .endBatch s' := by
  simp only [step] at h
  split at h
  · next hphase =>
      have hopen : s.phase ≠ .unwound ∧ s.phase ≠ .returned := by rw [hphase]; simp
      split at h
      · obtain rfl := Option.some.inj h
        refine .passed (shared_phase hopen (fun _ => Or.inr rfl) (List.nil_subset _)) ?_
        rw [jobs, jobs, finished, finished, hphase]
        rfl
      · obtain rfl := Option.some.inj h
        refine .passed (shared_phase hopen Or.inl (List.nil_subset _)) (jobs_of_phase ?_)
        rw [hphase]
        rfl
  · exact absurd h (by simp)

theorem effect_epollReturns {batch : Batch} (h : step cfg d s (.epollReturns batch) = some s') :
    Effect cfg d s (.epollReturns batch) s' := by
  simp only [step] at h
  split at h
  · next hphase =>
      obtain rfl := Option.some.inj h
      refine .passed ⟨⟨_, _, _, rfl⟩, fun hn => ?_, fun hn => ?_, Or.inl, Or.inr rfl⟩
        (jobs_of_phase (s := { s with reported := s.server.connections }) ?_)
      · exact absurd (hphase.1.symm.trans hn) (by simp)
      · exact absurd (hphase.1.symm.trans hn) (by simp)
      · show _ = s.phase.undelivered
        rw [hphase.1]
        rfl
  · exact absurd h (by simp)

/-- Everything a step can do. -/
theorem step_effect (h : step cfg d s a = some s') : Effect cfg d s a s' := by
  cases a with
  | epollReturns batch => exact effect_epollReturns h
  | dispatch kernel => exact effect_dispatch h
  | readCompletionFd => exact effect_readCompletionFd h
  | drainCompletions => exact effect_drainCompletions h
  | deliver kernel => exact effect_deliver h
  | endBatch => exact effect_endBatch h
  | requestStop =>
      obtain rfl := Option.some.inj h
      exact .passed ⟨⟨_, _, _, rfl⟩, fun h => h, fun h => h, Or.inl,
        Or.inl ⟨rfl, List.Subset.refl _⟩⟩ rfl
  | takeTask i => exact effect_takeTask h
  | runTask i => exact effect_runTask h
  | pushCompletion i => exact effect_pushCompletion h
  | signal i => exact effect_signal h

end State

end PassionProjects.Arcserve.Server
