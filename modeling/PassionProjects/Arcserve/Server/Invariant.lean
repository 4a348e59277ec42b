/-
  PassionProjects.Arcserve.Server.Invariant

  What holds in every state the server reaches.

  The registry, the accounts of the pool's jobs, and the two ways in which `run`
  ends: `Sound` is kept by every step, whoever takes it.
-/

import PassionProjects.Arcserve.Server.Accounts

namespace PassionProjects.Arcserve.Server

open Net Reactor Buffers Protocol Concurrency Custody

namespace NonblockingHttpServer

variable {cfg : Config} {d : Descriptors} {R : Nat → Nat → Prop} {s : NonblockingHttpServer}
  {jobs : Multiset Job} {id : ConnId} {fd : Fd} {completion : Completion}

/-- An event for a descriptor with a connection is handled by that connection. -/
theorem onClientEvent_spec (h : Coherent cfg d s) (hthrew : s.threw = false)
    (hfd : s.connections fd = some id) (events : EventMask) :
    ∃ x : Session, s.onClientEvent cfg fd events = s.update x ∧ x.id = id ∧
      s.isAlive x.id = true ∧ Session.Handled cfg (s.session x.id) x ∧
      ((s.session x.id).Drained → ¬ (s.session x.id).Strands events → x.Drained) := by
  have halive := h.isAlive hfd
  obtain ⟨hhandled, hdrained⟩ := Session.onClientEvent_handled (h.live hthrew halive) events
  have hid : (Session.onClientEvent cfg (s.session id) events).id = id := hhandled.frame.id
  refine ⟨Session.onClientEvent cfg (s.session id) events, ?_, hid, ?_⟩
  · exact onClientEvent_eq hfd events
  · rw [hid]
    exact ⟨halive, hhandled, hdrained⟩

/-- A completion goes to the connection that awaits it, or to no one. -/
theorem onWorkerResult_spec (h : Coherent cfg d s) (hthrew : s.threw = false) (hR : Tally R)
    (haccounted : Accounted cfg R s (.result completion ::ₘ jobs)) :
    s.isAlive completion.conn = false ∧ s.onWorkerResult cfg completion = s ∨
      ∃ x : Session, s.onWorkerResult cfg completion = s.update x ∧ x.id = completion.conn ∧
        s.isAlive x.id = true ∧ (s.heap x.id).awaitingWorkerResult = true ∧
        AccountedBut cfg R s jobs x.id ∧ Session.Driven cfg (s.session x.id) x := by
  unfold onWorkerResult
  cases halive : s.isAlive completion.conn with
  | false => exact Or.inl ⟨rfl, by rw [if_neg (by simp)]⟩
  | true =>
      rw [if_pos rfl]
      obtain ⟨hawaiting, hothers⟩ := haccounted.awaits hR halive
      obtain ⟨request, hlast, hkeep, hanswer⟩ :=
        haccounted.current _ (Multiset.mem_cons_self _ _) halive
      have hdriven := Session.onWorkerResult_driven (h.live hthrew halive) hawaiting hlast hanswer
      rw [← hkeep] at hdriven
      refine Or.inr ⟨_, rfl, hdriven.frame.id, ?_⟩
      rw [show (Session.onWorkerResult cfg (s.session completion.conn) completion.response
        completion.requestKeepAlive).id = completion.conn from hdriven.frame.id]
      exact ⟨halive, hawaiting, hothers, hdriven⟩

end NonblockingHttpServer

namespace State

variable {cfg : Config} {d : Descriptors} {R : Nat → Nat → Prop} {s s' : State} {a : Action}

structure Sound (cfg : Config) (d : Descriptors) (R : Nat → Nat → Prop) (s : State) : Prop where
  coherent : s.server.Coherent cfg d
  threw : s.server.threw = true → s.phase = .unwound
  closed : s.completions.closed = true → s.phase = .returned
  accounted : s.server.threw = false → s.phase ≠ .returned →
    s.server.Accounted cfg R s.jobs

/-- The jobs, with other tasks and other drained completions. -/
def jobsWith (s : State) (tasks : List Task) (undelivered : List Completion) : Multiset Job :=
  (tasks.map Job.task : List Job) + held Worker.jobs s.workers +
    ((s.completions.tasks ++ undelivered).map Job.result : List Job)

theorem jobs_eq (s : State) : s.jobs = s.jobsWith s.server.pool.tasks s.phase.undelivered := rfl

theorem jobsWith_concat (s : State) (tasks : List Task) (task : Task)
    (undelivered : List Completion) :
    s.jobsWith (tasks ++ [task]) undelivered = .task task ::ₘ s.jobsWith tasks undelivered := by
  unfold jobsWith
  rw [List.map_append, ← Multiset.coe_add, List.map_cons, List.map_nil, Multiset.coe_singleton,
    Multiset.add_comm (tasks.map Job.task : Multiset Job), Multiset.singleton_add,
    Multiset.cons_add, Multiset.cons_add]

theorem jobsWith_cons (s : State) (tasks : List Task) (completion : Completion)
    (undelivered : List Completion) :
    s.jobsWith tasks (completion :: undelivered) =
      .result completion ::ₘ s.jobsWith tasks undelivered := by
  unfold jobsWith
  rw [← Multiset.add_cons]
  congr 1
  rw [Multiset.cons_coe, Multiset.coe_eq_coe, List.map_append, List.map_append, List.map_cons]
  exact List.perm_middle

theorem jobs_afterHandler {server : NonblockingHttpServer} {phase : Phase}
    (hthrew : server.threw = false) :
    (s.afterHandler server phase).jobs = s.jobsWith server.pool.tasks phase.undelivered := by
  rw [jobs_eq]
  show s.jobsWith server.pool.tasks (if server.threw then Phase.unwound else phase).undelivered = _
  rw [hthrew, if_neg (by simp)]

theorem phase_afterHandler {server : NonblockingHttpServer} {phase : Phase} :
    (server.threw = true → (s.afterHandler server phase).phase = .unwound) ∧
      (server.threw = false → (s.afterHandler server phase).phase = phase) := by
  constructor <;> intro hthrew
  · show (if server.threw then Phase.unwound else phase) = _
    rw [hthrew, if_pos rfl]
  · show (if server.threw then Phase.unwound else phase) = _
    rw [hthrew, if_neg (by simp)]

/-- A handler that keeps the registry and the accounts. -/
theorem Sound.afterHandler {server : NonblockingHttpServer} {phase : Phase}
    (hclosed : s.completions.closed = false) (hcoherent : server.Coherent cfg d)
    (haccounted : server.threw = false →
      server.Accounted cfg R (s.jobsWith server.pool.tasks phase.undelivered)) :
    Sound cfg d R (s.afterHandler server phase) where
  coherent := hcoherent
  threw h := phase_afterHandler.1 h
  closed h := absurd (hclosed.symm.trans h) (by simp)
  accounted h _ := by
    have hserver : server.threw = false := h
    rw [jobs_afterHandler hserver]
    exact haccounted hserver

theorem Sound.threw_false (h : Sound cfg d R s) (hphase : s.phase ≠ .unwound) :
    s.server.threw = false :=
  Bool.eq_false_iff.mpr fun hthrew => hphase (h.threw hthrew)

theorem Sound.open (h : Sound cfg d R s) (hphase : s.phase ≠ .returned) :
    s.completions.closed = false :=
  Bool.eq_false_iff.mpr fun hclosed => hphase (h.closed hclosed)

/-- The tasks of the pool after a handler: as they were, or one more. -/
theorem accounted_pool (server : NonblockingHttpServer) {server' : NonblockingHttpServer}
    {undelivered : List Completion} {pool : BoundedWorkQueue Task} (hserver : server'.pool = pool)
    (h : pool = server.pool ∧
        server'.Accounted cfg R (s.jobsWith server.pool.tasks undelivered) ∨
      ∃ task, pool = { server.pool with tasks := server.pool.tasks ++ [task] } ∧
        server'.Accounted cfg R (.task task ::ₘ s.jobsWith server.pool.tasks undelivered)) :
    server'.Accounted cfg R (s.jobsWith server'.pool.tasks undelivered) := by
  rw [hserver]
  obtain ⟨rfl, haccounted⟩ | ⟨task, rfl, haccounted⟩ := h
  · exact haccounted
  · rw [jobsWith_concat]
    exact haccounted

theorem Sound.listened (hR : Tally R) (h : Sound cfg d R s) {kernel : Kernel} {batch : Batch}
    {event : Fd × EventMask} (hphase : s.phase = .dispatching (event :: batch)) :
    Sound cfg d R
      (s.afterHandler ({ s.server with kernel }.onListenerReadable cfg d)
        (.dispatching batch)) := by
  have hthrew := h.threw_false (by rw [hphase]; simp)
  have hjobs := h.accounted hthrew (by rw [hphase]; simp)
  rw [jobs_eq, hphase] at hjobs
  obtain ⟨hcoherent, haccepts, -⟩ := NonblockingHttpServer.acceptLoop_spec
    (h.coherent.shared kernel s.server.pool s.server.handlerCalls) hthrew kernel.accepts
  refine .afterHandler (h.open (by rw [hphase]; simp)) hcoherent fun _ => ?_
  refine accounted_pool s.server haccepts.pool (Or.inl ⟨rfl, ?_⟩)
  exact (hjobs.shared kernel _ _).accepts hR haccepts

theorem Sound.served (hR : Tally R) (h : Sound cfg d R s) {kernel : Kernel} {batch : Batch}
    {fd : Fd} {events : EventMask} (hphase : s.phase = .dispatching ((fd, events) :: batch)) :
    Sound cfg d R (s.afterHandler ({ s.server with kernel }.onClientEvent cfg fd events)
      (.dispatching batch)) := by
  have hthrew := h.threw_false (by rw [hphase]; simp)
  have hjobs := h.accounted hthrew (by rw [hphase]; simp)
  rw [jobs_eq, hphase] at hjobs
  have hcoherent := h.coherent.shared kernel s.server.pool s.server.handlerCalls
  have hjobs' := hjobs.shared kernel s.server.pool s.server.handlerCalls
  have hopen := h.open (by rw [hphase]; simp)
  cases hfd : s.server.connections fd with
  | none =>
      rw [NonblockingHttpServer.onClientEvent_none (s := { s.server with kernel }) hfd events]
      exact .afterHandler hopen hcoherent fun _ =>
        accounted_pool s.server rfl (Or.inl ⟨rfl, hjobs'⟩)
  | some id =>
      obtain ⟨x, heq, -, halive, hhandled, -⟩ :=
        NonblockingHttpServer.onClientEvent_spec hcoherent hthrew hfd events
      rw [heq]
      refine .afterHandler hopen (hcoherent.update halive hhandled.frame hhandled.settled hthrew)
        fun hquiet => accounted_pool s.server rfl ?_
      exact hjobs'.handled hR halive (hcoherent.lt_of_isAlive halive) hquiet hhandled

theorem Sound.delivered (hR : Tally R) (h : Sound cfg d R s) {kernel : Kernel} {batch : Batch}
    {completion : Completion} {rest : List Completion}
    (hphase : s.phase = .delivering (completion :: rest) batch) :
    Sound cfg d R (s.afterHandler ({ s.server with kernel }.onWorkerResult cfg completion)
      (.delivering rest batch)) := by
  have hthrew := h.threw_false (by rw [hphase]; simp)
  have hjobs := h.accounted hthrew (by rw [hphase]; simp)
  rw [jobs_eq, hphase] at hjobs
  have hcoherent := h.coherent.shared kernel s.server.pool s.server.handlerCalls
  have hjobs' : ({ s.server with kernel } : NonblockingHttpServer).Accounted cfg R
      (.result completion ::ₘ s.jobsWith s.server.pool.tasks rest) := by
    rw [← jobsWith_cons]
    exact hjobs.shared kernel s.server.pool s.server.handlerCalls
  have hopen := h.open (by rw [hphase]; simp)
  obtain ⟨hdead, heq⟩ | ⟨x, heq, -, halive, -, hothers, hdriven⟩ :=
    NonblockingHttpServer.onWorkerResult_spec hcoherent hthrew hR hjobs'
  · rw [heq]
    exact .afterHandler hopen hcoherent fun _ =>
      accounted_pool s.server rfl (Or.inl ⟨rfl, hjobs'.forget hdead⟩)
  · rw [heq]
    refine .afterHandler hopen (hcoherent.update halive hdriven.frame hdriven.settled hthrew)
      fun hquiet => accounted_pool { s.server with kernel } rfl ?_
    exact hothers.submitted halive hdriven.frame.fd hR (hcoherent.lt_of_isAlive halive) hquiet
      hdriven.submitted

/-- What a step does to the reactor's data: nothing, or one handler's work. -/
inductive Change (cfg : Config) (s : State) : Action → NonblockingHttpServer → Prop where
  | shared {a : Action} (kernel : Kernel) (pool : BoundedWorkQueue Task) (handlerCalls : Nat) :
      Change cfg s a { s.server with kernel, pool, handlerCalls }
  | accepted {kernel : Kernel} {fd : Fd} {events : EventMask} {batch : Batch}
      {server : NonblockingHttpServer} :
      s.phase = .dispatching ((fd, events) :: batch) → s.server.callbacks fd = some .listener →
        s.server.threw = false → NonblockingHttpServer.Accepts cfg s.server server →
        (∀ fd id, server.connections fd = some id → s.server.connections fd = some id ∨
          fd ∈ NonblockingHttpServer.acceptedFds kernel.accepts) →
        Change cfg s (.dispatch kernel) server
  | handled {kernel : Kernel} {fd : Fd} {events : EventMask} {batch : Batch} {x : Session} :
      s.phase = .dispatching ((fd, events) :: batch) → s.server.connections fd = some x.id →
        s.server.threw = false → s.server.isAlive x.id = true →
        Session.Handled cfg ({ s.server with kernel }.session x.id) x →
        (({ s.server with kernel }.session x.id).Drained →
          ¬ ({ s.server with kernel }.session x.id).Strands events → x.Drained) →
        Change cfg s (.dispatch kernel) ({ s.server with kernel }.update x)
  | driven {kernel : Kernel} {x : Session} :
      s.server.threw = false → s.server.isAlive x.id = true →
      (s.server.heap x.id).awaitingWorkerResult = true →
        Session.Driven cfg ({ s.server with kernel }.session x.id) x →
        Change cfg s (.deliver kernel) ({ s.server with kernel }.update x)

theorem Sound.change (h : Sound cfg d (· ≤ ·) s) (hstep : step cfg d s a = some s') :
    Change cfg s a s'.server := by
  have hsame : ∀ {a}, Shared s s' → Change cfg s a s'.server := by
    rintro a ⟨⟨kernel, pool, calls, hserver⟩, -⟩
    rw [hserver]
    exact .shared kernel pool calls
  cases step_effect hstep with
  | passed hshared _ => exact hsame hshared
  | answered hshared _ _ _ => exact hsame hshared
  | lost hshared _ _ _ => exact hsame hshared
  | refused hshared _ => exact hsame hshared
  | @listened kernel fd events batch hphase hlistener =>
      have hthrew := h.threw_false (by rw [hphase]; simp)
      obtain ⟨-, haccepts, hconnections⟩ := NonblockingHttpServer.acceptLoop_spec
        (h.coherent.shared kernel s.server.pool s.server.handlerCalls) hthrew kernel.accepts
      exact .accepted hphase hlistener hthrew ⟨haccepts.nextId, haccepts.pool,
        haccepts.handlerCalls, haccepts.old, haccepts.new⟩ hconnections
  | @served kernel fd events batch hphase _ =>
      have hthrew := h.threw_false (by rw [hphase]; simp)
      have hcoherent := h.coherent.shared kernel s.server.pool s.server.handlerCalls
      cases hfd : s.server.connections fd with
      | none =>
          show Change cfg s _ ({ s.server with kernel }.onClientEvent cfg fd events)
          rw [NonblockingHttpServer.onClientEvent_none (s := { s.server with kernel }) hfd events]
          exact .shared kernel _ _
      | some id =>
          obtain ⟨x, heq, rfl, halive, hhandled, hdrained⟩ :=
            NonblockingHttpServer.onClientEvent_spec hcoherent hthrew hfd events
          show Change cfg s _ ({ s.server with kernel }.onClientEvent cfg fd events)
          rw [heq]
          exact .handled hphase hfd hthrew halive hhandled hdrained
  | @delivered kernel completion rest batch hphase =>
      have hthrew := h.threw_false (by rw [hphase]; simp)
      have hjobs := h.accounted hthrew (by rw [hphase]; simp)
      rw [jobs_eq, hphase, show (Phase.delivering (completion :: rest) batch).undelivered =
        completion :: rest from rfl, jobsWith_cons] at hjobs
      obtain ⟨-, heq⟩ | ⟨x, heq, -, halive, hawaiting, -, hdriven⟩ :=
        NonblockingHttpServer.onWorkerResult_spec
          (h.coherent.shared kernel s.server.pool s.server.handlerCalls) hthrew tally_le
          (hjobs.shared kernel s.server.pool s.server.handlerCalls)
      · show Change cfg s _ ({ s.server with kernel }.onWorkerResult cfg completion)
        rw [heq]
        exact .shared kernel _ _
      · show Change cfg s _ ({ s.server with kernel }.onWorkerResult cfg completion)
        rw [heq]
        exact .driven hthrew halive hawaiting hdriven

/-- A worker's call of the handler throws. -/
def handlerThrows (cfg : Config) (s : State) : Action → Bool
  | .runTask i =>
    match s.workers[i]? with
    | some (.running task) => (cfg.handler s.server.handlerCalls task.request).isNone
    | _ => false
  | _ => false

/-- A step that is no handler of the reactor keeps what does not concern the jobs. -/
theorem Sound.shared (h : Sound cfg d R s) (hshared : Shared s s')
    (haccounted : s.server.threw = false → s'.phase ≠ .returned → s.phase ≠ .returned →
      s.server.Accounted cfg R s.jobs → s.server.Accounted cfg R s'.jobs) : Sound cfg d R s' := by
  obtain ⟨kernel, pool, handlerCalls, hserver⟩ := hshared.server
  have hthrew : s'.server.threw = s.server.threw := by rw [hserver]
  refine ⟨?_, fun hn => hshared.unwound (h.threw (hthrew ▸ hn)), fun hclosed => ?_,
    fun hn hphase => ?_⟩
  · rw [hserver]
    exact h.coherent.shared kernel pool handlerCalls
  · rcases hshared.closed hclosed with hclosed | hreturned
    · exact hshared.returned (h.closed hclosed)
    · exact hreturned
  · have hbefore : s.phase ≠ .returned := fun hn => hphase (hshared.returned hn)
    have hquiet : s.server.threw = false := hthrew ▸ hn
    rw [hserver]
    exact (haccounted hquiet hphase hbefore (h.accounted hquiet hbefore)).shared _ _ _

/-- Every step keeps it; for the exact account, a step in which no handler throws. -/
theorem Sound.step (hR : Tally R) (h : Sound cfg d R s) (hstep : step cfg d s a = some s')
    (hkeeps : handlerThrows cfg s a = true → ∀ n owed, R (n + 1) owed → R n owed) :
    Sound cfg d R s' := by
  cases step_effect hstep with
  | passed hshared hjobs =>
      refine h.shared hshared fun _ _ _ haccounted => ?_
      rw [hjobs]
      exact haccounted
  | answered hshared hanswer hjobs hjobs' =>
      refine h.shared hshared fun _ _ _ haccounted => ?_
      rw [hjobs] at haccounted
      rw [hjobs']
      exact haccounted.replace rfl fun request hfor =>
        ⟨hfor.2, s.server.handlerCalls, hfor.1 ▸ hanswer⟩
  | lost hshared hworker hthrew hjobs =>
      refine h.shared hshared fun _ _ _ haccounted => ?_
      rw [hjobs] at haccounted
      exact haccounted.lose (hkeeps (by simp [handlerThrows, hworker, hthrew]))
  | refused hshared hclosed =>
      exact h.shared hshared fun _ _ hphase => absurd (h.closed hclosed) hphase
  | listened hphase _ => exact h.listened hR hphase
  | served hphase _ => exact h.served hR hphase
  | delivered hphase => exact h.delivered hR hphase

-- ============================================================================
-- Runs
-- ============================================================================

theorem coherent_initial (cfg : Config) (d : Descriptors) :
    (initialServer cfg d).Coherent cfg d where
  recorded _ := NonblockingHttpServer.recorded_fresh rfl rfl
  resting _ _ halive := absurd halive (by
    rw [NonblockingHttpServer.isAlive_iff]
    exact fun h => absurd h (by simp [initialServer]))
  owner _ _ h := absurd h (by simp [initialServer])
  clients _ _ := rfl
  unused _ fd hmem _ := by
    simp only [Descriptors.all, List.mem_cons, List.not_mem_nil, or_false, not_or] at hmem
    obtain ⟨-, hwakeup, hlistener, hcompletion⟩ := hmem
    simp [initialServer, hwakeup, hlistener, hcompletion]
  fixed _ _ := ⟨rfl, rfl⟩

theorem jobs_initial (cfg : Config) (d : Descriptors) : (initial cfg d).jobs = 0 := by
  show (0 : Multiset Job) + held Worker.jobs (List.replicate _ _) + 0 = 0
  rw [held_replicate (show Worker.jobs .idle = 0 from rfl)]
  rfl

theorem sound_initial (hR : Tally R) (cfg : Config) (d : Descriptors) :
    Sound cfg d R (initial cfg d) where
  coherent := coherent_initial cfg d
  threw h := absurd h (by simp [initial, initialServer])
  closed h := absurd h (by simp [initial])
  accounted _ _ := by
    rw [jobs_initial]
    refine ⟨fun j hj => absurd hj (Multiset.notMem_zero j), fun j hj =>
      absurd hj (Multiset.notMem_zero j), fun _ _ => ?_⟩
    exact hR.refl 0

/-- The states reached by steps that a guard permits. -/
abbrev Runs (cfg : Config) (d : Descriptors) (permits : State → Action → Prop) : State → Prop :=
  Transition.Reached (fun s => s = initial cfg d) (Server.step cfg d) permits

/-- The states reached by any steps. -/
abbrev Reachable (cfg : Config) (d : Descriptors) : State → Prop := Runs cfg d fun _ _ => True

/-- Every state that is reached, with at most the jobs that are owed. -/
theorem Runs.sound {permits : State → Action → Prop} (h : Runs cfg d permits s) :
    Sound cfg d (· ≤ ·) s := by
  refine h.invariant (fun s hs => ?_) fun s a s' hsound _ hstep => ?_
  · rw [hs]
    exact sound_initial tally_le cfg d
  · exact hsound.step tally_le hstep fun _ n owed hle => Nat.le_of_succ_le hle

/-- Where no handler call of a worker throws, with exactly these. -/
theorem Runs.exact {permits : State → Action → Prop}
    (hpermits : ∀ s a, permits s a → ¬ handlerThrows cfg s a) (h : Runs cfg d permits s) :
    Sound cfg d (· = ·) s := by
  refine h.invariant (fun s hs => ?_) fun s a s' hsound hok hstep => ?_
  · rw [hs]
    exact sound_initial tally_eq cfg d
  · exact hsound.step tally_eq hstep fun hthrows => absurd hthrows (hpermits s a hok)

-- ============================================================================
-- A run
-- ============================================================================

def sampleDescriptors : Descriptors := ⟨3, 4, 5, 6, by decide⟩

/-- One worker, and a handler that answers every request. -/
def sampleConfig : Config where
  handler _ _ := some {}
  workerPool := some ⟨4, 1⟩

section After

variable (cfg : Config) (d : Descriptors) (permits : State → Action → Prop)
  [∀ s a, Decidable (permits s a)] (actions : List Action)
  (h : (Transition.runActions (Server.step cfg d) permits actions (initial cfg d)).isSome)

/-- The state after some actions that can be taken. -/
def after : State :=
  (Transition.runActions (Server.step cfg d) permits actions (initial cfg d)).get h

theorem runs_after : Runs cfg d permits (after cfg d permits actions h) := by
  refine Transition.Reached.of_isSome ?_ h
  rfl

end After

def sampleRequest : Bytes := ascii "GET / HTTP/1.1\r\n\r\n"

def closingRequest : Bytes := ascii "GET / HTTP/1.1\r\nConnection: close\r\n\r\n"

/-- A client connects on descriptor 7. -/
def clientConnects : List Action :=
  [.endBatch, .epollReturns [(5, kReadable)], .dispatch { accepts := [.client 7] }, .endBatch]

end State

end PassionProjects.Arcserve.Server
