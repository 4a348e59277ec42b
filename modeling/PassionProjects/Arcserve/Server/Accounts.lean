/-
  PassionProjects.Arcserve.Server.Accounts

  The jobs of the pool against the connections that await a result.

  `Accounted` compares the number of jobs of a connection with its
  `awaiting_worker_result` by a relation: with `≤` it holds of every run, with `=`
  of the runs in which no handler call of a worker throws.
-/

import PassionProjects.Arcserve.Server.Jobs
import PassionProjects.Lib.Transition

namespace PassionProjects.Arcserve.Server

open Net Reactor Buffers Protocol Concurrency Custody

/-- How many jobs a connection may have that is owed so many. -/
structure Tally (R : Nat → Nat → Prop) : Prop where
  refl : ∀ n, R n n
  le : ∀ {n owed}, R n owed → n ≤ owed

theorem tally_le : Tally (· ≤ ·) := ⟨Nat.le_refl, fun h => h⟩

theorem tally_eq : Tally (· = ·) := ⟨fun _ => rfl, Nat.le_of_eq⟩

/-- The number of jobs of a connection. -/
def jobsOf (id : ConnId) (jobs : Multiset Job) : Nat := jobs.countP (·.conn = id)

theorem jobsOf_cons_self (j : Job) (jobs : Multiset Job) :
    jobsOf j.conn (j ::ₘ jobs) = jobsOf j.conn jobs + 1 := Multiset.countP_cons_of_pos _ rfl

theorem jobsOf_cons_other {id : ConnId} {j : Job} (h : j.conn ≠ id) (jobs : Multiset Job) :
    jobsOf id (j ::ₘ jobs) = jobsOf id jobs := Multiset.countP_cons_of_neg _ h

theorem jobsOf_eq_zero {id : ConnId} {jobs : Multiset Job} :
    jobsOf id jobs = 0 ↔ ∀ j ∈ jobs, j.conn ≠ id := Multiset.countP_eq_zero

/-- What a connection is owed. -/
def HttpConnection.owed (c : HttpConnection) : Nat := if c.awaitingWorkerResult then 1 else 0

namespace NonblockingHttpServer

variable {cfg : Config} {d : Descriptors} {R : Nat → Nat → Prop} {s s' : NonblockingHttpServer}
  {x : Session} {jobs : Multiset Job} {j j' : Job} {id : ConnId}

structure Accounted (cfg : Config) (R : Nat → Nat → Prop) (s : NonblockingHttpServer)
    (jobs : Multiset Job) : Prop where
  known : ∀ j ∈ jobs, j.conn < s.nextId
  current : ∀ j ∈ jobs, s.isAlive j.conn = true →
    ∃ request, (s.wires j.conn).requests.getLast? = some request ∧ j.IsFor cfg request
  owed : ∀ id, s.isAlive id = true → R (jobsOf id jobs) (s.heap id).owed

theorem Accounted.shared (h : Accounted cfg R s jobs) (kernel : Kernel)
    (pool : BoundedWorkQueue Task) (handlerCalls : Nat) :
    Accounted cfg R { s with kernel, pool, handlerCalls } jobs :=
  ⟨h.known, h.current, h.owed⟩

/-- A job becomes another of the same connection. -/
theorem Accounted.replace (h : Accounted cfg R s (j ::ₘ jobs)) (hconn : j'.conn = j.conn)
    (hfor : ∀ request, j.IsFor cfg request → j'.IsFor cfg request) :
    Accounted cfg R s (j' ::ₘ jobs) where
  known k hk := by
    rcases Multiset.mem_cons.mp hk with rfl | hk
    · rw [hconn]
      exact h.known j (Multiset.mem_cons_self _ _)
    · exact h.known k (Multiset.mem_cons_of_mem hk)
  current k hk halive := by
    rcases Multiset.mem_cons.mp hk with rfl | hk
    · rw [hconn] at halive ⊢
      obtain ⟨request, hlast, hjob⟩ := h.current j (Multiset.mem_cons_self _ _) halive
      exact ⟨request, hlast, hfor request hjob⟩
    · exact h.current k (Multiset.mem_cons_of_mem hk) halive
  owed id halive := by
    have howed := h.owed id halive
    unfold jobsOf at howed ⊢
    rw [Multiset.countP_cons] at howed ⊢
    rwa [hconn]

/-- A job that nobody is alive for may be forgotten. -/
theorem Accounted.forget (h : Accounted cfg R s (j ::ₘ jobs)) (hdead : s.isAlive j.conn = false) :
    Accounted cfg R s jobs where
  known k hk := h.known k (Multiset.mem_cons_of_mem hk)
  current k hk := h.current k (Multiset.mem_cons_of_mem hk)
  owed id halive := by
    have hne : j.conn ≠ id := by
      rintro rfl
      exact absurd (hdead.symm.trans halive) (by simp)
    rw [← jobsOf_cons_other hne]
    exact h.owed id halive

/-- Any job may, where only an upper bound is kept. -/
theorem Accounted.lose (h : Accounted cfg R s (j ::ₘ jobs))
    (hlose : ∀ n owed, R (n + 1) owed → R n owed) : Accounted cfg R s jobs where
  known k hk := h.known k (Multiset.mem_cons_of_mem hk)
  current k hk := h.current k (Multiset.mem_cons_of_mem hk)
  owed id halive := by
    have howed := h.owed id halive
    by_cases heq : j.conn = id
    · obtain rfl := heq
      rw [jobsOf_cons_self] at howed
      exact hlose _ _ howed
    · rwa [jobsOf_cons_other heq] at howed

/-- New connections have no jobs. -/
theorem Accounted.accepts (hR : Tally R) (h : Accounted cfg R s jobs)
    (haccepts : Accepts cfg s s') :
    Accounted cfg R s' jobs where
  known j hj := Nat.lt_of_lt_of_le (h.known j hj) haccepts.nextId
  current j hj halive := by
    obtain ⟨-, hwires, hsame⟩ := haccepts.old j.conn (h.known j hj)
    rw [hwires]
    exact h.current j hj (hsame ▸ halive)
  owed id halive := by
    by_cases hlt : id < s.nextId
    · obtain ⟨hheap, -, hsame⟩ := haccepts.old id hlt
      rw [hheap]
      exact h.owed id (hsame ▸ halive)
    · obtain ⟨⟨fd, hfresh⟩, -⟩ := haccepts.new id (Nat.le_of_not_lt hlt) halive
      have hzero : jobsOf id jobs = 0 :=
        jobsOf_eq_zero.mpr fun j hj heq => hlt (heq ▸ h.known j hj)
      rw [hfresh, hzero]
      exact hR.refl 0

/-- The jobs of all connections but one, which has none. -/
structure AccountedBut (cfg : Config) (R : Nat → Nat → Prop) (s : NonblockingHttpServer)
    (jobs : Multiset Job) (id : ConnId) : Prop where
  known : ∀ j ∈ jobs, j.conn < s.nextId
  current : ∀ j ∈ jobs, s.isAlive j.conn = true →
    ∃ request, (s.wires j.conn).requests.getLast? = some request ∧ j.IsFor cfg request
  owed : ∀ id', id' ≠ id → s.isAlive id' = true → R (jobsOf id' jobs) (s.heap id').owed
  none : ∀ j ∈ jobs, j.conn ≠ id

/-- A connection that awaits nothing has no job. -/
theorem Accounted.free (h : Accounted cfg R s jobs) (hR : Tally R) (halive : s.isAlive id = true)
    (hfree : (s.heap id).awaitingWorkerResult = false) : AccountedBut cfg R s jobs id where
  known := h.known
  current := h.current
  owed id' _ := h.owed id'
  none := by
    have howed := hR.le (h.owed id halive)
    rw [HttpConnection.owed, hfree, if_neg (by simp)] at howed
    exact jobsOf_eq_zero.mp (Nat.le_zero.mp howed)

/-- The connection of a job awaits its result, and has no other. -/
theorem Accounted.awaits (h : Accounted cfg R s (j ::ₘ jobs)) (hR : Tally R)
    (halive : s.isAlive j.conn = true) :
    (s.heap j.conn).awaitingWorkerResult = true ∧ AccountedBut cfg R s jobs j.conn := by
  have howed := hR.le (h.owed _ halive)
  rw [jobsOf_cons_self, HttpConnection.owed] at howed
  split at howed
  · refine ⟨‹_›, fun k hk => h.known k (Multiset.mem_cons_of_mem hk),
      fun k hk => h.current k (Multiset.mem_cons_of_mem hk), fun id hne halive' => ?_,
      jobsOf_eq_zero.mp (by omega)⟩
    rw [← jobsOf_cons_other (fun heq => hne heq.symm)]
    exact h.owed id halive'
  · omega

section Handlers

variable (halive : s.isAlive x.id = true) (hfd : x.conn.base.fd = (s.heap x.id).base.fd)

include halive hfd

/-- A connection without a job hands in one, or stays without. -/
theorem AccountedBut.submitted (h : AccountedBut cfg R s jobs x.id) (hR : Tally R)
    (hlt : x.id < s.nextId) (hthrew : x.threw = false)
    (hsubmitted : Session.Submitted (s.session x.id) x) :
    x.pool = s.pool ∧ Accounted cfg R (s.update x) jobs ∨
      ∃ task, x.pool = { s.pool with tasks := s.pool.tasks ++ [task] } ∧
        Accounted cfg R (s.update x) (.task task ::ₘ jobs) := by
  have hheap := heap_update_self s x
  have hwires := wires_update_self s x
  have hcurrent : ∀ j ∈ jobs, (s.update x).isAlive j.conn = true → ∃ request,
      ((s.update x).wires j.conn).requests.getLast? = some request ∧ j.IsFor cfg request := by
    intro j hj hid
    rw [isAlive_update halive hfd (h.none j hj)] at hid
    rw [wires_update (h.none j hj)]
    exact h.current j hj hid
  have howed : ∀ id, id ≠ x.id → (s.update x).isAlive id = true →
      R (jobsOf id jobs) ((s.update x).heap id).owed := by
    intro id hne hid
    rw [isAlive_update halive hfd hne] at hid
    rw [heap_update hne]
    exact h.owed id hne hid
  have hzero := jobsOf_eq_zero.mpr h.none
  obtain ⟨hpool, hfree⟩ | ⟨request, hpool, hlast, hawaiting, -, -⟩ := hsubmitted
  · refine Or.inl ⟨hpool, h.known, hcurrent, fun id hid => ?_⟩
    by_cases heq : id = x.id
    · subst heq
      rw [isAlive_update_self] at hid
      rw [hheap, hzero, HttpConnection.owed, hfree hthrew hid]
      exact hR.refl 0
    · exact howed id heq hid
  · refine Or.inr ⟨⟨x.id, request, request.keepAlive⟩, hpool, ?_, ?_, fun id hid => ?_⟩
    · intro j hj
      rcases Multiset.mem_cons.mp hj with rfl | hj
      · exact hlt
      · exact h.known j hj
    · intro j hj hid
      rcases Multiset.mem_cons.mp hj with rfl | hj
      · exact ⟨request, (congrArg (·.requests.getLast?) hwires).trans hlast, rfl, rfl⟩
      · exact hcurrent j hj hid
    · by_cases heq : id = x.id
      · subst heq
        rw [hheap, HttpConnection.owed, hawaiting, if_pos rfl]
        have hone := jobsOf_cons_self (.task ⟨x.id, request, request.keepAlive⟩) jobs
        rw [show (Job.task ⟨x.id, request, request.keepAlive⟩).conn = x.id from rfl, hzero] at hone
        rw [hone]
        exact hR.refl 1
      · rw [jobsOf_cons_other (fun hsame => heq hsame.symm)]
        exact howed id heq hid

/-- A connection that awaits a result keeps its job. -/
theorem Accounted.awaiting (h : Accounted cfg R s jobs)
    (hawaiting : (s.heap x.id).awaitingWorkerResult = true)
    (hkept : x.registered = true →
      x.conn.awaitingWorkerResult = true ∧ x.wire.requests = (s.wires x.id).requests) :
    Accounted cfg R (s.update x) jobs := by
  have hheap := heap_update_self s x
  have hwires := wires_update_self s x
  refine ⟨h.known, fun j hj hid => ?_, fun id hid => ?_⟩
  · by_cases heq : j.conn = x.id
    · rw [heq, isAlive_update_self] at hid
      obtain ⟨request, hlast, hjob⟩ := h.current j hj (heq ▸ halive)
      refine ⟨request, ?_, hjob⟩
      rw [heq, hwires, (hkept hid).2, ← heq]
      exact hlast
    · rw [isAlive_update halive hfd heq] at hid
      rw [wires_update heq]
      exact h.current j hj hid
  · by_cases heq : id = x.id
    · subst heq
      rw [isAlive_update_self] at hid
      have howed := h.owed _ halive
      rw [HttpConnection.owed, hawaiting] at howed
      rw [hheap, HttpConnection.owed, (hkept hid).1]
      exact howed
    · rw [isAlive_update halive hfd heq] at hid
      rw [heap_update heq]
      exact h.owed id hid

end Handlers

/-- An event on a connection. -/
theorem Accounted.handled (h : Accounted cfg R s jobs) (hR : Tally R)
    (halive : s.isAlive x.id = true) (hlt : x.id < s.nextId) (hthrew : x.threw = false)
    (hhandled : Session.Handled cfg (s.session x.id) x) :
    x.pool = s.pool ∧ Accounted cfg R (s.update x) jobs ∨
      ∃ task, x.pool = { s.pool with tasks := s.pool.tasks ++ [task] } ∧
        Accounted cfg R (s.update x) (.task task ::ₘ jobs) := by
  have hfd := hhandled.frame.fd
  cases hawaiting : (s.heap x.id).awaitingWorkerResult with
  | true =>
      obtain ⟨hpool, hkept⟩ := hhandled.awaiting hawaiting
      exact Or.inl ⟨hpool, Accounted.awaiting halive hfd h hawaiting (hkept hthrew)⟩
  | false =>
      exact AccountedBut.submitted halive hfd (h.free hR halive hawaiting) hR hlt hthrew
        (hhandled.submitted hawaiting)

end NonblockingHttpServer

end PassionProjects.Arcserve.Server
