/-
  PassionProjects.MiniPaged.Scheduler.Line

  The scheduler as a waiting line: the requests stand in the order of their arrival and
  are served from the head, what runs is a list, and nothing is looked up by id.
  `Shows` ties it to the engine, and one `tick` of the engine to one of the line.
-/

import PassionProjects.Lib.Sorted
import PassionProjects.MiniPaged.Scheduler.Step
import PassionProjects.MiniPaged.Simulation.Loading

namespace PassionProjects.MiniPaged

open Raising Raising.Prog

/-- The line, what runs, and what became of the others. -/
structure Line where
  now : ℚ
  decodeTick : ℚ
  queue : List Queued
  running : List SequenceState := []
  completed : List SequenceState := []
  cancelled : List Request := []
  history : List Event := []

/-- What one tick does with the head of the line, and what is left of the line. -/
structure Served where
  admitted : List SequenceState := []
  cancelled : List Request := []
  events : List Event := []
  queue : List Queued := []

/-- The events of an admission. -/
def Request.admittedEvents (r : Request) (now : ℚ) : List Event :=
  [⟨now, r.requestId, .ADMITTED, []⟩, ⟨now, r.requestId, .PREFILL_DONE, []⟩]

/-- The events of a cancellation. -/
def Request.cancelledEvents (lim : Limits) (r : Request) (now : ℚ) (reason : String) : List Event :=
  [⟨now, r.requestId, .ADMISSION_REJECTED, [
      ("reason", .text reason),
      ("requested_blocks", .number (lim.watermark r)),
      ("total_blocks", .number lim.numBlocks),
      ("prompt_len", .number r.promptLen),
      ("token_budget", .number lim.tokenBudget)]⟩,
    ⟨now, r.requestId, .CANCELLED, []⟩]

/-- The event of a completion. -/
def completedEvent (now : ℚ) (seq : SequenceState) : Event := ⟨now, seq.requestId, .COMPLETED, []⟩

namespace Limits

variable (lim : Limits)

/-- The line is served from its head until a request has not arrived yet or has to wait. -/
def serve (now : ℚ) : List Queued → Int → Nat → Served
  | [], _, _ => {}
  | (r, spec) :: queue, budget, committed =>
      if r.arrivalTime ≤ now then
        match lim.judge budget committed r with
        | .grant =>
            let x := serve now queue (budget - r.promptLen) (committed + lim.watermark r)
            { x with
              admitted := r.started spec now :: x.admitted
              events := r.admittedEvents now ++ x.events }
        | .cancel reason =>
            let x := serve now queue budget committed
            { x with
              cancelled := { r with state := .CANCELLED } :: x.cancelled
              events := r.cancelledEvents lim now reason ++ x.events }
        | .wait detail =>
            { queue := (r, spec) :: queue
              events := [⟨now, r.requestId, .ADMISSION_REJECTED, detail⟩] }
      else { queue := (r, spec) :: queue }

end Limits

namespace Line

variable (lim : Limits)

/-- The blocks that what runs may come to need. -/
def committed (l : Line) : Nat := (l.running.map fun seq => lim.watermark seq.request).sum

/-- What a tick serves. -/
def served (l : Line) : Served :=
  lim.serve (l.now + l.decodeTick) l.queue lim.tokenBudget (l.committed lim)

/-- What runs, with one more token each. -/
def decoded (l : Line) : List SequenceState := l.running.map SequenceState.decode

/-- What a tick finishes. -/
def finished (l : Line) : List SequenceState := l.decoded.filter SequenceState.isFinished

/-- What a tick logs, but for the arrivals. -/
def events (l : Line) : List Event :=
  (l.served lim).events ++ l.decoded.map (SimulationEngine.decodeEvent (l.now + l.decodeTick)) ++
    l.finished.map (completedEvent (l.now + l.decodeTick))

/-- One step of the scheduler. -/
def tick (l : Line) : Line where
  now := l.now + l.decodeTick
  decodeTick := l.decodeTick
  queue := (l.served lim).queue
  running := l.decoded.filter (fun seq => !seq.isFinished) ++ (l.served lim).admitted
  completed := l.completed ++ l.finished.map (SequenceState.complete (l.now + l.decodeTick))
  cancelled := l.cancelled ++ (l.served lim).cancelled
  history := l.history ++ l.events lim

end Line

-- ============================================================================
-- What the line shows of the engine
-- ============================================================================

/-- The waiting requests in the order of arrival. -/
def SimulationEngine.inLine (e : SimulationEngine) : List (RequestId × Request) :=
  e.waiting.entries.insertionSort arrivesBefore

/-- An event that is not an arrival. -/
def notArrival (event : Event) : Bool := event.eventType ≠ .ARRIVED

/-- The line is what an engine has waiting and running, and what it has logged but for
    the arrivals. -/
structure Shows (e : SimulationEngine) (l : Line) : Prop where
  now : e.now = l.now
  decodeTick : e.decodeTick = l.decodeTick
  queue : e.inLine = l.queue.map fun x => (x.1.requestId, x.1)
  specs : ∀ x ∈ l.queue, e.specById.get? x.1.requestId = some x.2
  running : e.running.values = l.running
  completed : e.completed = l.completed
  cancelled : e.cancelled = l.cancelled
  history : e.eventLog.filter notArrival = l.history

/-- No request is counted as arrived before its time. -/
def Punctual (e : SimulationEngine) : Prop :=
  ∀ id ∈ e.arrivedIds, ∀ r, e.waiting.get? id = some r → r.arrivalTime ≤ e.now

instance : Std.Total SimulationEngine.arrivesBefore where
  total a b := le_total a.2.arrivalTime b.2.arrivalTime

instance : IsTrans (RequestId × Request) SimulationEngine.arrivesBefore where
  trans _ _ _ hab hbc := Rat.le_trans hab hbc

variable {lim : Limits} {b : SimulationEngine} {l : Line}

-- ============================================================================
-- Arrivals
-- ============================================================================

/-- Who counts as arrived after some entries have been looked at, and what is logged. -/
theorem recordArrival_fold (entries : List (RequestId × Request)) (b : SimulationEngine) :
    (∀ x ∈ entries, x.2.arrivalTime ≤ b.now →
      x.1 ∈ (entries.foldl SimulationEngine.recordArrival b).arrivedIds) ∧
    (∀ id ∈ b.arrivedIds, id ∈ (entries.foldl SimulationEngine.recordArrival b).arrivedIds) ∧
    (∀ id ∈ (entries.foldl SimulationEngine.recordArrival b).arrivedIds, id ∈ b.arrivedIds ∨
      ∃ x ∈ entries, x.1 = id ∧ x.2.arrivalTime ≤ b.now) ∧
    ∃ arrivals : List Event, (∀ event ∈ arrivals, event.eventType = .ARRIVED) ∧
      (entries.foldl SimulationEngine.recordArrival b).eventLog = b.eventLog ++ arrivals := by
  induction entries generalizing b with
  | nil =>
      exact ⟨fun x hx => absurd hx List.not_mem_nil, fun _ h => h, fun _ h => Or.inl h, [],
        fun event hevent => absurd hevent List.not_mem_nil, (List.append_nil _).symm⟩
  | cons x entries ih =>
      have hnow : (b.recordArrival x).now = b.now := by
        unfold SimulationEngine.recordArrival
        split <;> rfl
      have hlog : ∃ own : List Event, (∀ event ∈ own, event.eventType = .ARRIVED) ∧
          (b.recordArrival x).eventLog = b.eventLog ++ own := by
        unfold SimulationEngine.recordArrival
        split
        · refine ⟨[_], fun event hevent => ?_, rfl⟩
          rw [List.mem_singleton.mp hevent]
        · exact ⟨[], fun event hevent => absurd hevent List.not_mem_nil, (List.append_nil _).symm⟩
      have hmem : ∀ id, id ∈ (b.recordArrival x).arrivedIds ↔
          id ∈ b.arrivedIds ∨ id = x.1 ∧ x.2.arrivalTime ≤ b.now := by
        intro id
        unfold SimulationEngine.recordArrival
        split
        · next h =>
          show id ∈ x.1 :: b.arrivedIds ↔ _
          rw [List.mem_cons, or_comm]
          exact or_congr_right ⟨fun heq => ⟨heq, h.1⟩, And.left⟩
        · next h =>
          refine ⟨Or.inl, fun hor => hor.elim (fun hin => hin) fun ⟨heq, hle⟩ => ?_⟩
          exact heq ▸ not_not.mp fun hnot => h ⟨hle, hnot⟩
      obtain ⟨own, hown, hlog⟩ := hlog
      obtain ⟨hall, hkeep, honly, arrivals, harrivals, hevents⟩ := ih (b.recordArrival x)
      rw [hnow] at hall honly
      rw [hlog, List.append_assoc] at hevents
      rw [List.foldl_cons]
      refine ⟨fun y hy hle => ?_, fun id hid => ?_, fun id hid => ?_, own ++ arrivals,
        List.forall_mem_append.mpr ⟨hown, harrivals⟩, hevents⟩
      · rcases List.mem_cons.mp hy with rfl | hy
        · exact hkeep _ ((hmem _).mpr (Or.inr ⟨rfl, hle⟩))
        · exact hall y hy hle
      · exact hkeep _ ((hmem _).mpr (Or.inl hid))
      · rcases honly id hid with h | ⟨y, hy, heq, hle⟩
        · rcases (hmem id).mp h with h | ⟨heq, hle⟩
          · exact Or.inl h
          · exact Or.inr ⟨x, List.mem_cons_self, heq.symm, hle⟩
        · exact Or.inr ⟨y, List.mem_cons_of_mem x hy, heq, hle⟩

/-- Once arrivals are recorded, who asks for admission is who stands at the head of the
    line and has arrived. -/
theorem arrivedWaiting_eq (h : Punctual b) :
    b.recordNewArrivals.arrivedWaiting =
      b.inLine.takeWhile fun x => decide (x.2.arrivalTime ≤ b.now) := by
  obtain ⟨hall, -, honly, -⟩ := recordArrival_fold b.waiting.entries b
  obtain ⟨eventLog, arrivedIds, hsame⟩ := recordNewArrivals_same b
  have hwaiting : b.recordNewArrivals.waiting = b.waiting := by rw [hsame]
  have harrived : b.recordNewArrivals.waiting.entries.filter
      (fun x => decide (x.1 ∈ b.recordNewArrivals.arrivedIds)) =
        b.waiting.entries.filter fun x => decide (x.2.arrivalTime ≤ b.now) := by
    rw [hwaiting]
    refine List.filter_congr fun x hx => decide_eq_decide.mpr ⟨fun hid => ?_, hall x hx⟩
    have hget := Dict.get?_of_mem hx
    rcases honly x.1 hid with hid | ⟨y, hy, heq, hle⟩
    · exact h x.1 hid x.2 hget
    · have hget' := Dict.get?_of_mem hy
      rw [heq, hget] at hget'
      rw [Option.some.inj hget']
      exact hle
  rw [SimulationEngine.arrivedWaiting, harrived, ← StableSort.filter_insertionSort]
  refine (StableSort.takeWhile_eq_filter (List.pairwise_insertionSort _ _) ?_).symm
  exact fun x y hxy hy => decide_eq_true (Rat.le_trans hxy (of_decide_eq_true hy))

theorem Punctual.recordNewArrivals (h : Punctual b) : Punctual b.recordNewArrivals := by
  obtain ⟨-, -, honly, -⟩ := recordArrival_fold b.waiting.entries b
  obtain ⟨eventLog, arrivedIds, hsame⟩ := recordNewArrivals_same b
  intro id hid r hr
  have hnow : b.recordNewArrivals.now = b.now := by rw [hsame]
  have hr : b.waiting.get? id = some r := by rw [hsame] at hr; exact hr
  rw [hnow]
  rcases honly id hid with hid | ⟨x, hx, rfl, hle⟩
  · exact h id hid r hr
  · have hget := Dict.get?_of_mem hx
    rw [hr] at hget
    rw [Option.some.inj hget]
    exact hle

-- ============================================================================
-- Serving the line
-- ============================================================================

/-- The line without a request. -/
theorem inLine_erase {id : RequestId} {e : SimulationEngine} :
    { e with waiting := e.waiting.erase id }.inLine = e.inLine.filter fun x => x.1 ≠ id :=
  StableSort.filter_insertionSort.symm

/-- The line after its head has left. -/
theorem inLine_tail {e : SimulationEngine} {x : RequestId × Request}
    {rest : List (RequestId × Request)} (h : e.inLine = x :: rest) :
    { e with waiting := e.waiting.erase x.1 }.inLine = rest := by
  have hnodup : (e.inLine.map Prod.fst).Nodup :=
    ((List.perm_insertionSort _ _).map Prod.fst).nodup_iff.mpr e.waiting.nodup
  rw [h, List.map_cons, List.nodup_cons] at hnodup
  rw [inLine_erase, h, List.filter_cons_of_neg (by simp), List.filter_eq_self]
  intro y hy
  exact decide_eq_true fun heq => hnodup.1 (heq ▸ List.mem_map_of_mem hy)

theorem get?_of_inLine {e : SimulationEngine} {x : RequestId × Request} (h : x ∈ e.inLine) :
    e.waiting.get? x.1 = some x.2 :=
  Dict.get?_of_mem ((List.mem_insertionSort _).mp h)

/-- An engine after a part of a tick: what was served is moved from the line. -/
structure Moved (e e' : SimulationEngine) (x : Served) : Prop where
  same : e' = { e with
    waiting := e'.waiting
    running := e'.running
    cancelled := e.cancelled ++ x.cancelled
    eventLog := e.eventLog ++ x.events }
  queue : e'.inLine = x.queue.map fun y => (y.1.requestId, y.1)
  running : e'.running.values = e.running.values ++ x.admitted

theorem start_eq (b : SimulationEngine) (r : Request) (spec : TraceRequestSpec) :
    b.start r spec = { b with
      waiting := b.waiting.erase r.requestId
      running := b.running.set r.requestId (r.started spec b.now)
      cancelled := b.cancelled ++ []
      eventLog := b.eventLog ++ r.admittedEvents b.now } := by
  rw [List.append_nil, Request.admittedEvents, ← List.singleton_append, ← List.append_assoc]
  rfl

theorem cancel_eq (lim : Limits) (b : SimulationEngine) (r : Request) (reason : String) :
    b.cancel lim r reason = { b with
      waiting := b.waiting.erase r.requestId
      running := b.running
      cancelled := b.cancelled ++ [{ r with state := .CANCELLED }]
      eventLog := b.eventLog ++ r.cancelledEvents lim b.now reason } := by
  rw [Request.cancelledEvents, ← List.singleton_append, ← List.append_assoc]
  rfl

/-- Nobody has moved. -/
theorem Moved.none {queue : List Queued}
    (hqueue : b.inLine = queue.map fun x => (x.1.requestId, x.1)) : Moved b b { queue } where
  same := by
    rw [List.append_nil, List.append_nil]
  queue := hqueue
  running := (List.append_nil _).symm

/-- One request has moved, and then others. -/
theorem Moved.after {e e₁ e' : SimulationEngine} {x : Served} {admitted : List SequenceState}
    {cancelled : List Request} {events : List Event} {waiting : Dict RequestId Request}
    {running : Dict RequestId SequenceState} (h : Moved e₁ e' x)
    (hbase : e₁ = { e with
      waiting
      running
      cancelled := e.cancelled ++ cancelled
      eventLog := e.eventLog ++ events })
    (hrunning : running.values = e.running.values ++ admitted) :
    Moved e e' { x with
      admitted := admitted ++ x.admitted
      cancelled := cancelled ++ x.cancelled
      events := events ++ x.events } where
  same := by
    rw [h.same, hbase]
    simp only [List.append_assoc]
  queue := h.queue
  running := by
    rw [h.running, hbase, ← List.append_assoc, ← hrunning]

/-- Admission in the order of the ids is serving the line. -/
theorem admitAll_serve (lim : Limits) (queue : List Queued) (budget : Int) (h : Orderly b)
    (hqueue : b.inLine = queue.map fun x => (x.1.requestId, x.1))
    (hspecs : ∀ x ∈ queue, b.specById.get? x.1.requestId = some x.2) :
    let ids := (b.inLine.takeWhile fun x => decide (x.2.arrivalTime ≤ b.now)).map Prod.fst
    let served := lim.serve b.now queue budget (lim.committed b)
    (b.admitAll lim ids budget).1 = served.admitted.map SequenceState.requestId ∧
      Moved b (b.admitAll lim ids budget).2.2 served := by
  induction queue generalizing b budget with
  | nil =>
      rw [hqueue]
      exact ⟨rfl, Moved.none hqueue⟩
  | cons x queue ih =>
      obtain ⟨r, spec⟩ := x
      have hwaiting : b.waiting.get? r.requestId = some r :=
        get?_of_inLine (x := (r.requestId, r)) (by rw [hqueue]; exact List.mem_cons_self)
      have hspec : b.specById.get? r.requestId = some spec := hspecs _ List.mem_cons_self
      obtain ⟨spec', hspec', hasked, hstate⟩ := h.waiting _ r hwaiting
      obtain rfl : spec' = spec := Option.some.inj (hspec'.symm.trans hspec)
      have hnew := h.apart _ r hwaiting
      have htail := inLine_tail hqueue
      have hspecs' : ∀ x ∈ queue, b.specById.get? x.1.requestId = some x.2 :=
        fun x hx => hspecs x (List.mem_cons_of_mem _ hx)
      dsimp only
      rw [hqueue, List.map_cons]
      by_cases harrived : r.arrivalTime ≤ b.now
      · rw [List.takeWhile_cons_of_pos (by exact decide_eq_true harrived), List.map_cons,
          Limits.serve, if_pos harrived, SimulationEngine.admitAll, hwaiting, hspec]
        dsimp only
        cases hjudge : lim.judge budget (lim.committed b) r with
        | grant =>
            dsimp only
            obtain ⟨hids, hmoved⟩ := ih (b := b.start r spec') (budget - r.promptLen)
              (h.start hspec hasked) htail hspecs'
            have hline : (b.start r spec').inLine =
                queue.map fun x => (x.1.requestId, x.1) := htail
            rw [hline, lim.committed_start spec' hnew] at hids hmoved
            exact ⟨congrArg (List.cons r.requestId) hids,
              hmoved.after (start_eq b r spec') (Dict.values_set_new hnew)⟩
        | cancel reason =>
            dsimp only
            obtain ⟨hids, hmoved⟩ := ih (b := b.cancel lim r reason) budget
              (h.cancel lim r reason) htail hspecs'
            have hline : (b.cancel lim r reason).inLine =
                queue.map fun x => (x.1.requestId, x.1) := htail
            rw [hline] at hids hmoved
            exact ⟨hids, hmoved.after (cancel_eq lim b r reason) (List.append_nil _).symm⟩
        | wait detail =>
            refine ⟨rfl, ?_, hqueue, (List.append_nil _).symm⟩
            rw [List.append_nil]
            rfl
      · rw [List.takeWhile_cons_of_neg (by simpa using harrived), List.map_nil, Limits.serve,
          if_neg harrived]
        exact ⟨rfl, Moved.none hqueue⟩

-- ============================================================================
-- What is served comes from the head of the line
-- ============================================================================

section Serve

variable {now : ℚ} {queue : List Queued} {budget : Int} {committed : Nat}

/-- The line keeps its end. -/
theorem serve_queue : (lim.serve now queue budget committed).queue <:+ queue := by
  induction queue generalizing budget committed with
  | nil => exact List.suffix_rfl
  | cons x queue ih =>
      unfold Limits.serve
      split
      · split
        · exact ih.trans (List.suffix_cons x queue)
        · exact ih.trans (List.suffix_cons x queue)
        · exact List.suffix_rfl
      · exact List.suffix_rfl

/-- Whoever is admitted stood in the line and starts to run. -/
theorem serve_admitted : ∀ seq ∈ (lim.serve now queue budget committed).admitted,
    ∃ x ∈ queue, seq = x.1.started x.2 now := by
  induction queue generalizing budget committed with
  | nil => exact fun seq hseq => absurd hseq List.not_mem_nil
  | cons x queue ih =>
      have hlater {budget : Int} {committed : Nat} :
          ∀ seq ∈ (lim.serve now queue budget committed).admitted,
            ∃ y ∈ x :: queue, seq = y.1.started y.2 now := fun seq hseq => by
        obtain ⟨y, hy, heq⟩ := ih seq hseq
        exact ⟨y, List.mem_cons_of_mem x hy, heq⟩
      unfold Limits.serve
      split
      · split
        · intro seq hseq
          rcases List.mem_cons.mp hseq with rfl | hseq
          · exact ⟨x, List.mem_cons_self, rfl⟩
          · exact hlater seq hseq
        · exact hlater
        · exact fun seq hseq => absurd hseq List.not_mem_nil
      · exact fun seq hseq => absurd hseq List.not_mem_nil

/-- The types of the events of admission. -/
def admissionEvents : List EventType := [.ADMITTED, .PREFILL_DONE, .ADMISSION_REJECTED, .CANCELLED]

/-- The events of serving the line are of those who stood in it. -/
theorem serve_events : ∀ event ∈ (lim.serve now queue budget committed).events,
    event.eventType ∈ admissionEvents ∧ ∃ x ∈ queue, event.requestId = x.1.requestId := by
  induction queue generalizing budget committed with
  | nil => exact fun event hevent => absurd hevent List.not_mem_nil
  | cons x queue ih =>
      have hlater {own : List Event} {budget : Int} {committed : Nat}
          (hown : ∀ event ∈ own, event.eventType ∈ admissionEvents ∧
            event.requestId = x.1.requestId) :
          ∀ event ∈ own ++ (lim.serve now queue budget committed).events,
            event.eventType ∈ admissionEvents ∧
              ∃ y ∈ x :: queue, event.requestId = y.1.requestId := fun event hevent => by
        rcases List.mem_append.mp hevent with hevent | hevent
        · exact ⟨(hown event hevent).1, x, List.mem_cons_self, (hown event hevent).2⟩
        · obtain ⟨htype, y, hy, heq⟩ := ih event hevent
          exact ⟨htype, y, List.mem_cons_of_mem x hy, heq⟩
      unfold Limits.serve
      split
      · split
        · exact hlater (by simp [Request.admittedEvents, admissionEvents])
        · exact hlater (by simp [Request.cancelledEvents, admissionEvents])
        · intro event hevent
          obtain rfl := List.mem_singleton.mp hevent
          exact ⟨by simp [admissionEvents], x, List.mem_cons_self, rfl⟩
      · exact fun event hevent => absurd hevent List.not_mem_nil

end Serve

-- ============================================================================
-- One step
-- ============================================================================

/-- Nobody who has just been admitted is finished. -/
theorem started_busy (r : Request) (spec : TraceRequestSpec) (now : ℚ) :
    (r.started spec now).isFinished = false :=
  decide_eq_false (Nat.not_le.mpr spec.targetOutputLen_pos)

/-- What runs after the decode pass: those that ran before have one more token. -/
theorem advance_running {old new : List SequenceState}
    (hapart : ∀ seq ∈ old, seq.requestId ∉ new.map SequenceState.requestId) :
    (old ++ new).map (SequenceState.advance (new.map SequenceState.requestId)) =
      old.map SequenceState.decode ++ new := by
  have hold : old.map (SequenceState.advance (new.map SequenceState.requestId)) =
      old.map SequenceState.decode := List.map_congr_left fun seq hseq => by
    rw [SequenceState.advance, if_neg (hapart seq hseq), SequenceState.decode]
  have hnew : new.map (SequenceState.advance (new.map SequenceState.requestId)) = new.map id :=
    List.map_congr_left fun seq hseq => by
      rw [SequenceState.advance, if_pos (List.mem_map_of_mem hseq), id]
  rw [List.map_append, hold, hnew, List.map_id]

/-- Who is left in the line has come no earlier. -/
theorem Moved.punctual {e e' : SimulationEngine} {x : Served} (h : Moved e e' x)
    (hpunctual : Punctual e) (hline : ∀ y ∈ x.queue, (y.1.requestId, y.1) ∈ e.inLine) :
    Punctual e' := by
  intro id hid r hr
  have hr : (id, r) ∈ e'.inLine := (List.mem_insertionSort _).mpr (Dict.mem_of_get? hr)
  rw [h.queue] at hr
  obtain ⟨y, hy, heq⟩ := List.mem_map.mp hr
  have hwaiting := get?_of_inLine (heq ▸ hline y hy)
  rw [h.same] at hid ⊢
  exact hpunctual id hid r hwaiting

/-- The ids of what runs and of what is admitted differ. -/
theorem Shows.apart (h : Shows b l) (horderly : Orderly b) {seq : SequenceState}
    (hseq : seq ∈ l.running) :
    seq.requestId ∉ (l.served lim).admitted.map SequenceState.requestId := by
  intro hmem
  obtain ⟨other, hother, heq⟩ := List.mem_map.mp hmem
  obtain ⟨x, hx, rfl⟩ := serve_admitted other hother
  obtain ⟨⟨id, seq'⟩, hentry, rfl⟩ := List.mem_map.mp (h.running ▸ hseq)
  have hid := Dict.get?_of_mem hentry
  obtain ⟨spec, -, hruns⟩ := horderly.running id seq' hid
  have hline : (x.1.requestId, x.1) ∈ b.inLine := h.queue ▸ List.mem_map_of_mem hx
  have hnone := horderly.apart _ _ (get?_of_inLine hline)
  have hsame : x.1.requestId = id := heq.trans hruns.asked.id
  rw [hsame, hid] at hnone
  nomatch hnone

/-- Admission serves the line. -/
theorem Shows.admission (lim : Limits) (h : Shows b l) (horderly : Orderly b)
    (hpunctual : Punctual b)
    (htick : 0 ≤ b.decodeTick) :
    (b.admission lim).1 = (l.served lim).admitted.map SequenceState.requestId ∧
      Punctual (b.admission lim).2.2 ∧
      ∃ arrivals arrivedIds, (∀ event ∈ arrivals, event.eventType = .ARRIVED) ∧
        Moved { b with
            now := l.now + l.decodeTick
            eventLog := b.eventLog ++ arrivals
            arrivedIds }
          (b.admission lim).2.2 (l.served lim) := by
  have hlater : b.now + b.decodeTick = l.now + l.decodeTick := by rw [h.now, h.decodeTick]
  have hearlier : Punctual { b with now := b.now + b.decodeTick } := fun id hid r hr =>
    Rat.le_trans (hpunctual id hid r hr) (le_add_of_nonneg_right htick)
  have hasks := arrivedWaiting_eq hearlier
  have hpunctual' := hearlier.recordNewArrivals
  obtain ⟨-, -, -, arrivals, harrivals, hlog⟩ :=
    recordArrival_fold b.waiting.entries { b with now := b.now + b.decodeTick }
  obtain ⟨eventLog, arrivedIds, hsame⟩ :=
    recordNewArrivals_same { b with now := b.now + b.decodeTick }
  rw [← SimulationEngine.recordNewArrivals] at hlog
  have hadmission : b.admission lim = SimulationEngine.admitAll lim
      ({ b with now := b.now + b.decodeTick }.recordNewArrivals.arrivedWaiting.map Prod.fst)
      lim.tokenBudget { b with now := b.now + b.decodeTick }.recordNewArrivals := rfl
  rw [hasks, hsame] at hadmission
  rw [hsame] at hpunctual' hlog
  obtain rfl : eventLog = b.eventLog ++ arrivals := hlog
  obtain ⟨hids, hmoved⟩ := admitAll_serve lim l.queue lim.tokenBudget
    (b := { b with now := b.now + b.decodeTick, eventLog := b.eventLog ++ arrivals, arrivedIds })
    ⟨horderly.waiting, horderly.running, horderly.apart⟩ h.queue h.specs
  have hserved : lim.serve (b.now + b.decodeTick) l.queue lim.tokenBudget (lim.committed b) =
      l.served lim := by
    rw [Line.served, hlater, Limits.committed, h.running]
    rfl
  rw [hadmission]
  refine ⟨hids.trans (by rw [← hserved]; rfl), ?_, arrivals, arrivedIds, harrivals, ?_⟩
  · refine hmoved.punctual hpunctual' fun x hx => ?_
    have hline : (x.1.requestId, x.1) ∈ b.inLine := by
      rw [h.queue]
      exact List.mem_map_of_mem (serve_queue.subset hx)
    exact hline
  · rw [← hserved, ← hlater]
    exact hmoved

/-- The events of a tick, by their type and by whose they are. -/
theorem Line.mem_events {event : Event} (h : event ∈ l.events lim) :
    (event.eventType ∈ admissionEvents ∧ ∃ x ∈ l.queue, event.requestId = x.1.requestId) ∨
      (event.eventType ∈ [.DECODE_STEP, .COMPLETED] ∧
        ∃ seq ∈ l.running, event.requestId = seq.requestId) := by
  have hdecoded : ∀ seq ∈ l.decoded, ∃ seq' ∈ l.running, seq.requestId = seq'.requestId := by
    intro seq hseq
    obtain ⟨seq', hseq', rfl⟩ := List.mem_map.mp hseq
    exact ⟨seq', hseq', rfl⟩
  rcases List.mem_append.mp h with h | h
  · rcases List.mem_append.mp h with h | h
    · exact Or.inl (serve_events event h)
    · obtain ⟨seq, hseq, rfl⟩ := List.mem_map.mp h
      exact Or.inr ⟨List.mem_cons_self, hdecoded seq hseq⟩
  · obtain ⟨seq, hseq, rfl⟩ := List.mem_map.mp h
    exact Or.inr ⟨by simp [completedEvent], hdecoded seq (List.mem_filter.mp hseq).1⟩

theorem events_notArrival {event : Event} (h : event ∈ l.events lim) : notArrival event = true := by
  refine decide_eq_true fun harrived => ?_
  rcases Line.mem_events h with ⟨htype, -⟩ | ⟨htype, -⟩ <;>
  · rw [harrived] at htype
    exact absurd htype (by decide)

/-- The decode pass over what ran before and what was just admitted. -/
theorem decode_finish {old new : List SequenceState} (hrunning : b.running.values = old ++ new)
    (hapart : ∀ seq ∈ old, seq.requestId ∉ new.map SequenceState.requestId)
    (hbusy : ∀ seq ∈ new, seq.isFinished = false) :
    let decoded := old.map SequenceState.decode
    let finished := decoded.filter SequenceState.isFinished
    ∃ running : Dict RequestId SequenceState,
      running.values = decoded.filter (fun seq => !seq.isFinished) ++ new ∧
      (b.decodeAll (new.map SequenceState.requestId)).finishAll = { b with
        running
        completed := b.completed ++ finished.map (SequenceState.complete b.now)
        eventLog := b.eventLog ++ decoded.map (SimulationEngine.decodeEvent b.now) ++
          finished.map (completedEvent b.now) } := by
  have hdecoded : (b.running.mapVal (SequenceState.advance
      (new.map SequenceState.requestId))).values = old.map SequenceState.decode ++ new := by
    rw [Dict.values_mapVal, hrunning]
    exact advance_running hapart
  have hnone : new.filter SequenceState.isFinished = [] :=
    List.filter_eq_nil_iff.mpr (by simpa using hbusy)
  have hfinished : (old.map SequenceState.decode ++ new).filter SequenceState.isFinished =
      (old.map SequenceState.decode).filter SequenceState.isFinished := by
    rw [List.filter_append, hnone, List.append_nil]
  have hold : (b.running.values.filter fun seq =>
      seq.requestId ∉ new.map SequenceState.requestId) = old := by
    rw [hrunning, List.filter_append,
      List.filter_eq_self.mpr fun seq hseq => decide_eq_true (hapart seq hseq),
      List.filter_eq_nil_iff.mpr fun seq hseq => by
        rw [decide_eq_true_eq, not_not]
        exact List.mem_map_of_mem hseq,
      List.append_nil]
  refine ⟨((b.decodeAll (new.map SequenceState.requestId)).finishAll).running, ?_, ?_⟩
  · have hall : new.filter (fun seq => !seq.isFinished) = new :=
      List.filter_eq_self.mpr fun seq hseq => by
        rw [hbusy seq hseq]
        rfl
    have hstay := congrArg (List.filter fun seq => !seq.isFinished) hdecoded
    rw [List.filter_append, hall, Dict.values, List.filter_map] at hstay
    exact hstay
  · have hevents : old.map (fun seq => SimulationEngine.decodeEvent b.now
        (seq.advance (new.map SequenceState.requestId))) =
          (old.map SequenceState.decode).map (SimulationEngine.decodeEvent b.now) := by
      rw [List.map_map]
      refine List.map_congr_left fun seq hseq => ?_
      rw [SequenceState.advance, if_neg (hapart seq hseq)]
      rfl
    unfold SimulationEngine.finishAll SimulationEngine.decodeAll
    dsimp only
    rw [hdecoded, hfinished, hold, hevents]
    rfl

/-- A tick of the engine is a tick of the line, and logs what that logs, after arrivals. -/
theorem Shows.tick (lim : Limits) (h : Shows b l) (horderly : Orderly b) (hpunctual : Punctual b)
    (htick : 0 ≤ b.decodeTick) :
    Shows (b.tick lim) (l.tick lim) ∧ Punctual (b.tick lim) ∧
      ∃ arrivals : List Event, (∀ event ∈ arrivals, event.eventType = .ARRIVED) ∧
        (b.tick lim).eventLog = b.eventLog ++ (arrivals ++ l.events lim) := by
  obtain ⟨hids, hpunctual', arrivals, arrivedIds, harrivals, hmoved⟩ :=
    h.admission lim horderly hpunctual htick
  rw [SimulationEngine.tick, hids]
  generalize (b.admission lim).2.2 = b' at hpunctual' hmoved
  have hbusy : ∀ seq ∈ (l.served lim).admitted, seq.isFinished = false := fun seq hseq => by
    obtain ⟨x, -, rfl⟩ := serve_admitted seq hseq
    exact started_busy x.1 x.2 _
  obtain ⟨running, hrunning, htick⟩ := decode_finish (b := b')
    (by rw [hmoved.running, ← h.running]) (fun seq hseq => h.apart horderly hseq) hbusy
  have hnow : b'.now = l.now + l.decodeTick := by rw [hmoved.same]
  have hlog : (b.eventLog ++ arrivals) ++ l.events lim = b'.eventLog ++
      (l.running.map SequenceState.decode).map (SimulationEngine.decodeEvent b'.now) ++
        ((l.running.map SequenceState.decode).filter SequenceState.isFinished).map
          (completedEvent b'.now) := by
    rw [hnow, hmoved.same, Line.events, ← List.append_assoc, ← List.append_assoc]
    rfl
  rw [htick]
  refine ⟨?_, hpunctual', arrivals, harrivals, ?_⟩
  · rw [← hlog, hnow]
    exact {
      now := rfl
      decodeTick := by
        show b'.decodeTick = l.decodeTick
        rw [hmoved.same]
        exact h.decodeTick
      queue := hmoved.queue
      specs := fun x hx => by
        show b'.specById.get? _ = _
        rw [hmoved.same]
        exact h.specs x (serve_queue.subset hx)
      running := hrunning
      completed := by
        show b'.completed ++ _ = _
        rw [hmoved.same, h.completed]
        rfl
      cancelled := by
        show b'.cancelled = l.cancelled ++ (l.served lim).cancelled
        rw [hmoved.same, ← h.cancelled]
      history := by
        show (b.eventLog ++ arrivals ++ l.events lim).filter notArrival = l.history ++ l.events lim
        rw [List.filter_append, List.filter_append, h.history,
          List.filter_eq_self.mpr fun event hevent => events_notArrival hevent,
          List.filter_eq_nil_iff.mpr fun event hevent => by
            simp [notArrival, harrivals event hevent],
          List.append_nil] }
  · rw [← List.append_assoc]
    exact hlog.symm

end PassionProjects.MiniPaged
