/-
  PassionProjects.MiniPaged.Scheduler.Fairness

  Strict first come, first served: requests leave the line in the order of arrival, ties
  in load order, and a run over a trace is not affected by requests that arrive later.
  For the second, two runs are compared tick by tick: the later requests stand at the end
  of the line, and run only when no other request is left in it.
-/

import PassionProjects.MiniPaged.Scheduler.Outcome

namespace PassionProjects.MiniPaged

open Raising Raising.Prog

variable {lim : Limits} {e : SchedulerEngine} {l l' : Line}

-- ============================================================================
-- First come, first served
-- ============================================================================

/-- The requests with an event of one of some types, in the order of the events. -/
def loggedIds (types : List EventType) (events : List Event) : List RequestId :=
  (events.filter fun event => event.eventType ∈ types).map Event.requestId

/-- The types of the events with which a request leaves the line. -/
def leaving : List EventType := [.ADMITTED, .CANCELLED]

/-- The ids of a trace, in the order of arrival, ties in load order. -/
def fcfsOrder (specs : List TraceRequestSpec) : List RequestId :=
  ((queuedFrom 1 specs).insertionSort queuedBefore).map fun x => x.1.requestId

/-- The `i`-th request of a trace arrives before the `j`-th, or at the same time and is
    loaded before it. -/
def Precedes (specs : List TraceRequestSpec) (id id' : RequestId) : Prop :=
  ∃ i j a b, specs[i]? = some a ∧ specs[j]? = some b ∧ id = requestIdOf (i + 1) ∧
    id' = requestIdOf (j + 1) ∧
      (a.arrivalTime < b.arrivalTime ∨ a.arrivalTime = b.arrivalTime ∧ i < j)

theorem loggedIds_append (types : List EventType) (events events' : List Event) :
    loggedIds types (events ++ events') = loggedIds types events ++ loggedIds types events' := by
  rw [loggedIds, List.filter_append, List.map_append]
  rfl

theorem loggedIds_nil {types : List EventType} {events : List Event}
    (h : ∀ event ∈ events, event.eventType ∉ types) : loggedIds types events = [] := by
  rw [loggedIds, List.filter_eq_nil_iff.mpr fun event hevent => by simpa using h event hevent]
  rfl

/-- The requests that leave the line, and the line that is left, are the line. -/
theorem serve_leaving {now : ℚ} {queue : List Queued} (budget : Int) (committed : Nat) :
    loggedIds leaving (lim.serve now queue budget committed).events ++
      (lim.serve now queue budget committed).queue.map (fun x => x.1.requestId) =
        queue.map fun x => x.1.requestId := by
  induction queue generalizing budget committed with
  | nil => rfl
  | cons x queue ih =>
      unfold Limits.serve
      split
      · split
        · rw [loggedIds_append, List.append_assoc, ih]
          rfl
        · rw [loggedIds_append, List.append_assoc, ih]
          rfl
        · rfl
      · rfl

theorem Line.leaving_tick (lim : Limits) (l : Line) :
    loggedIds leaving (l.tick lim).history ++ (l.tick lim).queue.map (fun x => x.1.requestId) =
      loggedIds leaving l.history ++ l.queue.map fun x => x.1.requestId := by
  have hdecoded : loggedIds leaving
      (l.decoded.map (SimulationEngine.decodeEvent (l.now + l.decodeTick))) = [] :=
    loggedIds_nil fun event hevent => by
      obtain ⟨seq, -, rfl⟩ := List.mem_map.mp hevent
      simp [SimulationEngine.decodeEvent, leaving]
  have hfinished : loggedIds leaving
      (l.finished.map (completedEvent (l.now + l.decodeTick))) = [] :=
    loggedIds_nil fun event hevent => by
      obtain ⟨seq, -, rfl⟩ := List.mem_map.mp hevent
      simp [completedEvent, leaving]
  show loggedIds leaving (l.history ++ ((l.served lim).events ++ _ ++ _)) ++ _ = _
  rw [loggedIds_append, loggedIds_append, loggedIds_append, hdecoded, hfinished, List.append_nil,
    List.append_nil, List.append_assoc]
  exact congrArg _ (serve_leaving _ _)

/-- The requests that have left the line of a trace, and the line, in order of arrival. -/
theorem leaving_iterate (lim : Limits) (l : Line) (n : Nat) :
    loggedIds leaving ((Line.tick lim)^[n] l).history ++
      ((Line.tick lim)^[n] l).queue.map (fun x => x.1.requestId) =
        loggedIds leaving l.history ++ l.queue.map fun x => x.1.requestId := by
  induction n with
  | zero => rfl
  | succ n ih => rw [Function.iterate_succ_apply', Line.leaving_tick, ih]

/-- The numbers of a trace go up. -/
theorem queuedFrom_pairwise (n : Nat) (specs : List TraceRequestSpec) :
    (queuedFrom n specs).Pairwise fun x y => ∃ i j, i < j ∧
      x.1.requestId = requestIdOf (i + n) ∧ y.1.requestId = requestIdOf (j + n) := by
  induction specs generalizing n with
  | nil => exact List.Pairwise.nil
  | cons spec specs ih =>
      refine List.pairwise_cons.mpr ⟨fun y hy => ?_, (ih (n + 1)).imp ?_⟩
      · obtain ⟨m, hm, heq⟩ := queuedFrom_id hy
        refine ⟨0, m - n, by omega, congrArg requestIdOf (Nat.zero_add n).symm, ?_⟩
        rw [heq, Nat.sub_add_cancel (by omega)]
        rfl
      · rintro x y ⟨i, j, hij, hx, hy⟩
        exact ⟨i + 1, j + 1, by omega, hx.trans (congrArg requestIdOf (by omega)),
          hy.trans (congrArg requestIdOf (by omega))⟩

instance : Std.Total queuedBefore where
  total a b := le_total a.1.arrivalTime b.1.arrivalTime

instance : IsTrans Queued queuedBefore where
  trans _ _ _ hab hbc := Rat.le_trans hab hbc

/-- The order of arrival is the one `Precedes` says. -/
theorem fcfsOrder_pairwise (specs : List TraceRequestSpec) :
    (fcfsOrder specs).Pairwise (Precedes specs) := by
  have hmem : ∀ x ∈ (queuedFrom 1 specs).insertionSort queuedBefore, x ∈ queuedFrom 1 specs :=
    fun x hx => (List.mem_insertionSort _).mp hx
  have hstable := StableSort.pairwise_stable (r := queuedBefore) (queuedFrom_pairwise 1 specs)
  refine List.pairwise_map.mpr (List.Pairwise.imp_of_mem (fun {x y} hx hy hxy => ?_) hstable)
  obtain ⟨hle, htie⟩ := hxy
  have hentry {z : Queued} (hz : z ∈ queuedFrom 1 specs) : ∃ k, specs[k]? = some z.2 ∧
      z.1.requestId = requestIdOf (k + 1) ∧ z.1.arrivalTime = z.2.arrivalTime := by
    obtain ⟨m, hm, heq⟩ := queuedFrom_id hz
    have hid : z.1.requestId = requestIdOf (m - 1 + 1) := by
      rw [heq, Nat.sub_add_cancel hm]
      rfl
    exact ⟨m - 1, queuedFrom_spec hz hid, hid, (fromSpecs_queuedFrom 1 specs z hz).arrivalTime⟩
  obtain ⟨i, hi, hxid, hxtime⟩ := hentry (hmem x hx)
  obtain ⟨j, hj, hyid, hytime⟩ := hentry (hmem y hy)
  refine ⟨i, j, x.2, y.2, hi, hj, hxid, hyid, ?_⟩
  rw [← hxtime, ← hytime]
  rcases lt_or_eq_of_le (show x.1.arrivalTime ≤ y.1.arrivalTime from hle) with hlt | heq
  · exact Or.inl hlt
  · obtain ⟨i', j', hlt, hxid', hyid'⟩ := htie (le_of_eq heq.symm)
    have hi' := requestIdOf_injective (hxid.symm.trans hxid')
    have hj' := requestIdOf_injective (hyid.symm.trans hyid')
    exact Or.inr ⟨heq, by omega⟩

/-- What an engine has logged with some types, where the line logs them. -/
theorem Shows.loggedIds {b : SimulationEngine} (h : Shows b l) {types : List EventType}
    (harrived : .ARRIVED ∉ types) : loggedIds types b.eventLog = loggedIds types l.history := by
  rw [← h.history, MiniPaged.loggedIds, MiniPaged.loggedIds, List.filter_filter]
  refine congrArg _ (List.filter_congr fun event _ => ?_)
  by_cases htype : event.eventType ∈ types
  · have hnot : notArrival event = true := decide_eq_true fun heq => harrived (heq ▸ htype)
    rw [hnot, Bool.and_true]
  · rw [decide_eq_false htype, Bool.false_and]

/-- Who has been admitted has left the line, in the same order. -/
theorem admitted_sublist (events : List Event) :
    (loggedIds [.ADMITTED] events).Sublist (loggedIds leaving events) := by
  refine List.Sublist.map _ ?_
  have hfilter : events.filter (fun event => decide (event.eventType ∈ [EventType.ADMITTED])) =
      (events.filter fun event => decide (event.eventType ∈ leaving)).filter
        fun event => decide (event.eventType ∈ [EventType.ADMITTED]) := by
    rw [List.filter_filter]
    refine List.filter_congr fun event _ => ?_
    by_cases htype : event.eventType ∈ [EventType.ADMITTED]
    · have hleaving : event.eventType ∈ leaving := by
        rw [List.mem_singleton.mp htype]
        exact List.mem_cons_self
      rw [decide_eq_true htype, decide_eq_true hleaving]
      rfl
    · rw [decide_eq_false htype, Bool.false_and]
  rw [hfilter]
  exact List.filter_sublist

-- ============================================================================
-- Later requests do not matter
-- ============================================================================

/-- The line of a run over more requests: `own` tells the requests of the shorter trace,
    and the others wait behind them and run only when none of them is left waiting. -/
structure Unaffected (own : RequestId → Bool) (l l' : Line) : Prop where
  now : l'.now = l.now
  decodeTick : l'.decodeTick = l.decodeTick
  queue : ∃ others, l'.queue = l.queue ++ others ∧ ∀ x ∈ others, own x.1.requestId = false
  queueOwn : ∀ x ∈ l.queue, own x.1.requestId = true
  running : ∃ others, l'.running = l.running ++ others ∧
    (∀ seq ∈ others, own seq.requestId = false) ∧ (others ≠ [] → l.queue = [])
  runningOwn : ∀ seq ∈ l.running, own seq.requestId = true
  completed : l'.completed.filter (fun seq => own seq.requestId) = l.completed
  cancelled : l'.cancelled.filter (fun r => own r.requestId) = l.cancelled
  history : l'.history.filter (fun event => own event.requestId) = l.history

/-- What is served is all of the shorter trace, or all of the others. -/
structure Served.Of (own : RequestId → Bool) (c : Bool) (s : Served) : Prop where
  queue : ∀ x ∈ s.queue, own x.1.requestId = c
  admitted : ∀ seq ∈ s.admitted, own seq.requestId = c
  cancelled : ∀ r ∈ s.cancelled, own r.requestId = c
  events : ∀ event ∈ s.events, own event.requestId = c

/-- What is served of a line, with more behind it. -/
structure Behind (x y z : Served) : Prop where
  admitted : y.admitted = x.admitted ++ z.admitted
  cancelled : y.cancelled = x.cancelled ++ z.cancelled
  events : y.events = x.events ++ z.events
  queue : y.queue = x.queue ++ z.queue
  first : z.admitted ≠ [] → x.queue = []

section Serve

variable {own : RequestId → Bool} {c : Bool} {now : ℚ} {queue others : List Queued}

theorem serve_of (budget : Int) (committed : Nat) (h : ∀ x ∈ queue, own x.1.requestId = c) :
    (lim.serve now queue budget committed).Of own c where
  queue x hx := h x (serve_queue.subset hx)
  admitted seq hseq := by
    obtain ⟨x, hx, rfl⟩ := serve_admitted seq hseq
    exact h x hx
  cancelled r hr := by
    have hmem : r.requestId ∈ queue.map fun x => x.1.requestId :=
      (serve_once budget committed).mem_iff.mp
        (List.mem_append_right _ (List.mem_map_of_mem (f := Request.requestId) hr))
    obtain ⟨x, hx, heq⟩ := List.mem_map.mp hmem
    rw [← heq]
    exact h x hx
  events event hevent := by
    obtain ⟨-, x, hx, heq⟩ := serve_events event hevent
    rw [heq]
    exact h x hx

/-- Requests at the end of the line do not change what is served before them. -/
theorem serve_behind (budget : Int) (committed : Nat)
    (h : ∀ x ∈ others, own x.1.requestId = false) :
    ∃ z : Served, z.Of own false ∧ Behind (lim.serve now queue budget committed)
      (lim.serve now (queue ++ others) budget committed) z := by
  have hunserved : ({ queue := others } : Served).Of own false :=
    ⟨h, fun seq hseq => absurd hseq List.not_mem_nil, fun r hr => absurd hr List.not_mem_nil,
      fun event hevent => absurd hevent List.not_mem_nil⟩
  induction queue generalizing budget committed with
  | nil => exact ⟨_, serve_of budget committed h, rfl, rfl, rfl, rfl, fun _ => rfl⟩
  | cons x queue ih =>
      rw [List.cons_append]
      unfold Limits.serve
      by_cases harrived : x.1.arrivalTime ≤ now
      · rw [if_pos harrived, if_pos harrived]
        cases lim.judge budget committed x.1 with
        | grant =>
            obtain ⟨z, hz, hbehind⟩ := ih (budget - x.1.promptLen) (committed + lim.watermark x.1)
            refine ⟨z, hz, ?_, hbehind.cancelled, ?_, hbehind.queue, hbehind.first⟩
            · exact congrArg _ hbehind.admitted
            · exact (congrArg _ hbehind.events).trans (List.append_assoc _ _ _).symm
        | cancel reason =>
            obtain ⟨z, hz, hbehind⟩ := ih budget committed
            refine ⟨z, hz, hbehind.admitted, ?_, ?_, hbehind.queue, hbehind.first⟩
            · exact congrArg _ hbehind.cancelled
            · exact (congrArg _ hbehind.events).trans (List.append_assoc _ _ _).symm
        | wait detail =>
            exact ⟨_, hunserved, rfl, rfl, rfl, rfl, fun hne => absurd rfl hne⟩
      · rw [if_neg harrived, if_neg harrived]
        exact ⟨_, hunserved, rfl, rfl, rfl, rfl, fun hne => absurd rfl hne⟩

end Serve

variable {own : RequestId → Bool}

/-- What a tick serves of the two lines. -/
theorem Unaffected.served (lim : Limits) (h : Unaffected own l l') :
    ∃ z : Served, z.Of own false ∧ Behind (l.served lim) (l'.served lim) z := by
  obtain ⟨others, hqueue, hothers⟩ := h.queue
  obtain ⟨extra, hrunning, -, hfirst⟩ := h.running
  have hl' : l'.served lim = lim.serve (l.now + l.decodeTick) (l.queue ++ others) lim.tokenBudget
      (l'.committed lim) := by
    rw [Line.served, h.now, h.decodeTick, hqueue]
  by_cases hempty : l.queue = []
  · have hl : l.served lim = {} := by
      rw [Line.served, hempty]
      rfl
    rw [hempty, List.nil_append] at hl'
    rw [hl, hl']
    exact ⟨_, serve_of _ _ hothers, rfl, rfl, rfl, rfl, fun _ => rfl⟩
  · have hnone : extra = [] := by_contra fun hne => hempty (hfirst hne)
    have hcommitted : l'.committed lim = l.committed lim := by
      rw [Line.committed, hrunning, hnone, List.append_nil, Line.committed]
    rw [hl', hcommitted]
    exact serve_behind _ _ hothers

theorem filter_own {α : Type} {xs : List α} {f : α → RequestId} (h : ∀ a ∈ xs, own (f a) = true) :
    xs.filter (fun a => own (f a)) = xs := List.filter_eq_self.mpr h

theorem filter_others {α : Type} {xs : List α} {f : α → RequestId}
    (h : ∀ a ∈ xs, own (f a) = false) : xs.filter (fun a => own (f a)) = [] :=
  List.filter_eq_nil_iff.mpr fun a ha => by rw [h a ha]; exact Bool.false_ne_true

theorem filter_map_own {α : Type} {xs : List SequenceState} (f : SequenceState → α)
    (id : α → RequestId) (hid : ∀ seq, id (f seq) = seq.requestId)
    (h : ∀ seq ∈ xs, own seq.requestId = true) :
    (xs.map f).filter (fun a => own (id a)) = xs.map f :=
  filter_own fun a ha => by
    obtain ⟨seq, hseq, rfl⟩ := List.mem_map.mp ha
    rw [hid]
    exact h seq hseq

theorem filter_map_others {α : Type} {xs : List SequenceState} (f : SequenceState → α)
    (id : α → RequestId) (hid : ∀ seq, id (f seq) = seq.requestId)
    (h : ∀ seq ∈ xs, own seq.requestId = false) :
    (xs.map f).filter (fun a => own (id a)) = [] :=
  filter_others fun a ha => by
    obtain ⟨seq, hseq, rfl⟩ := List.mem_map.mp ha
    rw [hid]
    exact h seq hseq

/-- A tick of the two lines. -/
theorem Unaffected.tick (h : Unaffected own l l') : Unaffected own (l.tick lim) (l'.tick lim) := by
  obtain ⟨z, hz, hbehind⟩ := h.served lim
  obtain ⟨extra, hrunning, hextra, hfirst⟩ := h.running
  have hx : (l.served lim).Of own true := serve_of _ _ h.queueOwn
  have hdecoded : l'.decoded = l.decoded ++ extra.map SequenceState.decode := by
    rw [Line.decoded, hrunning, List.map_append]
    rfl
  have hfinished : l'.finished =
      l.finished ++ (extra.map SequenceState.decode).filter SequenceState.isFinished := by
    rw [Line.finished, hdecoded, List.filter_append]
    rfl
  have hown : ∀ seq ∈ l.decoded, own seq.requestId = true := fun seq hseq => by
    obtain ⟨seq', hseq', rfl⟩ := List.mem_map.mp hseq
    exact h.runningOwn seq' hseq'
  have hnot : ∀ seq ∈ extra.map SequenceState.decode, own seq.requestId = false :=
    fun seq hseq => by
      obtain ⟨seq', hseq', rfl⟩ := List.mem_map.mp hseq
      exact hextra seq' hseq'
  have hfinishedOwn : ∀ seq ∈ l.finished, own seq.requestId = true :=
    fun seq hseq => hown seq (List.mem_filter.mp hseq).1
  have hfinishedNot : ∀ seq ∈ (extra.map SequenceState.decode).filter SequenceState.isFinished,
      own seq.requestId = false := fun seq hseq => hnot seq (List.mem_filter.mp hseq).1
  exact {
    now := by
      show l'.now + l'.decodeTick = l.now + l.decodeTick
      rw [h.now, h.decodeTick]
    decodeTick := h.decodeTick
    queue := ⟨z.queue, hbehind.queue, hz.queue⟩
    queueOwn := hx.queue
    running := by
      refine ⟨(extra.map SequenceState.decode).filter (fun seq => !seq.isFinished) ++ z.admitted,
        ?_, fun seq hseq => ?_, fun hne => ?_⟩
      · show l'.decoded.filter _ ++ (l'.served lim).admitted =
          l.decoded.filter _ ++ (l.served lim).admitted ++ _
        rw [hdecoded, hbehind.admitted, List.filter_append]
        by_cases hnone : extra = []
        · rw [hnone, List.map_nil, List.filter_nil, List.append_nil, List.nil_append,
            List.append_assoc]
        · have hadmitted : (l.served lim).admitted = [] := by
            rw [Line.served, hfirst hnone]
            rfl
          rw [hadmitted, List.nil_append, List.append_nil, List.append_assoc]
      · rcases List.mem_append.mp hseq with hseq | hseq
        · exact hnot seq (List.mem_filter.mp hseq).1
        · exact hz.admitted seq hseq
      · show (l.served lim).queue = []
        by_cases hnone : extra = []
        · rw [hnone] at hne
          exact hbehind.first hne
        · rw [Line.served, hfirst hnone]
          rfl
    runningOwn := fun seq hseq => by
      rcases List.mem_append.mp hseq with hseq | hseq
      · exact hown seq (List.mem_filter.mp hseq).1
      · exact hx.admitted seq hseq
    completed := by
      show (l'.completed ++ l'.finished.map _).filter _ = l.completed ++ l.finished.map _
      rw [hfinished, List.filter_append, List.map_append, List.filter_append, h.completed, h.now,
        h.decodeTick, filter_map_own (SequenceState.complete _) SequenceState.requestId
          (fun _ => rfl) hfinishedOwn,
        filter_map_others (SequenceState.complete _) SequenceState.requestId (fun _ => rfl)
          hfinishedNot, List.append_nil]
    cancelled := by
      show (l'.cancelled ++ (l'.served lim).cancelled).filter _ =
        l.cancelled ++ (l.served lim).cancelled
      rw [hbehind.cancelled, List.filter_append, List.filter_append, h.cancelled,
        filter_own hx.cancelled, filter_others hz.cancelled, List.append_nil]
    history := by
      show (l'.history ++ l'.events lim).filter _ = l.history ++ l.events lim
      rw [Line.events, Line.events, hbehind.events, hfinished, hdecoded, h.now, h.decodeTick]
      simp only [List.map_append, List.filter_append, h.history]
      rw [filter_own hx.events, filter_others hz.events,
        filter_map_own _ Event.requestId (fun _ => rfl) hown,
        filter_map_others _ Event.requestId (fun _ => rfl) hnot,
        filter_map_own _ Event.requestId (fun _ => rfl) hfinishedOwn,
        filter_map_others _ Event.requestId (fun _ => rfl) hfinishedNot]
      simp only [List.append_nil] }

theorem Unaffected.iterate (lim : Limits) (h : Unaffected own l l') (n : Nat) :
    Unaffected own ((Line.tick lim)^[n] l) ((Line.tick lim)^[n] l') := by
  induction n with
  | zero => exact h
  | succ n ih =>
      rw [Function.iterate_succ_apply', Function.iterate_succ_apply']
      exact ih.tick

theorem queuedFrom_append (n : Nat) (specs later : List TraceRequestSpec) :
    queuedFrom n (specs ++ later) = queuedFrom n specs ++ queuedFrom (n + specs.length) later := by
  induction specs generalizing n with
  | nil => rfl
  | cons spec specs ih =>
      rw [List.cons_append, queuedFrom, ih, queuedFrom, List.length_cons, Nat.add_comm specs.length,
        ← Nat.add_assoc]
      rfl

/-- The requests of a trace. -/
def inTrace (specs : List TraceRequestSpec) (id : RequestId) : Bool :=
  id ∈ (List.range specs.length).map fun n => requestIdOf (n + 1)

theorem inTrace_eq_true {specs : List TraceRequestSpec} {x : Queued} (hx : x ∈ queuedFrom 1 specs) :
    inTrace specs x.1.requestId = true := by
  refine decide_eq_true ?_
  rw [← queuedFrom_ids]
  exact List.mem_map_of_mem hx

theorem inTrace_eq_false {specs later : List TraceRequestSpec} {x : Queued}
    (hx : x ∈ queuedFrom (1 + specs.length) later) : inTrace specs x.1.requestId = false := by
  refine decide_eq_false fun hmem => ?_
  obtain ⟨n, hn, heq⟩ := List.mem_map.mp hmem
  rw [List.mem_range] at hn
  exact queuedFrom_id_lt hx (by omega) heq.symm

theorem queuedFrom_mem {n : Nat} {specs : List TraceRequestSpec} {x : Queued}
    (hx : x ∈ queuedFrom n specs) : x.2 ∈ specs := by
  induction specs generalizing n with
  | nil => exact absurd hx List.not_mem_nil
  | cons spec specs ih =>
      rcases List.mem_cons.mp hx with rfl | hx
      · exact List.mem_cons_self
      · exact List.mem_cons_of_mem spec (ih hx)

/-- A trace, and the trace followed by requests that arrive no earlier. -/
theorem unaffected_ofTrace (start decodeTick : ℚ) {specs later : List TraceRequestSpec}
    (hlater : ∀ a ∈ specs, ∀ b ∈ later, a.arrivalTime ≤ b.arrivalTime) :
    Unaffected (inTrace specs) (Line.ofTrace start decodeTick specs)
      (Line.ofTrace start decodeTick (specs ++ later)) where
  now := rfl
  decodeTick := rfl
  queue := by
    refine ⟨(queuedFrom (1 + specs.length) later).insertionSort queuedBefore, ?_,
      fun x hx => inTrace_eq_false ((List.mem_insertionSort _).mp hx)⟩
    show (queuedFrom 1 (specs ++ later)).insertionSort queuedBefore = _
    rw [queuedFrom_append]
    refine StableSort.insertionSort_append fun x hx y hy => ?_
    show x.1.arrivalTime ≤ y.1.arrivalTime
    rw [(fromSpecs_queuedFrom _ _ x hx).arrivalTime, (fromSpecs_queuedFrom _ _ y hy).arrivalTime]
    exact hlater x.2 (queuedFrom_mem hx) y.2 (queuedFrom_mem hy)
  queueOwn x hx := inTrace_eq_true ((List.mem_insertionSort _).mp hx)
  running := ⟨[], rfl, fun seq hseq => absurd hseq List.not_mem_nil, fun hne => absurd rfl hne⟩
  runningOwn seq hseq := absurd hseq List.not_mem_nil
  completed := rfl
  cancelled := rfl
  history := rfl

/-- Two engines that have logged the same events, but for arrivals, of the requests of a
    trace, and completed and cancelled the same ones of them. -/
structure SameFor (specs : List TraceRequestSpec) (e e' : SimulationEngine) : Prop where
  events : e'.eventLog.filter (fun event => inTrace specs event.requestId && notArrival event) =
    e.eventLog.filter notArrival
  completed : e'.completed.filter (fun seq => inTrace specs seq.requestId) = e.completed
  cancelled : e'.cancelled.filter (fun r => inTrace specs r.requestId) = e.cancelled

open SchedulerEngine in
/-- Strict first come, first served, and freedom from later arrivals: requests are admitted
    in the order of arrival, ties in load order, nobody leaves the line before the requests
    ahead, and a run over the trace and more requests that arrive no earlier logs the same
    events for the requests of the trace. -/
theorem strict_fcfs (p : Parameters) (specs later : List TraceRequestSpec)
    (hlater : ∀ a ∈ specs, ∀ b ∈ later, a.arrivalTime ≤ b.arrivalTime) :
    ∃ engine, p.new = .ok engine ∧ ∀ n, (run specs n).Returns (fun _ e =>
      (loggedIds [.ADMITTED] e.eventLog).Pairwise (Precedes specs) ∧
        loggedIds leaving e.eventLog <+: fcfsOrder specs ∧
        (run (specs ++ later) n).Returns (fun _ e' =>
          SameFor specs e.toSimulationEngine e'.toSimulationEngine) engine) engine := by
  obtain ⟨engine, hnew, hbase, hbacked, hbudget⟩ := new_spec p
  refine ⟨engine, hnew, fun n => ?_⟩
  have hrun (specs : List TraceRequestSpec) : (run specs n).Returns (fun _ e =>
      Mirrors p.toLimits e ((Line.tick p.toLimits)^[n]
        (Line.ofTrace p.start p.decodeTick specs))) engine := by
    have hload := load_mirrors specs p.decodeTick_pos hbase hbacked hbudget
    exact wp_bind (Returns.mono hload fun _ e₁ ⟨h₁, _⟩ => steps_mirrors n h₁)
  refine Returns.mono (hrun specs) fun _ e h => ?_
  have hleft := leaving_iterate p.toLimits (Line.ofTrace p.start p.decodeTick specs) n
  rw [← h.shows.loggedIds (by decide)] at hleft
  have hprefix : loggedIds leaving e.eventLog <+: fcfsOrder specs := ⟨_, hleft⟩
  refine ⟨?_, hprefix, ?_⟩
  · exact ((fcfsOrder_pairwise specs).sublist hprefix.sublist).sublist (admitted_sublist _)
  refine Returns.mono (hrun (specs ++ later)) fun _ e' h' => ?_
  have hsame := (unaffected_ofTrace p.start p.decodeTick hlater).iterate p.toLimits n
  refine ⟨?_, ?_, ?_⟩
  · rw [← List.filter_filter, h'.shows.history, h.shows.history]
    exact hsame.history
  · rw [h'.shows.completed, h.shows.completed]
    exact hsame.completed
  · rw [h'.shows.cancelled, h.shows.cancelled]
    exact hsame.cancelled

/-- A small pool. -/
def smallParameters : Parameters where
  numBlocks := 4
  blockSize := 2
  tokenBudget := 8
  start := 0
  decodeTick := 1
  numBlocks_pos := by decide
  blockSize_pos := by decide
  tokenBudget_pos := by decide
  start_nonneg := le_refl 0
  decodeTick_pos := zero_lt_one

/-- A request for two tokens after a prompt of three. -/
def shortSpec : TraceRequestSpec where
  promptLen := 3
  maxNewTokens := 2
  targetOutputLen := 2
  arrivalTime := 0
  promptLen_pos := by decide
  maxNewTokens_pos := by decide
  targetOutputLen_pos := by decide
  targetOutputLen_le := by decide
  arrivalTime_nonneg := le_refl 0

open SchedulerEngine in
/-- A request is not affected by one that arrives at the same time. -/
theorem strict_fcfs_tie : ∃ engine, smallParameters.new = .ok engine ∧
    (run [shortSpec] 3).Returns (fun _ e => (run ([shortSpec] ++ [shortSpec]) 3).Returns
      (fun _ e' => SameFor [shortSpec] e.toSimulationEngine e'.toSimulationEngine) engine)
        engine := by
  obtain ⟨engine, hnew, h⟩ := strict_fcfs smallParameters [shortSpec] [shortSpec] (by simp)
  exact ⟨engine, hnew, Returns.mono (h 3) fun _ e h => h.2.2⟩

end PassionProjects.MiniPaged
