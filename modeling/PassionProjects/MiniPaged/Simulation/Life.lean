/-
  PassionProjects.MiniPaged.Simulation.Life

  The life of a request, whatever the class of the engine: it is in one collection, that
  of its state, its events follow one grammar, and no step serves it twice.
-/

import PassionProjects.MiniPaged.Simulation.Engines

namespace PassionProjects.MiniPaged

open Raising Raising.Prog

-- ============================================================================
-- What the log tells of a request
-- ============================================================================

/-- The decode steps of a request, each after so many stalls. -/
def decodes (stalls : List Nat) : List EventType :=
  stalls.flatMap fun n => List.replicate n .DECODE_STALLED ++ [.DECODE_STEP]

/-- A request arrives and is turned away so many times. -/
def queuing (rejections : Nat) : List EventType :=
  .ARRIVED :: List.replicate rejections .ADMISSION_REJECTED

/-- The whole story of a request that is cancelled. -/
def cancelledStory (rejections : Nat) : List EventType := queuing (rejections + 1) ++ [.CANCELLED]

/-- The story of a request that is admitted, as far as the decode steps. -/
def decodingStory (rejections : Nat) (stalls : List Nat) : List EventType :=
  queuing rejections ++ [.ADMITTED, .PREFILL_DONE] ++ decodes stalls

/-- The whole story of a request that completes. -/
def completedStory (rejections : Nat) (stalls : List Nat) : List EventType :=
  decodingStory rejections stalls ++ [.COMPLETED]

/-- The stories that the life of a request with so many tokens to decode may tell. -/
inductive WholeStory (target : Nat) : List EventType → Prop where
  | cancelled (rejections : Nat) : WholeStory target (cancelledStory rejections)
  | completed (rejections : Nat) (stalls : List Nat) :
      stalls.length = target → WholeStory target (completedStory rejections stalls)

namespace SimulationEngine

/-- The types of the events of a request, in the order of the log. -/
def story (e : SimulationEngine) (id : RequestId) : List EventType :=
  (e.eventLog.filter fun event => event.requestId = id).map Event.eventType

/-- The collections that hold a request, each by the state it is for, with the state of the
    request there. -/
def whereabouts (e : SimulationEngine) (id : RequestId) : List (RequestState × RequestState) :=
  (e.waiting.get? id).toList.map (fun r => (.WAITING, r.state)) ++
    (e.running.get? id).toList.map (fun seq => (.RUNNING, seq.request.state)) ++
    (e.completed.filter fun seq => seq.requestId = id).map (fun seq =>
      (.COMPLETED, seq.request.state)) ++
    (e.cancelled.filter fun r => r.requestId = id).map (fun r => (.CANCELLED, r.state))

end SimulationEngine

/-- The life of a request so far: it is in one collection, that of its state, and its story
    is the beginning of a whole one. -/
structure Lives (e : SimulationEngine) (id : RequestId) (spec : TraceRequestSpec) : Prop where
  place : ∃ state, e.whereabouts id = [(state, state)]
  story : ∃ whole, WholeStory spec.targetOutputLen whole ∧ e.story id <+: whole

-- ============================================================================
-- What an engine knows of one request
-- ============================================================================

/-- The parts of an engine that concern one request. -/
structure View where
  waiting : Option Request
  running : Option SequenceState
  completed : List SequenceState
  cancelled : List Request
  arrived : Bool
  story : List EventType

/-- What an engine knows of a request. -/
def SimulationEngine.view (e : SimulationEngine) (id : RequestId) : View where
  waiting := e.waiting.get? id
  running := e.running.get? id
  completed := e.completed.filter fun seq => seq.requestId = id
  cancelled := e.cancelled.filter fun r => r.requestId = id
  arrived := id ∈ e.arrivedIds
  story := e.story id

/-- The views that a request goes through. -/
inductive Proper (spec : TraceRequestSpec) : View → Prop where
  | expected (r : Request) : r.state = .WAITING → Proper spec ⟨some r, none, [], [], false, []⟩
  | waiting (r : Request) (rejections : Nat) : r.state = .WAITING →
      Proper spec ⟨some r, none, [], [], true, queuing rejections⟩
  | running (seq : SequenceState) (rejections : Nat) (stalls : List Nat) (stalled : Nat) :
      seq.request.state = .RUNNING → stalls.length = seq.tokensGenerated →
        seq.tokensGenerated < spec.targetOutputLen ∨
            seq.tokensGenerated = spec.targetOutputLen ∧ stalled = 0 →
          Proper spec ⟨none, some seq, [], [], true,
            decodingStory rejections stalls ++ List.replicate stalled .DECODE_STALLED⟩
  | completed (seq : SequenceState) (rejections : Nat) (stalls : List Nat) :
      seq.request.state = .COMPLETED → stalls.length = spec.targetOutputLen →
        Proper spec ⟨none, none, [seq], [], true, completedStory rejections stalls⟩
  | cancelled (r : Request) (rejections : Nat) : r.state = .CANCELLED →
      Proper spec ⟨none, none, [], [r], true, cancelledStory rejections⟩

namespace View

/-- The collections that hold the request. -/
def places (v : View) : List (RequestState × RequestState) :=
  v.waiting.toList.map (fun r => (.WAITING, r.state)) ++
    v.running.toList.map (fun seq => (.RUNNING, seq.request.state)) ++
    v.completed.map (fun seq => (.COMPLETED, seq.request.state)) ++
    v.cancelled.map (fun r => (.CANCELLED, r.state))

end View

variable {e e' : SimulationEngine} {id : RequestId} {spec : TraceRequestSpec} {v : View}
  {r : Request} {seq : SequenceState}

theorem queuing_prefix (rejections : Nat) (stalls : List Nat) :
    queuing rejections <+: completedStory rejections stalls := by
  rw [completedStory, decodingStory, List.append_assoc, List.append_assoc]
  exact List.prefix_append _ _

/-- More decode steps go on where a story ended. -/
theorem decodingStory_append (rejections : Nat) (stalls more : List Nat) :
    decodingStory rejections (stalls ++ more) = decodingStory rejections stalls ++
      decodes more := by
  rw [decodingStory, decodingStory, decodes, List.flatMap_append, ← List.append_assoc]
  rfl

theorem Proper.lives (h : Proper spec (e.view id)) : Lives e id spec := by
  have hview : (∃ state, (e.view id).places = [(state, state)]) ∧
      ∃ whole, WholeStory spec.targetOutputLen whole ∧ (e.view id).story <+: whole := by
    generalize e.view id = v at h
    cases h with
    | expected r hstate =>
        refine ⟨⟨.WAITING, by simp [View.places, hstate]⟩, _, .cancelled 0, List.nil_prefix⟩
    | waiting r rejections hstate =>
        refine ⟨⟨.WAITING, by simp [View.places, hstate]⟩, _,
          .completed rejections (List.replicate spec.targetOutputLen 0) (List.length_replicate), ?_⟩
        exact queuing_prefix _ _
    | running seq rejections stalls stalled hstate hlength htokens =>
        refine ⟨⟨.RUNNING, by simp [View.places, hstate]⟩, ?_⟩
        rcases htokens with hlt | ⟨heq, rfl⟩
        · -- the stalls so far come before the next decode step
          refine ⟨_, .completed rejections (stalls ++ stalled ::
            List.replicate (spec.targetOutputLen - seq.tokensGenerated - 1) 0) ?_, ?_⟩
          · rw [List.length_append, List.length_cons, List.length_replicate]
            omega
          · rw [completedStory, decodingStory_append, List.append_assoc]
            refine (List.prefix_append_right_inj _).mpr ?_
            rw [decodes, List.flatMap_cons, List.append_assoc, List.append_assoc]
            exact List.prefix_append _ _
        · refine ⟨_, .completed rejections stalls (hlength.trans heq), ?_⟩
          rw [List.replicate_zero, List.append_nil]
          exact List.prefix_append _ _
    | completed seq rejections stalls hstate hlength =>
        exact ⟨⟨.COMPLETED, by simp [View.places, hstate]⟩, _, .completed rejections stalls hlength,
          List.prefix_refl _⟩
    | cancelled r rejections hstate =>
        exact ⟨⟨.CANCELLED, by simp [View.places, hstate]⟩, _, .cancelled rejections,
          List.prefix_refl _⟩
  exact ⟨hview.1, hview.2⟩

-- ============================================================================
-- What each part of a step changes of a view
-- ============================================================================

/-- Every request that was loaded is on its way. -/
def Chronicle (e : SimulationEngine) : Prop :=
  ∀ id spec, e.specById.get? id = some spec → Proper spec (e.view id)

/-- What changes the view of one request only. -/
theorem Chronicle.change (id : RequestId) (h : Chronicle e) (hspecs : e'.specById = e.specById)
    (hothers : ∀ x, x ≠ id → e'.view x = e.view x)
    (hself : ∀ spec, e.specById.get? id = some spec → Proper spec (e.view id) →
      Proper spec (e'.view id)) : Chronicle e' := by
  intro x spec hspec
  rw [hspecs] at hspec
  by_cases heq : x = id
  · subst heq
    exact hself spec hspec (h x spec hspec)
  · rw [hothers x heq]
    exact h x spec hspec

theorem view_record_self (t : ℚ) (eventType : EventType) (detail : List (String × Detail)) :
    (e.record t id eventType detail).view id =
      { e.view id with story := (e.view id).story ++ [eventType] } := by
  have hstory : (e.record t id eventType detail).story id = e.story id ++ [eventType] := by
    simp [SimulationEngine.story, SimulationEngine.record]
  rw [SimulationEngine.view, hstory]
  rfl

theorem view_record_ne {x : RequestId} (hne : x ≠ id) (t : ℚ) (eventType : EventType)
    (detail : List (String × Detail)) : (e.record t id eventType detail).view x = e.view x := by
  have hstory : (e.record t id eventType detail).story x = e.story x := by
    simp [SimulationEngine.story, SimulationEngine.record, hne.symm]
  rw [SimulationEngine.view, hstory]
  rfl

/-- A request that leaves `waiting`. -/
theorem view_leave (e : SimulationEngine) (id x : RequestId)
    (running : Dict RequestId SequenceState) (cancelled : List Request) :
    { e with waiting := e.waiting.erase id, running, cancelled }.view x = { e.view x with
      waiting := if x = id then none else e.waiting.get? x
      running := running.get? x
      cancelled := cancelled.filter fun r => r.requestId = x } := by
  simp [SimulationEngine.view, Dict.get?_erase, SimulationEngine.story]

/-- A sequence that changes or leaves. -/
theorem view_running (e : SimulationEngine) (x : RequestId)
    (running : Dict RequestId SequenceState) (completed : List SequenceState) :
    { e with running, completed }.view x = { e.view x with
      running := running.get? x
      completed := completed.filter fun seq => seq.requestId = x } := rfl

theorem Proper.of_waiting (h : Proper spec v) (hw : v.waiting = some r) :
    r.state = .WAITING ∧ (v = ⟨some r, none, [], [], false, []⟩ ∨
      ∃ rejections, v = ⟨some r, none, [], [], true, queuing rejections⟩) := by
  cases h with
  | expected r' hstate =>
      obtain rfl := Option.some.inj hw
      exact ⟨hstate, Or.inl rfl⟩
  | waiting r' rejections hstate =>
      obtain rfl := Option.some.inj hw
      exact ⟨hstate, Or.inr ⟨rejections, rfl⟩⟩
  | running => cases hw
  | completed => cases hw
  | cancelled => cases hw

theorem Proper.of_running (h : Proper spec v) (hr : v.running = some seq) :
    ∃ rejections stalls stalled, seq.request.state = .RUNNING ∧
      stalls.length = seq.tokensGenerated ∧
      (seq.tokensGenerated < spec.targetOutputLen ∨
        seq.tokensGenerated = spec.targetOutputLen ∧ stalled = 0) ∧
      v = ⟨none, some seq, [], [], true,
        decodingStory rejections stalls ++ List.replicate stalled .DECODE_STALLED⟩ := by
  cases h with
  | running seq' rejections stalls stalled hstate hlength htokens =>
      obtain rfl := Option.some.inj hr
      exact ⟨rejections, stalls, stalled, hstate, hlength, htokens, rfl⟩
  | expected => cases hr
  | waiting => cases hr
  | completed => cases hr
  | cancelled => cases hr

/-- A request is seen to arrive. -/
theorem Chronicle.arrive (h : Chronicle e) (hw : e.waiting.get? id = some r)
    (hnew : id ∉ e.arrivedIds) : Chronicle (e.arrive id r) := by
  refine h.change id rfl (fun x hne => ?_) fun spec _ hproper => ?_
  · rw [SimulationEngine.arrive, view_record_ne hne]
    simp [SimulationEngine.view, SimulationEngine.story, hne]
  · rcases hproper.of_waiting hw with ⟨hstate, hv | ⟨rejections, hv⟩⟩
    · have hview : { e with arrivedIds := id :: e.arrivedIds }.view id =
          { e.view id with arrived := true } := by
        simp [SimulationEngine.view, SimulationEngine.story]
      rw [SimulationEngine.arrive, view_record_self, hview, hv]
      exact .waiting r 0 hstate
    · exact absurd (of_decide_eq_true (congrArg View.arrived hv)) hnew

/-- A request that has arrived is waiting in its queue. -/
theorem Proper.queued (h : Proper spec (e.view id)) (hw : e.waiting.get? id = some r)
    (harrived : id ∈ e.arrivedIds) :
    r.state = .WAITING ∧ ∃ rejections, e.view id =
      ⟨some r, none, [], [], true, queuing rejections⟩ := by
  rcases h.of_waiting hw with ⟨hstate, hv | hv⟩
  · exact absurd harrived (of_decide_eq_false (congrArg View.arrived hv))
  · exact ⟨hstate, hv⟩

theorem queuing_rejected (rejections : Nat) :
    queuing rejections ++ [.ADMISSION_REJECTED] = queuing (rejections + 1) := by
  rw [queuing, queuing, List.cons_append, ← List.replicate_succ']

theorem Orderly.target (h : Orderly e) (hr : e.running.get? id = some seq)
    (hs : e.specById.get? id = some spec) : seq.targetOutputLen = spec.targetOutputLen := by
  obtain ⟨spec', hs', hruns⟩ := h.running id seq hr
  obtain rfl : spec' = spec := Option.some.inj (hs'.symm.trans hs)
  exact hruns.target

/-- The answer to a request that has arrived. -/
theorem Chronicle.answer {ok : Bool} {e₁ : SimulationEngine} (h : Chronicle e)
    (hasked : Asked id spec r) (hw : e.waiting.get? id = some r) (harrived : id ∈ e.arrivedIds)
    (hanswer : Answer e id r spec ok e₁) : Chronicle e₁ := by
  obtain rfl := hasked.id
  cases hanswer with
  | granted =>
      refine h.change r.requestId rfl (fun x hne => ?_) fun spec' _ hproper => ?_
      · rw [SimulationEngine.start, view_record_ne hne, view_record_ne hne, view_leave,
          if_neg hne, Dict.get?_set_ne hne]
        rfl
      · obtain ⟨hstate, rejections, hv⟩ := hproper.queued hw harrived
        rw [SimulationEngine.start, view_record_self, view_record_self, view_leave, if_pos rfl,
          Dict.get?_set_self, hv]
        have hnone : e.cancelled.filter (fun r' => r'.requestId = r.requestId) = [] :=
          congrArg View.cancelled hv
        have hstory : queuing rejections ++ [.ADMITTED] ++ [.PREFILL_DONE] =
            decodingStory rejections [] ++ List.replicate 0 .DECODE_STALLED := by
          simp [decodingStory, decodes]
        dsimp only
        rw [hnone, hstory]
        exact .running _ rejections [] 0 rfl rfl (Or.inl spec'.targetOutputLen_pos)
  | refused detail =>
      refine h.change r.requestId rfl (fun x hne => view_record_ne hne _ _ _)
        fun spec' _ hproper => ?_
      obtain ⟨hstate, rejections, hv⟩ := hproper.queued hw harrived
      rw [SimulationEngine.refuse, view_record_self, hv]
      dsimp only
      rw [queuing_rejected]
      exact .waiting r (rejections + 1) hstate
  | dropped detail =>
      refine h.change r.requestId rfl (fun x hne => ?_) fun spec' _ hproper => ?_
      · rw [SimulationEngine.drop, view_record_ne hne, view_record_ne hne, view_leave, if_neg hne]
        simp [SimulationEngine.view, hne.symm]
      · obtain ⟨hstate, rejections, hv⟩ := hproper.queued hw harrived
        rw [SimulationEngine.drop, view_record_self, view_record_self, view_leave, if_pos rfl, hv]
        have hnone : e.running.get? r.requestId = none := congrArg View.running hv
        have hself : (e.cancelled ++ [{ r with state := .CANCELLED }]).filter
            (fun r' => r'.requestId = r.requestId) = [{ r with state := .CANCELLED }] := by
          have hempty : e.cancelled.filter (fun r' => r'.requestId = r.requestId) = [] :=
            congrArg View.cancelled hv
          rw [List.filter_append, hempty]
          simp
        dsimp only
        rw [hnone, hself, queuing_rejected]
        exact .cancelled _ rejections rfl

/-- A running sequence is stalled. -/
theorem Chronicle.stall (h : Chronicle e) (horderly : Orderly e)
    (hr : e.running.get? id = some seq) (hlt : seq.tokensGenerated < seq.targetOutputLen) :
    Chronicle (e.stall id) := by
  refine h.change id rfl (fun x hne => view_record_ne hne _ _ _) fun spec hs hproper => ?_
  obtain ⟨rejections, stalls, stalled, hstate, hlength, -, hv⟩ := hproper.of_running hr
  rw [SimulationEngine.stall, view_record_self, hv]
  dsimp only
  rw [List.append_assoc, ← List.replicate_succ']
  exact .running seq rejections stalls (stalled + 1) hstate hlength
    (Or.inl (horderly.target hr hs ▸ hlt))

/-- A running sequence decodes. -/
theorem Chronicle.decode (h : Chronicle e) (horderly : Orderly e)
    (hr : e.running.get? id = some seq) (hlt : seq.tokensGenerated < seq.targetOutputLen) :
    Chronicle (e.decode id seq) := by
  refine h.change id rfl (fun x hne => ?_) fun spec hs hproper => ?_
  · rw [SimulationEngine.decode, view_record_ne hne, view_running, Dict.get?_set_ne hne]
    rfl
  · obtain ⟨rejections, stalls, stalled, hstate, hlength, -, hv⟩ := hproper.of_running hr
    rw [SimulationEngine.decode, view_record_self, view_running, Dict.get?_set_self, hv]
    have hnone : e.completed.filter (fun seq => seq.requestId = id) = [] :=
      congrArg View.completed hv
    have hstory : decodingStory rejections stalls ++ List.replicate stalled .DECODE_STALLED ++
        [.DECODE_STEP] = decodingStory rejections (stalls ++ [stalled]) ++
          List.replicate 0 .DECODE_STALLED := by
      rw [decodingStory_append, List.append_assoc]
      simp [decodes]
    dsimp only
    rw [hnone, hstory]
    refine .running seq.decode rejections (stalls ++ [stalled]) 0 hstate ?_ ?_
    · rw [List.length_append, hlength]
      rfl
    · have hle : seq.tokensGenerated + 1 ≤ spec.targetOutputLen := horderly.target hr hs ▸ hlt
      rcases Nat.lt_or_eq_of_le hle with hless | hequal
      · exact Or.inl hless
      · exact Or.inr ⟨hequal, rfl⟩

/-- A finished sequence leaves. -/
theorem Chronicle.finish (h : Chronicle e) (horderly : Orderly e)
    (hr : e.running.get? id = some seq) (hdone : seq.isFinished = true) :
    Chronicle (e.finish id seq) := by
  obtain ⟨spec₀, hs₀, hruns⟩ := horderly.running id seq hr
  have hid : (seq.complete e.now).requestId = id := hruns.asked.id
  refine h.change id rfl (fun x hne => ?_) fun spec hs hproper => ?_
  · rw [SimulationEngine.finish, view_record_ne hne, view_running, Dict.get?_erase_ne hne,
      List.filter_append]
    simp [SimulationEngine.view, hid, hne.symm]
  · obtain ⟨rejections, stalls, stalled, hstate, hlength, htokens, hv⟩ := hproper.of_running hr
    have hle : spec.targetOutputLen ≤ seq.tokensGenerated :=
      horderly.target hr hs ▸ of_decide_eq_true hdone
    obtain ⟨heq, rfl⟩ := htokens.resolve_left (Nat.not_lt.mpr hle)
    rw [SimulationEngine.finish, view_record_self, view_running, Dict.get?_erase, if_pos rfl, hv]
    have hself : (e.completed ++ [seq.complete e.now]).filter (fun seq => seq.requestId = id) =
        [seq.complete e.now] := by
      have hempty : e.completed.filter (fun seq => seq.requestId = id) = [] :=
        congrArg View.completed hv
      rw [List.filter_append, hempty]
      simp [hid]
    dsimp only
    rw [hself, List.replicate_zero, List.append_nil]
    exact .completed _ rejections stalls rfl (hlength.trans heq)

/-- A step takes every request on its way further. -/
theorem Ticked.chronicle (h : Ticked e e') (horderly : Orderly e) (hchronicle : Chronicle e) :
    Chronicle e' := by
  have hlater : Chronicle { e with now := e.now + e.decodeTick } := hchronicle
  have hawake : Chronicle e.awake := recordNewArrivals_invariant hlater
    fun x id r hx _ _ hw _ hnew => hx.arrive hw hnew
  exact h.invariant horderly hawake
    (fun x x₁ id r spec ok hx hI harrived hw hs hanswer =>
      hI.answer (hx.asked hw hs).1 hw harrived hanswer)
    (fun x id seq hx hI hr hlt => hI.stall hx hr hlt)
    (fun x id seq hx hI hr hlt => hI.decode hx hr hlt)
    (fun x id seq hx hI hr hdone => hI.finish hx hr hdone)

/-- A loaded trace has its life before it. -/
theorem LoadedWith.chronicle {start decodeTick : ℚ} {specs : List TraceRequestSpec}
    (h : LoadedWith start decodeTick specs e) : Chronicle e := by
  intro id spec hspec
  have hmem := Dict.mem_of_get? hspec
  rw [h.specById] at hmem
  obtain ⟨x, hx, heq⟩ := List.mem_map.mp hmem
  obtain ⟨rfl, rfl⟩ := Prod.mk.inj heq
  have hw : e.waiting.get? x.1.requestId = some x.1 :=
    Dict.get?_of_mem (by rw [h.waiting]; exact List.mem_map_of_mem hx)
  obtain ⟨_, _, hx'⟩ := queuedFrom_id hx
  have hview : e.view x.1.requestId = ⟨some x.1, none, [], [], false, []⟩ := by
    rw [SimulationEngine.view, hw]
    obtain ⟨_, _, _, hsame⟩ := h.same
    rw [hsame]
    rfl
  rw [hview]
  refine .expected _ ?_
  rw [hx']
  rfl

-- ============================================================================
-- Served once a step
-- ============================================================================

/-- The events that serve a request: it is admitted, decodes or is stalled. -/
def EventType.serves (eventType : EventType) : Bool :=
  eventType = .ADMITTED ∨ eventType = .DECODE_STEP ∨ eventType = .DECODE_STALLED

/-- How often some events serve a request. -/
def timesServed (events : List Event) (id : RequestId) : Nat :=
  events.countP fun event => event.requestId = id ∧ event.eventType.serves = true

theorem timesServed_record (t : ℚ) (eventType : EventType) (detail : List (String × Detail))
    (x : RequestId) : timesServed (e.record t id eventType detail).eventLog x =
      timesServed e.eventLog x + if x = id ∧ eventType.serves = true then 1 else 0 := by
  rw [timesServed, timesServed, SimulationEngine.record, List.countP_append, List.countP_singleton]
  simp only [decide_eq_true_eq, eq_comm (a := x)]

variable {ids admitted skip finished : List RequestId} {ok : Bool} {e₁ : SimulationEngine}

theorem Answer.timesServed (h : Answer e id r spec ok e₁) (hid : r.requestId = id) (x : RequestId) :
    timesServed e₁.eventLog x = timesServed e.eventLog x + if x = id ∧ ok = true then 1 else 0 := by
  subst hid
  cases h with
  | granted =>
      rw [SimulationEngine.start, timesServed_record, timesServed_record]
      simp [EventType.serves]
  | refused detail =>
      rw [SimulationEngine.refuse, timesServed_record]
      simp [EventType.serves]
  | dropped detail =>
      rw [SimulationEngine.drop, timesServed_record, timesServed_record]
      simp [EventType.serves]

/-- Admission serves those it admits. -/
theorem Admission.timesServed (h : Admission e ids admitted e') (horderly : Orderly e)
    (x : RequestId) :
    timesServed e'.eventLog x = timesServed e.eventLog x + admitted.count x := by
  induction h with
  | stop => rw [List.count_nil, Nat.add_zero]
  | skip _ ih => exact ih horderly
  | @ask e e₁ e' id ids admitted r spec ok hw hs hanswer _ ih =>
      rw [ih (hanswer.orderly horderly hw hs), hanswer.timesServed (horderly.asked hw hs).1.id]
      cases ok with
      | true =>
          rw [if_pos rfl, List.count_cons]
          by_cases hx : x = id
          · simp [hx]
            omega
          · simp [hx, Ne.symm hx]
      | false => simp

theorem Admission.sublist (h : Admission e ids admitted e') : admitted.Sublist ids := by
  induction h with
  | stop => exact List.nil_sublist _
  | skip _ ih => exact ih.cons _
  | ask _ _ _ _ ih =>
      split
      · exact ih.cons_cons _
      · exact ih.cons _

/-- The decode pass serves its sequences, but for those it leaves out. -/
theorem Decoding.timesServed (h : Decoding skip e ids finished e') (x : RequestId) :
    timesServed e'.eventLog x =
      timesServed e.eventLog x + (ids.filter fun id => id ∉ skip).count x := by
  have hone {b b' : SimulationEngine} {id : RequestId} {ids : List RequestId} (hskip : id ∉ skip)
      (hb : MiniPaged.timesServed b'.eventLog x =
        MiniPaged.timesServed b.eventLog x + if x = id then 1 else 0) :
      MiniPaged.timesServed b'.eventLog x + (ids.filter fun id => id ∉ skip).count x =
        MiniPaged.timesServed b.eventLog x +
          ((id :: ids).filter fun id => id ∉ skip).count x := by
    rw [hb, List.filter_cons_of_pos (by simpa using hskip), List.count_cons]
    by_cases hx : x = id
    · simp [hx]
      omega
    · simp [hx, Ne.symm hx]
  induction h with
  | done => rfl
  | skip hskip _ ih => rw [ih, List.filter_cons_of_neg (by simpa using hskip)]
  | stall hskip _ _ _ ih =>
      rw [ih]
      refine hone hskip ?_
      rw [SimulationEngine.stall, timesServed_record]
      simp [EventType.serves]
  | decode hskip _ _ _ ih =>
      rw [ih]
      refine hone hskip ?_
      rw [SimulationEngine.decode, timesServed_record]
      simp [EventType.serves]

theorem Finishing.timesServed (h : Finishing e ids e') (x : RequestId) :
    timesServed e'.eventLog x = timesServed e.eventLog x := by
  induction h with
  | done => rfl
  | finish _ _ _ ih =>
      rw [ih, SimulationEngine.finish, timesServed_record]
      simp [EventType.serves]

theorem timesServed_awake (e : SimulationEngine) (x : RequestId) :
    timesServed e.awake.eventLog x = timesServed e.eventLog x := by
  refine recordNewArrivals_invariant (e := { e with now := e.now + e.decodeTick })
    (I := fun b => timesServed b.eventLog x = timesServed e.eventLog x) rfl ?_
  intro b id r hb _ _ _ _ _
  rw [SimulationEngine.arrive, timesServed_record]
  simpa [EventType.serves] using hb

/-- A step serves no request twice. -/
theorem Ticked.timesServed (h : Ticked e e') (horderly : Orderly e) (x : RequestId) :
    timesServed e'.eventLog x ≤ timesServed e.eventLog x + 1 := by
  cases h with
  | @tick e₁ e₂ e₃ admitted finished hadmission hdecoding hfinishing =>
      have hfcfs : e.awake.arrivedWaitingFcfs.Nodup :=
        ((List.perm_insertionSort _ _).map Prod.fst).nodup_iff.mpr
          (e.awake.waiting.nodup.sublist (List.filter_sublist.map _))
      have honce : admitted.count x ≤ 1 :=
        List.nodup_iff_count_le_one.mp (hfcfs.sublist hadmission.sublist) x
      have hdecoded : (e₁.running.keys.filter fun id => id ∉ admitted).count x ≤ 1 :=
        List.nodup_iff_count_le_one.mp (e₁.running.nodup.sublist List.filter_sublist) x
      rw [hfinishing.timesServed, hdecoding.timesServed, hadmission.timesServed horderly.awake,
        timesServed_awake]
      -- who was just admitted is left out of the decode pass
      by_cases hx : x ∈ admitted
      · have hnone : (e₁.running.keys.filter fun id => id ∉ admitted).count x = 0 :=
          List.count_eq_zero.mpr fun hmem => of_decide_eq_true (List.mem_filter.mp hmem).2 hx
        omega
      · have hnone : admitted.count x = 0 := List.count_eq_zero.mpr hx
        omega

-- ============================================================================
-- Nothing that is over changes
-- ============================================================================

/-- What is over stays: the specifications of the trace, the log, and the requests that have
    completed or were cancelled. -/
structure Remembers (e e' : SimulationEngine) : Prop where
  specById : e'.specById = e.specById
  eventLog : e.eventLog <+: e'.eventLog
  completed : e.completed <+: e'.completed
  cancelled : e.cancelled <+: e'.cancelled

theorem Remembers.refl (e : SimulationEngine) : Remembers e e :=
  ⟨rfl, List.prefix_refl _, List.prefix_refl _, List.prefix_refl _⟩

theorem Remembers.trans {e'' : SimulationEngine} (h : Remembers e e') (h' : Remembers e' e'') :
    Remembers e e'' :=
  ⟨h'.specById.trans h.specById, h.eventLog.trans h'.eventLog, h.completed.trans h'.completed,
    h.cancelled.trans h'.cancelled⟩

theorem Remembers.record (h : Remembers e e') (t : ℚ) (id : RequestId) (eventType : EventType)
    (detail : List (String × Detail)) : Remembers e (e'.record t id eventType detail) :=
  ⟨h.specById, h.eventLog.trans (List.prefix_append _ _), h.completed, h.cancelled⟩

theorem Answer.remembers (h : Answer e id r spec ok e₁) : Remembers e e₁ := by
  cases h with
  | granted =>
      have hleave : Remembers e { e with
          waiting := e.waiting.erase r.requestId
          running := e.running.set r.requestId (r.started spec e.now) } :=
        ⟨rfl, List.prefix_refl _, List.prefix_refl _, List.prefix_refl _⟩
      exact (hleave.record _ _ _ _).record _ _ _ _
  | refused detail => exact (Remembers.refl e).record _ _ _ _
  | dropped detail =>
      have hleave : Remembers e { e with
          waiting := e.waiting.erase r.requestId
          cancelled := e.cancelled ++ [{ r with state := .CANCELLED }] } :=
        ⟨rfl, List.prefix_refl _, List.prefix_refl _, List.prefix_append _ _⟩
      exact (hleave.record _ _ _ _).record _ _ _ _

/-- A step changes nothing that is over. -/
theorem Ticked.remembers (h : Ticked e e') (horderly : Orderly e) : Remembers e e' := by
  refine h.invariant horderly ?_ (fun x x₁ id r spec ok _ hx _ _ _ hanswer =>
    hx.trans hanswer.remembers) (fun x id seq _ hx _ _ => hx.record _ _ _ _) ?_ ?_
  · have hlater : Remembers e { e with now := e.now + e.decodeTick } :=
      ⟨rfl, List.prefix_refl _, List.prefix_refl _, List.prefix_refl _⟩
    refine recordNewArrivals_invariant hlater fun x id r hx _ _ _ _ _ => ?_
    have hseen : Remembers e { x with arrivedIds := id :: x.arrivedIds } :=
      ⟨hx.specById, hx.eventLog, hx.completed, hx.cancelled⟩
    exact hseen.record _ _ _ _
  · intro x id seq _ hx _ _
    have hset : Remembers e { x with running := x.running.set id seq.decode } :=
      ⟨hx.specById, hx.eventLog, hx.completed, hx.cancelled⟩
    exact hset.record _ _ _ _
  · intro x id seq _ hx _ _
    have hleave : Remembers e { x with
        running := x.running.erase id
        completed := x.completed ++ [seq.complete x.now] } :=
      ⟨hx.specById, hx.eventLog, hx.completed.trans (List.prefix_append _ _), hx.cancelled⟩
    exact hleave.record _ _ _ _

-- ============================================================================
-- Whole runs
-- ============================================================================

/-- The events that a step adds to the log serve no request twice. -/
def ServesOnce (e e' : SimulationEngine) : Prop :=
  ∃ events, e'.eventLog = e.eventLog ++ events ∧ ∀ id, timesServed events id ≤ 1

theorem Ticked.servesOnce (h : Ticked e e') (horderly : Orderly e) : ServesOnce e e' := by
  obtain ⟨events, hlog⟩ := (h.remembers horderly).eventLog
  refine ⟨events, hlog.symm, fun id => ?_⟩
  have hcount := h.timesServed horderly id
  rw [← hlog, MiniPaged.timesServed, List.countP_append] at hcount
  exact Nat.le_of_add_le_add_left hcount

/-- The requests of a trace are numbered in its order. -/
theorem mem_queuedFrom {specs : List TraceRequestSpec} {i : Nat} (n : Nat)
    (h : specs[i]? = some spec) :
    (spec.request (requestIdOf (n + i)), spec) ∈ queuedFrom n specs := by
  induction specs generalizing n i with
  | nil => simp at h
  | cons first specs ih =>
      cases i with
      | zero =>
          obtain rfl : first = spec := Option.some.inj h
          exact List.mem_cons_self
      | succ i =>
          have hrest := ih (n + 1) h
          rw [Nat.add_assoc, Nat.add_comm 1 i] at hrest
          exact List.mem_cons_of_mem _ hrest

/-- With every engine class and any trace, after any number of steps: every request of the
    trace lives by the protocol; what has completed or was cancelled stays as it is however
    many steps follow; and the next step serves no request twice.  None of it raises. -/
theorem requests_live (c : EngineClass) (start decodeTick : ℚ) (engine : Engine c.Own)
    (hnew : c.new start decodeTick = .ok engine) (specs : List TraceRequestSpec) (n : Nat) :
    (Engine.run c.hooks specs n).Returns (fun _ e =>
      (∀ i spec, specs[i]? = some spec →
        Lives e.toSimulationEngine (requestIdOf (i + 1)) spec) ∧
      (∀ m, (Engine.steps c.hooks m).Returns
        (fun _ e' => e.completed <+: e'.completed ∧ e.cancelled <+: e'.cancelled) e) ∧
      (Engine.step c.hooks).Returns
        (fun _ e' => ServesOnce e.toSimulationEngine e'.toSimulationEngine) e) engine := by
  have hrun := run_invariant hnew specs n (I := fun _ b => Chronicle b ∧
    ∀ x ∈ queuedFrom 1 specs, b.specById.get? x.1.requestId = some x.2)
    (fun b hloaded => ⟨hloaded.chronicle, fun x hx => hloaded.spec hx⟩)
    fun j b b' horderly _ ⟨hchronicle, hspecs⟩ hticked => ⟨hticked.chronicle horderly hchronicle, by
      rw [(hticked.remembers horderly).specById]
      exact hspecs⟩
  refine Returns.mono hrun fun _ e ⟨hready, hchronicle, hspecs⟩ =>
    ⟨fun i spec hi => ?_, fun m => ?_, ?_⟩
  · have hspec := hspecs _ (mem_queuedFrom 1 hi)
    rw [Nat.add_comm 1 i] at hspec
    exact (hchronicle _ _ hspec).lives
  · have hsteps := hready.steps m (k := 0)
      (I := fun _ b => Remembers e.toSimulationEngine b) (.refl _)
      fun j b b' horderly _ hb hticked => hb.trans (hticked.remembers horderly)
    exact Returns.mono hsteps fun _ e' ⟨_, hremembers⟩ =>
      ⟨hremembers.completed, hremembers.cancelled⟩
  · exact Returns.mono hready.step fun _ e' ⟨_, hticked⟩ => hticked.servesOnce hready.orderly

theorem requests_live_demo :
    ∃ engine, (EngineClass.scheduler 4 2 8).new 0 1 = .ok engine ∧
      (Engine.run (EngineClass.scheduler 4 2 8).hooks
        [.single 0 (Rat.le_refl)] 3).Returns (fun _ e =>
        Lives e.toSimulationEngine (requestIdOf 1) (.single 0 (Rat.le_refl)) ∧
        (Engine.step (EngineClass.scheduler 4 2 8).hooks).Returns
          (fun _ e' => ServesOnce e.toSimulationEngine e'.toSimulationEngine) e) engine :=
  ⟨_, rfl, Returns.mono (requests_live (.scheduler 4 2 8) 0 1 _ rfl [.single 0 (Rat.le_refl)] 3)
    fun _ _ h => ⟨h.1 0 _ rfl, h.2.2⟩⟩

end PassionProjects.MiniPaged
