/-
  PassionProjects.MiniPaged.Simulation.Monotone

  When the timestamps of the event log never decrease.  An arrival is logged at the first
  step that sees it, under the time of the request and in the order in which the requests
  were loaded, so the log is monotonic just where the arrivals that one step sees were
  loaded in the order of their times.
-/

import Mathlib.Tactic.Ring
import PassionProjects.MiniPaged.Simulation.Engines

namespace PassionProjects.MiniPaged

open Raising Raising.Prog

/-- The times of the arrivals that step `k + 1` sees first, in the order of the trace. -/
def arrivalsAt (start decodeTick : ℚ) (specs : List TraceRequestSpec) (k : Nat) : List ℚ :=
  (specs.map TraceRequestSpec.arrivalTime).filter fun t =>
    (k = 0 ∨ start + k * decodeTick < t) ∧ t ≤ start + (k + 1) * decodeTick

/-- The arrivals that one step sees first stand in the trace in the order of their times,
    for each of `n` steps. -/
def ArrivalsInOrder (start decodeTick : ℚ) (specs : List TraceRequestSpec) (n : Nat) : Prop :=
  ∀ k < n, (arrivalsAt start decodeTick specs k).Pairwise (· ≤ ·)

instance (start decodeTick : ℚ) (specs : List TraceRequestSpec) (n : Nat) :
    Decidable (ArrivalsInOrder start decodeTick specs n) :=
  inferInstanceAs (Decidable (∀ k < n, _))

-- ============================================================================
-- Monotonic logs
-- ============================================================================

theorem isMonotonic_iff (eventLog : List Event) :
    isMonotonic eventLog = true ↔ (eventLog.map Event.timestamp).Pairwise (· ≤ ·) := by
  rw [← List.isChain_iff_pairwise]
  induction eventLog with
  | nil => exact iff_of_true rfl .nil
  | cons event rest ih =>
      cases rest with
      | nil => exact iff_of_true rfl (.singleton _)
      | cons next rest =>
          rw [List.map_cons, List.map_cons, List.isChain_cons_cons, ← List.map_cons, ← ih]
          simp [isMonotonic]

/-- A log that goes on with arrivals later than all of it, and then with events later than
    those. -/
theorem isMonotonic_append {eventLog arrivals events : List Event} {now : ℚ}
    (hearlier : ∀ a ∈ eventLog, ∀ b ∈ arrivals ++ events, a.timestamp ≤ b.timestamp)
    (harrivals : ∀ a ∈ arrivals, a.timestamp ≤ now) (hevents : ∀ a ∈ events, a.timestamp = now) :
    isMonotonic (eventLog ++ (arrivals ++ events)) = true ↔
      isMonotonic eventLog = true ∧ (arrivals.map Event.timestamp).Pairwise (· ≤ ·) := by
  rw [isMonotonic_iff, isMonotonic_iff, List.map_append, List.map_append, List.pairwise_append,
    List.pairwise_append]
  have hlast : (events.map Event.timestamp).Pairwise (· ≤ ·) := by
    rw [List.pairwise_map]
    refine List.pairwise_of_forall_mem_list fun a ha b hb => ?_
    rw [hevents a ha, hevents b hb]
  have hcross : ∀ a ∈ arrivals.map Event.timestamp, ∀ b ∈ events.map Event.timestamp, a ≤ b := by
    intro x hx y hy
    obtain ⟨a, ha, rfl⟩ := List.mem_map.mp hx
    obtain ⟨b, hb, rfl⟩ := List.mem_map.mp hy
    rw [hevents b hb]
    exact harrivals a ha
  have hfirst : ∀ a ∈ eventLog.map Event.timestamp,
      ∀ b ∈ arrivals.map Event.timestamp ++ events.map Event.timestamp, a ≤ b := by
    intro x hx y hy
    rw [← List.map_append] at hy
    obtain ⟨a, ha, rfl⟩ := List.mem_map.mp hx
    obtain ⟨b, hb, rfl⟩ := List.mem_map.mp hy
    exact hearlier a ha b hb
  exact ⟨fun h => ⟨h.1, h.2.1.1⟩, fun h => ⟨h.1, ⟨h.2, hlast, hcross⟩, hfirst⟩⟩

-- ============================================================================
-- Arrivals
-- ============================================================================

namespace SimulationEngine

/-- The waiting requests that have not been seen to arrive, in the order of the trace. -/
def unseen (e : SimulationEngine) : List (RequestId × Request) :=
  e.waiting.entries.filter fun x => x.1 ∉ e.arrivedIds

/-- The requests of some entries that arrive now. -/
def arriving (e : SimulationEngine) (entries : List (RequestId × Request)) :
    List (RequestId × Request) :=
  entries.filter fun x => x.2.arrivalTime ≤ e.now ∧ x.1 ∉ e.arrivedIds

/-- The event of an arrival. -/
def arrivalEvent (x : RequestId × Request) : Event := ⟨x.2.arrivalTime, x.1, .ARRIVED, []⟩

/-- The engine when some requests have arrived. -/
def arrivals (e : SimulationEngine) (new : List (RequestId × Request)) : SimulationEngine :=
  { e with
    eventLog := e.eventLog ++ new.map arrivalEvent
    arrivedIds := (new.map Prod.fst).reverse ++ e.arrivedIds }

end SimulationEngine

open SimulationEngine

variable {b b' : SimulationEngine}

/-- `_record_new_arrivals` over some entries. -/
theorem recordArrival_foldl (entries : List (RequestId × Request))
    (hnodup : (entries.map Prod.fst).Nodup) (b : SimulationEngine) :
    entries.foldl recordArrival b = b.arrivals (b.arriving entries) := by
  induction entries generalizing b with
  | nil => simp [arriving, arrivals]
  | cons x entries ih =>
      rw [List.map_cons, List.nodup_cons] at hnodup
      rw [List.foldl_cons, ih hnodup.2]
      by_cases hnew : x.2.arrivalTime ≤ b.now ∧ x.1 ∉ b.arrivedIds
      · -- an entry further on is another request
        have hsame : (b.arrive x.1 x.2).arriving entries = b.arriving entries := by
          refine List.filter_congr fun y hy => decide_eq_decide.mpr ?_
          have hne : y.1 ≠ x.1 := fun heq => hnodup.1 (heq ▸ List.mem_map_of_mem hy)
          show _ ∧ y.1 ∉ x.1 :: b.arrivedIds ↔ _
          rw [List.mem_cons, not_or]
          exact and_congr_right fun _ => and_iff_right hne
        have hcons : b.arriving (x :: entries) = x :: b.arriving entries :=
          List.filter_cons_of_pos (decide_eq_true hnew)
        have hone : b.recordArrival x = b.arrive x.1 x.2 := if_pos hnew
        rw [hone, hsame, hcons]
        simp only [arrivals, arrive, record, arrivalEvent, List.map_cons, List.reverse_cons,
          List.append_assoc, List.singleton_append]
      · have hcons : b.arriving (x :: entries) = b.arriving entries :=
          List.filter_cons_of_neg (by simpa using hnew)
        have hone : b.recordArrival x = b := if_neg hnew
        rw [hone, hcons]

theorem recordNewArrivals_eq (b : SimulationEngine) :
    b.recordNewArrivals = b.arrivals (b.arriving b.waiting.entries) :=
  recordArrival_foldl b.waiting.entries b.waiting.nodup b

/-- The arrivals of a step are those not seen before whose time has come. -/
theorem arriving_eq (b : SimulationEngine) :
    b.arriving b.waiting.entries = b.unseen.filter fun x => x.2.arrivalTime ≤ b.now := by
  rw [arriving, unseen, List.filter_filter]
  exact List.filter_congr fun x _ => Bool.decide_and _ _

/-- Who has not been seen yet arrives later. -/
theorem unseen_recordNewArrivals (b : SimulationEngine) :
    b.recordNewArrivals.unseen = b.unseen.filter fun x => b.now < x.2.arrivalTime := by
  rw [recordNewArrivals_eq, unseen, unseen, List.filter_filter]
  refine List.filter_congr fun x hx => ?_
  have hmem : x.1 ∈ (b.arriving b.waiting.entries).map Prod.fst ↔
      x.2.arrivalTime ≤ b.now ∧ x.1 ∉ b.arrivedIds := by
    constructor
    · intro hid
      obtain ⟨y, hy, hkey⟩ := List.mem_map.mp hid
      obtain ⟨hentry, hnew⟩ := List.mem_filter.mp hy
      obtain rfl := List.inj_on_of_nodup_map b.waiting.nodup hentry hx hkey
      exact of_decide_eq_true hnew
    · exact fun hnew => List.mem_map_of_mem (List.mem_filter.mpr ⟨hx, decide_eq_true hnew⟩)
  rw [← Bool.decide_and]
  refine decide_eq_decide.mpr ?_
  show ¬ x.1 ∈ _ ++ b.arrivedIds ↔ _
  rw [List.mem_append, List.mem_reverse, hmem, ← not_le]
  tauto

/-- An engine that has logged events under its own time since. -/
structure Logged (b x : SimulationEngine) : Prop where
  now : x.now = b.now
  unseen : x.unseen = b.unseen
  log : ∃ events, x.eventLog = b.eventLog ++ events ∧ ∀ event ∈ events, event.timestamp = b.now

variable {x : SimulationEngine} {id : RequestId}

theorem Logged.refl (b : SimulationEngine) : Logged b b :=
  ⟨rfl, rfl, [], (List.append_nil _).symm, fun _ h => absurd h List.not_mem_nil⟩

theorem Logged.record (h : Logged b x) (id : RequestId) (eventType : EventType)
    (detail : List (String × Detail)) : Logged b (x.record x.now id eventType detail) where
  now := h.now
  unseen := h.unseen
  log := by
    obtain ⟨events, hlog, hevents⟩ := h.log
    refine ⟨events ++ [⟨x.now, id, eventType, detail⟩], ?_, fun event hevent => ?_⟩
    · rw [← List.append_assoc, ← hlog]
      rfl
    · rcases List.mem_append.mp hevent with hold | hnew
      · exact hevents event hold
      · rw [List.mem_singleton.mp hnew]
        exact h.now

/-- A request that has been seen leaves `waiting`. -/
theorem Logged.leave (h : Logged b x) (hid : id ∈ x.arrivedIds)
    (running : Dict RequestId SequenceState) (cancelled : List Request) :
    Logged b { x with waiting := x.waiting.erase id, running, cancelled } where
  now := h.now
  unseen := by
    rw [← h.unseen]
    show (List.filter _ x.waiting.entries).filter _ = _
    rw [List.filter_filter]
    refine List.filter_congr fun y _ => ?_
    rw [← Bool.decide_and]
    refine decide_eq_decide.mpr (and_iff_left_of_imp fun hnew heq => hnew ?_)
    exact heq ▸ hid
  log := h.log

/-- A step logs its arrivals, and then events under its own time; who has not been seen
    stays so. -/
theorem Ticked.logged (h : Ticked b b') (horderly : Orderly b) : Logged b.awake b' := by
  refine h.invariant horderly (.refl _) ?_ ?_ ?_ ?_
  · intro x x₁ id r spec ok horderly hx harrived hw hs hanswer
    have hid : r.requestId ∈ x.arrivedIds := (horderly.asked hw hs).1.id.symm ▸ harrived
    cases hanswer with
    | granted => exact ((hx.leave hid _ _).record _ _ _).record _ _ _
    | refused detail => exact hx.record _ _ _
    | dropped detail => exact ((hx.leave hid _ _).record _ _ _).record _ _ _
  · exact fun x id seq _ hx _ _ => hx.record _ _ _
  · intro x id seq _ hx _ _
    have hset : Logged b.awake { x with running := x.running.set id seq.decode } :=
      ⟨hx.now, hx.unseen, hx.log⟩
    exact hset.record _ _ _
  · intro x id seq _ hx _ _
    have hset : Logged b.awake { x with
        running := x.running.erase id
        completed := x.completed ++ [seq.complete x.now] } := ⟨hx.now, hx.unseen, hx.log⟩
    exact hset.record _ _ _

-- ============================================================================
-- Whole runs
-- ============================================================================

/-- The arrival times of the requests not seen yet. -/
def SimulationEngine.dueTimes (e : SimulationEngine) : List ℚ :=
  e.unseen.map fun x => x.2.arrivalTime

/-- The engine of a run after `k` steps, as far as times are concerned. -/
structure Timed (start decodeTick : ℚ) (specs : List TraceRequestSpec) (k : Nat)
    (b : SimulationEngine) : Prop where
  now : b.now = start + k * decodeTick
  tick : b.decodeTick = decodeTick
  due : b.dueTimes =
    (specs.map TraceRequestSpec.arrivalTime).filter fun t => k = 0 ∨ start + k * decodeTick < t
  log : (k = 0 ∧ b.eventLog = []) ∨ 0 < k ∧ ∀ event ∈ b.eventLog, event.timestamp ≤ b.now
  monotonic : isMonotonic b.eventLog = true ↔ ArrivalsInOrder start decodeTick specs k

variable {start decodeTick : ℚ} {specs : List TraceRequestSpec}

theorem queuedFrom_times (n : Nat) (specs : List TraceRequestSpec) :
    (queuedFrom n specs).map (fun x => x.1.arrivalTime) =
      specs.map TraceRequestSpec.arrivalTime := by
  induction specs generalizing n with
  | nil => rfl
  | cons spec specs ih => exact congrArg (spec.arrivalTime :: ·) (ih (n + 1))

/-- A loaded trace before the first step. -/
theorem LoadedWith.timed (h : LoadedWith start decodeTick specs b) :
    Timed start decodeTick specs 0 b := by
  have hwaiting := h.waiting
  obtain ⟨_, _, waiting, rfl⟩ := h.same
  refine ⟨by simp, rfl, ?_, Or.inl ⟨rfl, rfl⟩, ?_⟩
  · have hall : (fun x : RequestId × Request => decide (x.1 ∉ ([] : List RequestId))) =
        fun _ => true := funext fun x => decide_eq_true List.not_mem_nil
    have hwaiting : waiting.entries = (queuedFrom 1 specs).map fun x => (x.1.requestId, x.1) :=
      hwaiting
    show (waiting.entries.filter fun x => decide (x.1 ∉ [])).map _ = _
    rw [hall, List.filter_true, hwaiting, List.map_map, ← queuedFrom_times 1]
    simp
  · exact iff_of_true rfl fun j hj => absurd hj (Nat.not_lt_zero j)

/-- The arrival times that a step finds due. -/
theorem Timed.arriving {k : Nat} (h : Timed start decodeTick specs k b) :
    (({ b with now := b.now + b.decodeTick }.arriving b.waiting.entries).map
      arrivalEvent).map Event.timestamp = arrivalsAt start decodeTick specs k := by
  have hnow : b.now + b.decodeTick = start + (k + 1) * decodeTick := by
    rw [h.now, h.tick]
    ring
  have hdue := congrArg (List.filter fun t => decide (t ≤ b.now + b.decodeTick)) h.due
  rw [dueTimes, List.filter_map, List.filter_filter] at hdue
  rw [arriving_eq, List.map_map]
  refine Eq.trans hdue (List.filter_congr fun t _ => ?_)
  rw [hnow, ← Bool.decide_and]
  exact decide_eq_decide.mpr and_comm

/-- A step. -/
theorem Timed.tick_next {k : Nat} (h : Timed start decodeTick specs k b) (horderly : Orderly b)
    (hpos : 0 < b.decodeTick) (hticked : Ticked b b') :
    Timed start decodeTick specs (k + 1) b' := by
  obtain ⟨hnow', htick'⟩ := hticked.clock horderly
  obtain ⟨-, hunseen, events, hlog, hevents⟩ := hticked.logged horderly
  have hnow : b.now + b.decodeTick = start + (k + 1 : Nat) * decodeTick := by
    rw [h.now, h.tick]
    push_cast
    ring
  have hawake : b.awake = { b with now := b.now + b.decodeTick }.arrivals
      ({ b with now := b.now + b.decodeTick }.arriving b.waiting.entries) :=
    recordNewArrivals_eq _
  have hlater : b.now < b.now + b.decodeTick := lt_add_of_pos_right _ hpos
  rw [hawake] at hlog hevents
  have hlog : b'.eventLog = b.eventLog ++ (({ b with now := b.now + b.decodeTick }.arriving
      b.waiting.entries).map arrivalEvent ++ events) := hlog.trans (List.append_assoc _ _ _)
  have htimes := h.arriving
  generalize ({ b with now := b.now + b.decodeTick }.arriving b.waiting.entries).map
    arrivalEvent = new at hlog htimes
  have hnew : ∀ event ∈ new, (k = 0 ∨ b.now < event.timestamp) ∧
      event.timestamp ≤ b.now + b.decodeTick := by
    intro event hevent
    have hmem : event.timestamp ∈ arrivalsAt start decodeTick specs k :=
      htimes ▸ List.mem_map_of_mem hevent
    have hvisible := of_decide_eq_true (List.mem_filter.mp hmem).2
    rw [h.now, h.tick]
    refine ⟨hvisible.1, hvisible.2.trans (le_of_eq (by ring))⟩
  refine ⟨hnow'.trans hnow, htick'.trans h.tick, ?_, Or.inr ⟨Nat.succ_pos k, ?_⟩, ?_⟩
  · have hleft : b.awake.unseen =
        b.unseen.filter fun x => b.now + b.decodeTick < x.2.arrivalTime :=
      unseen_recordNewArrivals _
    have hdue := congrArg (List.filter fun t => decide (b.now + b.decodeTick < t)) h.due
    rw [dueTimes, List.filter_map, List.filter_filter] at hdue
    rw [dueTimes, hunseen, hleft]
    refine Eq.trans hdue (List.filter_congr fun t _ => ?_)
    rw [← h.now, ← hnow, ← Bool.decide_and]
    refine decide_eq_decide.mpr ⟨fun ht => Or.inr ht.1, fun ht => ?_⟩
    have ht := ht.resolve_left (Nat.succ_ne_zero k)
    exact ⟨ht, Or.inr (hlater.trans ht)⟩
  · rw [hlog, hnow']
    intro event hevent
    rcases List.mem_append.mp hevent with hold | hevent
    · rcases h.log with ⟨-, hempty⟩ | ⟨-, hpast⟩
      · rw [hempty] at hold
        exact absurd hold List.not_mem_nil
      · exact (hpast event hold).trans hlater.le
    · rcases List.mem_append.mp hevent with hevent | hevent
      · exact (hnew event hevent).2
      · exact le_of_eq (hevents event hevent)
  · have hearlier : ∀ a ∈ b.eventLog, ∀ e ∈ new ++ events, a.timestamp ≤ e.timestamp := by
      intro a ha e he
      rcases h.log with ⟨-, hempty⟩ | ⟨hk, hpast⟩
      · rw [hempty] at ha
        exact absurd ha List.not_mem_nil
      · refine (hpast a ha).trans ?_
        rcases List.mem_append.mp he with he | he
        · exact ((hnew e he).1.resolve_left (Nat.ne_of_gt hk)).le
        · exact hlater.le.trans (le_of_eq (hevents e he).symm)
    rw [hlog, isMonotonic_append hearlier (fun e he => (hnew e he).2) hevents, h.monotonic, htimes]
    constructor
    · intro ⟨hbefore, hlast⟩ j hj
      rcases Nat.lt_succ_iff_lt_or_eq.mp hj with hj | rfl
      · exact hbefore j hj
      · exact hlast
    · intro hall
      exact ⟨fun j hj => hall j (Nat.lt_succ_of_lt hj), hall k (Nat.lt_succ_self k)⟩

/-- The log of every engine class, after any run over any trace, is monotonic just where
    the arrivals that one step sees first stand in the trace in the order of their times. -/
theorem monotonic_iff (c : EngineClass) (start decodeTick : ℚ) (engine : Engine c.Own)
    (hnew : c.new start decodeTick = .ok engine) (specs : List TraceRequestSpec) (n : Nat) :
    (Engine.run c.hooks specs n).Returns (fun _ e =>
      isMonotonic e.eventLog = true ↔ ArrivalsInOrder start decodeTick specs n) engine :=
  Returns.mono (run_invariant hnew specs n (I := Timed start decodeTick specs)
    (fun _ hloaded => hloaded.timed) fun _ _ _ horderly hpos htimed hticked =>
      htimed.tick_next horderly hpos hticked) fun _ _ ⟨_, htimed⟩ => htimed.monotonic

/-- Two requests that both arrive before the first step, the later one loaded first. -/
def lateFirst : List TraceRequestSpec :=
  [.single (9 / 10) (by decide +kernel), .single (3 / 10) (by decide +kernel)]

/-- The log after a run. -/
def EngineClass.logAfter (c : EngineClass) (start decodeTick : ℚ) (specs : List TraceRequestSpec)
    (n : Nat) : Option (List Event) :=
  match c.new start decodeTick with
  | .ok engine =>
      match Engine.run c.hooks specs n engine with
      | (.ok _, e) => some e.eventLog
      | (.error _, _) => none
  | .error _ => none

theorem monotonic_demo :
    ArrivalsInOrder 0 1 lateFirst.reverse 2 ∧
      ∃ engine, (EngineClass.paged 8 4).new 0 1 = .ok engine ∧
        (Engine.run (EngineClass.paged 8 4).hooks lateFirst.reverse 2).Returns
          (fun _ e => isMonotonic e.eventLog = true) engine := by
  have horder : ArrivalsInOrder 0 1 lateFirst.reverse 2 := by decide +kernel
  refine ⟨horder, _, rfl, ?_⟩
  exact Returns.mono (monotonic_iff (.paged 8 4) 0 1 _ rfl lateFirst.reverse 2)
    fun _ _ hiff => hiff.mpr horder

/-- No class keeps its log monotonic where the later arrival was loaded first. -/
theorem monotonic_broken :
    ([.simulation, .contiguous 64, .paged 8 4, .scheduler 8 4 16] : List EngineClass).all (fun c =>
      (c.logAfter 0 1 lateFirst 1).map isMonotonic = some false) = true := by
  decide +kernel

end PassionProjects.MiniPaged
