/-
  PassionProjects.MiniPaged.Scheduler.Runs

  Runs of the scheduler over a trace: a new engine, the trace loaded into it, and any
  number of steps.  None of it raises, and after `n` steps the engine shows the line of
  the trace after `n` ticks.

  What holds of the scheduler after every step of every run: the ledger has reserved the
  watermarks of what runs and they fit, the tables hold the blocks they should and share
  the pool with the free list, no step admits more prompt tokens than its budget, and no
  sequence is ever stalled.
-/

import PassionProjects.MiniPaged.Scheduler.Line

namespace PassionProjects.MiniPaged

open Raising Raising.Prog

/-- Earlier arrival first. -/
def queuedBefore (a b : Queued) : Prop := a.1.arrivalTime ≤ b.1.arrivalTime

instance : DecidableRel queuedBefore := fun a b =>
  inferInstanceAs (Decidable (a.1.arrivalTime ≤ b.1.arrivalTime))

/-- The line of a trace before the first tick. -/
def Line.ofTrace (start decodeTick : ℚ) (specs : List TraceRequestSpec) : Line where
  now := start
  decodeTick := decodeTick
  queue := (queuedFrom 1 specs).insertionSort queuedBefore

/-- The arguments of `SchedulerEngine.__init__`, in the range it accepts. -/
structure Parameters extends Limits where
  start : ℚ
  decodeTick : ℚ
  start_nonneg : 0 ≤ start
  decodeTick_pos : 0 < decodeTick

/-- The scheduler with these parameters. -/
def Parameters.new (p : Parameters) : Except PyError SchedulerEngine :=
  SchedulerEngine.new p.numBlocks p.blockSize p.tokenBudget p.start p.decodeTick

/-- A run: a trace is loaded, and `n` steps are taken. -/
def SchedulerEngine.run (specs : List TraceRequestSpec) (n : Nat) : Py SchedulerEngine Unit := do
  let _ ← Engine.loadTrace specs
  Engine.steps SchedulerEngine.hooks n

variable {lim : Limits} {e : SchedulerEngine} {l : Line} {specs : List TraceRequestSpec} {n : Nat}

-- ============================================================================
-- The engine at the start of a run
-- ============================================================================

/-- The invariant of a run: the engine is sound, nothing that runs is finished, and the
    engine shows a line. -/
structure Mirrors (lim : Limits) (e : SchedulerEngine) (l : Line) : Prop where
  sound : Sound lim e
  busy : Busy e.toSimulationEngine
  punctual : Punctual e.toSimulationEngine
  shows : Shows e.toSimulationEngine l
  decodeTick : 0 < e.decodeTick

/-- A new engine: nothing is loaded, nothing runs, and no block is out. -/
theorem new_spec (p : Parameters) :
    ∃ e, p.new = .ok e ∧ e.toSimulationEngine = { now := p.start, decodeTick := p.decodeTick } ∧
      Backed p.toLimits e.own.manager e.own.ledger ∅ ∧ e.own.tokenBudget = p.tokenBudget := by
  obtain ⟨lim, start, decodeTick, hstart, htick⟩ := p
  have hblocks : (1 : Int) ≤ lim.numBlocks := by exact_mod_cast lim.numBlocks_pos
  have hsize : (1 : Int) ≤ lim.blockSize := by exact_mod_cast lim.blockSize_pos
  obtain ⟨pool, hpool, hpart, hnum, hbs⟩ := BlockPool.partitioned_new hblocks hsize
  have hengine : SimulationEngine.new start decodeTick = .ok { now := start, decodeTick } := by
    rw [SimulationEngine.new, clockStart, if_neg (not_lt.mpr hstart)]
    exact if_neg (not_le.mpr htick)
  have hmanager : PagedKVManager.new lim.numBlocks lim.blockSize =
      .ok { pool, blockSize := lim.blockSize } := by
    rw [PagedKVManager.new, hpool]
    rfl
  have hledger : ContiguousMemoryModel.new lim.numBlocks =
      .ok { capacityTokens := lim.numBlocks } := by
    rw [ContiguousMemoryModel.new, if_neg (by omega)]
  refine ⟨{
    now := start
    decodeTick
    own := {
      manager := { pool, blockSize := lim.blockSize }
      tokenBudget := lim.tokenBudget
      ledger := { capacityTokens := lim.numBlocks }
      prefillBudgetRemaining := lim.tokenBudget } }, ?_, rfl, ?_, rfl⟩
  · rw [Parameters.new, SchedulerEngine.new, hengine, hmanager]
    show (if lim.tokenBudget < 1 then _ else _) = _
    rw [if_neg (not_lt.mpr lim.tokenBudget_pos), hledger]
    rfl
  · exact {
      numBlocks := hnum
      blockSize := rfl
      capacity := rfl
      holds := {
        size := lim.blockSize_pos
        tables := rfl
        used := rfl
        partition := hpart }
      ledger := rfl }

theorem queuedFrom_id_lt {k : Nat} {x : Queued} (hx : x ∈ queuedFrom n specs) (hk : k < n) :
    x.1.requestId ≠ requestIdOf k := by
  obtain ⟨m, hm, heq⟩ := queuedFrom_id hx
  rw [heq]
  intro hid
  have := requestIdOf_injective hid
  omega

/-- The line of a trace, by id. -/
theorem ofTrace_queue (n : Nat) (specs : List TraceRequestSpec) :
    ((queuedFrom n specs).map fun x => (x.1.requestId, x.1)).insertionSort
        SimulationEngine.arrivesBefore =
      ((queuedFrom n specs).insertionSort queuedBefore).map fun x => (x.1.requestId, x.1) :=
  (List.map_insertionSort queuedBefore SimulationEngine.arrivesBefore
    (fun x : Queued => (x.1.requestId, x.1)) _ fun _ _ _ _ => Iff.rfl).symm

/-- A trace loaded into a new engine. -/
theorem load_mirrors (specs : List TraceRequestSpec) {start decodeTick : ℚ} (htick : 0 < decodeTick)
    (hbase : e.toSimulationEngine = { now := start, decodeTick })
    (hbacked : Backed lim e.own.manager e.own.ledger ∅)
    (hbudget : e.own.tokenBudget = lim.tokenBudget) :
    (Engine.loadTrace specs).Returns
      (fun _ e' => Mirrors lim e' (Line.ofTrace start decodeTick specs) ∧
        e'.specById.entries = (queuedFrom 1 specs).map fun x => (x.1.requestId, x.2)) e := by
  refine Returns.mono (loadTrace_loaded specs hbase) fun _ e' ⟨hloaded, hown⟩ => ?_
  have hspec : ∀ x ∈ queuedFrom 1 specs, e'.specById.get? x.1.requestId = some x.2 :=
    fun x hx => hloaded.spec hx
  have hw := hloaded.waiting
  obtain ⟨idCounter, specById, waiting, hsame⟩ := hloaded.same
  refine ⟨⟨⟨hloaded.orderly, ?_, ?_, ?_⟩, ?_, ?_, ?_, ?_⟩, hloaded.specById⟩
  · rw [hsame, hown]
    exact hbacked
  · rw [hown]
    exact hbudget
  · rw [hsame]
    exact Nat.zero_le _
  · rw [hsame]
    exact fun id seq hseq => nomatch hseq
  · rw [hsame]
    exact fun id hid => absurd hid List.not_mem_nil
  · rw [hsame] at hw hspec ⊢
    exact {
      now := rfl
      decodeTick := rfl
      queue := by
        show waiting.entries.insertionSort _ = _
        rw [hw]
        exact ofTrace_queue 1 specs
      specs := fun x hx => hspec x ((List.mem_insertionSort _).mp hx)
      running := rfl
      completed := rfl
      cancelled := rfl
      history := rfl }
  · rw [hsame]
    exact htick

-- ============================================================================
-- Steps
-- ============================================================================

/-- Every engine the constructor returns has parameters in range. -/
theorem parameters_of_new {numBlocks blockSize tokenBudget : Int} {start decodeTick : ℚ}
    (h : SchedulerEngine.new numBlocks blockSize tokenBudget start decodeTick = .ok e) :
    ∃ p : Parameters, p.new = .ok e := by
  have hrange : 0 ≤ start ∧ 0 < decodeTick ∧ 1 ≤ numBlocks ∧ 1 ≤ blockSize ∧ 1 ≤ tokenBudget := by
    unfold SchedulerEngine.new SimulationEngine.new clockStart PagedKVManager.new BlockPool.new at h
    by_cases hstart : start < 0
    · rw [if_pos hstart] at h
      nomatch h
    by_cases htick : decodeTick ≤ 0
    · simp only [if_neg hstart, if_pos htick] at h
      nomatch h
    by_cases hblocks : numBlocks < 1
    · simp only [if_neg hstart, if_neg htick, if_pos hblocks] at h
      nomatch h
    by_cases hsize : blockSize < 1
    · simp only [if_neg hstart, if_neg htick, if_neg hblocks, if_pos hsize] at h
      nomatch h
    by_cases hbudget : tokenBudget < 1
    · simp only [if_neg hstart, if_neg htick, if_neg hblocks, if_neg hsize, if_pos hbudget] at h
      nomatch h
    exact ⟨not_lt.mp hstart, not_le.mp htick, by omega, by omega, by omega⟩
  obtain ⟨hstart, htick, hblocks, hsize, hbudget⟩ := hrange
  refine ⟨⟨⟨numBlocks.toNat, blockSize.toNat, tokenBudget, by omega, by omega, hbudget⟩, start,
    decodeTick, hstart, htick⟩, ?_⟩
  rw [Parameters.new, Int.toNat_of_nonneg (by omega), Int.toNat_of_nonneg (by omega)]
  exact h

namespace SchedulerEngine

/-- A step is a tick of the line, and logs what that logs, after arrivals. -/
theorem step_mirrors (h : Mirrors lim e l) :
    (Engine.step hooks).Returns (fun _ e' => Mirrors lim e' (l.tick lim) ∧
      ∃ arrivals : List Event, (∀ event ∈ arrivals, event.eventType = .ARRIVED) ∧
        e'.eventLog = e.eventLog ++ (arrivals ++ l.events lim)) e := by
  refine Returns.mono (step_spec h.sound h.busy h.decodeTick.le)
    fun _ e' ⟨hsound, hbusy, hbase⟩ => ?_
  obtain ⟨hshows, hpunctual, hlog⟩ :=
    h.shows.tick lim h.sound.orderly h.punctual h.decodeTick.le
  rw [← hbase] at hshows hpunctual hlog
  have htick : e'.decodeTick = e.decodeTick :=
    hshows.decodeTick.trans h.shows.decodeTick.symm
  exact ⟨⟨hsound, hbusy, hpunctual, hshows, htick ▸ h.decodeTick⟩, hlog⟩

/-- Any number of steps raises nothing. -/
theorem steps_mirrors (n : Nat) (h : Mirrors lim e l) :
    (Engine.steps hooks n).Returns (fun _ e' => Mirrors lim e' ((Line.tick lim)^[n] l)) e := by
  induction n generalizing e l with
  | zero => exact h
  | succ n ih =>
      exact wp_bind (Returns.mono (step_mirrors h) fun _ e' ⟨h', _⟩ => ih h')

end SchedulerEngine

/-- What holds of the scheduler between steps. -/
structure Safe (lim : Limits) (e : SchedulerEngine) : Prop where
  reserved : e.own.ledger.reservedTokens = lim.committed e.toSimulationEngine
  fits : lim.committed e.toSimulationEngine ≤ lim.numBlocks
  keys : e.own.manager.tables.keys = e.running.keys
  blocks : ∀ id seq, e.running.get? id = some seq → ∃ table,
    e.own.manager.tables.get? id = some table ∧
      table.numBlocks = seq.currentLen ⌈/⌉ lim.blockSize
  disjoint : ∀ id id' table table', e.own.manager.tables.get? id = some table →
    e.own.manager.tables.get? id' = some table' → id ≠ id' →
      table.blockIds.Disjoint table'.blockIds
  partition : (e.own.manager.out ++ e.own.manager.pool.free).Perm (List.range lim.numBlocks)
  unstalled : ∀ event ∈ e.eventLog, event.eventType ≠ .DECODE_STALLED

/-- The prompt lengths of the requests that some events admit. -/
def SimulationEngine.admittedPrompts (e : SimulationEngine) (events : List Event) :
    List (Option Nat) :=
  (events.filter fun event => event.eventType = .ADMITTED).map
    fun event => (e.specById.get? event.requestId).map TraceRequestSpec.promptLen

/-- A step that appends its events to the log, and admits no more prompt tokens than its
    budget. -/
def WithinBudget (lim : Limits) (e e' : SchedulerEngine) : Prop :=
  ∃ (events : List Event) (prompts : List Nat), e'.eventLog = e.eventLog ++ events ∧
    e.admittedPrompts events = prompts.map some ∧ (prompts.sum : Int) ≤ lim.tokenBudget

variable {lim : Limits} {e : SchedulerEngine} {l : Line}

-- ============================================================================
-- The budget of a tick
-- ============================================================================

section Serve

variable {now : ℚ} {queue : List Queued} {budget : Int} {committed : Nat}

/-- What the verdict to admit a request requires. -/
theorem Limits.judge_grant {r : Request} (h : lim.judge budget committed r = .grant) :
    lim.watermark r ≤ lim.numBlocks ∧ r.promptLen ≤ lim.tokenBudget ∧ r.promptLen ≤ budget ∧
      committed + lim.watermark r ≤ lim.numBlocks := by
  unfold Limits.judge at h
  split at h
  · nomatch h
  split at h
  · nomatch h
  split at h
  · nomatch h
  split at h
  · nomatch h
  exact ⟨by omega, by omega, by omega, by omega⟩

/-- Only admissions are logged as such. -/
theorem serve_admissions :
    (lim.serve now queue budget committed).events.filter
        (fun event => event.eventType = .ADMITTED) =
      (lim.serve now queue budget committed).admitted.map
        fun seq => ⟨now, seq.requestId, .ADMITTED, []⟩ := by
  induction queue generalizing budget committed with
  | nil => rfl
  | cons x queue ih =>
      unfold Limits.serve
      split
      · split
        · rw [List.filter_append, ih]
          rfl
        · rw [List.filter_append, ih]
          rfl
        · rfl
      · rfl

variable (committed) in
/-- The prompts that are admitted stay within the budget. -/
theorem serve_prompts (hbudget : 0 ≤ budget) :
    (((lim.serve now queue budget committed).admitted.map
      fun seq => seq.request.promptLen).sum : Nat) ≤ budget := by
  induction queue generalizing budget committed with
  | nil => exact hbudget
  | cons x queue ih =>
      unfold Limits.serve
      split
      · split
        · next hjudge =>
          obtain ⟨-, -, hle, -⟩ := Limits.judge_grant hjudge
          have hleft : 0 ≤ budget - x.1.promptLen := by omega
          have hrest := ih (committed + lim.watermark x.1) hleft
          rw [List.map_cons, List.sum_cons, Nat.cast_add]
          have hown : (x.1.started x.2 now).request.promptLen = x.1.promptLen := rfl
          omega
        · exact ih committed hbudget
        · exact hbudget
      · exact hbudget

end Serve

/-- Only what is served is logged as admitted in a tick. -/
theorem Line.admissions (lim : Limits) (l : Line) :
    (l.events lim).filter (fun event => event.eventType = .ADMITTED) =
      (l.served lim).admitted.map
        fun seq => ⟨l.now + l.decodeTick, seq.requestId, .ADMITTED, []⟩ := by
  have hdecoded : (l.decoded.map (SimulationEngine.decodeEvent (l.now + l.decodeTick))).filter
      (fun event => event.eventType = .ADMITTED) = [] :=
    List.filter_eq_nil_iff.mpr fun event hevent => by
      obtain ⟨seq, -, rfl⟩ := List.mem_map.mp hevent
      simp [SimulationEngine.decodeEvent]
  have hfinished : (l.finished.map (completedEvent (l.now + l.decodeTick))).filter
      (fun event => event.eventType = .ADMITTED) = [] :=
    List.filter_eq_nil_iff.mpr fun event hevent => by
      obtain ⟨seq, -, rfl⟩ := List.mem_map.mp hevent
      simp [completedEvent]
  rw [Line.events, List.filter_append, List.filter_append, hdecoded, hfinished, List.append_nil,
    List.append_nil]
  exact serve_admissions

/-- Who stands in the line is a waiting request of the trace. -/
theorem Mirrors.asked (h : Mirrors lim e l) {x : Queued} (hx : x ∈ l.queue) :
    e.specById.get? x.1.requestId = some x.2 ∧ Asked x.1.requestId x.2 x.1 := by
  have hspec := h.shows.specs x hx
  have hline : (x.1.requestId, x.1) ∈ e.inLine := h.shows.queue ▸ List.mem_map_of_mem hx
  obtain ⟨spec, hspec', hasked, -⟩ := h.sound.orderly.waiting _ _ (get?_of_inLine hline)
  obtain rfl : spec = x.2 := Option.some.inj (hspec'.symm.trans hspec)
  exact ⟨hspec, hasked⟩

/-- A step stays within the budget of a tick. -/
theorem Mirrors.withinBudget {e' : SchedulerEngine} {arrivals : List Event}
    (h : Mirrors lim e l) (harrivals : ∀ event ∈ arrivals, event.eventType = .ARRIVED)
    (hlog : e'.eventLog = e.eventLog ++ (arrivals ++ l.events lim)) : WithinBudget lim e e' := by
  have hbudget := lim.tokenBudget_pos
  refine ⟨_, (l.served lim).admitted.map fun seq => seq.request.promptLen, hlog, ?_,
    serve_prompts _ (le_trans zero_le_one hbudget)⟩
  have hnone : arrivals.filter (fun event => event.eventType = .ADMITTED) = [] :=
    List.filter_eq_nil_iff.mpr fun event hevent => by simp [harrivals event hevent]
  rw [SimulationEngine.admittedPrompts, List.filter_append, hnone, List.nil_append,
    Line.admissions, List.map_map, List.map_map]
  refine List.map_congr_left fun seq hseq => ?_
  obtain ⟨x, hx, rfl⟩ := serve_admitted seq hseq
  obtain ⟨hspec, hasked⟩ := h.asked hx
  show (e.specById.get? x.1.requestId).map _ = some x.1.promptLen
  rw [hspec, hasked.promptLen]
  rfl

-- ============================================================================
-- After every step
-- ============================================================================

/-- No decode step of the line is stalled. -/
theorem unstalled_tick (h : ∀ event ∈ l.history, event.eventType ≠ .DECODE_STALLED) :
    ∀ event ∈ (l.tick lim).history, event.eventType ≠ .DECODE_STALLED := by
  refine List.forall_mem_append.mpr ⟨h, fun event hevent hstalled => ?_⟩
  rcases Line.mem_events hevent with ⟨htype, -⟩ | ⟨htype, -⟩ <;>
  · rw [hstalled] at htype
    exact absurd htype (by decide)

theorem unstalled_run (n : Nat) (h : ∀ event ∈ l.history, event.eventType ≠ .DECODE_STALLED) :
    ∀ event ∈ ((Line.tick lim)^[n] l).history, event.eventType ≠ .DECODE_STALLED := by
  induction n generalizing l with
  | zero => exact h
  | succ n ih => exact ih (unstalled_tick h)

/-- The invariant of a run says that the scheduler is safe. -/
theorem Mirrors.safe (h : Mirrors lim e l)
    (hline : ∀ event ∈ l.history, event.eventType ≠ .DECODE_STALLED) : Safe lim e where
  reserved := h.sound.backed.reserved
  fits := h.sound.fits
  keys := by
    rw [h.sound.backed.holds.keys, Dict.keys_mapVal]
  blocks id seq hseq := by
    have hlen : (e.running.mapVal SequenceState.currentLen).get? id = some seq.currentLen := by
      rw [Dict.get?_mapVal, hseq]
      rfl
    obtain ⟨table, htable, -, hblocks⟩ := h.sound.backed.holds.table hlen
    rw [h.sound.backed.blockSize] at hblocks
    exact ⟨table, htable, hblocks⟩
  disjoint id id' table table' htable htable' hne := by
    have hout := (List.nodup_append.mp h.sound.backed.holds.partition.nodup).1
    have hothers := ((Dict.values_perm htable).flatMap_right BlockTable.blockIds).nodup_iff.mp hout
    have hmem : table' ∈ (e.own.manager.tables.erase id).values := by
      have hget := Dict.get?_erase_ne (d := e.own.manager.tables) (Ne.symm hne)
      exact List.mem_map_of_mem (Dict.mem_of_get? (hget.trans htable'))
    intro b hb hb'
    exact (List.nodup_append.mp hothers).2.2 b hb b (List.mem_flatMap_of_mem hmem hb') rfl
  partition := by
    have hperm := h.sound.backed.holds.partition.perm
    rwa [h.sound.backed.numBlocks] at hperm
  unstalled event hevent hstalled := by
    have hnot : notArrival event = true := decide_eq_true fun harrived => by
      rw [harrived] at hstalled
      nomatch hstalled
    have hmem : event ∈ e.eventLog.filter notArrival := List.mem_filter.mpr ⟨hevent, hnot⟩
    rw [h.shows.history] at hmem
    exact hline event hmem hstalled

open SchedulerEngine in
/-- The scheduler is safe on every trace: with any parameters in range a run of any number
    of steps raises nothing, and so does one more step, after which everything is as it
    should be. -/
theorem scheduler_safe (p : Parameters) (specs : List TraceRequestSpec) :
    ∃ engine, p.new = .ok engine ∧ ∀ n, (run specs n).Returns
      (fun _ e => (Engine.step hooks).Returns
        (fun _ e' => Safe p.toLimits e' ∧ WithinBudget p.toLimits e e') e) engine := by
  obtain ⟨engine, hnew, hbase, hbacked, hbudget⟩ := new_spec p
  refine ⟨engine, hnew, fun n => ?_⟩
  have hload := load_mirrors specs p.decodeTick_pos hbase hbacked hbudget
  refine wp_bind (Returns.mono hload fun _ e₁ ⟨h₁, _⟩ => ?_)
  refine Returns.mono (steps_mirrors n h₁) fun _ e h => ?_
  refine Returns.mono (step_mirrors h) fun _ e' ⟨h', arrivals, harrivals, hlog⟩ => ?_
  refine ⟨h'.safe ?_, h.withinBudget harrivals hlog⟩
  exact unstalled_tick (unstalled_run n fun event hevent => absurd hevent List.not_mem_nil)

end PassionProjects.MiniPaged
