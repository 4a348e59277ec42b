/-
  PassionProjects.MiniPaged.Scheduler.Admission

  The admission of the scheduler does what `SimulationEngine.admitAll` says, keeps the
  invariant and never raises: the ledger and the manager can always serve what the
  verdict grants.
-/

import PassionProjects.MiniPaged.Scheduler.Sound

namespace PassionProjects.MiniPaged

open Raising Raising.Prog

variable {lim : Limits} {e : SchedulerEngine} {b : SimulationEngine} {id : RequestId} {r : Request}
  {spec : TraceRequestSpec}

-- ============================================================================
-- Requests change their place
-- ============================================================================

theorem Orderly.cancel (h : Orderly b) (lim : Limits) (r : Request) (reason : String) :
    Orderly (b.cancel lim r reason) :=
  ⟨(h.leave r.requestId).waiting, h.running, (h.leave r.requestId).apart⟩

/-- Admission commits the watermark of the request. -/
theorem Limits.committed_start (lim : Limits) (spec : TraceRequestSpec)
    (hnew : b.running.get? r.requestId = none) :
    lim.committed (b.start r spec) = lim.committed b + lim.watermark r := by
  show ((b.running.set r.requestId (r.started spec b.now)).values.map _).sum = _
  rw [Dict.values_set_new hnew, List.map_append, List.sum_append, List.map_singleton,
    List.sum_singleton]
  rfl

-- ============================================================================
-- The parts of `_try_admit`
-- ============================================================================

theorem Sound.blocksNeededFor (h : Sound lim e) (n : Nat) :
    e.own.manager.blocksNeededFor n = .ok ((n ⌈/⌉ lim.blockSize : Nat) : Int) := by
  rw [PagedKVManager.blocksNeededFor, h.backed.blockSize]
  exact blocksNeededFor_eq lim.blockSize_pos n

theorem Sound.cancel (h : Sound lim e) (r : Request) (reason : String) :
    Sound lim { e with toSimulationEngine := e.cancel lim r reason } :=
  ⟨h.orderly.cancel lim r reason, h.backed, h.tokenBudget, h.fits⟩

theorem Sound.record (h : Sound lim e) (t : ℚ) (id : RequestId) (eventType : EventType)
    (detail : List (String × Detail)) :
    Sound lim { e with toSimulationEngine := e.record t id eventType detail } :=
  ⟨h.orderly.record t id eventType detail, h.backed, h.tokenBudget, h.fits⟩

/-- What ledger and manager hold once a request is admitted. -/
theorem Backed.start {mgr mgr' : PagedKVManager} {ledger : ContiguousMemoryModel}
    (h : Backed lim mgr ledger b.running) (hsame : mgr.SameManager mgr')
    (hholds : mgr'.Holds
      ((b.running.mapVal SequenceState.currentLen).set r.requestId r.promptLen)) :
    Backed lim mgr' (ledger.reserve r.requestId (lim.watermark r)
      (r.promptLen ⌈/⌉ lim.blockSize : Nat)) (b.start r spec).running where
  numBlocks := hsame.1.1.trans h.numBlocks
  blockSize := hsame.2.trans h.blockSize
  capacity := h.capacity
  holds := by
    show mgr'.Holds ((b.running.set _ _).mapVal _)
    rw [Dict.mapVal_set]
    exact hholds
  ledger := by
    show ledger.reservations.set _ _ = (b.running.set _ _).mapVal _
    rw [Dict.mapVal_set, h.ledger]
    rfl

namespace SchedulerEngine

/-- A request that no waiting helps is cancelled. -/
theorem cancelAdmission_spec (h : Sound lim e) (hid : e.waiting.get? id = some r)
    (reason : String) :
    (cancelAdmission r reason (lim.watermark r)).Returns (fun x e' =>
      x.1 = false ∧ x.2.isTerminal = true ∧
        e' = { e with toSimulationEngine := e.cancel lim r reason }) e := by
  obtain ⟨spec, hspec, hasked, hstate⟩ := h.orderly.waiting id r hid
  have hmem : r.requestId ∈ e.waiting.keys := hasked.id ▸ Dict.mem_keys_of_get? hid
  refine wp_bind (wp_read.mpr (wp_bind (Returns.mono (Engine.dropRequest_spec _ hmem hstate)
    fun r' e' ⟨hr', he'⟩ => ?_)))
  subst hr' he'
  refine wp_pure.mpr ⟨rfl, rfl, ?_⟩
  rw [h.backed.numBlocks, h.tokenBudget]
  rfl

/-- `_try_admit` carries out the verdict on the request. -/
theorem tryAdmit_spec (h : Sound lim e) (hid : e.waiting.get? id = some r)
    (hspec : e.specById.get? id = some spec) :
    (tryAdmit r spec).Returns (fun x e' => Sound lim e' ∧ e'.own.decisions = e.own.decisions ∧
      match lim.judge e.own.prefillBudgetRemaining (lim.committed e.toSimulationEngine) r with
      | .grant => x.1 = true ∧ e'.toSimulationEngine = e.start r spec ∧
          e'.own.prefillBudgetRemaining = e.own.prefillBudgetRemaining - r.promptLen
      | .cancel reason => x.1 = false ∧ x.2.isTerminal = true ∧
          e'.toSimulationEngine = e.cancel lim r reason ∧
          e'.own.prefillBudgetRemaining = e.own.prefillBudgetRemaining
      | .wait detail => x.1 = false ∧ x.2.isTerminal = false ∧
          e'.toSimulationEngine = e.record e.now id .ADMISSION_REJECTED detail ∧
          e'.own.prefillBudgetRemaining = e.own.prefillBudgetRemaining) e := by
  obtain ⟨spec', hspec', hasked, hstate⟩ := h.orderly.waiting id r hid
  obtain rfl : spec' = spec := Option.some.inj (hspec'.symm.trans hspec)
  obtain rfl := hasked.id
  have hnew := h.orderly.apart _ r hid
  have hwaits : r.isTerminal = false := by
    rw [Request.isTerminal, hstate]
    rfl
  refine wp_bind (wp_read.mpr (wp_bind (wp_ofExcept (h.blocksNeededFor _) ?_)))
  have hblocks := h.backed.numBlocks
  have hbudget := h.tokenBudget
  by_cases hlarge : lim.numBlocks < lim.watermark r
  · -- the worst case exceeds the pool
    rw [Limits.judge, if_pos hlarge, if_pos (by rw [hblocks]; exact Int.ofNat_lt.mpr hlarge)]
    refine Returns.mono (cancelAdmission_spec h hid _) fun x e' ⟨hx, hterminal, he'⟩ => ?_
    subst he'
    exact ⟨h.cancel r _, rfl, hx, hterminal, rfl, rfl⟩
  by_cases hprompt : lim.tokenBudget < r.promptLen
  · -- the prompt exceeds the budget of a whole step
    rw [Limits.judge, if_neg hlarge, if_pos hprompt,
      if_neg (by rw [hblocks]; exact fun hlt => hlarge (Int.ofNat_lt.mp hlt)),
      if_pos (by rw [hbudget]; exact hprompt)]
    refine Returns.mono (cancelAdmission_spec h hid _) fun x e' ⟨hx, hterminal, he'⟩ => ?_
    subst he'
    exact ⟨h.cancel r _, rfl, hx, hterminal, rfl, rfl⟩
  rw [if_neg (by rw [hblocks]; exact fun hlt => hlarge (Int.ofNat_lt.mp hlt)),
    if_neg (by rw [hbudget]; exact hprompt)]
  by_cases hleft : e.own.prefillBudgetRemaining < r.promptLen
  · rw [Limits.judge, if_neg hlarge, if_neg hprompt, if_pos hleft, if_pos hleft]
    exact wp_bind (wp_modify.mpr (wp_pure.mpr ⟨h.record _ _ _ _, rfl, rfl, hwaits, rfl, rfl⟩))
  rw [if_neg hleft]
  refine wp_bind (wp_ofExcept (h.blocksNeededFor _) (wp_bind (wp_onPart ?_)))
  have hfree : e.own.ledger.freeTokens =
      lim.numBlocks - lim.committed e.toSimulationEngine := by
    rw [ContiguousMemoryModel.freeTokens, h.backed.capacity, h.backed.reserved]
    rfl
  have hnone : e.own.ledger.reservations.get? r.requestId = none := by
    rw [h.backed.ledger, Dict.get?_mapVal, hnew]
    rfl
  refine Returns.mono (ContiguousMemoryModel.tryReserve_spec hnone
    (by rw [h.backed.capacity]; exact Int.ofNat_le.mpr (Nat.not_lt.mp hlarge))
    (Int.ofNat_le.mpr (blocks_mono (Nat.le_add_right _ _) _))) fun ok ledger' hreserve => ?_
  rw [hfree] at hreserve
  rcases hreserve with ⟨rfl, hle, rfl⟩ | ⟨rfl, hlt, rfl⟩
  · -- the ledger has room, so the pool has blocks for the prompt
    have hfits : lim.committed e.toSimulationEngine + lim.watermark r ≤ lim.numBlocks := by
      unfold Limits.watermark
      omega
    have hroom := h.room hfits
    have hunknown : (e.running.mapVal SequenceState.currentLen).get? r.requestId = none := by
      rw [Dict.get?_mapVal, hnew]
      rfl
    have hadmit := PagedKVManager.admitRequest_spec h.backed.holds hunknown
      (by rwa [h.backed.blockSize])
    rw [Limits.judge, if_neg hlarge, if_neg hprompt, if_neg hleft, if_neg (Nat.not_lt.mpr hfits)]
    refine wp_bind (wp_onPart (Returns.mono hadmit fun ok mgr' ⟨hok, hholds, hsame⟩ => ?_))
    refine wp_bind (wp_check hok (wp_bind (wp_modify.mpr (wp_bind ?_))))
    refine Returns.mono (Engine.admitRequest_spec (Dict.mem_keys_of_get? hid) hasked hstate)
      fun _ e' he' => ?_
    subst he'
    refine wp_pure.mpr ⟨⟨h.orderly.start hspec hasked, h.backed.start hsame hholds,
      h.tokenBudget, ?_⟩, rfl, rfl, rfl, rfl⟩
    rw [← lim.committed_start spec' hnew] at hfits
    exact hfits
  · have hover : lim.numBlocks < lim.committed e.toSimulationEngine + lim.watermark r := by
      unfold Limits.watermark
      omega
    rw [Limits.judge, if_neg hlarge, if_neg hprompt, if_neg hleft, if_pos hover]
    refine wp_bind (wp_modify.mpr (wp_pure.mpr ⟨h.record _ _ _ _, rfl, rfl, hwaits, ?_, rfl⟩))
    rw [hfree]
    rfl

-- ============================================================================
-- All of admission
-- ============================================================================

/-- The loop over the waiting requests is `admitAll`. -/
theorem admitEach_spec (ids : List RequestId) (h : Sound lim e) :
    (admitEach ids).Returns (fun admitted e' => Sound lim e' ∧
      e'.own.decisions = e.own.decisions ∧
      (admitted, e'.own.prefillBudgetRemaining, e'.toSimulationEngine) =
        e.admitAll lim ids e.own.prefillBudgetRemaining) e := by
  induction ids generalizing e with
  | nil => exact ⟨h, rfl, rfl⟩
  | cons id ids ih =>
      refine wp_bind (wp_read.mpr ?_)
      unfold SimulationEngine.admitAll
      cases hid : e.waiting.get? id with
      | none => exact ih h
      | some r =>
          obtain ⟨spec, hspec, hasked, hstate⟩ := h.orderly.waiting id r hid
          rw [hspec]
          refine wp_bind (wp_unwrap rfl (wp_bind (Returns.mono (tryAdmit_spec h hid hspec) ?_)))
          rintro ⟨admitted, r'⟩ e' ⟨h', hdecisions, hverdict⟩
          dsimp only at hverdict ⊢
          cases hjudge : lim.judge e.own.prefillBudgetRemaining
            (lim.committed e.toSimulationEngine) r with
          | grant =>
              rw [hjudge] at hverdict
              obtain ⟨rfl, hbase, hbudget⟩ := hverdict
              rw [if_pos rfl]
              refine wp_bind (wp_modify.mpr (wp_bind (Returns.mono (ih ⟨h'.orderly, h'.backed,
                h'.tokenBudget, h'.fits⟩) fun rest e'' ⟨h'', hdecisions', hrest⟩ => ?_)))
              refine wp_pure.mpr ⟨h'', hdecisions'.trans hdecisions, ?_⟩
              rw [hbudget, hbase] at hrest
              rw [← hrest]
          | cancel reason =>
              rw [hjudge] at hverdict
              obtain ⟨rfl, hterminal, hbase, hbudget⟩ := hverdict
              rw [if_neg Bool.false_ne_true, if_pos hterminal]
              refine wp_bind (wp_modify.mpr (Returns.mono (ih ⟨h'.orderly, h'.backed,
                h'.tokenBudget, h'.fits⟩) fun rest e'' ⟨h'', hdecisions', hrest⟩ => ?_))
              rw [hbudget, hbase] at hrest
              exact ⟨h'', hdecisions'.trans hdecisions, hrest⟩
          | wait detail =>
              rw [hjudge] at hverdict
              obtain ⟨rfl, hterminal, hbase, hbudget⟩ := hverdict
              rw [if_neg Bool.false_ne_true, if_neg (by rw [hterminal]; exact Bool.false_ne_true)]
              refine wp_bind (wp_modify.mpr (wp_pure.mpr ⟨⟨h'.orderly, h'.backed, h'.tokenBudget,
                h'.fits⟩, hdecisions, ?_⟩))
              dsimp only
              rw [hbase, hbudget]

/-- `_admit_arrivals` is the admission of the tick, where its budget is untouched. -/
theorem admitArrivals_spec (lim : Limits) (h : Sound lim e)
    (hbudget : e.own.prefillBudgetRemaining = lim.tokenBudget) :
    admitArrivals.Returns (fun admitted e' => Sound lim e' ∧
      e'.own.decisions = e.own.decisions ∧
      (admitted, e'.own.prefillBudgetRemaining, e'.toSimulationEngine) =
        e.recordNewArrivals.admitAll lim e.recordNewArrivals.arrivedWaitingFcfs
          lim.tokenBudget) e := by
  obtain ⟨eventLog, arrivedIds, hsame⟩ := recordNewArrivals_same e.toSimulationEngine
  have h' : Sound lim { e with toSimulationEngine := e.recordNewArrivals } := by
    rw [hsame]
    exact ⟨⟨h.orderly.waiting, h.orderly.running, h.orderly.apart⟩, h.backed, h.tokenBudget, h.fits⟩
  have hspec := admitEach_spec e.recordNewArrivals.arrivedWaitingFcfs h'
  rw [hbudget] at hspec
  exact wp_bind (wp_modify.mpr (wp_bind (wp_read.mpr hspec)))

end SchedulerEngine

end PassionProjects.MiniPaged
