/-
  PassionProjects.MiniPaged.Scheduler.Step

  One step of the scheduler is one `tick`, raises nothing and keeps the invariant; so
  is any number of steps from a loaded trace.  The operations the scheduler overrides keep
  its books in line with what is running, so that its steps are those of any engine.
-/

import PassionProjects.MiniPaged.Scheduler.Decode

namespace PassionProjects.MiniPaged

section Step

open Raising Raising.Prog

variable {lim : Limits} {e : SchedulerEngine} {b : SimulationEngine}

-- ============================================================================
-- No running sequence is finished between steps
-- ============================================================================

theorem Busy.admitAll {ids : List RequestId} {budget : Int} (h : Busy b) :
    Busy (b.admitAll lim ids budget).2.2 := by
  induction ids generalizing b budget with
  | nil => exact h
  | cons id ids ih =>
      unfold SimulationEngine.admitAll
      split
      · split
        · exact ih h.start
        · exact ih h
        · exact h
      · exact ih h

theorem Busy.admission (h : Busy b) : Busy (b.admission lim).2.2 := by
  obtain ⟨eventLog, arrivedIds, hsame⟩ :=
    recordNewArrivals_same { b with now := b.now + b.decodeTick }
  unfold SimulationEngine.admission
  refine Busy.admitAll ?_
  rw [hsame]
  exact h

/-- The sequences that stay are not finished. -/
theorem busy_finishAll (b : SimulationEngine) : Busy b.finishAll := by
  intro id seq hseq
  have hmem := Dict.mem_of_get? hseq
  have hnot : seq.isFinished = false := by
    simpa using (List.mem_filter.mp hmem).2
  exact Nat.not_le.mp (of_decide_eq_false hnot)

-- ============================================================================
-- One step
-- ============================================================================

namespace SchedulerEngine

open Engine

/-- `_end_tick` finds every block in a table reserved. -/
theorem endTick_spec (h : Sound lim e) :
    endTick.Returns
      (fun _ e' => Sound lim e' ∧ e'.toSimulationEngine = e.toSimulationEngine) e := by
  have hgrowth : e.own.ledger.reservedTokens - e.own.manager.pool.numAllocated ≥ 0 := by
    have := h.allocated_le
    omega
  exact wp_bind (wp_read.mpr (wp_bind (wp_check hgrowth
    (wp_modify.mpr ⟨⟨h.orderly, h.backed, h.tokenBudget, h.fits⟩, rfl⟩))))

/-- A step raises nothing and is a tick. -/
theorem step_spec (h : Sound lim e) (hbusy : Busy e.toSimulationEngine)
    (htick : 0 ≤ e.decodeTick) :
    (step hooks).Returns (fun _ e' => Sound lim e' ∧ Busy e'.toSimulationEngine ∧
      e'.toSimulationEngine = e.tick lim) e := by
  refine wp_bind (wp_read.mpr (wp_bind (wp_bind (wp_check htick (wp_modify.mpr ?_)))))
  refine wp_bind (wp_modify.mpr (wp_bind ?_))
  have hadmit : admitArrivals.Returns _ { e with
      now := e.now + e.decodeTick
      own := { e.own with
        prefillBudgetRemaining := e.own.tokenBudget
        tickAdmitted := []
        tickRejected := []
        tickCancelled := [] } } :=
    admitArrivals_spec lim
      ⟨⟨h.orderly.waiting, h.orderly.running, h.orderly.apart⟩, h.backed, h.tokenBudget, h.fits⟩
      h.tokenBudget
  refine Returns.mono hadmit fun admitted e₁ ⟨h₁, _, hadmission⟩ => ?_
  rw [Prod.mk.injEq, Prod.mk.injEq] at hadmission
  obtain ⟨hadmitted, -, hbase₁⟩ := hadmission
  have hbusy₁ : Busy e₁.toSimulationEngine := hbase₁ ▸ hbusy.admission
  refine wp_bind (Returns.mono (decodeStep_spec h₁ hbusy₁) fun _ e₂ ⟨h₂, _, hbase₂⟩ => ?_)
  refine Returns.mono (endTick_spec h₂) fun _ e₃ ⟨h₃, hbase₃⟩ => ?_
  have htick : e₃.toSimulationEngine = e.tick lim := by
    rw [hbase₃, hbase₂, hbase₁, hadmitted]
    rfl
  refine ⟨h₃, ?_, htick⟩
  rw [htick]
  exact busy_finishAll _

end SchedulerEngine

end Step

section Overrides

open Raising Raising.Prog

variable {lim : Limits} {e : SchedulerEngine} {b : SimulationEngine}

/-- Admission until one has to wait is an admission. -/
theorem admitAll_admission (lim : Limits) (h : Orderly b) (ids : List RequestId) (budget : Int) :
    Admission b ids (b.admitAll lim ids budget).1 (b.admitAll lim ids budget).2.2 := by
  induction ids generalizing b budget with
  | nil => exact .stop
  | cons id ids ih =>
      unfold SimulationEngine.admitAll
      split
      · next r spec hw hs =>
        split
        · exact .ask hw hs .granted (ih (h.start hs (h.asked hw hs).1) _)
        · exact .ask hw hs (.dropped _) (ih (h.drop r _) _)
        · exact .ask hw hs (.refused _) .stop
      · exact .skip (ih h _)

namespace SchedulerEngine

open Engine

theorem lawful (lim : Limits) : hooks.Lawful (Booked lim) where
  beginTick _ _ hown := wp_modify.mpr ⟨⟨hown.backed, hown.tokenBudget, hown.fits⟩, rfl⟩
  admitArrivals e horderly hown := by
    have hsame : e.recordNewArrivals.running = e.running := by
      obtain ⟨eventLog, arrivedIds, hsame⟩ := recordNewArrivals_same e.toSimulationEngine
      rw [hsame]
    have hsound : Sound lim { e with toSimulationEngine := e.recordNewArrivals } :=
      sound_iff_kept.mpr ⟨horderly.arrivals, hsame.symm ▸ hown⟩
    refine wp_bind (wp_modify.mpr (wp_bind (wp_read.mpr (Returns.mono
      (admitEach_spec _ hsound) fun admitted e' ⟨hsound', _, hall⟩ => ?_))))
    refine ⟨(sound_iff_kept.mp hsound').own, ?_⟩
    have hadmission := admitAll_admission lim horderly.arrivals
      e.recordNewArrivals.arrivedWaitingFcfs e.own.prefillBudgetRemaining
    rw [← hall] at hadmission
    exact hadmission
  decode e id seq horderly hown hseq hlt := by
    have hsound : Sound lim e := sound_iff_kept.mpr ⟨horderly, hown⟩
    refine Returns.mono (canDecode_spec hsound hseq hlt)
      fun can e₁ ⟨_, he₁⟩ => ⟨he₁ ▸ hown, by rw [he₁], fun _ => ?_⟩
    rw [he₁]
    refine Returns.mono (onDecodeStep_spec hsound hseq hlt) fun _ e₂ ⟨hbacked, he₂⟩ => ?_
    rw [he₂] at hbacked ⊢
    refine ⟨⟨hbacked, hown.tokenBudget, ?_⟩, rfl⟩
    exact (lim.committed_setRunning seq.decode hseq rfl e.eventLog).trans_le hown.fits
  release e id seq spec completed eventLog hruns hown hseq :=
    Returns.mono (onRelease_spec hown hruns hseq)
      fun _ e' ⟨hbooked, he'⟩ => ⟨hbooked, by rw [he']⟩
  endTick e horderly hown :=
    Returns.mono (endTick_spec (sound_iff_kept.mpr ⟨horderly, hown⟩)) fun _ e' ⟨hsound, hbase⟩ =>
      ⟨hbase ▸ (sound_iff_kept.mp hsound).own, hbase⟩

end SchedulerEngine

end Overrides

end PassionProjects.MiniPaged
