/-
  PassionProjects.MiniPaged.Scheduler.Sound

  What one step of the scheduler is for, with no blocks, tables or ledger: every request
  takes room for its worst case out of a fixed number of blocks while it runs, the
  requests that have arrived are admitted in the order of arrival until one has to wait,
  and every request admitted before decodes one token.

  And the invariant of the scheduler: requests are where their state says, the ledger holds
  the watermark of every running sequence and nothing else, the manager holds the blocks
  of its current length, and the watermarks fit into the pool.  Hence growth by one
  token and admission never find the pool empty.
-/

import Mathlib.Algebra.BigOperators.Ring.Finset
import Mathlib.Algebra.Order.BigOperators.Group.List
import PassionProjects.MiniPaged.Kv.Table
import PassionProjects.MiniPaged.Scheduler.Scheduler
import PassionProjects.MiniPaged.Simulation.Moves

namespace PassionProjects.MiniPaged

section Tick

/-- The parameters admission depends on, in their range. -/
structure Limits where
  numBlocks : Nat
  blockSize : Nat
  tokenBudget : Int
  numBlocks_pos : 1 ≤ numBlocks
  blockSize_pos : 1 ≤ blockSize
  tokenBudget_pos : 1 ≤ tokenBudget

namespace Limits

/-- The blocks a request may come to need. -/
def watermark (lim : Limits) (r : Request) : Nat :=
  (r.promptLen + r.maxNewTokens) ⌈/⌉ lim.blockSize

/-- The blocks the running requests may come to need. -/
def committed (lim : Limits) (e : SimulationEngine) : Nat :=
  (e.running.values.map fun seq => lim.watermark seq.request).sum

end Limits

/-- What becomes of a request that asks for admission. -/
inductive Verdict where
  | grant
  | cancel (reason : String)
  | wait (detail : List (String × Detail))

namespace Limits

variable (lim : Limits)

/-- The verdict on a request, with what is left of the budget of the tick and with the
    blocks that are committed. -/
def judge (budget : Int) (committed : Nat) (r : Request) : Verdict :=
  if lim.numBlocks < lim.watermark r then .cancel "exceeds_total_kv_capacity"
  else if lim.tokenBudget < r.promptLen then .cancel "prompt_exceeds_step_token_budget"
  else if budget < r.promptLen then
    .wait [
      ("reason", .text "prefill_budget_exhausted_this_tick"),
      ("requested", .number r.promptLen),
      ("remaining_budget", .number budget)]
  else if lim.numBlocks < committed + lim.watermark r then
    .wait [
      ("reason", .text "insufficient_free_kv_capacity"),
      ("requested_blocks", .number (lim.watermark r)),
      ("free_blocks", .number (lim.numBlocks - committed))]
  else .grant

end Limits

/-- A sequence with one more token, unless it is one of `skip`. -/
def SequenceState.advance (skip : List RequestId) (seq : SequenceState) : SequenceState :=
  if seq.requestId ∈ skip then seq else { seq with tokensGenerated := seq.tokensGenerated + 1 }

namespace SimulationEngine

variable (lim : Limits)

/-- A waiting request is cancelled. -/
def cancel (e : SimulationEngine) (r : Request) (reason : String) : SimulationEngine :=
  e.drop r [
    ("reason", .text reason),
    ("requested_blocks", .number (lim.watermark r)),
    ("total_blocks", .number lim.numBlocks),
    ("prompt_len", .number r.promptLen),
    ("token_budget", .number lim.tokenBudget)]

/-- The requests that ask for admission, one after the other, until one has to wait: the
    ones admitted, what is left of the budget, and the engine after it. -/
def admitAll : List RequestId → Int → SimulationEngine → List RequestId × Int × SimulationEngine
  | [], budget, e => ([], budget, e)
  | id :: ids, budget, e =>
      match e.waiting.get? id, e.specById.get? id with
      | some r, some spec =>
          match lim.judge budget (lim.committed e) r with
          | .grant =>
              let x := admitAll ids (budget - r.promptLen) (e.start r spec)
              (id :: x.1, x.2)
          | .cancel reason => admitAll ids budget (e.cancel lim r reason)
          | .wait detail => ([], budget, e.record e.now id .ADMISSION_REJECTED detail)
      | _, _ => admitAll ids budget e

/-- Every running sequence but those of `skip` decodes one token. -/
def decodeAll (skip : List RequestId) (e : SimulationEngine) : SimulationEngine :=
  { e with
    running := e.running.mapVal (SequenceState.advance skip)
    eventLog := e.eventLog ++ ((e.running.values.filter fun seq => seq.requestId ∉ skip).map
      fun seq => decodeEvent e.now (seq.advance skip)) }

/-- The sequences that are finished leave. -/
def finishAll (e : SimulationEngine) : SimulationEngine :=
  let finished := e.running.values.filter SequenceState.isFinished
  { e with
    running := e.running.filter fun entry => !entry.2.isFinished
    completed := e.completed ++ finished.map (SequenceState.complete e.now)
    eventLog := e.eventLog ++ finished.map fun seq => ⟨e.now, seq.requestId, .COMPLETED, []⟩ }

/-- The requests that are admitted in a tick, what is left of its budget, and the engine
    after admission. -/
def admission (e : SimulationEngine) : List RequestId × Int × SimulationEngine :=
  let e := { e with now := e.now + e.decodeTick }.recordNewArrivals
  admitAll lim e.arrivedWaitingFcfs lim.tokenBudget e

/-- One step of the scheduler. -/
def tick (e : SimulationEngine) : SimulationEngine :=
  ((e.admission lim).2.2.decodeAll (e.admission lim).1).finishAll

end SimulationEngine

end Tick

section Soundness

/-- The reservation of a running sequence. -/
def Limits.reservation (lim : Limits) (seq : SequenceState) : Reservation where
  requestId := seq.requestId
  reserved := lim.watermark seq.request
  used := (seq.request.promptLen ⌈/⌉ lim.blockSize : Nat)

/-- The manager and the ledger agree with what is running. -/
structure Backed (lim : Limits) (mgr : PagedKVManager) (ledger : ContiguousMemoryModel)
    (running : Dict RequestId SequenceState) : Prop where
  numBlocks : mgr.pool.numBlocks = lim.numBlocks
  blockSize : mgr.blockSize = lim.blockSize
  capacity : ledger.capacityTokens = lim.numBlocks
  holds : mgr.Holds (running.mapVal SequenceState.currentLen)
  ledger : ledger.reservations = running.mapVal lim.reservation

/-- The invariant of the scheduler, within a step and between steps. -/
structure Sound (lim : Limits) (e : SchedulerEngine) : Prop where
  orderly : Orderly e.toSimulationEngine
  backed : Backed lim e.own.manager e.own.ledger e.running
  tokenBudget : e.own.tokenBudget = lim.tokenBudget
  fits : lim.committed e.toSimulationEngine ≤ lim.numBlocks

/-- The part of it that ties what the scheduler adds to what is running. -/
structure Booked (lim : Limits) (own : SchedulerState)
    (running : Dict RequestId SequenceState) : Prop where
  backed : Backed lim own.manager own.ledger running
  tokenBudget : own.tokenBudget = lim.tokenBudget
  fits : (running.values.map fun seq => lim.watermark seq.request).sum ≤ lim.numBlocks

variable {lim : Limits} {e : SchedulerEngine} {id : RequestId} {seq : SequenceState} {r : Request}
  {mgr : PagedKVManager} {ledger : ContiguousMemoryModel} {running : Dict RequestId SequenceState}

theorem sound_iff_kept : Sound lim e ↔ Kept (Booked lim) e :=
  ⟨fun h => ⟨h.orderly, h.backed, h.tokenBudget, h.fits⟩,
    fun h => ⟨h.orderly, h.own.backed, h.own.tokenBudget, h.own.fits⟩⟩

/-- What is reserved is what is committed. -/
theorem Backed.reserved (h : Backed lim mgr ledger running) :
    ledger.reservedTokens =
      ((running.values.map fun seq => lim.watermark seq.request).sum : Nat) := by
  rw [ContiguousMemoryModel.reservedTokens, h.ledger, Dict.values_mapVal, List.map_map,
    Nat.cast_list_sum, List.map_map]
  rfl

/-- The blocks in tables, and the free ones. -/
theorem Backed.blocks (h : Backed lim mgr ledger running) :
    (running.values.map fun seq => seq.currentLen ⌈/⌉ lim.blockSize).sum + mgr.pool.numFree =
      lim.numBlocks := by
  have hfree := h.holds.numFree
  rw [Dict.values_mapVal, List.map_map, h.blockSize, h.numBlocks] at hfree
  exact hfree

/-- No sequence has more blocks than its watermark. -/
theorem blocks_le_watermark (lim : Limits)
    (h : ∀ seq ∈ running.values, ∃ id spec, Runs id spec seq) :
    (running.values.map fun seq => seq.currentLen ⌈/⌉ lim.blockSize).sum ≤
      (running.values.map fun seq => lim.watermark seq.request).sum := by
  refine List.sum_le_sum fun seq hseq => ?_
  obtain ⟨id, spec, hruns⟩ := h seq hseq
  exact blocks_mono hruns.currentLen_le lim.blockSize

/-- Every block in a table is reserved. -/
theorem Sound.allocated_le (h : Sound lim e) :
    (e.own.manager.pool.numAllocated : Int) ≤ e.own.ledger.reservedTokens := by
  have hblocks := h.backed.blocks
  have hle := blocks_le_watermark lim h.orderly.runs
  rw [h.backed.reserved, BlockPool.numAllocated, h.backed.numBlocks]
  omega

/-- A sequence that is not finished can grow by one token. -/
theorem Sound.growth (h : Sound lim e) (hid : e.running.get? id = some seq)
    (hlt : seq.tokensGenerated < seq.targetOutputLen) :
    (seq.currentLen + 1) ⌈/⌉ lim.blockSize ≤
      seq.currentLen ⌈/⌉ lim.blockSize + e.own.manager.pool.numFree := by
  obtain ⟨spec, -, hruns⟩ := h.orderly.running id seq hid
  have hmax : seq.currentLen + 1 ≤ seq.request.promptLen + seq.request.maxNewTokens := by
    have := spec.targetOutputLen_le
    have := hruns.asked.maxNewTokens
    have := hruns.target
    unfold SequenceState.currentLen
    omega
  have hneed : (seq.currentLen + 1) ⌈/⌉ lim.blockSize ≤ lim.watermark seq.request :=
    blocks_mono hmax lim.blockSize
  -- the others use no more than they have reserved
  have hperm := Dict.values_perm hid
  have hothers : ∀ other ∈ (e.running.erase id).values, ∃ id spec, Runs id spec other :=
    fun other hother => h.orderly.runs other (hperm.mem_iff.mpr (List.mem_cons_of_mem _ hother))
  have hle := blocks_le_watermark lim hothers
  have hused := (hperm.map fun s => s.currentLen ⌈/⌉ lim.blockSize).sum_eq
  have hcommitted := (hperm.map fun s => lim.watermark s.request).sum_eq
  rw [List.map_cons, List.sum_cons] at hused hcommitted
  have hblocks := h.backed.blocks
  have hfits : (e.running.values.map fun s => lim.watermark s.request).sum ≤ lim.numBlocks := h.fits
  omega

/-- A request whose watermark fits finds blocks for its prompt. -/
theorem Sound.room (h : Sound lim e)
    (hfits : lim.committed e.toSimulationEngine + lim.watermark r ≤ lim.numBlocks) :
    r.promptLen ⌈/⌉ lim.blockSize ≤ e.own.manager.pool.numFree := by
  have hneed : r.promptLen ⌈/⌉ lim.blockSize ≤ lim.watermark r :=
    blocks_mono (Nat.le_add_right _ _) lim.blockSize
  have hblocks := h.backed.blocks
  have hle := blocks_le_watermark lim h.orderly.runs
  unfold Limits.committed at hfits
  omega

end Soundness

end PassionProjects.MiniPaged
