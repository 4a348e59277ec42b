/-
  PassionProjects.MiniPaged.Scheduler.Scheduler

  The continuous-batching scheduler (`scheduler/scheduler.py`,
  `scheduler/decision.py`): admission in the order of arrival, gated by a token budget
  and by a ledger of worst-case reservations.
-/

import PassionProjects.MiniPaged.Kv.Contiguous
import PassionProjects.MiniPaged.Kv.PagedEngine

namespace PassionProjects.MiniPaged

open Raising Raising.Prog

/-- `SchedulerDecision` -/
structure SchedulerDecision where
  tick : ℚ
  admitted : List RequestId
  rejected : List RequestId
  cancelled : List RequestId
  decoded : List RequestId
  stalled : List RequestId
  completed : List RequestId
  prefillTokensUsed : Int
  prefillTokenBudget : Int
  kvFreeBlocks : Int
  kvAllocatedBlocks : Int
  expectedKvGrowthBlocks : Int

/-- What `SchedulerEngine` adds to the fields of `SimulationEngine`. -/
structure SchedulerState where
  manager : PagedKVManager
  tokenBudget : Int
  ledger : ContiguousMemoryModel
  decisions : List SchedulerDecision := []
  prefillBudgetRemaining : Int
  tickAdmitted : List RequestId := []
  tickRejected : List RequestId := []
  tickCancelled : List RequestId := []

instance : PagedState SchedulerState where
  manager := SchedulerState.manager
  withManager := fun mgr own => { own with manager := mgr }

/-- `SchedulerEngine` -/
abbrev SchedulerEngine := Engine SchedulerState

namespace SchedulerEngine

open Engine PagedKVEngine

variable {α : Type}

/-- `SchedulerEngine.__init__`, with a clock that starts at `start`. -/
def new (numBlocks blockSize tokenBudget : Int) (start decodeTick : ℚ) :
    Except PyError SchedulerEngine := do
  let base ← SimulationEngine.new start decodeTick
  let manager ← PagedKVManager.new numBlocks blockSize
  if tokenBudget < 1 then
    .error (.valueError s!"token_budget must be >= 1, got {tokenBudget}")
  else
    let ledger ← ContiguousMemoryModel.new numBlocks
    let own := { manager, tokenBudget, ledger, prefillBudgetRemaining := tokenBudget }
    pure { base with own }

/-- What changes only the fields the scheduler adds. -/
def onOwn (f : SchedulerState → SchedulerState) : Py SchedulerEngine Unit :=
  modify fun e => { e with own := f e.own }

/-- `self._ledger` -/
def onLedger (m : Py ContiguousMemoryModel α) : Py SchedulerEngine α :=
  onPart (fun e => e.own.ledger) (fun ledger e => { e with own := { e.own with ledger } }) m

/-- `_begin_tick` -/
def beginTick : Py SchedulerEngine Unit :=
  onOwn fun own => { own with
    prefillBudgetRemaining := own.tokenBudget
    tickAdmitted := []
    tickRejected := []
    tickCancelled := [] }

/-- The requests with an event of a type at the time the clock shows. -/
def tickEvents (e : SimulationEngine) (eventType : EventType) : List RequestId :=
  ((e.eventLog.filter fun event => event.timestamp = e.now).filter
    fun event => event.eventType = eventType).map Event.requestId

/-- `_end_tick` -/
def endTick : Py SchedulerEngine Unit := do
  let e ← read
  let kvAllocatedBlocks := e.own.manager.pool.numAllocated
  let expectedKvGrowthBlocks := e.own.ledger.reservedTokens - kvAllocatedBlocks
  check (expectedKvGrowthBlocks ≥ 0) (.assertionError
    (s!"ledger reserved ({e.own.ledger.reservedTokens}) fell below physically " ++
      s!"allocated ({kvAllocatedBlocks}) -- ledger/pool accounting mismatch"))
  onOwn fun own => { own with
    decisions := own.decisions ++ [{
      tick := e.now
      admitted := own.tickAdmitted
      rejected := own.tickRejected
      cancelled := own.tickCancelled
      decoded := tickEvents e.toSimulationEngine .DECODE_STEP
      stalled := tickEvents e.toSimulationEngine .DECODE_STALLED
      completed := tickEvents e.toSimulationEngine .COMPLETED
      prefillTokensUsed := own.tokenBudget - own.prefillBudgetRemaining
      prefillTokenBudget := own.tokenBudget
      kvFreeBlocks := own.manager.pool.numFree
      kvAllocatedBlocks
      expectedKvGrowthBlocks }] }

/-- The branch of `_try_admit` for a request that no waiting helps. -/
def cancelAdmission (request : Request) (reason : String) (watermark : Int) :
    Py SchedulerEngine (Bool × Request) := do
  let e ← read
  let request ← dropRequest request [
    ("reason", .text reason),
    ("requested_blocks", .number watermark),
    ("total_blocks", .number e.own.manager.pool.numBlocks),
    ("prompt_len", .number request.promptLen),
    ("token_budget", .number e.own.tokenBudget)]
  pure (false, request)

/-- `_try_admit`: whether the request is admitted, and the request as the call left it. -/
def tryAdmit (request : Request) (spec : TraceRequestSpec) :
    Py SchedulerEngine (Bool × Request) := do
  let e ← read
  let watermark ← ofExcept
    (e.own.manager.blocksNeededFor (request.promptLen + request.maxNewTokens : Nat))
  if watermark > e.own.manager.pool.numBlocks then
    cancelAdmission request "exceeds_total_kv_capacity" watermark
  else if request.promptLen > e.own.tokenBudget then
    cancelAdmission request "prompt_exceeds_step_token_budget" watermark
  else if request.promptLen > e.own.prefillBudgetRemaining then
    recordNow request.requestId .ADMISSION_REJECTED [
      ("reason", .text "prefill_budget_exhausted_this_tick"),
      ("requested", .number request.promptLen),
      ("remaining_budget", .number e.own.prefillBudgetRemaining)]
    pure (false, request)
  else
    let promptBlocks ← ofExcept (e.own.manager.blocksNeededFor request.promptLen)
    let reserved ← onLedger
      (ContiguousMemoryModel.tryReserve request.requestId watermark promptBlocks)
    if reserved then
      let admitted ← onManager (PagedKVManager.admitRequest request.requestId request.promptLen)
      check (admitted = true) (.assertionError
        ("admission ledger reserved capacity but the paged manager could not admit -- " ++
          "ledger/pool accounting mismatch"))
      onOwn fun own => { own with
        prefillBudgetRemaining := own.prefillBudgetRemaining - request.promptLen }
      Engine.admitRequest request spec
      pure (true, request)
    else
      recordNow request.requestId .ADMISSION_REJECTED [
        ("reason", .text "insufficient_free_kv_capacity"),
        ("requested_blocks", .number watermark),
        ("free_blocks", .number e.own.ledger.freeTokens)]
      pure (false, request)

/-- The loop of `_admit_arrivals`: the requests admitted. -/
def admitEach : List RequestId → Py SchedulerEngine (List RequestId)
  | [] => pure []
  | id :: ids => do
      let e ← read
      match e.waiting.get? id with
      | none => admitEach ids
      | some request => do
          let spec ← unwrap (.keyError id) (e.specById.get? id)
          let (admitted, request) ← tryAdmit request spec
          if admitted then
            onOwn fun own => { own with tickAdmitted := own.tickAdmitted ++ [id] }
            let rest ← admitEach ids
            pure (id :: rest)
          else if request.isTerminal then
            onOwn fun own => { own with tickCancelled := own.tickCancelled ++ [id] }
            admitEach ids
          else
            -- strict FCFS: no later request is tried in this tick
            onOwn fun own => { own with tickRejected := own.tickRejected ++ [id] }
            pure []

/-- `_admit_arrivals` -/
def admitArrivals : Py SchedulerEngine (List RequestId) := do
  base SimulationEngine.recordNewArrivals
  let e ← read
  admitEach e.arrivedWaitingFcfs

/-- `_on_release` -/
def onRelease (seq : SequenceState) : Py SchedulerEngine Unit := do
  PagedKVEngine.onRelease seq
  let _ ← onLedger (ContiguousMemoryModel.release seq.requestId)
  pure ()

/-- The operations `SchedulerEngine` overrides or inherits. -/
def hooks : Hooks SchedulerState where
  beginTick := beginTick
  admitArrivals := admitArrivals
  canDecode := canDecode
  onDecodeStep := onDecodeStep
  onRelease := onRelease
  endTick := endTick

end SchedulerEngine

end PassionProjects.MiniPaged
