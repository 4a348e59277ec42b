/-
  PassionProjects.MiniPaged.Kv.PagedEngine

  The paged engine (`PagedKVEngine` of `kv/manager.py`): a request is admitted where the
  blocks of its prompt are free, and decodes only where its table can grow.  The scheduler
  inherits what it does after admission.
-/

import PassionProjects.MiniPaged.Kv.Manager
import PassionProjects.MiniPaged.Simulation.Step

namespace PassionProjects.MiniPaged

open Raising Raising.Prog

/-- What a subclass of `PagedKVEngine` adds, with the manager in it. -/
class PagedState (κ : Type) where
  manager : κ → PagedKVManager
  withManager : PagedKVManager → κ → κ

namespace PagedKVEngine

variable {κ α : Type} [PagedState κ]

/-- `self.manager` -/
def onManager (m : Py PagedKVManager α) : Py (Engine κ) α :=
  onPart (fun e => PagedState.manager e.own)
    (fun mgr e => { e with own := PagedState.withManager mgr e.own }) m

/-- `_can_decode` -/
def canDecode (seq : SequenceState) : Py (Engine κ) Bool :=
  onManager (PagedKVManager.canGrowTo seq.requestId (seq.currentLen + 1 : Nat))

/-- `_on_decode_step` -/
def onDecodeStep (seq : SequenceState) : Py (Engine κ) Unit := do
  let _ ← onManager (PagedKVManager.grow seq.requestId seq.currentLen)
  pure ()

/-- `_on_release` -/
def onRelease (seq : SequenceState) : Py (Engine κ) Unit := do
  let _ ← onManager (PagedKVManager.release seq.requestId)
  pure ()

/-- `_try_admit` -/
def tryAdmit (request : Request) (spec : TraceRequestSpec) : Py (Engine κ) Bool := do
  let e ← read
  let worstCaseBlocks ← ofExcept ((PagedState.manager e.own).blocksNeededFor
    (request.promptLen + request.maxNewTokens : Nat))
  if worstCaseBlocks > (PagedState.manager e.own).pool.numBlocks then
    let _ ← Engine.dropRequest request [
      ("requested_blocks", .number worstCaseBlocks),
      ("total_blocks", .number (PagedState.manager e.own).pool.numBlocks),
      ("reason", .text "exceeds_total_kv_capacity")]
    pure false
  else
    let admitted ← onManager (PagedKVManager.admitRequest request.requestId request.promptLen)
    if admitted then
      Engine.admitRequest request spec
      pure true
    else
      let e ← read
      let requestedBlocks ← ofExcept
        ((PagedState.manager e.own).blocksNeededFor request.promptLen)
      Engine.recordNow request.requestId .ADMISSION_REJECTED [
        ("requested_blocks", .number requestedBlocks),
        ("free_blocks", .number (PagedState.manager e.own).pool.numFree),
        ("reason", .text "insufficient_free_blocks")]
      pure false

end PagedKVEngine

instance : PagedState PagedKVManager where
  manager mgr := mgr
  withManager mgr _ := mgr

namespace PagedKVEngine

/-- `PagedKVEngine.__init__`, with a clock that starts at `start`. -/
def new (numBlocks blockSize : Int) (start decodeTick : ℚ) :
    Except PyError (Engine PagedKVManager) := do
  let base ← SimulationEngine.new start decodeTick
  let manager ← PagedKVManager.new numBlocks blockSize
  pure { base with own := manager }

/-- The operations `PagedKVEngine` overrides or inherits. -/
def hooks : Hooks PagedKVManager where
  admitArrivals := Engine.admitArrivals tryAdmit
  canDecode := canDecode
  onDecodeStep := onDecodeStep
  onRelease := onRelease

-- ============================================================================
-- The manager follows what is running
-- ============================================================================

/-- The manager holds the blocks of every running sequence, and no others. -/
def Paged (mgr : PagedKVManager) (running : Dict RequestId SequenceState) : Prop :=
  mgr.Holds (running.mapVal SequenceState.currentLen)

variable {e : Engine PagedKVManager} {id : RequestId} {r : Request} {spec : TraceRequestSpec}
  {seq : SequenceState}

/-- What the manager does, done to the manager of the engine. -/
theorem onManager_returns {m : Py PagedKVManager α} {Q : α → PagedKVManager → Prop}
    (h : m.Returns Q e.own) :
    (onManager m).Returns (fun a e' => Q a e'.own ∧ e' = { e with own := e'.own }) e :=
  wp_onPart (wp_mono h (fun _ _ hQ => ⟨hQ, rfl⟩) fun _ _ hR => hR)

theorem currentLen_get? {running : Dict RequestId SequenceState}
    (hseq : running.get? id = some seq) :
    (running.mapVal SequenceState.currentLen).get? id = some seq.currentLen := by
  rw [Dict.get?_mapVal, hseq]
  rfl

/-- A request is admitted, refused or dropped. -/
theorem tryAdmit_answer (hkept : Kept Paged e) (hw : e.waiting.get? id = some r)
    (hs : e.specById.get? id = some spec) :
    (tryAdmit r spec).Returns (fun ok e' => Paged e'.own e'.running ∧
      Answer e.toSimulationEngine id r spec ok e'.toSimulationEngine) e := by
  obtain ⟨hasked, hstate⟩ := hkept.orderly.asked hw hs
  obtain rfl := hasked.id
  have hmem : r.requestId ∈ e.waiting.keys := Dict.mem_keys_of_get? hw
  have hnew : (e.running.mapVal SequenceState.currentLen).get? r.requestId = none := by
    rw [Dict.get?_mapVal, hkept.orderly.apart _ r hw]
    rfl
  have hneeds (n : Nat) : e.own.blocksNeededFor n = .ok ((n ⌈/⌉ e.own.blockSize : Nat) : Int) :=
    blocksNeededFor_eq hkept.own.size n
  refine wp_bind (wp_read.mpr (wp_bind (wp_ofExcept (hneeds _) ?_)))
  split
  · refine wp_bind (Returns.mono (Engine.dropRequest_spec _ hmem hstate) fun _ e' ⟨_, he'⟩ => ?_)
    rw [he']
    exact wp_pure.mpr ⟨hkept.own, .dropped _⟩
  · by_cases hfree : r.promptLen ⌈/⌉ e.own.blockSize ≤ e.own.pool.numFree
    · refine wp_bind (Returns.mono (onManager_returns
        (PagedKVManager.admitRequest_spec hkept.own hnew hfree))
          fun ok e₁ ⟨⟨hok, hholds, _⟩, he₁⟩ => ?_)
      rw [if_pos hok, he₁]
      refine wp_bind (Returns.mono (Engine.admitRequest_spec hmem hasked hstate) fun _ e' he' => ?_)
      rw [he']
      refine wp_pure.mpr ⟨?_, .granted⟩
      show e₁.own.Holds ((e.running.set _ _).mapVal _)
      rw [Dict.mapVal_set]
      exact hholds
    · refine wp_bind (Returns.mono (onManager_returns
        (PagedKVManager.admitRequest_refused hkept.own hnew (Nat.not_le.mp hfree)))
          fun ok e₁ ⟨⟨hok, hown₁⟩, he₁⟩ => ?_)
      rw [hok, if_neg Bool.false_ne_true, he₁, hown₁]
      refine wp_bind (wp_read.mpr (wp_bind (wp_ofExcept (hneeds _) ?_)))
      exact wp_bind (wp_modify.mpr (wp_pure.mpr ⟨hkept.own, .refused _⟩))

/-- The overridden operations keep what the manager holds. -/
theorem lawful : hooks.Lawful Paged where
  beginTick _ _ hown := wp_pure.mpr ⟨hown, rfl⟩
  admitArrivals _ horderly hown := Engine.admitArrivals_admission
    (fun _ _ _ _ hkept hw hs => tryAdmit_answer hkept hw hs) horderly hown
  decode e id seq horderly hown hseq hlt := by
    obtain ⟨spec, -, hruns⟩ := horderly.running id seq hseq
    have hid : seq.requestId = id := hruns.asked.id
    have hlen : seq.decode.currentLen = seq.currentLen + 1 := rfl
    have hget := hid.symm ▸ currentLen_get? hseq
    refine Returns.mono (onManager_returns
      (PagedKVManager.canGrowTo_answer (seq.currentLen + 1) hown hget))
        fun can e₁ ⟨⟨hcan, hown₁⟩, he₁⟩ => ⟨hown₁ ▸ hown, by rw [he₁], fun htrue => ?_⟩
    have hroom := of_decide_eq_true (hcan.symm.trans htrue)
    rw [hown₁]
    refine wp_bind (Returns.mono (onManager_returns
      (PagedKVManager.grow_spec hown hget (Nat.le_succ _) hroom))
        fun _ e₂ ⟨⟨hholds, _⟩, he₂⟩ => wp_pure.mpr ⟨?_, by rw [he₂]⟩)
    rw [Paged, Dict.mapVal_set, hlen, ← hid]
    exact hholds
  release e id seq spec completed eventLog hruns hown hseq := by
    have hid : (seq.complete e.now).requestId = id := hruns.asked.id
    have hget := hid.symm ▸ currentLen_get? hseq
    refine wp_bind (Returns.mono (onManager_returns (PagedKVManager.release_spec hown hget))
      fun _ e' ⟨⟨hholds, _⟩, he'⟩ => wp_pure.mpr ⟨?_, by rw [he']⟩)
    rw [Paged, Dict.mapVal_erase, ← hid]
    exact hholds
  endTick _ _ hown := wp_pure.mpr ⟨hown, rfl⟩

end PagedKVEngine

end PassionProjects.MiniPaged
