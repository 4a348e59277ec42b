/-
  PassionProjects.MiniPaged.Kv.ContiguousEngine

  The engine over the reservation ledger (`ContiguousKVEngine` of `kv/contiguous.py`): a
  request is admitted where its longest span can be reserved.
-/

import PassionProjects.MiniPaged.Kv.Contiguous
import PassionProjects.MiniPaged.Simulation.Step

namespace PassionProjects.MiniPaged

open Raising Raising.Prog

/-- `ContiguousKVEngine` -/
abbrev ContiguousKVEngine := Engine ContiguousMemoryModel

/-- The exceptions that `except CapacityError` catches. -/
def PyError.isCapacityError : PyError → Bool
  | .capacityError _ => true
  | _ => false

namespace ContiguousKVEngine

open Engine

variable {α : Type}

/-- `ContiguousKVEngine.__init__`, with a clock that starts at `start`. -/
def new (capacityTokens : Int) (start decodeTick : ℚ) : Except PyError ContiguousKVEngine := do
  let base ← SimulationEngine.new start decodeTick
  let memory ← ContiguousMemoryModel.new capacityTokens
  pure { base with own := memory }

/-- `self.memory` -/
def onMemory (m : Py ContiguousMemoryModel α) : Py ContiguousKVEngine α :=
  onPart Engine.own (fun memory e => { e with own := memory }) m

/-- `_try_admit` -/
def tryAdmit (request : Request) (spec : TraceRequestSpec) : Py ContiguousKVEngine Bool := do
  let reserveSize : Nat := request.promptLen + request.maxNewTokens
  let reserved ← caught PyError.isCapacityError
    (onMemory (ContiguousMemoryModel.tryReserve request.requestId reserveSize request.promptLen))
  let e ← read
  match reserved with
  | none => do
      let _ ← dropRequest request [
        ("requested", .number reserveSize),
        ("capacity", .number e.own.capacityTokens),
        ("reason", .text "exceeds_total_capacity")]
      pure false
  | some false => do
      recordNow request.requestId .ADMISSION_REJECTED [
        ("requested", .number reserveSize),
        ("free", .number e.own.freeTokens),
        ("reason", .text "insufficient_free_capacity")]
      pure false
  | some true => do
      admitRequest request spec
      pure true

/-- `_on_decode_step` -/
def onDecodeStep (seq : SequenceState) : Py ContiguousKVEngine Unit :=
  onMemory (ContiguousMemoryModel.updateUsed seq.requestId seq.currentLen)

/-- `_on_release` -/
def onRelease (seq : SequenceState) : Py ContiguousKVEngine Unit := do
  let _ ← onMemory (ContiguousMemoryModel.release seq.requestId)
  pure ()

/-- The operations `ContiguousKVEngine` overrides or inherits. -/
def hooks : Hooks ContiguousMemoryModel where
  admitArrivals := admitArrivals tryAdmit
  onDecodeStep := onDecodeStep
  onRelease := onRelease

-- ============================================================================
-- The ledger follows what is running
-- ============================================================================

/-- The reservation of a running sequence. -/
def span (seq : SequenceState) : Reservation where
  requestId := seq.requestId
  reserved := (seq.request.promptLen + seq.request.maxNewTokens : Nat)
  used := seq.currentLen

/-- The ledger holds the reservation of every running sequence, and nothing else. -/
def Reserved (memory : ContiguousMemoryModel) (running : Dict RequestId SequenceState) : Prop :=
  memory.reservations = running.mapVal span

variable {e : ContiguousKVEngine} {id : RequestId} {r : Request} {spec : TraceRequestSpec}
  {seq : SequenceState}

/-- What the ledger does, done to the ledger of the engine. -/
theorem onMemory_spec {m : Py ContiguousMemoryModel α} {Q : α → ContiguousMemoryModel → Prop}
    (h : m.Returns Q e.own) :
    (onMemory m).Returns (fun a e' => Q a e'.own ∧ e' = { e with own := e'.own }) e :=
  wp_onPart (wp_mono h (fun _ _ hQ => ⟨hQ, rfl⟩) fun _ _ hR => hR)

theorem Reserved.get? {memory : ContiguousMemoryModel} {running : Dict RequestId SequenceState}
    (h : Reserved memory running) (hseq : running.get? id = some seq) :
    memory.reservations.get? id = some (span seq) := by
  rw [h, Dict.get?_mapVal, hseq]
  rfl

/-- A request is admitted, refused or dropped. -/
theorem tryAdmit_answer (hkept : Kept Reserved e) (hw : e.waiting.get? id = some r)
    (hs : e.specById.get? id = some spec) :
    (tryAdmit r spec).Returns (fun ok e' => Reserved e'.own e'.running ∧
      Answer e.toSimulationEngine id r spec ok e'.toSimulationEngine) e := by
  obtain ⟨hasked, hstate⟩ := hkept.orderly.asked hw hs
  obtain rfl := hasked.id
  have hmem : r.requestId ∈ e.waiting.keys := Dict.mem_keys_of_get? hw
  have hnone : e.own.reservations.get? r.requestId = none := by
    rw [hkept.own, Dict.get?_mapVal, hkept.orderly.apart _ r hw]
    rfl
  by_cases hsize : e.own.capacityTokens < (r.promptLen + r.maxNewTokens : Nat)
  · -- the exception is caught and the request dropped
    refine wp_bind (wp_caught (wp_onPart (wp_mono
      (ContiguousMemoryModel.tryReserve_raises hnone hsize) (fun _ _ h => h.elim)
        fun err memory ⟨⟨message, herr⟩, hmemory⟩ => ?_)))
    subst herr hmemory
    rw [if_pos (show PyError.isCapacityError (.capacityError message) = true from rfl)]
    refine wp_bind (wp_read.mpr (wp_bind (Returns.mono (dropRequest_spec _ hmem hstate)
      fun _ e' ⟨_, he'⟩ => ?_)))
    rw [he']
    exact wp_pure.mpr ⟨hkept.own, .dropped _⟩
  · have hused : (r.promptLen : Int) ≤ (r.promptLen + r.maxNewTokens : Nat) := by omega
    refine wp_bind (wp_caught (wp_mono (onMemory_spec
      (ContiguousMemoryModel.tryReserve_spec hnone (not_lt.mp hsize) hused))
        (fun ok e₁ ⟨hreserve, he₁⟩ => ?_) fun _ _ h => h.elim))
    rcases hreserve with ⟨rfl, -, hown₁⟩ | ⟨rfl, -, hown₁⟩
    · rw [he₁, hown₁]
      refine wp_bind (wp_read.mpr (wp_bind (Returns.mono (admitRequest_spec hmem hasked hstate)
        fun _ e' he' => ?_)))
      rw [he']
      refine wp_pure.mpr ⟨?_, .granted⟩
      show e.own.reservations.set _ _ = (e.running.set _ _).mapVal span
      rw [Dict.mapVal_set, hkept.own]
      rfl
    · rw [he₁, hown₁]
      exact wp_bind (wp_read.mpr (wp_bind (wp_modify.mpr (wp_pure.mpr
        ⟨hkept.own, .refused _⟩))))

/-- The overridden operations keep the ledger. -/
theorem lawful : hooks.Lawful Reserved where
  beginTick _ _ hown := wp_pure.mpr ⟨hown, rfl⟩
  admitArrivals _ horderly hown := admitArrivals_admission
    (fun _ _ _ _ hkept hw hs => tryAdmit_answer hkept hw hs) horderly hown
  decode e id seq horderly hown hseq hlt := by
    obtain ⟨spec, -, hruns⟩ := horderly.running id seq hseq
    have hid : seq.decode.requestId = id := hruns.asked.id
    have hused : (seq.decode.currentLen : Int) ≤ (span seq).reserved := by
      have hle := (hruns.decode hlt).currentLen_le
      exact Int.ofNat_le.mpr hle
    refine wp_pure.mpr ⟨hown, rfl, fun _ => ?_⟩
    have hget : e.own.reservations.get? seq.decode.requestId = some (span seq) :=
      hid.symm ▸ Reserved.get? hown hseq
    refine Returns.mono (onMemory_spec (ContiguousMemoryModel.updateUsed_spec hget hused))
      fun _ e' ⟨hmemory, he'⟩ => ⟨?_, by rw [he']⟩
    rw [hmemory, Reserved, Dict.mapVal_set, hid]
    exact congrArg (Dict.set · id _) hown
  release e id seq spec completed eventLog hruns hown hseq := by
    have hid : (seq.complete e.now).requestId = id := hruns.asked.id
    have hget : e.own.reservations.get? (seq.complete e.now).requestId = some (span seq) :=
      hid.symm ▸ Reserved.get? hown hseq
    refine wp_bind (Returns.mono (onMemory_spec (ContiguousMemoryModel.release_spec hget))
      fun _ e' ⟨hmemory, he'⟩ => wp_pure.mpr ⟨?_, by rw [he']⟩)
    rw [hmemory, Reserved, Dict.mapVal_erase, hid]
    exact congrArg (Dict.erase · id) hown
  endTick _ _ hown := wp_pure.mpr ⟨hown, rfl⟩

end ContiguousKVEngine

end PassionProjects.MiniPaged
