/-
  PassionProjects.MiniPaged.Simulation.Moves

  What the parts of a step do to the requests of an engine, whatever its class: a request
  that asks for admission is granted it, refused or dropped, a running sequence decodes or
  is stalled, a finished one leaves.  `Orderly` says that requests are where their state
  says.
-/

import PassionProjects.MiniPaged.Simulation.Engine

namespace PassionProjects.MiniPaged

open Raising Raising.Prog

-- ============================================================================
-- Requests and where they stand
-- ============================================================================

/-- The request that `load_trace` makes of a specification, whatever its state. -/
structure Asked (id : RequestId) (spec : TraceRequestSpec) (r : Request) : Prop where
  id : r.requestId = id
  promptLen : r.promptLen = spec.promptLen
  maxNewTokens : r.maxNewTokens = spec.maxNewTokens
  arrivalTime : r.arrivalTime = spec.arrivalTime

/-- A running sequence of a specification. -/
structure Runs (id : RequestId) (spec : TraceRequestSpec) (seq : SequenceState) : Prop where
  asked : Asked id spec seq.request
  state : seq.request.state = .RUNNING
  target : seq.targetOutputLen = spec.targetOutputLen
  tokens : seq.tokensGenerated ≤ spec.targetOutputLen

/-- Requests are where their state says, under their own id, and in one place. -/
structure Orderly (e : SimulationEngine) : Prop where
  waiting : ∀ id r, e.waiting.get? id = some r →
    ∃ spec, e.specById.get? id = some spec ∧ Asked id spec r ∧ r.state = .WAITING
  running : ∀ id seq, e.running.get? id = some seq →
    ∃ spec, e.specById.get? id = some spec ∧ Runs id spec seq
  apart : ∀ id r, e.waiting.get? id = some r → e.running.get? id = none

/-- No running sequence is finished yet. -/
def Busy (b : SimulationEngine) : Prop :=
  ∀ id seq, b.running.get? id = some seq → seq.tokensGenerated < seq.targetOutputLen

/-- A sequence that has just been admitted. -/
def Request.started (r : Request) (spec : TraceRequestSpec) (now : ℚ) : SequenceState where
  request := { r with state := .RUNNING }
  targetOutputLen := spec.targetOutputLen
  prefillDone := true
  startedAt := some now

/-- A sequence that is finished. -/
def SequenceState.complete (now : ℚ) (seq : SequenceState) : SequenceState :=
  { seq with completedAt := some now, request := { seq.request with state := .COMPLETED } }

/-- A sequence with one more token. -/
def SequenceState.decode (seq : SequenceState) : SequenceState :=
  { seq with tokensGenerated := seq.tokensGenerated + 1 }

namespace SimulationEngine

/-- A waiting request starts to run. -/
def start (e : SimulationEngine) (r : Request) (spec : TraceRequestSpec) : SimulationEngine :=
  ({ e with
    waiting := e.waiting.erase r.requestId
    running := e.running.set r.requestId (r.started spec e.now) }.record e.now r.requestId
      .ADMITTED).record e.now r.requestId .PREFILL_DONE

/-- A waiting request has arrived. -/
def arrive (e : SimulationEngine) (id : RequestId) (r : Request) : SimulationEngine :=
  { e with arrivedIds := id :: e.arrivedIds }.record r.arrivalTime id .ARRIVED

/-- A request that has asked for admission goes on waiting. -/
def refuse (e : SimulationEngine) (id : RequestId) (detail : List (String × Detail)) :
    SimulationEngine :=
  e.record e.now id .ADMISSION_REJECTED detail

/-- A request that has asked for admission is dropped for good. -/
def drop (e : SimulationEngine) (r : Request) (detail : List (String × Detail)) :
    SimulationEngine :=
  ({ e with
    waiting := e.waiting.erase r.requestId
    cancelled := e.cancelled ++ [{ r with state := .CANCELLED }] }.record e.now r.requestId
      .ADMISSION_REJECTED detail).record e.now r.requestId .CANCELLED

/-- A running sequence finds no room for one more token. -/
def stall (e : SimulationEngine) (id : RequestId) : SimulationEngine :=
  e.record e.now id .DECODE_STALLED

/-- A running sequence decodes one token. -/
def decode (e : SimulationEngine) (id : RequestId) (seq : SequenceState) : SimulationEngine :=
  { e with running := e.running.set id seq.decode }.record e.now id .DECODE_STEP
    [("tokens_generated", .number seq.decode.tokensGenerated)]

/-- A finished sequence leaves. -/
def finish (e : SimulationEngine) (id : RequestId) (seq : SequenceState) : SimulationEngine :=
  { e with
    running := e.running.erase id
    completed := e.completed ++ [seq.complete e.now] }.record e.now id .COMPLETED

/-- The event of a decode step. -/
def decodeEvent (now : ℚ) (seq : SequenceState) : Event :=
  ⟨now, seq.requestId, .DECODE_STEP, [("tokens_generated", .number seq.tokensGenerated)]⟩

end SimulationEngine

variable {b : SimulationEngine} {id : RequestId} {r : Request} {spec : TraceRequestSpec}
  {seq : SequenceState}

-- ============================================================================
-- Requests change their place
-- ============================================================================

theorem Runs.currentLen_le {spec : TraceRequestSpec} (h : Runs id spec seq) :
    seq.currentLen ≤ seq.request.promptLen + seq.request.maxNewTokens := by
  have := h.tokens
  have := spec.targetOutputLen_le
  have := h.asked.maxNewTokens
  unfold SequenceState.currentLen
  omega

theorem Orderly.runs {e : SimulationEngine} (h : Orderly e) :
    ∀ seq ∈ e.running.values, ∃ id spec, Runs id spec seq := by
  intro seq hseq
  obtain ⟨⟨id, seq'⟩, hentry, rfl⟩ := List.mem_map.mp hseq
  obtain ⟨spec, -, hruns⟩ := h.running id seq' (Dict.get?_of_mem hentry)
  exact ⟨id, spec, hruns⟩

theorem Asked.withState (h : Asked id spec r) (state : RequestState) :
    Asked id spec { r with state } :=
  ⟨h.id, h.promptLen, h.maxNewTokens, h.arrivalTime⟩

theorem Asked.started (h : Asked id spec r) (now : ℚ) : Runs id spec (r.started spec now) where
  asked := h.withState .RUNNING
  state := rfl
  target := rfl
  tokens := Nat.zero_le _

theorem Orderly.record (h : Orderly b) (t : ℚ) (id : RequestId) (eventType : EventType)
    (detail : List (String × Detail)) : Orderly (b.record t id eventType detail) :=
  ⟨h.waiting, h.running, h.apart⟩

/-- A request that leaves `waiting`. -/
theorem Orderly.leave (h : Orderly b) (id : RequestId) :
    Orderly { b with waiting := b.waiting.erase id } where
  waiting id' r' hr' := by
    rw [Dict.get?_erase] at hr'
    split at hr'
    · exact absurd hr' (by simp)
    · exact h.waiting id' r' hr'
  running := h.running
  apart id' r' hr' := by
    rw [Dict.get?_erase] at hr'
    split at hr'
    · exact absurd hr' (by simp)
    · exact h.apart id' r' hr'

theorem Orderly.start (h : Orderly b) (hspec : b.specById.get? id = some spec)
    (hasked : Asked id spec r) : Orderly (b.start r spec) where
  waiting := (h.leave r.requestId).waiting
  running id' seq hseq := by
    have hseq : (b.running.set r.requestId (r.started spec b.now)).get? id' = some seq := hseq
    rw [Dict.get?_set, hasked.id] at hseq
    split at hseq
    · next heq =>
      obtain rfl := Option.some.inj hseq
      exact ⟨spec, heq ▸ hspec, heq ▸ hasked.started b.now⟩
    · exact h.running id' seq hseq
  apart id' r' hr' := by
    have hne : id' ≠ r.requestId := by
      rintro rfl
      have hnone : (b.waiting.erase r.requestId).get? r.requestId = some r' := hr'
      rw [Dict.get?_erase, if_pos rfl] at hnone
      exact absurd hnone (by simp)
    show (b.running.set r.requestId _).get? id' = none
    rw [Dict.get?_set_ne hne]
    exact (h.leave r.requestId).apart id' r' hr'

theorem Busy.start {r : Request} {spec : TraceRequestSpec} (h : Busy b) :
    Busy (b.start r spec) := by
  intro id seq hseq
  have hseq : (b.running.set r.requestId (r.started spec b.now)).get? id = some seq := hseq
  rw [Dict.get?_set] at hseq
  split at hseq
  · obtain rfl := Option.some.inj hseq
    exact spec.targetOutputLen_pos
  · exact h id seq hseq

/-- A sequence is set to one with more tokens of the same request. -/
theorem Orderly.setRunning {seq' : SequenceState} (h : Orderly b)
    (hid : b.running.get? id = some seq) (hspec : b.specById.get? id = some spec)
    (hruns : Runs id spec seq') (eventLog : List Event) :
    Orderly { b with running := b.running.set id seq', eventLog } where
  waiting := h.waiting
  running id' other hother := by
    have hother : (b.running.set id seq').get? id' = some other := hother
    rw [Dict.get?_set] at hother
    split at hother
    · next heq =>
      obtain rfl := Option.some.inj hother
      exact ⟨spec, heq ▸ hspec, heq ▸ hruns⟩
    · exact h.running id' other hother
  apart id' r hr := by
    have hnone := h.apart id' r hr
    have hne : id' ≠ id := by
      rintro rfl
      exact absurd (hid.symm.trans hnone) (by simp)
    show (b.running.set id seq').get? id' = none
    rw [Dict.get?_set_ne hne]
    exact hnone

/-- A sequence that leaves `running`. -/
theorem Orderly.finish (h : Orderly b) (id : RequestId) (completed : List SequenceState)
    (eventLog : List Event) :
    Orderly { b with running := b.running.erase id, completed, eventLog } where
  waiting := h.waiting
  running id' seq hseq := by
    have hseq : (b.running.erase id).get? id' = some seq := hseq
    rw [Dict.get?_erase] at hseq
    split at hseq
    · exact absurd hseq (by simp)
    · exact h.running id' seq hseq
  apart id' r hr := by
    show (b.running.erase id).get? id' = none
    rw [Dict.get?_erase]
    split
    · rfl
    · exact h.apart id' r hr

/-- Recording arrivals changes the log and the set of those that have arrived. -/
theorem recordNewArrivals_same (b : SimulationEngine) :
    ∃ eventLog arrivedIds, b.recordNewArrivals = { b with eventLog, arrivedIds } := by
  unfold SimulationEngine.recordNewArrivals
  have hfold (entries : List (RequestId × Request)) (b' : SimulationEngine) :
      ∃ eventLog arrivedIds, entries.foldl SimulationEngine.recordArrival b' =
        { b' with eventLog, arrivedIds } := by
    induction entries generalizing b' with
    | nil => exact ⟨_, _, rfl⟩
    | cons entry entries ih =>
        obtain ⟨eventLog, arrivedIds, hrest⟩ := ih (b'.recordArrival entry)
        rw [List.foldl_cons, hrest]
        unfold SimulationEngine.recordArrival
        split
        · exact ⟨eventLog, arrivedIds, rfl⟩
        · exact ⟨eventLog, arrivedIds, rfl⟩
  exact hfold _ b

/-- `_admit` moves the request to `running`. -/
theorem Engine.admitRequest_spec {κ : Type} {e : Engine κ} (hid : r.requestId ∈ e.waiting.keys)
    (hasked : Asked id spec r) (hstate : r.state = .WAITING) :
    (Engine.admitRequest r spec).Returns
      (fun _ e' => e' = { e with toSimulationEngine := e.start r spec }) e := by
  have htransition : r.transitionTo .RUNNING = .ok { r with state := .RUNNING } := by
    rw [Request.transitionTo, hstate]
    rfl
  have hseq : SequenceState.new { r with state := .RUNNING } spec.targetOutputLen e.now =
      .ok { r.started spec e.now with prefillDone := false } := by
    have hpos := spec.targetOutputLen_pos
    have hle := spec.targetOutputLen_le
    rw [SequenceState.new, if_neg (by omega), if_neg (by rw [hasked.maxNewTokens]; omega)]
    rfl
  refine wp_bind (wp_read.mpr (wp_bind (wp_check hid (wp_bind (wp_modify.mpr ?_)))))
  refine wp_bind (wp_ofExcept htransition (wp_bind (wp_ofExcept hseq ?_)))
  exact wp_bind (wp_modify.mpr (wp_bind (wp_modify.mpr (wp_modify.mpr rfl))))

-- ============================================================================
-- The parts of a step
-- ============================================================================

/-- The answer to a waiting request that asks for admission, and the engine after it. -/
inductive Answer (e : SimulationEngine) (id : RequestId) (r : Request) (spec : TraceRequestSpec) :
    Bool → SimulationEngine → Prop where
  | granted : Answer e id r spec true (e.start r spec)
  | refused (detail : List (String × Detail)) : Answer e id r spec false (e.refuse id detail)
  | dropped (detail : List (String × Detail)) : Answer e id r spec false (e.drop r detail)

/-- The waiting requests of a list ask for admission, one after the other, until the list
    or the engine is done: the ones admitted, and the engine after it. -/
inductive Admission :
    SimulationEngine → List RequestId → List RequestId → SimulationEngine → Prop where
  | stop {e : SimulationEngine} {ids : List RequestId} : Admission e ids [] e
  | skip {e e' : SimulationEngine} {id : RequestId} {ids admitted : List RequestId} :
      Admission e ids admitted e' → Admission e (id :: ids) admitted e'
  | ask {e e₁ e' : SimulationEngine} {id : RequestId} {ids admitted : List RequestId}
      {r : Request} {spec : TraceRequestSpec} {ok : Bool} :
      e.waiting.get? id = some r → e.specById.get? id = some spec → Answer e id r spec ok e₁ →
        Admission e₁ ids admitted e' →
          Admission e (id :: ids) (if ok then id :: admitted else admitted) e'

/-- The running sequences of a list decode or are stalled, but for those of `skip`: the
    ones finished, and the engine after it. -/
inductive Decoding (skip : List RequestId) :
    SimulationEngine → List RequestId → List RequestId → SimulationEngine → Prop where
  | done {e : SimulationEngine} : Decoding skip e [] [] e
  | skip {e e' : SimulationEngine} {id : RequestId} {ids finished : List RequestId} :
      id ∈ skip → Decoding skip e ids finished e' → Decoding skip e (id :: ids) finished e'
  | stall {e e' : SimulationEngine} {id : RequestId} {ids finished : List RequestId}
      {seq : SequenceState} :
      id ∉ skip → e.running.get? id = some seq → seq.tokensGenerated < seq.targetOutputLen →
        Decoding skip (e.stall id) ids finished e' → Decoding skip e (id :: ids) finished e'
  | decode {e e' : SimulationEngine} {id : RequestId} {ids finished : List RequestId}
      {seq : SequenceState} :
      id ∉ skip → e.running.get? id = some seq → seq.tokensGenerated < seq.targetOutputLen →
        Decoding skip (e.decode id seq) ids finished e' →
          Decoding skip e (id :: ids)
            (if seq.decode.isFinished then id :: finished else finished) e'

/-- The finished sequences of a list leave. -/
inductive Finishing : SimulationEngine → List RequestId → SimulationEngine → Prop where
  | done {e : SimulationEngine} : Finishing e [] e
  | finish {e e' : SimulationEngine} {id : RequestId} {ids : List RequestId}
      {seq : SequenceState} :
      e.running.get? id = some seq → seq.isFinished = true →
        Finishing (e.finish id seq) ids e' → Finishing e (id :: ids) e'

/-- The engine when the clock has moved on and the arrivals are recorded. -/
def SimulationEngine.awake (e : SimulationEngine) : SimulationEngine :=
  { e with now := e.now + e.decodeTick }.recordNewArrivals

/-- What a step of any engine does. -/
inductive Ticked (e : SimulationEngine) : SimulationEngine → Prop where
  | tick {e₁ e₂ e₃ : SimulationEngine} {admitted finished : List RequestId} :
      Admission e.awake e.awake.arrivedWaitingFcfs admitted e₁ →
        Decoding admitted e₁ e₁.running.keys finished e₂ → Finishing e₂ finished e₃ → Ticked e e₃

variable {e e' e₁ : SimulationEngine} {ids admitted skip finished : List RequestId} {ok : Bool}
  {I : SimulationEngine → Prop}

theorem Orderly.drop (h : Orderly e) (r : Request) (detail : List (String × Detail)) :
    Orderly (e.drop r detail) :=
  ⟨(h.leave r.requestId).waiting, h.running, (h.leave r.requestId).apart⟩

/-- A sequence that is not finished may take one more token. -/
theorem Runs.decode (h : Runs id spec seq) (hlt : seq.tokensGenerated < seq.targetOutputLen) :
    Runs id spec seq.decode where
  asked := h.asked
  state := h.state
  target := h.target
  tokens := h.target ▸ hlt

theorem Orderly.decode (h : Orderly e) (hid : e.running.get? id = some seq)
    (hlt : seq.tokensGenerated < seq.targetOutputLen) : Orderly (e.decode id seq) := by
  obtain ⟨spec, hspec, hruns⟩ := h.running id seq hid
  exact h.setRunning hid hspec (hruns.decode hlt) _

theorem Orderly.arrivals (h : Orderly e) : Orderly e.recordNewArrivals := by
  obtain ⟨eventLog, arrivedIds, hsame⟩ := recordNewArrivals_same e
  rw [hsame]
  exact ⟨h.waiting, h.running, h.apart⟩

theorem Orderly.awake (h : Orderly e) : Orderly e.awake := by
  have hlater : Orderly { e with now := e.now + e.decodeTick } := ⟨h.waiting, h.running, h.apart⟩
  exact hlater.arrivals

/-- A request that asks for admission is waiting under its id. -/
theorem Orderly.asked (h : Orderly e) (hw : e.waiting.get? id = some r)
    (hs : e.specById.get? id = some spec) : Asked id spec r ∧ r.state = .WAITING := by
  obtain ⟨spec', hspec, hasked, hstate⟩ := h.waiting id r hw
  obtain rfl : spec' = spec := Option.some.inj (hspec.symm.trans hs)
  exact ⟨hasked, hstate⟩

theorem Answer.orderly (ha : Answer e id r spec ok e₁) (h : Orderly e)
    (hw : e.waiting.get? id = some r) (hs : e.specById.get? id = some spec) : Orderly e₁ := by
  cases ha with
  | granted => exact h.start hs (h.asked hw hs).1
  | refused detail => exact h.record _ _ _ _
  | dropped detail => exact h.drop r detail

theorem Answer.busy (ha : Answer e id r spec ok e₁) (h : Busy e) : Busy e₁ := by
  cases ha with
  | granted => exact h.start
  | refused detail => exact h
  | dropped detail => exact h

theorem Answer.arrivedIds (ha : Answer e id r spec ok e₁) : e₁.arrivedIds = e.arrivedIds := by
  cases ha <;> rfl

-- ============================================================================
-- What holds after each part
-- ============================================================================

/-- What every arrival keeps holds when all of them are recorded. -/
theorem recordNewArrivals_invariant (hI : I e)
    (harrive : ∀ x id r, I x → x.now = e.now → x.waiting = e.waiting →
      x.waiting.get? id = some r → r.arrivalTime ≤ x.now → id ∉ x.arrivedIds → I (x.arrive id r)) :
    I e.recordNewArrivals := by
  have hfold (entries : List (RequestId × Request)) (hmem : ∀ entry ∈ entries,
      entry ∈ e.waiting.entries) (x : SimulationEngine) (hx : I x) (hnow : x.now = e.now)
      (hwaiting : x.waiting = e.waiting) :
      I (entries.foldl SimulationEngine.recordArrival x) := by
    induction entries generalizing x with
    | nil => exact hx
    | cons entry entries ih =>
        have hentry : x.waiting.get? entry.1 = some entry.2 :=
          Dict.get?_of_mem (hwaiting ▸ hmem entry List.mem_cons_self)
        have hrest : ∀ y ∈ entries, y ∈ e.waiting.entries :=
          fun y hy => hmem y (List.mem_cons_of_mem _ hy)
        rw [List.foldl_cons, SimulationEngine.recordArrival]
        split
        · next hnew =>
          exact ih hrest _ (harrive x _ _ hx hnow hwaiting hentry hnew.1 hnew.2) hnow hwaiting
        · exact ih hrest x hx hnow hwaiting
  exact hfold _ (fun _ h => h) e hI rfl rfl

/-- What every answer keeps holds after admission. -/
theorem Admission.invariant (h : Admission e ids admitted e') (horderly : Orderly e) (hI : I e)
    (harrived : ∀ id ∈ ids, id ∈ e.arrivedIds)
    (hanswer : ∀ x x₁ id r spec ok, Orderly x → I x → id ∈ x.arrivedIds →
      x.waiting.get? id = some r → x.specById.get? id = some spec →
        Answer x id r spec ok x₁ → I x₁) : Orderly e' ∧ I e' := by
  induction h with
  | stop => exact ⟨horderly, hI⟩
  | skip _ ih => exact ih horderly hI fun id hid => harrived id (List.mem_cons_of_mem _ hid)
  | ask hw hs ha _ ih =>
      refine ih (ha.orderly horderly hw hs)
        (hanswer _ _ _ _ _ _ horderly hI (harrived _ List.mem_cons_self) hw hs ha)
        fun id hid => ?_
      rw [ha.arrivedIds]
      exact harrived id (List.mem_cons_of_mem _ hid)

theorem Admission.orderly (h : Admission e ids admitted e') (horderly : Orderly e) :
    Orderly e' := by
  induction h with
  | stop => exact horderly
  | skip _ ih => exact ih horderly
  | ask hw hs ha _ ih => exact ih (ha.orderly horderly hw hs)

theorem Admission.busy (h : Admission e ids admitted e') (hbusy : Busy e) : Busy e' := by
  induction h with
  | stop => exact hbusy
  | skip _ ih => exact ih hbusy
  | ask _ _ ha _ ih => exact ih (ha.busy hbusy)

/-- What decoding and stalling keep holds after the decode pass. -/
theorem Decoding.invariant (h : Decoding skip e ids finished e') (horderly : Orderly e) (hI : I e)
    (hstall : ∀ x id seq, Orderly x → I x → id ∉ skip → x.running.get? id = some seq →
      seq.tokensGenerated < seq.targetOutputLen → I (x.stall id))
    (hdecode : ∀ x id seq, Orderly x → I x → id ∉ skip → x.running.get? id = some seq →
      seq.tokensGenerated < seq.targetOutputLen → I (x.decode id seq)) : Orderly e' ∧ I e' := by
  induction h with
  | done => exact ⟨horderly, hI⟩
  | skip _ _ ih => exact ih horderly hI
  | stall hskip hr hlt _ ih =>
      exact ih (horderly.record _ _ _ _) (hstall _ _ _ horderly hI hskip hr hlt)
  | decode hskip hr hlt _ ih =>
      exact ih (horderly.decode hr hlt) (hdecode _ _ _ horderly hI hskip hr hlt)

/-- What every departure keeps holds when all the finished have left. -/
theorem Finishing.invariant (h : Finishing e ids e') (horderly : Orderly e) (hI : I e)
    (hfinish : ∀ x id seq, Orderly x → I x → x.running.get? id = some seq →
      seq.isFinished = true → I (x.finish id seq)) : Orderly e' ∧ I e' := by
  induction h with
  | done => exact ⟨horderly, hI⟩
  | finish hr hdone _ ih => exact ih (horderly.finish _ _ _) (hfinish _ _ _ horderly hI hr hdone)

/-- What holds when the arrivals are recorded and is kept by all that follows holds after a
    step. -/
theorem Ticked.invariant (h : Ticked e e') (horderly : Orderly e) (hI : I e.awake)
    (hanswer : ∀ x x₁ id r spec ok, Orderly x → I x → id ∈ x.arrivedIds →
      x.waiting.get? id = some r → x.specById.get? id = some spec →
        Answer x id r spec ok x₁ → I x₁)
    (hstall : ∀ x id seq, Orderly x → I x → x.running.get? id = some seq →
      seq.tokensGenerated < seq.targetOutputLen → I (x.stall id))
    (hdecode : ∀ x id seq, Orderly x → I x → x.running.get? id = some seq →
      seq.tokensGenerated < seq.targetOutputLen → I (x.decode id seq))
    (hfinish : ∀ x id seq, Orderly x → I x → x.running.get? id = some seq →
      seq.isFinished = true → I (x.finish id seq)) : I e' := by
  cases h with
  | tick hadmission hdecoding hfinishing =>
      have harrived : ∀ id ∈ e.awake.arrivedWaitingFcfs, id ∈ e.awake.arrivedIds := by
        intro id hid
        obtain ⟨entry, hentry, rfl⟩ := List.mem_map.mp hid
        exact of_decide_eq_true (List.mem_filter.mp ((List.mem_insertionSort _).mp hentry)).2
      obtain ⟨horderly₁, hI₁⟩ := hadmission.invariant horderly.awake hI harrived hanswer
      obtain ⟨horderly₂, hI₂⟩ := hdecoding.invariant horderly₁ hI₁
        (fun x id seq hx hIx _ => hstall x id seq hx hIx)
        (fun x id seq hx hIx _ => hdecode x id seq hx hIx)
      exact (hfinishing.invariant horderly₂ hI₂ hfinish).2

/-- A step moves the clock by one tick. -/
theorem Ticked.clock (h : Ticked e e') (horderly : Orderly e) :
    e'.now = e.now + e.decodeTick ∧ e'.decodeTick = e.decodeTick := by
  refine h.invariant (I := fun x => x.now = e.now + e.decodeTick ∧ x.decodeTick = e.decodeTick)
    horderly ?_ ?_ (fun _ _ _ _ hx _ _ => hx) (fun _ _ _ _ hx _ _ => hx)
    (fun _ _ _ _ hx _ _ => hx)
  · obtain ⟨eventLog, arrivedIds, hsame⟩ :=
      recordNewArrivals_same { e with now := e.now + e.decodeTick }
    rw [SimulationEngine.awake, hsame]
    exact ⟨rfl, rfl⟩
  · intro x x₁ id r spec ok _ hx _ _ _ hanswer
    cases hanswer <;> exact hx

-- ============================================================================
-- No running sequence is finished after a step
-- ============================================================================

theorem Decoding.sublist (h : Decoding skip e ids finished e') : finished.Sublist ids := by
  induction h with
  | done => exact List.Sublist.slnil
  | skip _ _ ih => exact ih.cons _
  | stall _ _ _ _ ih => exact ih.cons _
  | decode _ _ _ _ ih =>
      split
      · exact ih.cons_cons _
      · exact ih.cons _

/-- A sequence of a list is finished where the pass says so, and the others are as
    before. -/
structure Resolved (e : SimulationEngine) (ids finished : List RequestId) (id : RequestId)
    (seq' : SequenceState) : Prop where
  mem : id ∈ ids → (seq'.isFinished = true ↔ id ∈ finished)
  not_mem : id ∉ ids → e.running.get? id = some seq'

/-- A sequence that the pass does not decode. -/
theorem Resolved.cons {id' : RequestId} {seq' : SequenceState} (h : Resolved e ids finished id seq')
    (hnew : id' ∉ ids) (hsublist : finished.Sublist ids)
    (hdue : ∀ seq, e.running.get? id' = some seq → seq.tokensGenerated < seq.targetOutputLen) :
    Resolved e (id' :: ids) finished id seq' where
  mem hid := by
    rcases List.mem_cons.mp hid with rfl | hid
    · have hlt := hdue seq' (h.not_mem hnew)
      refine iff_of_false (fun hdone => ?_) fun hmem => hnew (hsublist.subset hmem)
      exact Nat.not_le.mpr hlt (of_decide_eq_true hdone)
    · exact h.mem hid
  not_mem hid := h.not_mem fun hmem => hid (List.mem_cons_of_mem _ hmem)

/-- What the decode pass leaves of a sequence. -/
theorem Decoding.resolved {seq' : SequenceState} (h : Decoding skip e ids finished e')
    (hnodup : ids.Nodup) (hdue : ∀ id ∈ ids, ∀ seq, e.running.get? id = some seq →
      seq.tokensGenerated < seq.targetOutputLen)
    (hseq' : e'.running.get? id = some seq') : Resolved e ids finished id seq' := by
  induction h with
  | done => exact ⟨fun hid => absurd hid List.not_mem_nil, fun _ => hseq'⟩
  | skip _ hrest ih =>
      rw [List.nodup_cons] at hnodup
      exact (ih hnodup.2 (fun x hx => hdue x (List.mem_cons_of_mem _ hx)) hseq').cons hnodup.1
        hrest.sublist (hdue _ List.mem_cons_self)
  | @stall e e' id' ids finished seq _ _ _ hrest ih =>
      rw [List.nodup_cons] at hnodup
      have hrest' := ih hnodup.2 (fun x hx => hdue x (List.mem_cons_of_mem _ hx)) hseq'
      have hsame : Resolved e ids finished id seq' := ⟨hrest'.mem, hrest'.not_mem⟩
      exact hsame.cons hnodup.1 hrest.sublist (hdue _ List.mem_cons_self)
  | @decode e e' id' ids finished seq _ hr hlt hrest ih =>
      rw [List.nodup_cons] at hnodup
      have hother {x : RequestId} (hx : x ≠ id') :
          (e.decode id' seq).running.get? x = e.running.get? x := Dict.get?_set_ne hx
      have hrest' := ih hnodup.2 (fun x hx other hget => by
        have hne : x ≠ id' := fun heq => hnodup.1 (heq ▸ hx)
        exact hdue x (List.mem_cons_of_mem _ hx) other ((hother hne).symm.trans hget)) hseq'
      by_cases heq : id = id'
      · subst heq
        have hself : (e.decode id seq).running.get? id = some seq.decode := Dict.get?_set_self
        obtain rfl := Option.some.inj (hself.symm.trans (hrest'.not_mem hnodup.1))
        refine ⟨fun _ => ?_, fun hnot => absurd List.mem_cons_self hnot⟩
        have hnot : id ∉ finished := fun hmem => hnodup.1 (hrest.sublist.subset hmem)
        split
        · next hdone => exact iff_of_true hdone List.mem_cons_self
        · next hdone => exact iff_of_false hdone hnot
      · refine ⟨fun hid => ?_, fun hid => ?_⟩
        · rw [hrest'.mem ((List.mem_cons.mp hid).resolve_left heq)]
          split
          · exact ⟨List.mem_cons_of_mem _, fun hmem => (List.mem_cons.mp hmem).resolve_left heq⟩
          · exact Iff.rfl
        · rw [← hother heq]
          exact hrest'.not_mem fun hmem => hid (List.mem_cons_of_mem _ hmem)

theorem Decoding.keys (h : Decoding skip e ids finished e') : e'.running.keys = e.running.keys := by
  induction h with
  | done => rfl
  | skip _ _ ih => exact ih
  | stall _ _ _ _ ih => exact ih
  | decode _ hr _ _ ih => exact ih.trans (Dict.keys_set_of_get? hr _)

/-- What the pass says is finished is running still, and finished. -/
theorem Decoding.ends (h : Decoding skip e e.running.keys finished e') (hbusy : Busy e)
    (hid : id ∈ finished) : ∃ seq, e'.running.get? id = some seq ∧ seq.isFinished = true := by
  have hmem := h.sublist.subset hid
  obtain ⟨seq, hseq⟩ := Dict.mem_keys.mp (h.keys.symm ▸ hmem)
  exact ⟨seq, hseq, ((h.resolved e.running.nodup (fun id _ => hbusy id) hseq).mem hmem).mpr hid⟩

/-- Who is still running was running before and is not one of those that left. -/
theorem Finishing.stays (h : Finishing e ids e') (hseq : e'.running.get? id = some seq) :
    id ∉ ids ∧ e.running.get? id = some seq := by
  induction h with
  | done => exact ⟨List.not_mem_nil, hseq⟩
  | @finish e e' id' ids seq' hr hdone _ ih =>
      obtain ⟨hnot, hget⟩ := ih hseq
      have hget : (e.running.erase id').get? id = some seq := hget
      rw [Dict.get?_erase] at hget
      split at hget
      · cases hget
      · next hne =>
        refine ⟨fun hmem => ?_, hget⟩
        rcases List.mem_cons.mp hmem with heq | hmem
        · exact hne heq
        · exact hnot hmem

theorem Busy.awake (h : Busy e) : Busy e.awake := by
  obtain ⟨eventLog, arrivedIds, hsame⟩ :=
    recordNewArrivals_same { e with now := e.now + e.decodeTick }
  rw [SimulationEngine.awake, hsame]
  exact h

/-- The decode pass leaves none finished that does not leave. -/
theorem Decoding.busy {e₂ e₃ : SimulationEngine} (h : Decoding skip e₁ e₁.running.keys finished e₂)
    (h' : Finishing e₂ finished e₃) (hbusy : Busy e₁) : Busy e₃ := by
  intro id seq hseq
  obtain ⟨hnot, hseq₂⟩ := h'.stays hseq
  have hresolved := h.resolved e₁.running.nodup (fun id _ => hbusy id) hseq₂
  by_cases hid : id ∈ e₁.running.keys
  · exact Nat.not_le.mp fun hle => hnot ((hresolved.mem hid).mp (decide_eq_true hle))
  · exact hbusy id seq (hresolved.not_mem hid)

end PassionProjects.MiniPaged
