/-
  PassionProjects.MiniPaged.Simulation.Step

  What the loop all engines share owes to the operations a class overrides: where they
  keep what the class adds in line with what is running, and raise nothing, a step raises
  nothing and is `Ticked`.
-/

import PassionProjects.MiniPaged.Simulation.Moves

namespace PassionProjects.MiniPaged

open Raising Raising.Prog

variable {κ : Type}

/-- The operations of a class keep `J`, which ties what the class adds to what is running,
    raise nothing, and leave the rest of the engine to the loop. -/
structure Hooks.Lawful (h : Hooks κ) (J : κ → Dict RequestId SequenceState → Prop) : Prop where
  beginTick (e : Engine κ) : Orderly e.toSimulationEngine → J e.own e.running →
    h.beginTick.Returns
      (fun _ e' => J e'.own e.running ∧ e'.toSimulationEngine = e.toSimulationEngine) e
  admitArrivals (e : Engine κ) : Orderly e.toSimulationEngine → J e.own e.running →
    h.admitArrivals.Returns (fun admitted e' => J e'.own e'.running ∧
      Admission e.recordNewArrivals e.recordNewArrivals.arrivedWaitingFcfs admitted
        e'.toSimulationEngine) e
  decode (e : Engine κ) (id : RequestId) (seq : SequenceState) :
    Orderly e.toSimulationEngine → J e.own e.running → e.running.get? id = some seq →
      seq.tokensGenerated < seq.targetOutputLen →
        (h.canDecode seq).Returns (fun can e' =>
          J e'.own e.running ∧ e'.toSimulationEngine = e.toSimulationEngine ∧
            (can = true → (h.onDecodeStep seq.decode).Returns
              (fun _ e'' => J e''.own (e.running.set id seq.decode) ∧
                e''.toSimulationEngine =
                  { e.toSimulationEngine with running := e.running.set id seq.decode })
              { e with running := e.running.set id seq.decode, own := e'.own })) e
  release (e : Engine κ) (id : RequestId) (seq : SequenceState) (spec : TraceRequestSpec)
    (completed : List SequenceState) (eventLog : List Event) :
    Runs id spec seq → J e.own e.running → e.running.get? id = some seq →
      (h.onRelease (seq.complete e.now)).Returns
        (fun _ e' => J e'.own (e.running.erase id) ∧
          e'.toSimulationEngine =
            { e.toSimulationEngine with running := e.running.erase id, completed, eventLog })
        { e with running := e.running.erase id, completed, eventLog }
  endTick (e : Engine κ) : Orderly e.toSimulationEngine → J e.own e.running →
    h.endTick.Returns
      (fun _ e' => J e'.own e.running ∧ e'.toSimulationEngine = e.toSimulationEngine) e

/-- The invariant of an engine between the parts of a step. -/
structure Kept (J : κ → Dict RequestId SequenceState → Prop) (e : Engine κ) : Prop where
  orderly : Orderly e.toSimulationEngine
  own : J e.own e.running

namespace Engine

variable {h : Hooks κ} {J : κ → Dict RequestId SequenceState → Prop} {e : Engine κ}
  {id : RequestId} {ids skip : List RequestId} {seq : SequenceState}

theorem stepDecode_eq (hlt : seq.tokensGenerated < seq.targetOutputLen) :
    seq.stepDecode = .ok seq.decode := by
  have hnot : ¬ seq.isFinished = true := by
    rw [SequenceState.isFinished, decide_eq_true_eq]
    exact Nat.not_le.mpr hlt
  rw [SequenceState.stepDecode, if_neg hnot]
  rfl

/-- A sequence that is not finished decodes or is stalled. -/
theorem decodeOne_then (hlawful : h.Lawful J) (hkept : Kept J e) (hskip : id ∉ skip)
    (hseq : e.running.get? id = some seq) (hlt : seq.tokensGenerated < seq.targetOutputLen) :
    (decodeOne h skip id).Returns (fun finished e' => Kept J e' ∧
      (finished = false ∧ e'.toSimulationEngine = e.stall id ∨
        finished = seq.decode.isFinished ∧ e'.toSimulationEngine = e.decode id seq)) e := by
  refine wp_bind (wp_read.mpr (wp_bind (wp_unwrap hseq ?_)))
  rw [if_neg hskip]
  refine wp_bind (Returns.mono (hlawful.decode e id seq hkept.orderly hkept.own hseq hlt)
    fun can e₁ ⟨hown₁, hbase₁, hgrow⟩ => ?_)
  cases can with
  | false =>
      rw [if_neg Bool.false_ne_true]
      refine wp_bind (wp_modify.mpr (wp_pure.mpr ⟨⟨?_, ?_⟩, Or.inl ⟨rfl, ?_⟩⟩))
      · rw [hbase₁]
        exact hkept.orderly.record _ _ _ _
      · rw [hbase₁]
        exact hown₁
      · rw [hbase₁]
        rfl
  | true =>
      rw [if_pos rfl]
      refine wp_bind (wp_ofExcept (stepDecode_eq hlt) (wp_bind (wp_modify.mpr ?_)))
      rw [hbase₁]
      refine wp_bind (Returns.mono (hgrow rfl) fun _ e₂ ⟨hown₂, hbase₂⟩ => ?_)
      refine wp_bind (wp_modify.mpr (wp_pure.mpr ⟨⟨?_, ?_⟩, Or.inr ⟨rfl, ?_⟩⟩))
      · rw [hbase₂]
        exact hkept.orderly.decode hseq hlt
      · rw [hbase₂]
        exact hown₂
      · rw [hbase₂]
        rfl

/-- The decode pass. -/
theorem decodeEach_decoding (hlawful : h.Lawful J) (hkept : Kept J e) (hnodup : ids.Nodup)
    (hdue : ∀ id ∈ ids, ∃ seq, e.running.get? id = some seq ∧
      seq.tokensGenerated < seq.targetOutputLen) :
    (decodeEach h skip ids).Returns (fun finished e' => Kept J e' ∧
      Decoding skip e.toSimulationEngine ids finished e'.toSimulationEngine) e := by
  induction ids generalizing e with
  | nil => exact wp_pure.mpr ⟨hkept, .done⟩
  | cons id ids ih =>
      rw [List.nodup_cons] at hnodup
      obtain ⟨seq, hseq, hlt⟩ := hdue id List.mem_cons_self
      have hdue' : ∀ id ∈ ids, ∃ seq, e.running.get? id = some seq ∧
          seq.tokensGenerated < seq.targetOutputLen :=
        fun id hid => hdue id (List.mem_cons_of_mem _ hid)
      by_cases hskip : id ∈ skip
      · refine wp_bind (wp_bind (wp_read.mpr (wp_bind (wp_unwrap hseq ?_))))
        rw [if_pos hskip]
        refine wp_pure.mpr (wp_bind (Returns.mono (ih hkept hnodup.2 hdue')
          fun finished e' ⟨hkept', hrest⟩ => wp_pure.mpr ⟨hkept', ?_⟩))
        exact .skip hskip hrest
      refine wp_bind (Returns.mono (decodeOne_then hlawful hkept hskip hseq hlt)
        fun one e₁ ⟨hkept₁, hone⟩ => ?_)
      have hrunning₁ : ∀ x ∈ ids, e₁.running.get? x = e.running.get? x := by
        intro x hx
        have hne : x ≠ id := fun heq => hnodup.1 (heq ▸ hx)
        rcases hone with ⟨-, hbase⟩ | ⟨-, hbase⟩
        · rw [hbase]
          rfl
        · rw [hbase]
          exact Dict.get?_set_ne hne
      refine wp_bind (Returns.mono (ih hkept₁ hnodup.2 fun x hx => hrunning₁ x hx ▸ hdue' x hx)
        fun finished e' ⟨hkept', hrest⟩ => wp_pure.mpr ⟨hkept', ?_⟩)
      rcases hone with ⟨rfl, hbase⟩ | ⟨rfl, hbase⟩
      · rw [hbase] at hrest
        exact .stall hskip hseq hlt hrest
      · rw [hbase] at hrest
        exact .decode hskip hseq hlt hrest

/-- The finished sequences leave. -/
theorem finishEach_finishing (hlawful : h.Lawful J) (hkept : Kept J e) (hnodup : ids.Nodup)
    (hdone : ∀ id ∈ ids, ∃ seq, e.running.get? id = some seq ∧ seq.isFinished = true) :
    (forEach ids (finishOne h)).Returns (fun _ e' => Kept J e' ∧
      Finishing e.toSimulationEngine ids e'.toSimulationEngine) e := by
  induction ids generalizing e with
  | nil => exact wp_pure.mpr ⟨hkept, .done⟩
  | cons id ids ih =>
      rw [List.nodup_cons] at hnodup
      obtain ⟨seq, hseq, hfinished⟩ := hdone id List.mem_cons_self
      obtain ⟨spec, -, hruns⟩ := hkept.orderly.running id seq hseq
      have htransition : seq.request.transitionTo .COMPLETED =
          .ok { seq.request with state := .COMPLETED } := by
        rw [Request.transitionTo, hruns.state]
        rfl
      refine wp_bind (wp_bind (wp_read.mpr (wp_bind (wp_unwrap hseq (wp_bind (wp_modify.mpr ?_))))))
      refine wp_bind
        (wp_ofExcept htransition (wp_bind (wp_modify.mpr (wp_bind (wp_modify.mpr ?_)))))
      refine Returns.mono (hlawful.release e id seq spec _ _ hruns hkept.own hseq)
        fun _ e₁ hreleased => ?_
      obtain ⟨hown₁, hbase₁⟩ := hreleased
      have hbase₁ : e₁.toSimulationEngine = e.finish id seq := hbase₁
      have hkept₁ : Kept J e₁ := by
        refine ⟨?_, ?_⟩
        · rw [hbase₁]
          exact hkept.orderly.finish _ _ _
        · rw [hbase₁]
          exact hown₁
      refine Returns.mono (ih hkept₁ hnodup.2 fun x hx => ?_) fun _ e' hfinishing => ?_
      · obtain ⟨other, hother, hend⟩ := hdone x (List.mem_cons_of_mem _ hx)
        have hne : x ≠ id := fun heq => hnodup.1 (heq ▸ hx)
        rw [hbase₁]
        exact ⟨other, (Dict.get?_erase_ne hne).trans hother, hend⟩
      · obtain ⟨hkept', hrest⟩ := hfinishing
        rw [hbase₁] at hrest
        exact ⟨hkept', .finish hseq hfinished hrest⟩

-- ============================================================================
-- Admission with the loop of the base class
-- ============================================================================

variable {r : Request} {spec : TraceRequestSpec}
  {tryAdmit : Request → TraceRequestSpec → Py (Engine κ) Bool}

/-- A request that can never be admitted leaves `waiting`. -/
theorem dropRequest_spec (detail : List (String × Detail)) (hid : r.requestId ∈ e.waiting.keys)
    (hstate : r.state = .WAITING) :
    (dropRequest r detail).Returns
      (fun r' e' => r' = { r with state := .CANCELLED } ∧
        e' = { e with toSimulationEngine := e.drop r detail }) e := by
  have htransition : r.transitionTo .CANCELLED = .ok { r with state := .CANCELLED } := by
    rw [Request.transitionTo, hstate]
    rfl
  refine wp_bind (wp_read.mpr (wp_bind (wp_check hid (wp_bind (wp_modify.mpr ?_)))))
  refine wp_bind (wp_ofExcept htransition (wp_bind (wp_modify.mpr ?_)))
  exact wp_bind (wp_modify.mpr (wp_bind (wp_modify.mpr (wp_pure.mpr ⟨rfl, rfl⟩))))

/-- The loop over the waiting requests. -/
theorem admitEach_admission (htry : ∀ (e : Engine κ) id r spec, Kept J e →
      e.waiting.get? id = some r → e.specById.get? id = some spec →
        (tryAdmit r spec).Returns (fun ok e' => J e'.own e'.running ∧
          Answer e.toSimulationEngine id r spec ok e'.toSimulationEngine) e)
    (hkept : Kept J e) :
    (admitEach tryAdmit ids).Returns (fun admitted e' => J e'.own e'.running ∧
      Admission e.toSimulationEngine ids admitted e'.toSimulationEngine) e := by
  induction ids generalizing e with
  | nil => exact wp_pure.mpr ⟨hkept.own, .stop⟩
  | cons id ids ih =>
      refine wp_bind (wp_read.mpr ?_)
      cases hw : e.waiting.get? id with
      | none => exact Returns.mono (ih hkept) fun _ _ ⟨hown, hrest⟩ => ⟨hown, .skip hrest⟩
      | some r =>
          obtain ⟨spec, hs, -, -⟩ := hkept.orderly.waiting id r hw
          refine wp_bind (wp_unwrap hs (wp_bind (Returns.mono (htry e id r spec hkept hw hs)
            fun ok e₁ ⟨hown₁, hanswer⟩ => ?_)))
          have hkept₁ : Kept J e₁ := ⟨hanswer.orderly hkept.orderly hw hs, hown₁⟩
          exact wp_bind (Returns.mono (ih hkept₁) fun _ _ ⟨hown, hrest⟩ =>
            wp_pure.mpr ⟨hown, .ask hw hs hanswer hrest⟩)

/-- `_admit_arrivals` is the admission of a step. -/
theorem admitArrivals_admission (htry : ∀ (e : Engine κ) id r spec, Kept J e →
      e.waiting.get? id = some r → e.specById.get? id = some spec →
        (tryAdmit r spec).Returns (fun ok e' => J e'.own e'.running ∧
          Answer e.toSimulationEngine id r spec ok e'.toSimulationEngine) e)
    (horderly : Orderly e.toSimulationEngine) (hown : J e.own e.running) :
    (admitArrivals tryAdmit).Returns (fun admitted e' => J e'.own e'.running ∧
      Admission e.recordNewArrivals e.recordNewArrivals.arrivedWaitingFcfs admitted
        e'.toSimulationEngine) e := by
  have hrunning : e.recordNewArrivals.running = e.running := by
    obtain ⟨eventLog, arrivedIds, hsame⟩ := recordNewArrivals_same e.toSimulationEngine
    rw [hsame]
  have hkept : Kept J { e with toSimulationEngine := e.recordNewArrivals } :=
    ⟨horderly.arrivals, by rw [hrunning]; exact hown⟩
  exact wp_bind (wp_modify.mpr (wp_bind (wp_read.mpr (admitEach_admission htry hkept))))

-- ============================================================================
-- A whole step
-- ============================================================================

/-- A step of any engine raises nothing and is `Ticked`. -/
theorem step_ticked (hlawful : h.Lawful J) (hkept : Kept J e) (hbusy : Busy e.toSimulationEngine)
    (htick : 0 ≤ e.decodeTick) :
    (step h).Returns (fun _ e' => Kept J e' ∧ Busy e'.toSimulationEngine ∧
      Ticked e.toSimulationEngine e'.toSimulationEngine) e := by
  refine wp_bind (wp_read.mpr (wp_bind (wp_bind (wp_check htick (wp_modify.mpr ?_)))))
  have horderly : Orderly { e.toSimulationEngine with now := e.now + e.decodeTick } :=
    ⟨hkept.orderly.waiting, hkept.orderly.running, hkept.orderly.apart⟩
  refine wp_bind (Returns.mono (hlawful.beginTick _ horderly hkept.own)
    fun _ e₀ ⟨hown₀, hbase₀⟩ => ?_)
  have horderly₀ : Orderly e₀.toSimulationEngine := hbase₀ ▸ horderly
  have hown₀ : J e₀.own e₀.running := by
    rw [hbase₀]
    exact hown₀
  refine wp_bind (Returns.mono (hlawful.admitArrivals _ horderly₀ hown₀)
    fun admitted e₁ ⟨hown₁, hadmission⟩ => ?_)
  rw [hbase₀] at hadmission
  have hadmission : Admission e.awake e.awake.arrivedWaitingFcfs admitted
      e₁.toSimulationEngine := hadmission
  have hkept₁ : Kept J e₁ := ⟨hadmission.orderly hkept.orderly.awake, hown₁⟩
  have hbusy₁ : Busy e₁.toSimulationEngine := hadmission.busy hbusy.awake
  have hdue : ∀ id ∈ e₁.running.keys, ∃ seq, e₁.running.get? id = some seq ∧
      seq.tokensGenerated < seq.targetOutputLen := by
    intro id hid
    obtain ⟨seq, hseq⟩ := Dict.mem_keys.mp hid
    exact ⟨seq, hseq, hbusy₁ id seq hseq⟩
  refine wp_bind (wp_bind (wp_read.mpr (wp_bind (Returns.mono
    (decodeEach_decoding hlawful hkept₁ e₁.running.nodup hdue)
      fun finished e₂ ⟨hkept₂, hdecoding⟩ => ?_))))
  refine Returns.mono (finishEach_finishing hlawful hkept₂
    (e₁.running.nodup.sublist hdecoding.sublist) fun _ => hdecoding.ends hbusy₁)
      fun _ e₃ ⟨hkept₃, hfinishing⟩ => ?_
  refine Returns.mono (hlawful.endTick _ hkept₃.orderly hkept₃.own)
    fun _ e₄ ⟨hown₄, hbase₄⟩ => ⟨⟨?_, ?_⟩, ?_, ?_⟩
  · rw [hbase₄]
    exact hkept₃.orderly
  · rw [hbase₄]
    exact hown₄
  · rw [hbase₄]
    exact hdecoding.busy hfinishing hbusy₁
  · rw [hbase₄]
    exact .tick hadmission hdecoding hfinishing

end Engine

/-- The base class admits every request. -/
theorem SimulationEngine.lawful : SimulationEngine.hooks.Lawful fun _ _ => True where
  beginTick _ _ hown := wp_pure.mpr ⟨hown, rfl⟩
  admitArrivals _ horderly hown := Engine.admitArrivals_admission (J := fun _ _ => True)
      (fun e id r spec hkept hw hs => by
    obtain ⟨hasked, hstate⟩ := hkept.orderly.asked hw hs
    obtain rfl := hasked.id
    refine wp_bind (Returns.mono (Engine.admitRequest_spec (Dict.mem_keys_of_get? hw) hasked hstate)
      fun _ e' he' => wp_pure.mpr ⟨trivial, ?_⟩)
    rw [he']
    exact .granted) horderly hown
  decode _ _ _ _ hown _ _ := wp_pure.mpr ⟨hown, rfl, fun _ => wp_pure.mpr ⟨hown, rfl⟩⟩
  release _ _ _ _ _ _ _ hown _ := wp_pure.mpr ⟨hown, rfl⟩
  endTick _ _ hown := wp_pure.mpr ⟨hown, rfl⟩

end PassionProjects.MiniPaged
