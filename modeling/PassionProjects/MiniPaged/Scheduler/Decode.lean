/-
  PassionProjects.MiniPaged.Scheduler.Decode

  The decode pass of the scheduler: every running sequence that was not just admitted
  finds room for one more token, and the finished ones give back their blocks and their
  reservation.  No sequence is ever stalled.
-/

import PassionProjects.MiniPaged.Scheduler.Admission

namespace PassionProjects.MiniPaged

open Raising Raising.Prog

variable {lim : Limits} {e : SchedulerEngine} {b : SimulationEngine} {id : RequestId}
  {seq : SequenceState} {spec : TraceRequestSpec} {skip : List RequestId}

@[simp] theorem advance_requestId (skip : List RequestId) (seq : SequenceState) :
    (seq.advance skip).requestId = seq.requestId := by
  unfold SequenceState.advance
  split <;> rfl

@[simp] theorem advance_request : (seq.advance skip).request = seq.request := by
  unfold SequenceState.advance
  split <;> rfl

-- ============================================================================
-- One sequence decodes
-- ============================================================================

/-- The watermarks do not depend on the tokens generated. -/
theorem Limits.committed_setRunning (lim : Limits) (seq' : SequenceState)
    (hid : b.running.get? id = some seq) (hsame : seq'.request = seq.request)
    (eventLog : List Event) :
    lim.committed { b with running := b.running.set id seq', eventLog } = lim.committed b := by
  have hmap := Dict.mapVal_set_same (f := fun s : SequenceState => lim.watermark s.request)
    hid (show lim.watermark seq'.request = lim.watermark seq.request by rw [hsame])
  have hvalues := congrArg (fun d => d.values.sum) hmap
  simp only [Dict.values_mapVal] at hvalues
  exact hvalues

/-- The manager has grown the table of one sequence. -/
theorem Backed.setRunning {mgr mgr' : PagedKVManager} {ledger : ContiguousMemoryModel}
    {seq' : SequenceState} (h : Backed lim mgr ledger b.running)
    (hid : b.running.get? id = some seq) (hsame : seq'.request = seq.request)
    (hmgr : mgr.SameManager mgr')
    (hholds : mgr'.Holds ((b.running.mapVal SequenceState.currentLen).set id seq'.currentLen)) :
    Backed lim mgr' ledger (b.running.set id seq') where
  numBlocks := hmgr.1.1.trans h.numBlocks
  blockSize := hmgr.2.trans h.blockSize
  capacity := h.capacity
  holds := by
    rw [Dict.mapVal_set]
    exact hholds
  ledger := by
    rw [h.ledger, Dict.mapVal_set_same hid]
    simp only [Limits.reservation, SequenceState.requestId, hsame]

namespace SchedulerEngine

open Engine

/-- The fields of the scheduler that a pass leaves alone. -/
def SameBooks (e e' : SchedulerEngine) : Prop :=
  e'.own.decisions = e.own.decisions ∧
    e'.own.prefillBudgetRemaining = e.own.prefillBudgetRemaining

theorem SameBooks.trans {e e' e'' : SchedulerEngine} (h : SameBooks e e') (h' : SameBooks e' e'') :
    SameBooks e e'' :=
  ⟨h'.1.trans h.1, h'.2.trans h.2⟩

/-- What the manager does, done to the manager of the scheduler. -/
theorem onManager_spec {α : Type} {m : Py PagedKVManager α} {Q : α → PagedKVManager → Prop}
    (h : m.Returns Q e.own.manager) :
    (PagedKVEngine.onManager m : Py SchedulerEngine α).Returns (fun a e' =>
      Q a e'.own.manager ∧ e' = { e with own := { e.own with manager := e'.own.manager } }) e :=
  wp_onPart (wp_mono h (fun _ _ hQ => ⟨hQ, rfl⟩) fun _ _ hR => hR)

theorem Sound.lens (h : Sound lim e) (hid : e.running.get? id = some seq) :
    (e.running.mapVal SequenceState.currentLen).get? seq.requestId = some seq.currentLen := by
  obtain ⟨spec, -, hruns⟩ := h.orderly.running id seq hid
  rw [Dict.get?_mapVal, SequenceState.requestId, hruns.asked.id, hid]
  rfl

/-- A sequence that is not finished may decode. -/
theorem canDecode_spec (h : Sound lim e) (hid : e.running.get? id = some seq)
    (hlt : seq.tokensGenerated < seq.targetOutputLen) :
    (hooks.canDecode seq).Returns (fun can e' => can = true ∧ e' = e) e := by
  have hgrowth := h.growth hid hlt
  rw [← h.backed.blockSize] at hgrowth
  have hcan := PagedKVManager.canGrowTo_spec h.backed.holds (Sound.lens h hid) hgrowth
  refine Returns.mono (onManager_spec hcan) fun can e' ⟨⟨hcan, hmgr⟩, he'⟩ => ⟨hcan, ?_⟩
  rw [he', hmgr]

/-- The table of a sequence that is not finished grows with it. -/
theorem onDecodeStep_spec (h : Sound lim e) (hid : e.running.get? id = some seq)
    (hlt : seq.tokensGenerated < seq.targetOutputLen) :
    (hooks.onDecodeStep seq.decode).Returns (fun _ e' =>
      Backed lim e'.own.manager e'.own.ledger (e.running.set id seq.decode) ∧
        e' = { e with
          running := e.running.set id seq.decode
          own := { e.own with manager := e'.own.manager } })
      { e with running := e.running.set id seq.decode } := by
  obtain ⟨spec, -, hruns⟩ := h.orderly.running id seq hid
  have hseq : seq.requestId = id := hruns.asked.id
  have hgrowth := h.growth hid hlt
  rw [← h.backed.blockSize] at hgrowth
  have hgrow := PagedKVManager.grow_spec h.backed.holds (Sound.lens h hid) (Nat.le_succ _) hgrowth
  refine wp_bind (Returns.mono (onManager_spec hgrow) fun _ e' ⟨⟨hholds, hsame⟩, he'⟩ => ?_)
  rw [hseq] at hholds
  exact wp_pure.mpr ⟨he' ▸ h.backed.setRunning hid rfl hsame hholds, he'⟩

/-- The decode step of a sequence: it is not stalled. -/
theorem decodeOne_spec (skip : List RequestId) (h : Sound lim e)
    (hid : e.running.get? id = some seq)
    (hlt : seq.tokensGenerated < seq.targetOutputLen) :
    (decodeOne hooks skip id).Returns (fun finished e' => Sound lim e' ∧ SameBooks e e' ∧
      finished = (decide (id ∉ skip) && (seq.advance skip).isFinished) ∧
      e'.toSimulationEngine = { e.toSimulationEngine with
        running := e.running.set id (seq.advance skip)
        eventLog := e.eventLog ++
          if id ∈ skip then [] else
            [SimulationEngine.decodeEvent e.now (seq.advance skip)] }) e := by
  obtain ⟨spec, hspec, hruns⟩ := h.orderly.running id seq hid
  have hseq : seq.requestId = id := hruns.asked.id
  refine wp_bind (wp_read.mpr (wp_bind (wp_unwrap hid ?_)))
  by_cases hskip : id ∈ skip
  · have hadvance : seq.advance skip = seq := by
      rw [SequenceState.advance, if_pos (hseq.symm ▸ hskip)]
    rw [if_pos hskip, if_pos hskip, hadvance, Dict.set_self hid, List.append_nil]
    refine wp_pure.mpr ⟨h, ⟨rfl, rfl⟩, ?_, rfl⟩
    rw [decide_eq_false (by simpa using hskip), Bool.false_and]
  · have hadvance : seq.advance skip = seq.decode := by
      rw [SequenceState.advance, if_neg (hseq.symm ▸ hskip)]
      rfl
    rw [if_neg hskip, if_neg hskip, hadvance]
    refine wp_bind (Returns.mono (canDecode_spec h hid hlt) fun can e' ⟨hcan, he'⟩ => ?_)
    subst he'
    rw [if_pos hcan]
    refine wp_bind (wp_ofExcept (stepDecode_eq hlt) (wp_bind (wp_modify.mpr (wp_bind ?_))))
    refine Returns.mono (onDecodeStep_spec h hid hlt) fun _ e'' ⟨hbacked, he''⟩ => ?_
    rw [he'']
    refine wp_bind (wp_modify.mpr (wp_pure.mpr ⟨?_, ⟨rfl, rfl⟩, ?_, ?_⟩))
    · rw [he''] at hbacked
      exact ⟨h.orderly.setRunning hid hspec (hruns.decode hlt) _, hbacked, h.tokenBudget,
        (lim.committed_setRunning seq.decode hid rfl _).trans_le h.fits⟩
    · rw [decide_eq_true hskip, Bool.true_and]
    · rw [SimulationEngine.decodeEvent, show seq.decode.requestId = id from hseq]
      rfl

/-- The events of a decode pass over some entries. -/
def decodeEvents (now : ℚ) (skip : List RequestId) (entries : List (RequestId × SequenceState)) :
    List Event :=
  ((entries.map Prod.snd).filter fun seq => seq.requestId ∉ skip).map
    fun seq => SimulationEngine.decodeEvent now (seq.advance skip)

/-- The first loop of the decode pass, over the entries from one on. -/
theorem decodeEach_spec (skip : List RequestId) (post pre : List (RequestId × SequenceState))
    (h : Sound lim e)
    (hentries : e.running.entries = pre ++ post)
    (hbusy : ∀ x ∈ post, x.2.tokensGenerated < x.2.targetOutputLen) :
    (decodeEach hooks skip (post.map Prod.fst)).Returns (fun finished e' => Sound lim e' ∧
      SameBooks e e' ∧
      e'.running.entries = pre ++ post.map (fun x => (x.1, x.2.advance skip)) ∧
      e'.toSimulationEngine = { e.toSimulationEngine with
        running := e'.running
        eventLog := e.eventLog ++ decodeEvents e.now skip post } ∧
      finished = (post.filter fun x => decide (x.1 ∉ skip) && (x.2.advance skip).isFinished).map
        Prod.fst) e := by
  induction post generalizing pre e with
  | nil =>
      refine wp_pure.mpr ⟨h, ⟨rfl, rfl⟩, hentries, ?_, rfl⟩
      rw [decodeEvents, List.map_nil, List.filter_nil, List.map_nil, List.append_nil]
  | cons x post ih =>
      have hid : e.running.get? x.1 = some x.2 := Dict.get?_of_mem (by rw [hentries]; simp)
      obtain ⟨spec, -, hruns⟩ := h.orderly.running x.1 x.2 hid
      have hone := decodeOne_spec skip h hid (hbusy x List.mem_cons_self)
      refine wp_bind (Returns.mono hone fun finished e₁ ⟨h₁, hsame₁, hfinished, hbase₁⟩ => ?_)
      have hentries₁ : e₁.running.entries = (pre ++ [(x.1, x.2.advance skip)]) ++ post := by
        have hset := Dict.entries_set_split hentries (x.2.advance skip)
        rw [List.append_assoc]
        exact (congrArg (fun b => b.running.entries) hbase₁).trans hset
      have hrest := ih _ h₁ hentries₁ fun y hy => hbusy y (List.mem_cons_of_mem _ hy)
      refine wp_bind (Returns.mono hrest
        fun rest e₂ ⟨h₂, hsame₂, hentries₂, hbase₂, hfinished₂⟩ => ?_)
      refine wp_pure.mpr ⟨h₂, hsame₁.trans hsame₂, ?_, ?_, ?_⟩
      · rw [hentries₂, List.append_assoc]
        rfl
      · rw [hbase₂, hbase₁]
        have hevents : (if x.1 ∈ skip then []
            else [SimulationEngine.decodeEvent e.now (x.2.advance skip)]) ++
              decodeEvents e.now skip post = decodeEvents e.now skip (x :: post) := by
          have hseq : x.2.requestId = x.1 := hruns.asked.id
          rw [decodeEvents, decodeEvents, List.map_cons]
          by_cases hskip : x.1 ∈ skip
          · rw [if_pos hskip, List.filter_cons_of_neg (by simpa [hseq] using hskip),
              List.nil_append]
          · rw [if_neg hskip, List.filter_cons_of_pos (by simpa [hseq] using hskip), List.map_cons]
            rfl
        rw [← hevents, ← List.append_assoc]
      · rw [hfinished, hfinished₂, List.filter_cons]
        cases decide (x.1 ∉ skip) && (x.2.advance skip).isFinished <;> rfl

-- ============================================================================
-- The finished sequences leave
-- ============================================================================

/-- A sequence that leaves gives back its blocks and its reservation. -/
theorem onRelease_spec {completed : List SequenceState} {eventLog : List Event} {now : ℚ}
    (hbooked : Booked lim e.own e.running) (hruns : Runs id spec seq)
    (hid : e.running.get? id = some seq) :
    (hooks.onRelease (seq.complete now)).Returns (fun _ e' =>
      Booked lim e'.own (e.running.erase id) ∧ e' = { e with
        running := e.running.erase id
        completed, eventLog
        own := { e.own with manager := e'.own.manager, ledger := e'.own.ledger } })
      { e with running := e.running.erase id, completed, eventLog } := by
  have hseq : seq.requestId = id := hruns.asked.id
  have hlen : (e.running.mapVal SequenceState.currentLen).get? seq.requestId =
      some seq.currentLen := hseq.symm ▸ PagedKVEngine.currentLen_get? hid
  have hrelease := PagedKVManager.release_spec hbooked.backed.holds hlen
  refine wp_bind (wp_bind (Returns.mono (onManager_spec hrelease)
    fun _ e₁ ⟨⟨hholds, hsame⟩, he₁⟩ => ?_))
  have hreserved : e.own.ledger.reservations.get? seq.requestId = some (lim.reservation seq) := by
    rw [hbooked.backed.ledger, Dict.get?_mapVal, hseq, hid]
    rfl
  rw [he₁]
  refine wp_pure.mpr (wp_bind (wp_onPart ?_))
  refine Returns.mono (ContiguousMemoryModel.release_spec hreserved) fun _ ledger' hledger => ?_
  subst hledger
  have hperm := Dict.values_perm hid
  have hcommitted := (hperm.map fun s => lim.watermark s.request).sum_eq
  rw [List.map_cons, List.sum_cons] at hcommitted
  rw [hseq] at hholds
  refine wp_pure.mpr ⟨⟨?_, hbooked.tokenBudget, ?_⟩, rfl⟩
  · exact {
      numBlocks := hsame.1.1.trans hbooked.backed.numBlocks
      blockSize := hsame.2.trans hbooked.backed.blockSize
      capacity := hbooked.backed.capacity
      holds := by
        rw [Dict.mapVal_erase]
        exact hholds
      ledger := by
        show e.own.ledger.reservations.erase seq.requestId = (e.running.erase id).mapVal _
        rw [Dict.mapVal_erase, hbooked.backed.ledger, hseq] }
  · have hfits := hbooked.fits
    omega

/-- A finished sequence leaves. -/
theorem finishOne_spec (h : Sound lim e) (hid : e.running.get? id = some seq) :
    (finishOne hooks id).Returns (fun _ e' => Sound lim e' ∧ SameBooks e e' ∧
      e'.toSimulationEngine = { e.toSimulationEngine with
        running := e.running.erase id
        completed := e.completed ++ [seq.complete e.now]
        eventLog := e.eventLog ++ [⟨e.now, id, .COMPLETED, []⟩] }) e := by
  obtain ⟨spec, hspec, hruns⟩ := h.orderly.running id seq hid
  have htransition : seq.request.transitionTo .COMPLETED =
      .ok { seq.request with state := .COMPLETED } := by
    rw [Request.transitionTo, hruns.state]
    rfl
  refine wp_bind (wp_read.mpr (wp_bind (wp_unwrap hid (wp_bind (wp_modify.mpr ?_)))))
  refine wp_bind (wp_ofExcept htransition (wp_bind (wp_modify.mpr (wp_bind (wp_modify.mpr ?_)))))
  refine Returns.mono (onRelease_spec (sound_iff_kept.mp h).own hruns hid)
    fun _ e' hreleased => ?_
  obtain ⟨hbooked, he'⟩ := hreleased
  rw [he'] at hbooked ⊢
  exact ⟨⟨h.orderly.finish id _ _, hbooked.backed, hbooked.tokenBudget, hbooked.fits⟩,
    ⟨rfl, rfl⟩, rfl⟩

/-- The second loop of the decode pass. -/
theorem finishEach_spec (done : List (RequestId × SequenceState)) (h : Sound lim e)
    (hdone : ∀ x ∈ done, e.running.get? x.1 = some x.2) (hnodup : (done.map Prod.fst).Nodup) :
    (forEach (done.map Prod.fst) (finishOne hooks)).Returns (fun _ e' => Sound lim e' ∧
      SameBooks e e' ∧
      e'.running.entries = e.running.entries.filter (fun x => x.1 ∉ done.map Prod.fst) ∧
      e'.toSimulationEngine = { e.toSimulationEngine with
        running := e'.running
        completed := e.completed ++ done.map fun x => x.2.complete e.now
        eventLog := e.eventLog ++ done.map fun x => ⟨e.now, x.1, .COMPLETED, []⟩ }) e := by
  induction done generalizing e with
  | nil =>
      refine wp_pure.mpr ⟨h, ⟨rfl, rfl⟩, ?_, ?_⟩
      · simp
      · simp only [List.map_nil, List.append_nil]
  | cons x done ih =>
      rw [List.map_cons, List.nodup_cons] at hnodup
      have hone := finishOne_spec h (hdone x List.mem_cons_self)
      refine wp_bind (Returns.mono hone fun _ e₁ ⟨h₁, hsame₁, hbase₁⟩ => ?_)
      have hrunning₁ : e₁.running = e.running.erase x.1 := congrArg (fun b => b.running) hbase₁
      have hrest := ih h₁ (fun y hy => by
        have hne : y.1 ≠ x.1 := fun heq => hnodup.1 (heq ▸ List.mem_map_of_mem hy)
        rw [hrunning₁, Dict.get?_erase_ne hne]
        exact hdone y (List.mem_cons_of_mem _ hy)) hnodup.2
      refine Returns.mono hrest fun _ e₂ ⟨h₂, hsame₂, hentries₂, hbase₂⟩ => ?_
      refine ⟨h₂, hsame₁.trans hsame₂, ?_, ?_⟩
      · rw [hentries₂, hrunning₁]
        show (e.running.entries.filter _).filter _ = _
        rw [List.filter_filter]
        refine List.filter_congr fun y _ => ?_
        rw [List.map_cons, ← Bool.decide_and]
        exact decide_eq_decide.mpr (by rw [List.mem_cons, not_or]; exact and_comm)
      · rw [hbase₂, hbase₁]
        simp only [List.map_cons, List.append_assoc, List.singleton_append]

/-- The decode pass is `decodeAll` and then `finishAll`. -/
theorem decodeStep_spec (h : Sound lim e) (hbusy : Busy e.toSimulationEngine) :
    (decodeStep hooks skip).Returns (fun _ e' => Sound lim e' ∧ SameBooks e e' ∧
      e'.toSimulationEngine = (e.decodeAll skip).finishAll) e := by
  have hentry : ∀ x ∈ e.running.entries, e.running.get? x.1 = some x.2 :=
    fun x hx => Dict.get?_of_mem hx
  have hid : ∀ x ∈ e.running.entries, x.2.requestId = x.1 := fun x hx => by
    obtain ⟨spec, -, hruns⟩ := h.orderly.running x.1 x.2 (hentry x hx)
    exact hruns.asked.id
  have hbusy' : ∀ x ∈ e.running.entries, x.2.tokensGenerated < x.2.targetOutputLen :=
    fun x hx => hbusy x.1 x.2 (hentry x hx)
  -- what was just admitted is not finished
  have hdecoded : ∀ x ∈ e.running.entries,
      (decide (x.1 ∉ skip) && (x.2.advance skip).isFinished) = (x.2.advance skip).isFinished := by
    intro x hx
    by_cases hskip : x.1 ∈ skip
    · have hnot : (x.2.advance skip).isFinished = false := by
        rw [SequenceState.advance, if_pos ((hid x hx).symm ▸ hskip)]
        exact decide_eq_false (Nat.not_le.mpr (hbusy' x hx))
      rw [hnot, Bool.and_false]
    · rw [decide_eq_true hskip, Bool.true_and]
  have heach := decodeEach_spec skip e.running.entries [] h rfl hbusy'
  refine wp_bind (wp_read.mpr (wp_bind (Returns.mono heach
    fun finished e₁ ⟨h₁, hsame₁, hentries₁, hbase₁, hfinished⟩ => ?_)))
  have hrunning₁ : e₁.running = e.running.mapVal (SequenceState.advance skip) :=
    Dict.ext (hentries₁.trans (List.nil_append _))
  have hbase₁ : e₁.toSimulationEngine = e.decodeAll skip := by
    rw [hbase₁, hrunning₁]
    rfl
  have hdone : finished = (e₁.running.entries.filter fun x => x.2.isFinished).map Prod.fst := by
    rw [hfinished, List.filter_congr hdecoded, hentries₁, List.nil_append, List.filter_map,
      List.map_map]
    rfl
  rw [hdone]
  have hfinish := finishEach_spec (e₁.running.entries.filter fun x => x.2.isFinished) h₁
    (fun x hx => Dict.get?_of_mem (List.mem_filter.mp hx).1)
    (e₁.running.nodup.sublist (List.filter_sublist.map _))
  refine Returns.mono hfinish fun _ e₂ ⟨h₂, hsame₂, hentries₂, hbase₂⟩ => ?_
  refine ⟨h₂, hsame₁.trans hsame₂, ?_⟩
  have hrunning₂ : e₂.running = e₁.running.filter fun x => !x.2.isFinished :=
    Dict.ext (hentries₂.trans (Dict.filter_not_mem_keys _))
  have hvalues : (e₁.running.entries.filter fun x => x.2.isFinished).map Prod.snd =
      e₁.running.values.filter SequenceState.isFinished := by
    rw [Dict.values, List.filter_map]
    rfl
  have hevents : (e₁.running.entries.filter fun x => x.2.isFinished).map
      (fun x => (⟨e₁.now, x.1, .COMPLETED, []⟩ : Event)) =
        (e₁.running.values.filter SequenceState.isFinished).map
          fun seq => ⟨e₁.now, seq.requestId, .COMPLETED, []⟩ := by
    rw [← hvalues, List.map_map]
    refine List.map_congr_left fun x hx => ?_
    obtain ⟨spec, -, hruns⟩ := h₁.orderly.running x.1 x.2
      (Dict.get?_of_mem (List.mem_filter.mp hx).1)
    have hid₁ : x.2.requestId = x.1 := hruns.asked.id
    simp only [Function.comp_apply, hid₁]
  have hcompleted : (e₁.running.entries.filter fun x => x.2.isFinished).map
      (fun x => x.2.complete e₁.now) =
        (e₁.running.values.filter SequenceState.isFinished).map
          (SequenceState.complete e₁.now) := by
    rw [← hvalues, List.map_map]
    rfl
  rw [hbase₂, hrunning₂, hevents, hcompleted, hbase₁]
  rfl

end SchedulerEngine

end PassionProjects.MiniPaged
