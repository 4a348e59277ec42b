/-
  PassionProjects.ReleaseGuard.Evaluator.Evidence

  What a HEALTHY window says about the answers it was made from, and the windows for
  which it says nothing: those whose signals are all optional and have no data.
-/

import PassionProjects.ReleaseGuard.Evaluator.Evaluator

namespace PassionProjects.ReleaseGuard

open Results

variable {F : Type} [Float64 F]

namespace Evaluator

variable (e : Evaluator F) (track : String) (now : Int)

/-- A template, rendered for a track and asked from `site`, is answered by `a`. -/
def Answers (site : Site) (tmpl track : String) (now : Int) (a : Answer F) : Prop :=
  ∃ q, e.renderFor tmpl track = .ok q ∧ e.querier site q now = a

/-- Nothing can be said about a signal: its query has no data, or it is within its
    threshold while its guardrail has no baseline. -/
def NoData (i : Nat) (sig : SignalConfig F) : Prop :=
  e.Answers (.canary i) sig.query track now .noData ∨
    ∃ v g, e.Answers (.canary i) sig.query track now (.value v) ∧
      evalThreshold sig.threshold v = true ∧ sig.relative = some g ∧
      e.Answers (.baseline i) sig.query e.policy.evaluation.baselineTrack now .noData

/-- A signal has a value within its threshold, and a baseline within its guardrail where
    it has one. -/
def Passed (i : Nat) (sig : SignalConfig F) : Prop :=
  ∃ v, e.Answers (.canary i) sig.query track now (.value v) ∧
    evalThreshold sig.threshold v = true ∧
    ∀ g, sig.relative = some g → ∃ b,
      e.Answers (.baseline i) sig.query e.policy.evaluation.baselineTrack now (.value b) ∧
      evalRelative g v b = true

/-- The sample-count gate is off, or the count is enough. -/
def GateOpen : Prop :=
  e.policy.evaluation.minSampleCount ≤ 0 ∨
    ∃ v, e.Answers .sampleCount e.policy.evaluation.sampleCountQuery track now (.value v) ∧
      ¬ v < (e.policy.evaluation.minSampleCount : F)

/-- The signals are evaluated, and all of them are optional and without data. -/
def Unobserved : Prop :=
  e.GateOpen track now ∧
    ∀ i sig, e.policy.signals[i]? = some sig → sig.isOptional = true ∧ e.NoData track now i sig

/-- What the results of a window show. -/
structure Evidence (r : WindowResult F) : Prop where
  observed : ∃ sr ∈ r.signalResults, sr.hasValue = true
  passed : ∀ (i : Nat) sr, r.signalResults[i]? = some sr → sr.hasValue = true →
    ∃ sig, e.policy.signals[i]? = some sig ∧ e.Passed track now i sig
  required : ∀ (i : Nat) sig, e.policy.signals[i]? = some sig → sig.isOptional = false →
    ∃ sr, r.signalResults[i]? = some sr ∧ sr.hasValue = true ∧
      (sig.relative.isSome = true → sr.hasBaseline = true)

-- ============================================================================
-- One signal
-- ============================================================================

variable {e track now} {i : Nat} {sig : SignalConfig F} {sr : SignalResult F}

/-- The result of a signal is missing where there is no data for it, and healthy where it
    passed. -/
theorem evaluateSignal_ok (h : e.evaluateSignal i sig track now = .ok sr) :
    (sr.missing = true ∧ sr.hasValue = false ∧ e.NoData track now i sig) ∨
    (sr.missing = false ∧ sr.hasValue = true ∧ (sr.healthy = true →
      e.Passed track now i sig ∧ (sig.relative.isSome = true → sr.hasBaseline = true))) := by
  obtain ⟨q, hq, h⟩ := bind_mapError_eq_ok.mp h
  cases ha : e.querier (.canary i) q now with
  | noData =>
      rw [ha] at h
      cases h
      exact .inl ⟨rfl, rfl, .inl ⟨q, hq, ha⟩⟩
  | failure err =>
      rw [ha] at h
      cases h
  | value v =>
      rw [ha] at h
      cases hg : sig.relative with
      | none =>
          simp only [hg] at h
          cases h
          refine .inr ⟨rfl, rfl, fun hhealthy => ⟨⟨v, ⟨q, hq, ha⟩, ?_, fun g hg' => ?_⟩, ?_⟩⟩
          · simpa [SignalResult.healthy] using hhealthy
          · exact absurd (hg.symm.trans hg') (by simp)
          · simp
      | some g =>
          simp only [hg] at h
          obtain ⟨baseQ, hbaseQ, h⟩ := bind_mapError_eq_ok.mp h
          cases hb : e.querier (.baseline i) baseQ now with
          | noData =>
              rw [hb] at h
              cases hpass : evalThreshold sig.threshold v with
              | true =>
                  simp only [hpass, if_true] at h
                  cases h
                  exact .inl ⟨rfl, rfl, .inr ⟨v, g, ⟨q, hq, ha⟩, hpass, hg, baseQ, hbaseQ, hb⟩⟩
              | false =>
                  simp only [hpass, Bool.false_eq_true, if_false] at h
                  cases h
                  exact .inr ⟨rfl, rfl, fun hhealthy => absurd hhealthy (by
                    simp [SignalResult.healthy])⟩
          | failure err =>
              rw [hb] at h
              cases h
          | value b =>
              rw [hb] at h
              cases h
              refine .inr ⟨rfl, rfl, fun hhealthy => ⟨⟨v, ⟨q, hq, ha⟩, ?_, ?_⟩, fun _ => rfl⟩⟩
              · simp only [SignalResult.healthy] at hhealthy
                grind
              · intro g' hg'
                obtain rfl := Option.some.inj (hg.symm.trans hg')
                refine ⟨b, ⟨baseQ, hbaseQ, hb⟩, ?_⟩
                simp only [SignalResult.healthy] at hhealthy
                grind

/-- A signal without data has a result. -/
theorem evaluateSignal_of_noData (h : e.NoData track now i sig) :
    ∃ sr, e.evaluateSignal i sig track now = .ok sr ∧ sr.missing = true ∧ sr.hasValue = false := by
  rcases h with ⟨q, hq, ha⟩ | ⟨v, g, ⟨q, hq, ha⟩, hpass, hg, baseQ, hbaseQ, hb⟩
  · simp only [evaluateSignal, hq, ha, Except.mapError, bind, Except.bind]
    exact ⟨_, rfl, rfl, rfl⟩
  · simp only [evaluateSignal, evaluateGuardrail, hq, ha, hpass, hg, hbaseQ, hb, Except.mapError,
      bind, Except.bind, if_true]
    exact ⟨_, rfl, rfl, rfl⟩

-- ============================================================================
-- The loop over the signals
-- ============================================================================

/-- No turn of the loop has spoken against the window. -/
def Tally.Clean (t : Tally F) : Prop := t.anyRequiredMissing = false ∧ t.allHealthy = true

/-- The result of a signal does not speak against the window. -/
def Harmless (sig : SignalConfig F) (sr : SignalResult F) : Prop :=
  (sig.isOptional = true ∧ sr.missing = true) ∨ (sr.missing = false ∧ sr.healthy = true)

theorem Tally.add_results (t : Tally F) (sig : SignalConfig F) (sr : SignalResult F) :
    (t.add sig sr).results = t.results ++ [sr] := by
  unfold Tally.add
  split
  · rfl
  · split
    · rfl
    · split <;> rfl

theorem Tally.add_clean (t : Tally F) (sig : SignalConfig F) (sr : SignalResult F) :
    (t.add sig sr).Clean ↔ t.Clean ∧ Harmless sig sr := by
  unfold Tally.add Tally.Clean Harmless
  cases hmissing : sr.missing <;> cases hhealthy : sr.healthy <;>
    cases hoptional : sig.isOptional <;> simp

theorem Tally.classify_healthy {t : Tally F} : t.classify.1 = .healthy ↔ t.Clean := by
  unfold Tally.classify Tally.Clean
  cases t.anyRequiredMissing <;> cases t.allHealthy <;> simp

variable {signals : List (SignalConfig F)} {t t' : Tally F}

/-- What the loop adds: a result for every signal, and nothing against the window where
    all of them are harmless. -/
theorem evaluateEach_ok (h : e.evaluateEach track now i signals t = .ok t') :
    ∃ srs, t'.results = t.results ++ srs ∧ srs.length = signals.length ∧
      (∀ (k : Nat) sig sr, signals[k]? = some sig → srs[k]? = some sr →
        e.evaluateSignal (i + k) sig track now = .ok sr) ∧
      (t'.Clean ↔ t.Clean ∧ ∀ (k : Nat) sig sr, signals[k]? = some sig → srs[k]? = some sr →
        Harmless sig sr) := by
  induction signals generalizing i t with
  | nil =>
      cases h
      exact ⟨[], by simp, rfl, by simp, by simp⟩
  | cons sig rest ih =>
      obtain ⟨sr, hsr, h⟩ := bind_mapError_eq_ok.mp h
      obtain ⟨srs, hresults, hlength, heach, hclean⟩ := ih h
      refine ⟨sr :: srs, ?_, by simp [hlength], ?_, ?_⟩
      · rw [hresults, Tally.add_results, List.append_assoc]
        rfl
      · intro k sig' sr' hsig' hsr'
        cases k with
        | zero =>
            cases hsig'
            cases hsr'
            exact hsr
        | succ k =>
            have hk := heach k sig' sr' hsig' hsr'
            rwa [Nat.add_right_comm] at hk
      · rw [hclean, Tally.add_clean, and_assoc]
        refine and_congr_right fun _ => ⟨fun ⟨hhead, htail⟩ k sig' sr' hsig' hsr' => ?_,
          fun hall => ⟨hall 0 sig sr rfl rfl, fun k => hall (k + 1)⟩⟩
        cases k with
        | zero =>
            cases hsig'
            cases hsr'
            exact hhead
        | succ k => exact htail k sig' sr' hsig' hsr'

/-- The loop ends where every signal has a result. -/
theorem evaluateEach_isOk (h : ∀ (k : Nat) sig, signals[k]? = some sig →
      ∃ sr, e.evaluateSignal (i + k) sig track now = .ok sr) :
    ∃ t', e.evaluateEach track now i signals t = .ok t' := by
  induction signals generalizing i t with
  | nil => exact ⟨t, rfl⟩
  | cons sig rest ih =>
      obtain ⟨sr, hsr⟩ := h 0 sig rfl
      obtain ⟨t', ht'⟩ := ih (i := i + 1) (t := t.add sig sr) fun k sig' hsig' => by
        rw [Nat.add_right_comm]
        exact h (k + 1) sig' hsig'
      exact ⟨t', bind_mapError_eq_ok.mpr ⟨sr, hsr, ht'⟩⟩

-- ============================================================================
-- One window
-- ============================================================================

variable {r : WindowResult F}

/-- A gate that is passed is off or was answered by enough samples. -/
theorem gateOpen_iff :
    e.GateOpen track now ↔ ∃ sampleCount, e.gate track now = .ok (.open sampleCount) := by
  unfold GateOpen gate
  by_cases hgate : e.policy.evaluation.minSampleCount > 0
  · rw [if_pos hgate]
    constructor
    · rintro (hoff | ⟨v, ⟨q, hq, ha⟩, hv⟩)
      · omega
      · refine ⟨some v, bind_mapError_eq_ok.mpr ⟨q, hq, ?_⟩⟩
        rw [ha]
        simp only [if_neg hv]
        rfl
    · rintro ⟨sampleCount, h⟩
      obtain ⟨q, hq, h⟩ := bind_mapError_eq_ok.mp h
      cases ha : e.querier .sampleCount q now with
      | noData =>
          rw [ha] at h
          cases h
      | failure err =>
          rw [ha] at h
          cases h
      | value v =>
          rw [ha] at h
          by_cases hv : v < (e.policy.evaluation.minSampleCount : F)
          · simp only [if_pos hv] at h
            cases h
          · exact .inr ⟨v, ⟨q, hq, ha⟩, hv⟩
  · rw [if_neg hgate]
    exact ⟨fun _ => ⟨none, rfl⟩, fun _ => .inl (by omega)⟩

/-- A HEALTHY window has passed the gate, and no signal of it speaks against it. -/
theorem evaluate_healthy (h : e.evaluate track now = .ok r) (hr : r.classification = .healthy) :
    e.GateOpen track now ∧ r.signalResults.length = e.policy.signals.length ∧
      ∀ (k : Nat) sig sr, e.policy.signals[k]? = some sig → r.signalResults[k]? = some sr →
        e.evaluateSignal k sig track now = .ok sr ∧ Harmless sig sr := by
  obtain ⟨gate, hgate, h⟩ := bind_eq_ok.mp h
  cases gate with
  | inconclusive sampleCount reason =>
      cases h
      exact absurd hr (by simp)
  | «open» sampleCount =>
      obtain ⟨t, ht, h⟩ := bind_eq_ok.mp h
      cases h
      obtain ⟨srs, hresults, hlength, heach, hclean⟩ := evaluateEach_ok ht
      replace hresults : t.results = srs := hresults
      have hall := (hclean.mp (Tally.classify_healthy.mp hr)).2
      refine ⟨gateOpen_iff.mpr ⟨sampleCount, hgate⟩, by rw [hresults, hlength], ?_⟩
      intro k sig sr hsig hsr
      rw [hresults] at hsr
      have hk := heach k sig sr hsig hsr
      rw [Nat.zero_add] at hk
      exact ⟨hk, hall k sig sr hsig hsr⟩

/-- A window whose signals are all optional and without data is HEALTHY, and has no value. -/
theorem evaluate_unobserved (h : e.Unobserved track now) :
    ∃ r, e.evaluate track now = .ok r ∧ r.classification = .healthy ∧
      ∀ sr ∈ r.signalResults, sr.hasValue = false := by
  obtain ⟨hopen, hall⟩ := h
  obtain ⟨sampleCount, hgate⟩ := gateOpen_iff.mp hopen
  have hsignal : ∀ (k : Nat) sig, e.policy.signals[k]? = some sig → ∃ sr,
      e.evaluateSignal k sig track now = .ok sr ∧ sr.missing = true ∧ sr.hasValue = false :=
    fun k sig hsig => evaluateSignal_of_noData (hall k sig hsig).2
  obtain ⟨t, ht⟩ := evaluateEach_isOk (i := 0) (t := {}) fun k sig hsig => by
    obtain ⟨sr, hsr, -⟩ := hsignal k sig hsig
    rw [Nat.zero_add]
    exact ⟨sr, hsr⟩
  obtain ⟨srs, hresults, hlength, heach, hclean⟩ := evaluateEach_ok ht
  replace hresults : t.results = srs := hresults
  have hmissing : ∀ (k : Nat) sig sr, e.policy.signals[k]? = some sig → srs[k]? = some sr →
      sr.missing = true ∧ sr.hasValue = false := by
    intro k sig sr hsig hsr
    obtain ⟨sr', hsr', hresult⟩ := hsignal k sig hsig
    have hk := heach k sig sr hsig hsr
    rw [Nat.zero_add] at hk
    obtain rfl := Except.ok.inj (hk.symm.trans hsr')
    exact hresult
  refine ⟨_, bind_eq_ok.mpr ⟨_, hgate, bind_eq_ok.mpr ⟨t, ht, rfl⟩⟩, ?_, ?_⟩
  · refine Tally.classify_healthy.mpr (hclean.mpr ⟨⟨rfl, rfl⟩, fun k sig sr hsig hsr => ?_⟩)
    exact .inl ⟨(hall k sig hsig).1, (hmissing k sig sr hsig hsr).1⟩
  · intro sr hsr
    replace hsr : sr ∈ t.results := hsr
    rw [hresults] at hsr
    obtain ⟨k, hk, rfl⟩ := List.mem_iff_getElem.mp hsr
    have hk' : k < e.policy.signals.length := hlength ▸ hk
    exact (hmissing k _ _ (List.getElem?_eq_getElem hk') (List.getElem?_eq_getElem hk)).2

/-- A HEALTHY window shows its evidence, except where nothing was observed. -/
theorem evidence_of_healthy (h : e.evaluate track now = .ok r) (hr : r.classification = .healthy)
    (hobserved : ¬ e.Unobserved track now) : e.Evidence track now r := by
  obtain ⟨hopen, hlength, hall⟩ := evaluate_healthy h hr
  have hsig : ∀ k, k < r.signalResults.length → k < e.policy.signals.length := fun _ hk =>
    hlength ▸ hk
  refine ⟨?_, ?_, ?_⟩
  · by_contra hnone
    simp only [not_exists, not_and] at hnone
    refine hobserved ⟨hopen, fun k sig hk => ?_⟩
    have hlt : k < r.signalResults.length := by
      rw [hlength]
      exact (List.getElem?_eq_some_iff.mp hk).1
    obtain ⟨hresult, hharmless⟩ := hall k sig _ hk (List.getElem?_eq_getElem hlt)
    have hvalue := hnone _ (List.getElem_mem hlt)
    rcases evaluateSignal_ok hresult with ⟨hmissing, -, hnoData⟩ | ⟨-, hhas, -⟩
    · rcases hharmless with ⟨hoptional, -⟩ | ⟨hpresent, -⟩
      · exact ⟨hoptional, hnoData⟩
      · exact absurd hmissing (by simp [hpresent])
    · exact absurd hhas hvalue
  · intro k sr hsr hvalue
    have hlt := hsig k (List.getElem?_eq_some_iff.mp hsr).1
    have hk := List.getElem?_eq_getElem hlt
    obtain ⟨hresult, hharmless⟩ := hall k _ sr hk hsr
    refine ⟨_, hk, ?_⟩
    rcases evaluateSignal_ok hresult with ⟨-, hnone, -⟩ | ⟨hpresent, -, hpassed⟩
    · exact absurd hvalue (by simp [hnone])
    · rcases hharmless with ⟨-, hmissing⟩ | ⟨-, hhealthy⟩
      · exact absurd hmissing (by simp [hpresent])
      · exact (hpassed hhealthy).1
  · intro k sig hk hrequired
    have hlt : k < r.signalResults.length := by
      rw [hlength]
      exact (List.getElem?_eq_some_iff.mp hk).1
    have hsr := List.getElem?_eq_getElem hlt
    obtain ⟨hresult, hharmless⟩ := hall k sig _ hk hsr
    refine ⟨_, hsr, ?_⟩
    rcases hharmless with ⟨hoptional, -⟩ | ⟨hpresent, hhealthy⟩
    · exact absurd hoptional (by simp [hrequired])
    · rcases evaluateSignal_ok hresult with ⟨hmissing, -⟩ | ⟨-, hvalue, hpassed⟩
      · exact absurd hmissing (by simp [hpresent])
      · exact ⟨hvalue, (hpassed hhealthy).2⟩

/-- Every HEALTHY window of an evaluator shows its evidence if and only if something is
    observed. -/
theorem evidence_iff : (∀ r, e.evaluate track now = .ok r → r.classification = .healthy →
      e.Evidence track now r) ↔ ¬ e.Unobserved track now := by
  constructor
  · intro hevidence hunobserved
    obtain ⟨r, heval, hhealthy, hnone⟩ := evaluate_unobserved hunobserved
    obtain ⟨sr, hsr, hvalue⟩ := (hevidence r heval hhealthy).observed
    exact absurd hvalue (by simp [hnone sr hsr])
  · intro hobserved r heval hhealthy
    exact evidence_of_healthy heval hhealthy hobserved

end Evaluator

end PassionProjects.ReleaseGuard
