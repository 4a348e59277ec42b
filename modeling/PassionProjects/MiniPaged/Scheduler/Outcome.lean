/-
  PassionProjects.MiniPaged.Scheduler.Outcome

  Every run ends, with every request where it is due.  `Line.work` counts the admissions
  and tokens that are left; once every request has arrived it goes down with every tick,
  because a line that nothing runs beside always has its head served.
-/

import Mathlib.Algebra.Order.Archimedean.Basic
import PassionProjects.MiniPaged.Scheduler.Runs

namespace PassionProjects.MiniPaged

open Raising Raising.Prog

/-- The specifications the scheduler can ever serve. -/
def Limits.Eligible (lim : Limits) (spec : TraceRequestSpec) : Prop :=
  (spec.promptLen + spec.maxNewTokens) ⌈/⌉ lim.blockSize ≤ lim.numBlocks ∧
    spec.promptLen ≤ lim.tokenBudget

/-- The tokens a sequence has yet to generate. -/
def SequenceState.rest (seq : SequenceState) : Nat := seq.targetOutputLen - seq.tokensGenerated

/-- The admissions and tokens that a line owes. -/
def owed (queue : List Queued) : Nat := (queue.map fun x => x.2.targetOutputLen + 1).sum

namespace Line

/-- The admissions and tokens that are left. -/
def work (l : Line) : Nat := owed l.queue + (l.running.map SequenceState.rest).sum

/-- Nothing waits and nothing runs. -/
def Done (l : Line) : Prop := l.queue = [] ∧ l.running = []

/-- No running sequence is finished. -/
def AtWork (l : Line) : Prop := ∀ seq ∈ l.running, seq.tokensGenerated < seq.targetOutputLen

end Line

variable {lim : Limits} {e : SchedulerEngine} {l : Line}

-- ============================================================================
-- Work goes down
-- ============================================================================

section Serve

variable {now : ℚ} {queue : List Queued} {budget : Int} {committed : Nat}

variable (budget committed) in
/-- Whoever is served is one admission less. -/
theorem serve_work :
    owed (lim.serve now queue budget committed).queue +
        ((lim.serve now queue budget committed).admitted.map SequenceState.rest).sum +
        (lim.serve now queue budget committed).admitted.length +
        (lim.serve now queue budget committed).cancelled.length ≤ owed queue := by
  induction queue generalizing budget committed with
  | nil => exact Nat.le_refl 0
  | cons x queue ih =>
      have howed : owed (x :: queue) = x.2.targetOutputLen + 1 + owed queue := rfl
      unfold Limits.serve
      split
      · split
        · have hrest := ih (budget - x.1.promptLen) (committed + lim.watermark x.1)
          have hown : (x.1.started x.2 now).rest = x.2.targetOutputLen := rfl
          rw [List.map_cons, List.sum_cons, List.length_cons, hown]
          dsimp only
          omega
        · have hrest := ih budget committed
          rw [List.length_cons]
          dsimp only
          omega
        · exact Nat.le_refl _
      · exact Nat.le_refl _

/-- With the whole budget and nothing committed nobody has to wait. -/
theorem Limits.judge_alone (r : Request) (detail : List (String × Detail)) :
    lim.judge lim.tokenBudget 0 r ≠ .wait detail := by
  unfold Limits.judge
  split
  · exact fun h => nomatch h
  split
  · exact fun h => nomatch h
  split
  · omega
  · exact fun h => nomatch h

/-- A head that has arrived is served where nothing runs. -/
theorem serve_alone (lim : Limits) (queue : List Queued) {x : Queued}
    (harrived : x.1.arrivalTime ≤ now) :
    0 < (lim.serve now (x :: queue) lim.tokenBudget 0).admitted.length +
      (lim.serve now (x :: queue) lim.tokenBudget 0).cancelled.length := by
  unfold Limits.serve
  rw [if_pos harrived]
  split
  · rw [List.length_cons]
    omega
  · rw [List.length_cons]
    omega
  · next detail hjudge => exact absurd hjudge (Limits.judge_alone x.1 detail)

end Serve

/-- Whatever runs has one token less to generate. -/
theorem decode_work {running : List SequenceState}
    (h : ∀ seq ∈ running, seq.tokensGenerated < seq.targetOutputLen) :
    (((running.map SequenceState.decode).filter fun seq => !seq.isFinished).map
      SequenceState.rest).sum + running.length ≤ (running.map SequenceState.rest).sum := by
  induction running with
  | nil => exact Nat.le_refl 0
  | cons seq running ih =>
      have hrest := ih fun other hother => h other (List.mem_cons_of_mem seq hother)
      have hlt := h seq List.mem_cons_self
      have hown : seq.decode.rest + 1 = seq.rest := by
        show seq.targetOutputLen - (seq.tokensGenerated + 1) + 1 =
          seq.targetOutputLen - seq.tokensGenerated
        omega
      rw [List.map_cons, List.map_cons, List.sum_cons, List.length_cons, List.filter_cons]
      split
      · rw [List.map_cons, List.sum_cons]
        omega
      · omega

/-- A tick does not add work, and takes some away wherever something runs or the head of
    the line has arrived. -/
theorem Line.work_tick (lim : Limits) (h : l.AtWork) :
    (l.tick lim).work + l.running.length + (l.served lim).admitted.length +
      (l.served lim).cancelled.length ≤ l.work := by
  have hserve : owed (l.served lim).queue + ((l.served lim).admitted.map SequenceState.rest).sum +
      (l.served lim).admitted.length + (l.served lim).cancelled.length ≤ owed l.queue :=
    serve_work _ _
  have hdecode := decode_work h
  show owed (l.served lim).queue + (((l.running.map SequenceState.decode).filter
    (fun seq => !seq.isFinished) ++ (l.served lim).admitted).map SequenceState.rest).sum + _ + _ +
      _ ≤ owed l.queue + _
  rw [List.map_append, List.sum_append]
  omega

/-- Everyone in the line has arrived by the next tick. -/
def Line.Gathered (l : Line) : Prop := ∀ x ∈ l.queue, x.1.arrivalTime ≤ l.now + l.decodeTick

theorem Line.Gathered.tick (h : l.Gathered) (htick : 0 ≤ l.decodeTick) : (l.tick lim).Gathered :=
  fun x hx => (h x (serve_queue.subset hx)).trans (le_add_of_nonneg_right htick)

theorem Line.AtWork.tick (lim : Limits) (l : Line) : (l.tick lim).AtWork := by
  intro seq hseq
  rcases List.mem_append.mp hseq with hseq | hseq
  · have hnot : seq.isFinished = false := by simpa using (List.mem_filter.mp hseq).2
    exact Nat.not_le.mp (of_decide_eq_false hnot)
  · obtain ⟨x, -, rfl⟩ := serve_admitted seq hseq
    exact x.2.targetOutputLen_pos

/-- Once everyone has arrived, every tick takes work away. -/
theorem Line.work_lt (lim : Limits) (h : l.AtWork) (hgathered : l.Gathered) (hdone : ¬ l.Done) :
    (l.tick lim).work < l.work := by
  have hle := Line.work_tick lim h
  by_cases hrunning : l.running = []
  · obtain ⟨x, queue, hqueue⟩ : ∃ x queue, l.queue = x :: queue :=
      List.exists_cons_of_ne_nil fun hqueue => hdone ⟨hqueue, hrunning⟩
    have harrived : x.1.arrivalTime ≤ l.now + l.decodeTick :=
      hgathered x (by rw [hqueue]; exact List.mem_cons_self)
    have hserved :
        l.served lim = lim.serve (l.now + l.decodeTick) (x :: queue) lim.tokenBudget 0 := by
      rw [Line.served, hqueue, Line.committed, hrunning]
      rfl
    have hsome := serve_alone lim queue harrived
    rw [← hserved] at hsome
    omega
  · have hsome := List.length_pos_of_ne_nil hrunning
    omega

-- ============================================================================
-- Every run ends
-- ============================================================================

/-- The clock after some ticks, and the line before it. -/
theorem tick_iterate (lim : Limits) (l : Line) (n : Nat) :
    ((Line.tick lim)^[n] l).now = l.now + n * l.decodeTick ∧
      ((Line.tick lim)^[n] l).decodeTick = l.decodeTick ∧
      ((Line.tick lim)^[n] l).queue <:+ l.queue := by
  induction n with
  | zero =>
      rw [Function.iterate_zero, id, Nat.cast_zero, zero_mul, add_zero]
      exact ⟨rfl, rfl, List.suffix_rfl⟩
  | succ n ih =>
      obtain ⟨hnow, htick, hqueue⟩ := ih
      rw [Function.iterate_succ_apply']
      refine ⟨?_, htick, serve_queue.trans hqueue⟩
      show _ + ((Line.tick lim)^[n] l).decodeTick = _
      rw [hnow, htick, Nat.cast_succ, add_mul, one_mul, add_assoc]

theorem Line.AtWork.iterate (lim : Limits) (h : l.AtWork) (n : Nat) :
    ((Line.tick lim)^[n] l).AtWork := by
  cases n with
  | zero => exact h
  | succ n =>
      rw [Function.iterate_succ_apply']
      exact Line.AtWork.tick lim _

/-- There is a tick by which everyone has arrived. -/
theorem gathered_eventually (lim : Limits) (htick : 0 < l.decodeTick) :
    ∃ n, ((Line.tick lim)^[n] l).Gathered := by
  have hall (queue : List Queued) :
      ∃ n : Nat, ∀ x ∈ queue, x.1.arrivalTime ≤ l.now + n * l.decodeTick := by
    induction queue with
    | nil => exact ⟨0, fun x hx => absurd hx List.not_mem_nil⟩
    | cons x queue ih =>
        obtain ⟨m, hm⟩ := ih
        obtain ⟨k, hk⟩ := Archimedean.arch (x.1.arrivalTime - l.now) htick
        rw [nsmul_eq_mul] at hk
        have hgrows {i j : Nat} (hij : i ≤ j) : (i : ℚ) * l.decodeTick ≤ j * l.decodeTick :=
          mul_le_mul_of_nonneg_right (Nat.cast_le.mpr hij) htick.le
        refine ⟨max m k, List.forall_mem_cons.mpr ⟨?_, fun y hy => ?_⟩⟩
        · have := hgrows (Nat.le_max_right m k)
          linarith
        · have := hgrows (Nat.le_max_left m k)
          linarith [hm y hy]
  obtain ⟨n, hn⟩ := hall l.queue
  refine ⟨n, fun x hx => ?_⟩
  obtain ⟨hnow, htick', hqueue⟩ := tick_iterate lim l n
  rw [hnow, htick']
  linarith [hn x (hqueue.subset hx)]

/-- Once everyone has arrived the work that is left bounds the ticks that are left. -/
theorem done_of_gathered (lim : Limits) (h : l.AtWork) (hgathered : l.Gathered)
    (htick : 0 ≤ l.decodeTick)
    {left : Nat} (hleft : l.work ≤ left) : ∃ n ≤ left, ((Line.tick lim)^[n] l).Done := by
  induction left generalizing l with
  | zero =>
      refine ⟨0, Nat.le_refl 0, by_contra fun hdone => ?_⟩
      have hlt := Line.work_lt lim h hgathered hdone
      omega
  | succ left ih =>
      by_cases hdone : l.Done
      · exact ⟨0, Nat.zero_le _, hdone⟩
      · have hlt := Line.work_lt lim h hgathered hdone
        obtain ⟨n, hn, hend⟩ := ih (Line.AtWork.tick lim l) (hgathered.tick htick) htick
          (by omega)
        exact ⟨n + 1, Nat.succ_le_succ hn, hend⟩

/-- Every line is done after some ticks. -/
theorem done_eventually (lim : Limits) (h : l.AtWork) (htick : 0 < l.decodeTick) :
    ∃ n, ((Line.tick lim)^[n] l).Done := by
  obtain ⟨m, hm⟩ := gathered_eventually lim htick
  have hpos : 0 ≤ ((Line.tick lim)^[m] l).decodeTick := by
    rw [(tick_iterate lim l m).2.1]
    exact htick.le
  obtain ⟨n, -, hdone⟩ := done_of_gathered lim (h.iterate lim m) hm hpos (Nat.le_refl _)
  rw [← Function.iterate_add_apply] at hdone
  exact ⟨n + m, hdone⟩

/-- Between steps the engine is complete where the line is done. -/
theorem Mirrors.isComplete_iff (h : Mirrors lim e l) : e.isComplete = true ↔ l.Done := by
  have hwaiting : e.waiting.keys.length = l.queue.length := by
    have hperm : e.inLine.Perm e.waiting.entries := List.perm_insertionSort _ _
    have hlen := hperm.length_eq
    rw [h.shows.queue, List.length_map] at hlen
    rw [hlen]
    exact List.length_map _
  have hrunning : e.running.keys.length = l.running.length := by
    rw [← h.shows.running, Dict.keys, Dict.values, List.length_map, List.length_map]
  rw [SimulationEngine.isComplete, Bool.and_eq_true, List.isEmpty_iff, List.isEmpty_iff,
    ← List.length_eq_zero_iff, ← List.length_eq_zero_iff, hwaiting, hrunning,
    List.length_eq_zero_iff, List.length_eq_zero_iff]
  rfl

/-- The loop of `run_to_completion` ends where enough ticks are left. -/
theorem completionLoop_mirrors (maxTicks : Nat) {left : Nat} (h : Mirrors lim e l)
    (hend : ∃ n ≤ left, ((Line.tick lim)^[n] l).Done) :
    (Engine.completionLoop SchedulerEngine.hooks maxTicks left).Returns
      (fun _ e' => ∃ n, Mirrors lim e' ((Line.tick lim)^[n] l) ∧
        ((Line.tick lim)^[n] l).Done) e := by
  induction left generalizing e l with
  | zero =>
      obtain ⟨n, hn, hdone⟩ := hend
      obtain rfl : n = 0 := Nat.le_zero.mp hn
      exact wp_bind (wp_read.mpr (wp_check (h.isComplete_iff.mpr hdone) ⟨0, h, hdone⟩))
  | succ left ih =>
      refine wp_bind (wp_read.mpr ?_)
      split
      · next hcomplete =>
        exact wp_pure.mpr ⟨0, h, h.isComplete_iff.mp hcomplete⟩
      · next hcomplete =>
        refine wp_bind (Returns.mono (SchedulerEngine.step_mirrors h) fun _ e₁ ⟨h₁, _⟩ => ?_)
        obtain ⟨n, hn, hdone⟩ := hend
        cases n with
        | zero => exact absurd (h.isComplete_iff.mpr hdone) hcomplete
        | succ n =>
            refine Returns.mono (ih h₁ ⟨n, Nat.le_of_succ_le_succ hn, hdone⟩)
              fun _ e' ⟨m, hm, hdone'⟩ => ⟨m + 1, hm, hdone'⟩

-- ============================================================================
-- Where every request is
-- ============================================================================

/-- The ids of a trace are of requests in one place, and the requests that are no longer
    in the line are where they are due. -/
structure Accounted (lim : Limits) (trace : List Queued) (l : Line) : Prop where
  once : (l.queue.map (fun x => x.1.requestId) ++ l.running.map SequenceState.requestId ++
    l.completed.map SequenceState.requestId ++ l.cancelled.map Request.requestId).Perm
      (trace.map fun x => x.1.requestId)
  queue : ∀ x ∈ l.queue, x ∈ trace
  running : ∀ seq ∈ l.running, ∃ x ∈ trace, seq.requestId = x.1.requestId ∧
    seq.targetOutputLen = x.2.targetOutputLen ∧ lim.Eligible x.2
  completed : ∀ seq ∈ l.completed, ∃ x ∈ trace, seq.requestId = x.1.requestId ∧
    seq.tokensGenerated = x.2.targetOutputLen ∧ lim.Eligible x.2
  cancelled : ∀ r ∈ l.cancelled, ∃ x ∈ trace, r.requestId = x.1.requestId ∧ ¬ lim.Eligible x.2

/-- A trace as it is queued: every request is the one of its specification. -/
def FromSpecs (trace : List Queued) : Prop := ∀ x ∈ trace, Asked x.1.requestId x.2 x.1

/-- The verdict on a request that is eligible, or that is not. -/
theorem judge_eligible {x : Queued} {budget : Int} {committed : Nat}
    (hasked : Asked x.1.requestId x.2 x.1) :
    (lim.judge budget committed x.1 = .grant → lim.Eligible x.2) ∧
      ∀ reason, lim.judge budget committed x.1 = .cancel reason → ¬ lim.Eligible x.2 := by
  have hwatermark : lim.watermark x.1 =
      (x.2.promptLen + x.2.maxNewTokens) ⌈/⌉ lim.blockSize := by
    rw [Limits.watermark, hasked.promptLen, hasked.maxNewTokens]
  unfold Limits.Eligible
  rw [← hwatermark, ← hasked.promptLen]
  refine ⟨fun hjudge => ?_, fun reason hjudge heligible => ?_⟩
  · obtain ⟨hfits, hprompt, -, -⟩ := Limits.judge_grant hjudge
    exact ⟨hfits, hprompt⟩
  · obtain ⟨hfits, hprompt⟩ := heligible
    rw [Limits.judge, if_neg (by omega), if_neg (by omega)] at hjudge
    split at hjudge
    · cases hjudge
    split at hjudge <;> cases hjudge

section Serve

variable {now : ℚ} {queue trace : List Queued} {budget : Int} {committed : Nat}

variable (budget committed) in
/-- Serving the line moves every request to one place. -/
theorem serve_once :
    ((lim.serve now queue budget committed).queue.map (fun x => x.1.requestId) ++
      (lim.serve now queue budget committed).admitted.map SequenceState.requestId ++
      (lim.serve now queue budget committed).cancelled.map Request.requestId).Perm
        (queue.map fun x => x.1.requestId) := by
  induction queue generalizing budget committed with
  | nil => exact List.Perm.refl _
  | cons x queue ih =>
      have hstay : ((x :: queue).map (fun y : Queued => y.1.requestId) ++ [] ++ []).Perm
          ((x :: queue).map fun y : Queued => y.1.requestId) := by
        rw [List.append_nil, List.append_nil]
      unfold Limits.serve
      split
      · split
        · rw [List.map_cons, List.map_cons]
          have hrest := ih (budget - x.1.promptLen) (committed + lim.watermark x.1)
          refine List.Perm.trans ?_ (hrest.cons x.1.requestId)
          rw [List.append_assoc, List.append_assoc, List.cons_append]
          exact List.perm_middle
        · rw [List.map_cons, List.map_cons]
          exact List.perm_middle.trans ((ih budget committed).cons x.1.requestId)
        · exact hstay
      · exact hstay

variable (budget committed) in
/-- Whoever is served is dealt with as is due. -/
theorem serve_due (htrace : FromSpecs trace) (hqueue : ∀ x ∈ queue, x ∈ trace) :
    (∀ seq ∈ (lim.serve now queue budget committed).admitted, ∃ x ∈ trace,
      seq.requestId = x.1.requestId ∧ seq.targetOutputLen = x.2.targetOutputLen ∧
        lim.Eligible x.2) ∧
      ∀ r ∈ (lim.serve now queue budget committed).cancelled, ∃ x ∈ trace,
        r.requestId = x.1.requestId ∧ ¬ lim.Eligible x.2 := by
  induction queue generalizing budget committed with
  | nil =>
      exact ⟨fun seq hseq => absurd hseq List.not_mem_nil, fun r hr => absurd hr List.not_mem_nil⟩
  | cons x queue ih =>
      have hx := hqueue x List.mem_cons_self
      have hrest := fun budget committed =>
        ih budget committed fun y hy => hqueue y (List.mem_cons_of_mem x hy)
      unfold Limits.serve
      split
      · split
        · next hjudge =>
          have heligible := (judge_eligible (htrace x hx)).1 hjudge
          exact ⟨List.forall_mem_cons.mpr ⟨⟨x, hx, rfl, rfl, heligible⟩, (hrest _ _).1⟩,
            (hrest _ _).2⟩
        · next reason hjudge =>
          have hnot := (judge_eligible (htrace x hx)).2 reason hjudge
          exact ⟨(hrest _ _).1, List.forall_mem_cons.mpr ⟨⟨x, hx, rfl, hnot⟩, (hrest _ _).2⟩⟩
        · exact ⟨fun seq hseq => absurd hseq List.not_mem_nil,
            fun r hr => absurd hr List.not_mem_nil⟩
      · exact ⟨fun seq hseq => absurd hseq List.not_mem_nil,
          fun r hr => absurd hr List.not_mem_nil⟩

end Serve

/-- A tick moves every request that runs to one place. -/
theorem decoded_once (l : Line) :
    ((l.decoded.filter fun seq => !seq.isFinished).map SequenceState.requestId ++
      (l.finished.map (SequenceState.complete (l.now + l.decodeTick))).map
        SequenceState.requestId).Perm (l.running.map SequenceState.requestId) := by
  have hsame : l.decoded.map SequenceState.requestId = l.running.map SequenceState.requestId := by
    rw [Line.decoded, List.map_map]
    rfl
  rw [← hsame, List.map_map]
  have hsplit := List.filter_append_perm (fun seq : SequenceState => !seq.isFinished) l.decoded
  have hfinished : l.decoded.filter (fun seq => !!seq.isFinished) = l.finished :=
    List.filter_congr fun seq _ => Bool.not_not _
  rw [hfinished] at hsplit
  have hmap := hsplit.map SequenceState.requestId
  rw [List.map_append] at hmap
  exact hmap

theorem Accounted.tick {trace : List Queued} (h : Accounted lim trace l) (htrace : FromSpecs trace)
    (hwork : l.AtWork) : Accounted lim trace (l.tick lim) where
  once := by
    have hserved : ((l.served lim).queue.map (fun x => x.1.requestId) ++
        (l.served lim).admitted.map SequenceState.requestId ++
        (l.served lim).cancelled.map Request.requestId).Perm
          (l.queue.map fun x => x.1.requestId) :=
      serve_once lim.tokenBudget (l.committed lim)
    have hdecoded := decoded_once l
    refine List.Perm.trans ?_ h.once
    show (((l.served lim).queue.map fun x => x.1.requestId) ++
      ((l.decoded.filter fun seq => !seq.isFinished) ++ (l.served lim).admitted).map
        SequenceState.requestId ++
      (l.completed ++ l.finished.map (SequenceState.complete (l.now + l.decodeTick))).map
        SequenceState.requestId ++
      (l.cancelled ++ (l.served lim).cancelled).map Request.requestId).Perm _
    rw [List.map_append, List.map_append, List.map_append]
    refine List.Perm.trans ?_ (((hserved.append hdecoded).append_right _).append_right _)
    rw [List.perm_iff_count]
    intro id
    simp only [List.count_append, Line.served]
    omega
  queue x hx := h.queue x (serve_queue.subset hx)
  running seq hseq := by
    rcases List.mem_append.mp hseq with hseq | hseq
    · obtain ⟨seq', hseq', rfl⟩ := List.mem_map.mp (List.mem_filter.mp hseq).1
      exact h.running seq' hseq'
    · exact (serve_due _ _ htrace h.queue).1 seq hseq
  completed seq hseq := by
    rcases List.mem_append.mp hseq with hseq | hseq
    · exact h.completed seq hseq
    · obtain ⟨seq', hseq', rfl⟩ := List.mem_map.mp hseq
      obtain ⟨hmem, hfinished⟩ := List.mem_filter.mp hseq'
      obtain ⟨seq, hrunning, rfl⟩ := List.mem_map.mp hmem
      obtain ⟨x, hx, hid, htarget, heligible⟩ := h.running seq hrunning
      refine ⟨x, hx, hid, ?_, heligible⟩
      have hlt := hwork seq hrunning
      have hle : seq.targetOutputLen ≤ seq.tokensGenerated + 1 := of_decide_eq_true hfinished
      show seq.tokensGenerated + 1 = x.2.targetOutputLen
      omega
  cancelled r hr := by
    rcases List.mem_append.mp hr with hr | hr
    · exact h.cancelled r hr
    · exact (serve_due _ _ htrace h.queue).2 r hr

theorem Accounted.iterate {trace : List Queued} (h : Accounted lim trace l)
    (htrace : FromSpecs trace) (hwork : l.AtWork) (n : Nat) :
    Accounted lim trace ((Line.tick lim)^[n] l) := by
  induction n with
  | zero => exact h
  | succ n ih =>
      rw [Function.iterate_succ_apply']
      exact ih.tick htrace (hwork.iterate lim n)

-- ============================================================================
-- The end of a run
-- ============================================================================

/-- What is due to the requests of a trace, and of the pool, when a run has ended. -/
structure Settled (lim : Limits) (specs : List TraceRequestSpec) (e : SchedulerEngine) : Prop where
  completed : ∀ n spec, specs[n]? = some spec → lim.Eligible spec →
    (∃ seq ∈ e.completed, seq.requestId = requestIdOf (n + 1) ∧
      seq.tokensGenerated = spec.targetOutputLen) ∧
    ∀ r ∈ e.cancelled, r.requestId ≠ requestIdOf (n + 1)
  cancelled : ∀ n spec, specs[n]? = some spec → ¬ lim.Eligible spec →
    (∃ r ∈ e.cancelled, r.requestId = requestIdOf (n + 1)) ∧
    ∀ seq ∈ e.completed, seq.requestId ≠ requestIdOf (n + 1)
  once : (e.completed.map SequenceState.requestId ++ e.cancelled.map Request.requestId).Perm
    ((List.range specs.length).map fun n => requestIdOf (n + 1))
  free : e.own.manager.pool.free.Perm (List.range lim.numBlocks)
  ledger : e.own.ledger.reservations.entries = []

theorem queuedFrom_ids (n : Nat) (specs : List TraceRequestSpec) :
    (queuedFrom n specs).map (fun x => x.1.requestId) =
      (List.range specs.length).map fun k => requestIdOf (k + n) := by
  induction specs generalizing n with
  | nil => rfl
  | cons spec specs ih =>
      rw [queuedFrom, List.map_cons, ih, List.length_cons, List.range_succ_eq_map, List.map_cons,
        List.map_map, Nat.zero_add]
      refine congrArg _ (List.map_congr_left fun k _ => ?_)
      show requestIdOf (k + (n + 1)) = requestIdOf (k + 1 + n)
      rw [Nat.add_assoc, Nat.add_comm 1 n]

/-- The entry of a trace under an id. -/
theorem queuedFrom_spec {n k : Nat} {specs : List TraceRequestSpec} {x : Queued}
    (hx : x ∈ queuedFrom n specs) (hid : x.1.requestId = requestIdOf (k + n)) :
    specs[k]? = some x.2 := by
  induction specs generalizing n k with
  | nil => exact absurd hx List.not_mem_nil
  | cons spec specs ih =>
      rcases List.mem_cons.mp hx with rfl | hx
      · have hk := requestIdOf_injective hid
        obtain rfl : k = 0 := by omega
        rfl
      · obtain ⟨m, hm, heq⟩ := queuedFrom_id hx
        rw [heq] at hid
        have hk := requestIdOf_injective hid
        obtain ⟨j, rfl⟩ : ∃ j, k = j + 1 := ⟨k - 1, by omega⟩
        refine ih hx ?_
        rw [heq]
        exact congrArg requestIdOf (by omega)

theorem fromSpecs_queuedFrom (n : Nat) (specs : List TraceRequestSpec) :
    FromSpecs (queuedFrom n specs) := by
  intro x hx
  obtain ⟨m, -, heq⟩ := queuedFrom_id hx
  rw [heq]
  exact request_asked _ _

theorem accounted_ofTrace (lim : Limits) (start decodeTick : ℚ) (specs : List TraceRequestSpec) :
    Accounted lim (queuedFrom 1 specs) (Line.ofTrace start decodeTick specs) where
  once := by
    show ((((queuedFrom 1 specs).insertionSort queuedBefore).map
      fun x : Queued => x.1.requestId) ++ [] ++ [] ++ []).Perm _
    rw [List.append_nil, List.append_nil, List.append_nil]
    exact (List.perm_insertionSort _ _).map _
  queue x hx := (List.mem_insertionSort _).mp hx
  running seq hseq := absurd hseq List.not_mem_nil
  completed seq hseq := absurd hseq List.not_mem_nil
  cancelled r hr := absurd hr List.not_mem_nil

/-- Where the line is done, everything is settled. -/
theorem Mirrors.settled {specs : List TraceRequestSpec} (h : Mirrors lim e l) (hdone : l.Done)
    (haccounted : Accounted lim (queuedFrom 1 specs) l) : Settled lim specs e := by
  have hrunning : e.running.values = [] := h.shows.running.trans hdone.2
  have hentries : e.running.entries = [] := List.map_eq_nil_iff.mp hrunning
  have honce := haccounted.once
  rw [hdone.1, hdone.2, queuedFrom_ids, ← h.shows.completed, ← h.shows.cancelled] at honce
  have honce : (e.completed.map SequenceState.requestId ++ e.cancelled.map Request.requestId).Perm
      ((List.range specs.length).map fun n => requestIdOf (n + 1)) := honce
  have hcompleted := haccounted.completed
  rw [← h.shows.completed] at hcompleted
  have hcancelled := haccounted.cancelled
  rw [← h.shows.cancelled] at hcancelled
  have hsome {n : Nat} {spec : TraceRequestSpec} (hspec : specs[n]? = some spec) :
      requestIdOf (n + 1) ∈ e.completed.map SequenceState.requestId ∨
        requestIdOf (n + 1) ∈ e.cancelled.map Request.requestId := by
    obtain ⟨hn, -⟩ := List.getElem?_eq_some_iff.mp hspec
    rw [← List.mem_append, honce.mem_iff]
    exact List.mem_map_of_mem (f := fun n => requestIdOf (n + 1)) (List.mem_range.mpr hn)
  have hentry {n : Nat} {spec : TraceRequestSpec} {x : Queued} (hspec : specs[n]? = some spec)
      (hx : x ∈ queuedFrom 1 specs) (hid : x.1.requestId = requestIdOf (n + 1)) : x.2 = spec :=
    Option.some.inj ((queuedFrom_spec hx hid).symm.trans hspec)
  refine ⟨fun n spec hspec heligible => ?_, fun n spec hspec hnot => ?_, honce, ?_, ?_⟩
  · have hnever : ∀ r ∈ e.cancelled, r.requestId ≠ requestIdOf (n + 1) := fun r hr hid => by
      obtain ⟨x, hx, hrid, hbad⟩ := hcancelled r hr
      rw [hentry hspec hx (hrid.symm.trans hid)] at hbad
      exact hbad heligible
    refine ⟨?_, hnever⟩
    rcases hsome hspec with hmem | hmem
    · obtain ⟨seq, hseq, hid⟩ := List.mem_map.mp hmem
      obtain ⟨x, hx, hxid, htokens, -⟩ := hcompleted seq hseq
      rw [hentry hspec hx (hxid.symm.trans hid)] at htokens
      exact ⟨seq, hseq, hid, htokens⟩
    · obtain ⟨r, hr, hid⟩ := List.mem_map.mp hmem
      exact absurd hid (hnever r hr)
  · have hnever : ∀ seq ∈ e.completed, seq.requestId ≠ requestIdOf (n + 1) := fun seq hseq hid => by
      obtain ⟨x, hx, hxid, -, heligible⟩ := hcompleted seq hseq
      rw [hentry hspec hx (hxid.symm.trans hid)] at heligible
      exact hnot heligible
    refine ⟨?_, hnever⟩
    rcases hsome hspec with hmem | hmem
    · obtain ⟨seq, hseq, hid⟩ := List.mem_map.mp hmem
      exact absurd hid (hnever seq hseq)
    · obtain ⟨r, hr, hid⟩ := List.mem_map.mp hmem
      exact ⟨r, hr, hid⟩
  · have hpart := h.sound.backed.holds.partition.perm
    have htables : e.own.manager.tables.entries = [] := by
      have hkeys := h.sound.backed.holds.keys
      rw [Dict.keys_mapVal, Dict.keys, Dict.keys, hentries, List.map_nil,
        List.map_eq_nil_iff] at hkeys
      exact hkeys
    rw [h.sound.backed.numBlocks, PagedKVManager.out, Dict.values, htables] at hpart
    exact hpart
  · rw [h.sound.backed.ledger]
    show e.running.entries.map _ = []
    rw [hentries]
    rfl

/-- Every request gets its due outcome: with enough ticks a run returns, and then every
    eligible request is completed with its tokens, every other one cancelled, every block
    free and the ledger empty. -/
theorem every_request_settled (p : Parameters) (specs : List TraceRequestSpec) :
    ∃ engine, p.new = .ok engine ∧ ∃ bound, ∀ maxTicks, bound ≤ maxTicks →
      (Engine.loadTrace specs >>= fun _ =>
        Engine.runToCompletion SchedulerEngine.hooks maxTicks).Returns
          (fun _ e => Settled p.toLimits specs e) engine := by
  obtain ⟨engine, hnew, hbase, hbacked, hbudget⟩ := new_spec p
  have hwork : (Line.ofTrace p.start p.decodeTick specs).AtWork :=
    fun seq hseq => absurd hseq List.not_mem_nil
  obtain ⟨bound, hbound⟩ := done_eventually p.toLimits hwork p.decodeTick_pos
  refine ⟨engine, hnew, bound, fun maxTicks hle => ?_⟩
  have hload := load_mirrors specs p.decodeTick_pos hbase hbacked hbudget
  refine wp_bind (Returns.mono hload fun _ e₁ ⟨h₁, _⟩ => ?_)
  have hloop := completionLoop_mirrors maxTicks h₁ ⟨bound, hle, hbound⟩
  refine Returns.mono hloop fun _ e ⟨n, h, hdone⟩ => ?_
  exact h.settled hdone ((accounted_ofTrace _ _ _ specs).iterate
    (fromSpecs_queuedFrom 1 specs) hwork n)

end PassionProjects.MiniPaged
