/-
  PassionProjects.Lib.Kernels.Planned

  Runs of a grid whose threads keep to a plan.  Every schedule performs the operations of
  the plan, each in the phase the plan has it in; none gets stuck or goes on for ever, and
  the runs that end are the serial one with its steps in another order.
-/

import PassionProjects.Lib.Kernels.Schedules

namespace PassionProjects.Kernels

open Program

variable {B T Op V S : Type} [DecidableEq B] [DecidableEq T]

/-- How often the threads of `b` have passed a barrier. -/
def releases (b : B) : List (Label B T Op V) → Nat
  | [] => 0
  | .act _ _ _ _ :: tr => releases b tr
  | .release b' :: tr => releases b tr + if b' = b then 1 else 0

omit [DecidableEq T] in
@[simp] theorem releases_append (b : B) (tr tr' : List (Label B T Op V)) :
    releases b (tr ++ tr') = releases b tr + releases b tr' := by
  induction tr with
  | nil => simp [releases]
  | cons l tr ih =>
      cases l with
      | act _ _ _ _ => simpa [releases] using ih
      | release b' =>
          simp only [List.cons_append, releases, ih]
          exact Nat.add_right_comm _ _ _

-- ============================================================================
-- What is left of a plan after a run
-- ============================================================================

inductive Advances (plan : B → List (Phase T Op V)) :
    List (Label B T Op V) → (B → List (Phase T Op V)) → Prop where
  | start : Advances plan [] plan
  | step {plan' plan'' : B → List (Phase T Op V)} {tr : List (Label B T Op V)}
      {l : Label B T Op V} :
      Advances plan tr plan' → Advance plan' l plan'' → Advances plan (tr ++ [l]) plan''

/-- The first of the phases may have begun. -/
inductive LeftOf : List (Phase T Op V) → List (Phase T Op V) → Prop where
  | nil : LeftOf [] []
  | cons {es whole : Phase T Op V} {rest : List (Phase T Op V)} :
      (∀ i, es i <:+ whole i) → LeftOf (es :: rest) (whole :: rest)

omit [DecidableEq T] in
theorem LeftOf.refl (ess : List (Phase T Op V)) : LeftOf ess ess := by
  cases ess with
  | nil => exact .nil
  | cons es rest => exact .cons fun i => List.suffix_rfl

section Advances

variable {plan plan' : B → List (Phase T Op V)} {tr tr' : List (Label B T Op V)}
  {apart : Op → Op → Prop}

theorem Advance.leftOf {plan'' : B → List (Phase T Op V)} {l : Label B T Op V}
    (hleft : ∀ b, LeftOf (plan' b) ((plan b).drop (releases b tr)))
    (h : Advance plan' l plan'') (b : B) :
    LeftOf (plan'' b) ((plan b).drop (releases b (tr ++ [l]))) := by
  rw [releases_append]
  have hb := hleft b
  cases h with
  | @act b₀ i o v es rest tail hplan hes =>
      change LeftOf _ ((plan b).drop (releases b tr))
      rcases eq_or_ne b b₀ with rfl | hne
      · rw [hplan] at hb
        generalize (plan b).drop (releases b tr) = ess at hb ⊢
        rw [Function.update_self]
        cases hb with
        | cons hsuffix =>
            refine .cons fun j => ?_
            rcases eq_or_ne j i with rfl | hne
            · rw [Function.update_self]
              have htail : tail <:+ es j := by
                rw [hes]
                exact List.suffix_cons _ _
              exact htail.trans (hsuffix j)
            · rw [Function.update_of_ne hne]
              exact hsuffix j
      · rwa [Function.update_of_ne hne]
  | @release b₀ es next rest hplan _ =>
      rcases eq_or_ne b b₀ with rfl | hne
      · rw [hplan] at hb
        have hdrop : (plan b).drop (releases b tr + releases b [(.release b : Label B T Op V)]) =
            ((plan b).drop (releases b tr)).drop 1 := by
          simp [releases, List.drop_drop]
        rw [hdrop, Function.update_self]
        generalize (plan b).drop (releases b tr) = ess at hb ⊢
        cases hb with
        | cons _ => exact .refl _
      · rw [Function.update_of_ne hne]
        simpa [releases, hne.symm] using hb

theorem Advances.leftOf (h : Advances plan tr plan') (b : B) :
    LeftOf (plan' b) ((plan b).drop (releases b tr)) := by
  induction h generalizing b with
  | start => exact .refl _
  | step _ hstep ih => exact hstep.leftOf ih b

theorem Advances.independent (h : Advances plan tr plan') (hplan : Independent apart plan) :
    Independent apart plan' := by
  induction h with
  | start => exact hplan
  | step _ hstep ih => exact hstep.independent ih

/-- An operation is performed in the phase in which the plan has it. -/
theorem Advances.planned (h : Advances plan tr plan') {before after : List (Label B T Op V)}
    {b : B} {i : T} {o : Op} {v : V} (htr : tr = before ++ .act b i o v :: after) :
    ∃ es, (plan b)[releases b before]? = some es ∧ (o, v) ∈ es i := by
  induction h generalizing after with
  | start => exact absurd htr (by simp)
  | @step p p' tr l hrun hstep ih =>
      rcases List.eq_nil_or_concat after with rfl | ⟨after, l', rfl⟩
      · obtain ⟨rfl, hl⟩ := List.append_inj' htr rfl
        obtain rfl := (List.cons.inj hl).1
        have hleft := hrun.leftOf b
        cases hstep with
        | @act _ _ _ _ es rest tail hplan hes =>
            rw [hplan] at hleft
            generalize hdrop : (plan b).drop (releases b tr) = ess at hleft
            cases hleft with
            | @cons _ whole _ hsuffix =>
                refine ⟨whole, ?_, (hsuffix i).subset (by simp [hes])⟩
                rw [← List.head?_drop, hdrop]
                rfl
      · rw [List.concat_eq_append, ← List.cons_append, ← List.append_assoc] at htr
        exact ih (List.append_inj' htr rfl).1

variable [Fintype B] [Fintype T]

theorem Advances.perm (h : Advances plan tr plan') (hplan : Independent apart plan) :
    (tr ++ serial plan').Perm (serial plan) := by
  induction h with
  | start => exact .refl _
  | step hrun hstep ih =>
      obtain ⟨before, after, hbefore, hafter, -⟩ := hstep.serial (hrun.independent hplan)
      rw [hbefore] at ih
      rw [hafter, List.append_assoc, List.singleton_append]
      exact (List.perm_middle.symm.append_left _).trans ih

end Advances

-- ============================================================================
-- Every schedule
-- ============================================================================

/-- The threads keep to a plan that takes the state to `s'` when it is performed one thread
    after another. -/
structure Scheduled [Fintype B] [Fintype T] (exec : Op → S → V × S) (apart : Op → Op → Prop)
    (plan : B → List (Phase T Op V)) (c : Config B T Op V S) (s' : S) : Prop where
  phases : ∀ b, Phases (c.threads b) (plan b)
  independent : Independent apart plan
  replays : Replays exec (serial plan) c.state s'

omit [DecidableEq T] in
theorem phases_update {threads : B → T → Program Op V Unit} {plan : B → List (Phase T Op V)} {b : B}
    {ps : T → Program Op V Unit} {ess : List (Phase T Op V)}
    (h : ∀ b, Phases (threads b) (plan b)) (hb : Phases ps ess) (b' : B) :
    Phases (Function.update threads b ps b') (Function.update plan b ess b') := by
  rcases eq_or_ne b' b with rfl | hne
  · rwa [Function.update_self, Function.update_self]
  · rw [Function.update_of_ne hne, Function.update_of_ne hne]
    exact h b'

namespace Scheduled

variable [Nonempty T] [Fintype B] [Fintype T] {exec : Op → S → V × S} {apart : Op → Op → Prop}
  {plan : B → List (Phase T Op V)} {c c' : Config B T Op V S} {s' : S}
  {tr : List (Label B T Op V)}

theorem step (hcommute : ∀ o o', apart o o' → Commute exec o o')
    (h : Scheduled exec apart plan c s') {l : Label B T Op V} (hstep : Step exec c l c') :
    ∃ plan', Advance plan l plan' ∧ Scheduled exec apart plan' c' s' := by
  cases hstep with
  | @act b i o k hi =>
      obtain ⟨es, rest, v, tail, hplan, hes, hgo⟩ := (h.phases b).act hi
      have hadvance := Advance.act hplan hes
      obtain ⟨before, after, hbefore, hafter, hapart⟩ := hadvance.serial h.independent
      obtain ⟨hv, hrun⟩ := replays_first
        (fun b' i' o' v' hmem => hcommute o o' (hapart _ _ _ _ _ _ _ _ rfl hmem))
        (hbefore ▸ h.replays)
      subst hv
      exact ⟨_, hadvance, phases_update h.phases hgo, hadvance.independent h.independent,
        hafter ▸ hrun⟩
  | @release b k hk =>
      obtain ⟨es, next, rest, hplan, hes, hgo⟩ := (h.phases b).release hk
      have hadvance := Advance.release hplan hes
      obtain ⟨before, after, hbefore, hafter, -⟩ := hadvance.serial h.independent
      have hreplays := h.replays
      rw [hbefore, replays_append] at hreplays
      exact ⟨_, hadvance, phases_update h.phases hgo, hadvance.independent h.independent,
        hafter ▸ replays_append.mpr hreplays⟩

theorem run (hcommute : ∀ o o', apart o o' → Commute exec o o')
    (h : Scheduled exec apart plan c s') (hrun : Run exec c tr c') :
    ∃ plan', Advances plan tr plan' ∧ Scheduled exec apart plan' c' s' := by
  induction hrun with
  | start => exact ⟨plan, .start, h⟩
  | step _ hstep ih =>
      obtain ⟨plan', hadvances, hplan'⟩ := ih
      obtain ⟨plan'', hadvance, hplan''⟩ := hplan'.step hcommute hstep
      exact ⟨plan'', .step hadvances hadvance, hplan''⟩

omit [Nonempty T] in
/-- Some step can be taken until all threads have ended. -/
theorem progress (h : Scheduled exec apart plan c s') :
    c.Finished ∨ ∃ l c', Step exec c l c' := by
  by_cases hact : ∃ b i o k, c.threads b i = .act o k
  · obtain ⟨b, i, o, k, hi⟩ := hact
    exact .inr ⟨_, _, .act hi⟩
  · have hstop := fun b => (h.phases b).stopped fun i o k hi => hact ⟨b, i, o, k, hi⟩
    by_cases hret : ∀ b i, c.threads b i = .ret ()
    · exact .inl hret
    · obtain ⟨b, hb⟩ := not_forall.mp hret
      obtain ⟨k, hk⟩ := (hstop b).resolve_left hb
      exact .inr ⟨_, _, .release hk⟩

omit [DecidableEq B] [DecidableEq T] in
theorem finished (h : Scheduled exec apart plan c s') (hc : c.Finished) :
    serial plan = [] ∧ c.state = s' := by
  have hnone : serial plan = [] := by
    refine List.flatMap_eq_nil_iff.mpr fun b _ => ?_
    have hb := h.phases b
    have hret := hc b
    generalize c.threads b = ps at hb hret
    generalize plan b = ess at hb ⊢
    cases hb with
    | last hes =>
        have hnil := fun i => (hret i ▸ hes i).ret_eq.1
        simp [blockLabels, laterLabels, phaseLabels, actsOf, hnil]
    | next hes _ =>
        have hi := hes (Classical.arbitrary T)
        rw [hret] at hi
        exact absurd hi.ret_eq.2 (by simp)
  have hreplays := h.replays
  rw [hnone] at hreplays
  exact ⟨hnone, hreplays⟩

/-- The number of steps is bounded. -/
theorem length_le (hcommute : ∀ o o', apart o o' → Commute exec o o')
    (h : Scheduled exec apart plan c s') (hrun : Run exec c tr c') :
    tr.length ≤ (serial plan).length := by
  obtain ⟨plan', hadvances, -⟩ := h.run hcommute hrun
  have hlength := (hadvances.perm h.independent).length_eq
  rw [List.length_append] at hlength
  exact hlength ▸ Nat.le_add_right _ _

/-- A run that ends performed the serial run in some order, to its effect. -/
theorem complete (hcommute : ∀ o o', apart o o' → Commute exec o o')
    (h : Scheduled exec apart plan c s') (hrun : Run exec c tr c') (hc : c'.Finished) :
    tr.Perm (serial plan) ∧ c'.state = s' := by
  obtain ⟨plan', hadvances, hplan'⟩ := h.run hcommute hrun
  obtain ⟨hnone, hstate⟩ := hplan'.finished hc
  have hperm := hadvances.perm h.independent
  rw [hnone, List.append_nil] at hperm
  exact ⟨hperm, hstate⟩

theorem planned (hcommute : ∀ o o', apart o o' → Commute exec o o')
    (h : Scheduled exec apart plan c s') {before after : List (Label B T Op V)} {b : B} {i : T}
    {o : Op} {v : V} (hrun : Run exec c (before ++ .act b i o v :: after) c') :
    ∃ es, (plan b)[releases b before]? = some es ∧ (o, v) ∈ es i := by
  obtain ⟨plan', hadvances, -⟩ := h.run hcommute hrun
  exact hadvances.planned rfl

/-- What two threads of a block do with no barrier between is apart. -/
theorem raceFree (hcommute : ∀ o o', apart o o' → Commute exec o o')
    (h : Scheduled exec apart plan c s') {before between after : List (Label B T Op V)} {b : B}
    {i j : T} {o o' : Op} {v v' : V}
    (hrun : Run exec c (before ++ .act b i o v :: (between ++ .act b j o' v' :: after)) c')
    (hbetween : releases b between = 0) (hij : i ≠ j) : apart o o' := by
  obtain ⟨es, hes, he⟩ := h.planned hcommute hrun
  rw [← List.cons_append, ← List.append_assoc] at hrun
  obtain ⟨es', hes', he'⟩ := h.planned hcommute hrun
  have hsame : releases b (before ++ .act b i o v :: between) = releases b before := by
    rw [releases_append]
    exact congrArg (releases b before + ·) hbetween
  rw [hsame, hes] at hes'
  cases hes'
  exact h.independent.threads b es (List.mem_of_getElem? hes) i j hij _ he _ he'

end Scheduled

end PassionProjects.Kernels
