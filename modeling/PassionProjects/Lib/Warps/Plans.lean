/-
  PassionProjects.Lib.Warps.Plans

  Plans that tell every run.  Two operations of different threads are separated where a
  meeting of both threads stands between them; the others must not depend on each other.
-/

import Mathlib.Data.List.Perm.Basic
import PassionProjects.Lib.Warps.Schedules

namespace PassionProjects.Warps

variable {Op V S : Type} {n : Nat} {exec : Op → S → V × S} {apart : Op → Op → Prop}

-- ============================================================================
-- Separation
-- ============================================================================

/-- The steps until two threads meet. -/
def untilMeet (n b i b' j : Nat) (w : List (Label Op V)) : List (Label Op V) :=
  w.takeWhile fun l => ¬ (l.Involves n b i ∧ l.Involves n b' j)

/-- Whatever another thread does before the two meet is apart from `o`. -/
def Clear (n : Nat) (apart : Op → Op → Prop) (b i : Nat) (o : Op) (w : List (Label Op V)) : Prop :=
  ∀ b' j, (b, i) ≠ (b', j) → ∀ o' v, .act b' j o' v ∈ untilMeet n b i b' j w → apart o o'

def Separated (n : Nat) (apart : Op → Op → Prop) : List (Label Op V) → Prop
  | [] => True
  | .act b i o _ :: w => Clear n apart b i o w ∧ Separated n apart w
  | .meet _ _ _ :: w => Separated n apart w

/-- No thread takes part in both. -/
def Unrelated (n : Nat) (l l' : Label Op V) : Prop :=
  ∀ b i, l.Involves n b i → ¬ l'.Involves n b i

theorem Unrelated.symm {l l' : Label Op V} (h : Unrelated n l l') : Unrelated n l' l :=
  fun b i hl' hl => h b i hl hl'

theorem untilMeet_cons_pass {b i b' j : Nat} {l : Label Op V} {w : List (Label Op V)}
    (h : ¬ (l.Involves n b i ∧ l.Involves n b' j)) :
    untilMeet n b i b' j (l :: w) = l :: untilMeet n b i b' j w :=
  List.takeWhile_cons_of_pos (decide_eq_true h)

theorem untilMeet_cons_stop {b i b' j : Nat} {l : Label Op V} {w : List (Label Op V)}
    (h : l.Involves n b i ∧ l.Involves n b' j) : untilMeet n b i b' j (l :: w) = [] :=
  List.takeWhile_cons_of_neg (by simpa using h)

theorem untilMeet_cons_act {b i b' j c m : Nat} {o : Op} {v : V} {w : List (Label Op V)}
    (h : (b, i) ≠ (b', j)) :
    untilMeet n b i b' j (.act c m o v :: w) = .act c m o v :: untilMeet n b i b' j w := by
  refine untilMeet_cons_pass ?_
  rintro ⟨⟨rfl, rfl⟩, rfl, rfl⟩
  exact h rfl

theorem untilMeet_append_pass {b i b' j : Nat} {x w : List (Label Op V)}
    (h : ∀ l ∈ x, ¬ (l.Involves n b i ∧ l.Involves n b' j)) :
    untilMeet n b i b' j (x ++ w) = x ++ untilMeet n b i b' j w :=
  List.takeWhile_append_of_pos fun l hl => decide_eq_true (h l hl)

theorem mem_untilMeet_append {b i b' j : Nat} {a : Label Op V} {x w : List (Label Op V)}
    (h : a ∈ untilMeet n b i b' j (x ++ w)) :
    a ∈ untilMeet n b i b' j x ∨ a ∈ untilMeet n b i b' j w := by
  induction x with
  | nil => exact .inr h
  | cons l x ih =>
      by_cases hstop : l.Involves n b i ∧ l.Involves n b' j
      · rw [List.cons_append, untilMeet_cons_stop hstop] at h
        exact absurd h List.not_mem_nil
      · rw [List.cons_append, untilMeet_cons_pass hstop] at h
        rw [untilMeet_cons_pass hstop]
        rcases List.mem_cons.mp h with rfl | h
        · exact .inl List.mem_cons_self
        · exact (ih h).imp_left (List.mem_cons_of_mem l)

/-- Two steps of unrelated threads in the other order. -/
theorem mem_untilMeet_swap {b i b' j : Nat} {l l' : Label Op V} (hl : Unrelated n l l')
    {x y : List (Label Op V)} {o : Op} {v : V}
    (h : .act b' j o v ∈ untilMeet n b i b' j (x ++ l' :: l :: y)) :
    .act b' j o v ∈ untilMeet n b i b' j (x ++ l :: l' :: y) := by
  induction x with
  | nil =>
      by_cases hstop' : l'.Involves n b i ∧ l'.Involves n b' j
      · rw [List.nil_append, untilMeet_cons_stop hstop'] at h
        exact absurd h List.not_mem_nil
      · rw [List.nil_append, untilMeet_cons_pass hstop'] at h
        by_cases hstop : l.Involves n b i ∧ l.Involves n b' j
        · -- the step before the meeting is one of a thread that does not take part
          rw [untilMeet_cons_stop hstop, List.mem_singleton] at h
          subst h
          exact absurd ⟨rfl, rfl⟩ (hl b' j hstop.2)
        · rw [untilMeet_cons_pass hstop] at h
          rw [List.nil_append, untilMeet_cons_pass hstop, untilMeet_cons_pass hstop']
          exact (List.Perm.swap ..).mem_iff.mp h
  | cons a x ih =>
      by_cases hstop : a.Involves n b i ∧ a.Involves n b' j
      · rw [List.cons_append, untilMeet_cons_stop hstop] at h
        exact absurd h List.not_mem_nil
      · rw [List.cons_append, untilMeet_cons_pass hstop] at h ⊢
        exact (List.mem_cons.mp h).elim (fun heq => heq ▸ List.mem_cons_self)
          fun h => List.mem_cons_of_mem a (ih h)

theorem Clear.of_mem {b i : Nat} {o : Op} {w w' : List (Label Op V)} (h : Clear n apart b i o w)
    (hw : ∀ b' j, (b, i) ≠ (b', j) → ∀ o' v, .act b' j o' v ∈ untilMeet n b i b' j w' →
      .act b' j o' v ∈ untilMeet n b i b' j w) : Clear n apart b i o w' :=
  fun b' j hne o' v hmem => h b' j hne o' v (hw b' j hne o' v hmem)

namespace Separated

variable {w w' x y u : List (Label Op V)} {l l' : Label Op V}

theorem tail (h : Separated n apart (l :: w)) : Separated n apart w := by
  cases l with
  | act b i o v => exact h.2
  | meet b g vs => exact h

theorem right (h : Separated n apart (x ++ w)) : Separated n apart w := by
  induction x with
  | nil => exact h
  | cons a x ih => exact ih h.tail

theorem cons (hw : Separated n apart w)
    (hl : ∀ b i o v, l = .act b i o v → Clear n apart b i o w) : Separated n apart (l :: w) := by
  cases l with
  | act b i o v => exact ⟨hl b i o v rfl, hw⟩
  | meet b g vs => exact hw

theorem clear {b i : Nat} {o : Op} {v : V} (h : Separated n apart (.act b i o v :: w)) :
    Clear n apart b i o w := h.1

/-- A step moves before one of other threads. -/
theorem swap (hsymm : ∀ o o', apart o o' → apart o' o) (hl : Unrelated n l l')
    (h : Separated n apart (x ++ l' :: l :: y)) : Separated n apart (x ++ l :: l' :: y) := by
  induction x with
  | nil =>
      refine cons (cons h.tail.tail ?_) ?_
      · rintro b i o v rfl
        refine h.clear.of_mem fun b' j hne o' v' hmem => ?_
        rw [untilMeet_cons_pass fun hboth => hl b i hboth.1 ⟨rfl, rfl⟩]
        exact List.mem_cons_of_mem l hmem
      · rintro b i o v rfl b' j hne o' v' hmem
        rw [untilMeet_cons_pass fun hboth => hl b i ⟨rfl, rfl⟩ hboth.1] at hmem
        rcases List.mem_cons.mp hmem with rfl | hmem
        · refine hsymm _ _ (h.clear b i hne.symm o v ?_)
          rw [untilMeet_cons_act hne.symm]
          exact List.mem_cons_self
        · exact h.tail.clear b' j hne o' v' hmem
  | cons a x ih =>
      refine cons (ih h.tail) ?_
      rintro b i o v rfl
      exact h.clear.of_mem fun b' j hne o' v' => mem_untilMeet_swap hl.symm

/-- A step moves before some of other threads. -/
theorem rotate (hsymm : ∀ o o', apart o o' → apart o' o) (hu : ∀ a ∈ u, Unrelated n l a)
    (h : Separated n apart (x ++ (u ++ l :: y))) : Separated n apart (x ++ l :: (u ++ y)) := by
  induction u generalizing x with
  | nil => exact h
  | cons a u ih =>
      have hrest := ih (x := x ++ [a]) (fun a' ha' => hu a' (List.mem_cons_of_mem a ha'))
        (by rw [List.append_assoc]; exact h)
      rw [List.append_assoc] at hrest
      exact swap hsymm (hu a List.mem_cons_self) hrest

/-- Between two operations of different threads the threads meet, or the operations are
    apart. -/
theorem apart_or_meet {b i b' j : Nat} {o o' : Op} {v v' : V}
    (h : Separated n apart (x ++ .act b i o v :: (y ++ .act b' j o' v' :: w)))
    (hne : (b, i) ≠ (b', j)) : apart o o' ∨ ∃ l ∈ y, l.Involves n b i ∧ l.Involves n b' j := by
  by_cases hmeet : ∃ l ∈ y, l.Involves n b i ∧ l.Involves n b' j
  · exact .inr hmeet
  · refine .inl (h.right.clear b' j hne o' v' ?_)
    rw [untilMeet_append_pass fun l hl hboth => hmeet ⟨l, hl, hboth⟩, untilMeet_cons_act hne]
    exact List.mem_append_right y List.mem_cons_self

end Separated

-- ============================================================================
-- Every run follows the plan
-- ============================================================================

/-- A meeting has members; who is none brings nothing. -/
def Label.Proper [Zero V] (n : Nat) : Label Op V → Prop
  | .act _ _ _ _ => True
  | .meet _ g vs => (∃ i, g.Has n i) ∧ ∀ i, ¬ g.Has n i → vs i = 0

variable [Zero V]

/-- What is left to do is the plan `w`, and it leads to `s'`. -/
structure Scheduled (n : Nat) (exec : Op → S → V × S) (apart : Op → Op → Prop)
    (w : List (Label Op V)) (c : Config Op V S) (s' : S) : Prop where
  threads : ∀ b i, Takes n b i (c.threads b i) w (.ret ())
  proper : ∀ l ∈ w, l.Proper n
  separated : Separated n apart w
  replays : Replays exec w c.state s'

/-- A list is split in one way at the first member with a property. -/
theorem split_unique {α : Type} {p : α → Prop} {u u' v v' : List α} {a a' : α}
    (h : u ++ a :: v = u' ++ a' :: v') (hu : ∀ x ∈ u, ¬ p x) (hu' : ∀ x ∈ u', ¬ p x) (ha : p a)
    (ha' : p a') : u = u' ∧ a = a' ∧ v = v' := by
  induction u generalizing u' with
  | nil =>
      cases u' with
      | nil =>
          obtain ⟨rfl, rfl⟩ := List.cons.inj h
          exact ⟨rfl, rfl, rfl⟩
      | cons x u' =>
          obtain ⟨rfl, -⟩ := List.cons.inj h
          exact absurd ha (hu' a List.mem_cons_self)
  | cons x u ih =>
      cases u' with
      | nil =>
          obtain ⟨rfl, -⟩ := List.cons.inj h
          exact absurd ha' (hu x List.mem_cons_self)
      | cons x' u' =>
          obtain ⟨rfl, htail⟩ := List.cons.inj h
          obtain ⟨rfl, hrest⟩ := ih htail (fun y hy => hu y (List.mem_cons_of_mem x hy))
            fun y hy => hu' y (List.mem_cons_of_mem x hy)
          exact ⟨rfl, hrest⟩

namespace Scheduled

variable {w : List (Label Op V)} {c c' : Config Op V S} {s' : S} {l : Label Op V}
  {tr : List (Label Op V)}

/-- A step is one of the plan, which no step of its threads comes before. -/
theorem step (hsymm : ∀ o o', apart o o' → apart o' o)
    (hcommute : ∀ o o', apart o o' → Commute exec o o') (h : Scheduled n exec apart w c s')
    (hstep : Step n exec c l c') :
    ∃ u w', w = u ++ l :: w' ∧ (∀ a ∈ u, Unrelated n l a) ∧
      Scheduled n exec apart (u ++ w') c' s' := by
  cases hstep with
  | @act b i o k hi =>
      obtain ⟨u, v, w', rfl, hu, hgo⟩ := Takes.first_act (hi ▸ h.threads b i)
      have hunrelated : ∀ a ∈ u, Unrelated n (.act b i o v) a := by
        rintro a ha b' i' ⟨rfl, rfl⟩
        exact hu a ha
      have hfirst : ∀ b' i' o' v', .act b' i' o' v' ∈ u → Commute exec o o' := by
        intro b' i' o' v' hmem
        obtain ⟨x, y, rfl⟩ := List.append_of_mem hmem
        have hne : (b', i') ≠ (b, i) := fun heq => hu _ hmem (Prod.mk.inj heq)
        have hsep := h.separated
        rw [List.append_assoc, List.cons_append] at hsep
        refine hcommute o o' (hsymm _ _ ((hsep.apart_or_meet hne).resolve_right ?_))
        rintro ⟨a, ha, -, hboth⟩
        exact hu a (by simp [ha]) hboth
      obtain ⟨hv, hreplays⟩ := replays_first hfirst h.replays
      subst hv
      refine ⟨u, w', rfl, hunrelated, fun b' i' => ?_, fun a ha => h.proper a (by
        rcases List.mem_append.mp ha with ha | ha <;> simp [ha]), ?_, hreplays⟩
      · dsimp only
        split
        · rename_i heq
          obtain ⟨rfl, rfl⟩ := heq
          exact Takes.skip_all hu hgo
        · rename_i hne
          have hne : ¬ (Label.act b i o (exec o c.state).1).Involves n b' i' := hne
          exact (h.threads b' i').remove hne
      · exact (Separated.rotate (x := []) hsymm hunrelated h.separated).tail
  | @meet b g vs k hsome hk hout =>
      obtain ⟨i, hi⟩ := hsome
      obtain ⟨u, vs', w', hw, hu, -, -⟩ := Takes.first_meet (hk i hi ▸ h.threads b i)
      -- the meeting is the first step for each member
      have hmember : ∀ j, g.Has n j → (∀ a ∈ u, ¬ a.Involves n b j) ∧ vs' j = vs j ∧
          Takes n b j (k j vs') w' (.ret ()) := by
        intro j hj
        obtain ⟨u', vs'', w'', hw', hu', hv, hgo⟩ := Takes.first_meet (hk j hj ▸ h.threads b j)
        have hboth : ∀ ws : Nat → V, Label.Involves n (.meet b g ws : Label Op V) b i ∧
            Label.Involves n (.meet b g ws : Label Op V) b j := fun _ => ⟨⟨rfl, hi⟩, rfl, hj⟩
        obtain ⟨rfl, hlabel, rfl⟩ := split_unique
          (p := fun a : Label Op V => a.Involves n b i ∧ a.Involves n b j) (hw ▸ hw')
          (fun a ha h => hu a ha h.1) (fun a ha h => hu' a ha h.2) (hboth vs') (hboth vs'')
        injection hlabel with _ _ hvs
        subst hvs
        exact ⟨hu', hv, hgo⟩
      have hvs : vs' = vs := by
        funext j
        by_cases hj : g.Has n j
        · exact (hmember j hj).2.1
        · have hproper := h.proper (.meet b g vs') (hw ▸ by simp)
          rw [hproper.2 j hj, hout j hj]
      subst hvs
      subst hw
      have hunrelated : ∀ a ∈ u, Unrelated n (.meet b g vs') a := by
        rintro a ha b' j ⟨rfl, hj⟩
        exact (hmember j hj).1 a ha
      refine ⟨u, w', rfl, hunrelated, fun b' j => ?_, fun a ha => h.proper a (by
        rcases List.mem_append.mp ha with ha | ha <;> simp [ha]), ?_, replays_meet h.replays⟩
      · dsimp only
        split
        · rename_i heq
          obtain ⟨rfl, hj⟩ := heq
          exact Takes.skip_all (hmember j hj).1 (hmember j hj).2.2
        · rename_i hne
          have hne : ¬ Label.Involves n (.meet b g vs' : Label Op V) b' j := hne
          exact (h.threads b' j).remove hne
      · exact (Separated.rotate (x := []) hsymm hunrelated h.separated).tail

/-- What was done and what is left are the plan in an order that separates as well. -/
theorem run (hsymm : ∀ o o', apart o o' → apart o' o)
    (hcommute : ∀ o o', apart o o' → Commute exec o o') (h : Scheduled n exec apart w c s')
    (hrun : Run n exec c tr c') :
    ∃ w', Scheduled n exec apart w' c' s' ∧ Separated n apart (tr ++ w') ∧
      (tr ++ w').Perm w ∧ w'.Sublist w := by
  induction hrun with
  | start => exact ⟨w, h, h.separated, .refl w, .refl w⟩
  | @step c₁ c₂ tr l _ hstep ih =>
      obtain ⟨w₁, hw₁, hseparated, hperm, hsub⟩ := ih
      obtain ⟨u, w', rfl, hunrelated, hw'⟩ := hw₁.step hsymm hcommute hstep
      refine ⟨u ++ w', hw', ?_, ?_, ?_⟩
      · rw [List.append_assoc]
        show Separated n apart (tr ++ l :: (u ++ w'))
        exact Separated.rotate hsymm hunrelated hseparated
      · rw [List.append_assoc]
        have hfront : (l :: (u ++ w')).Perm (u ++ l :: w') := List.perm_middle.symm
        exact (hfront.append_left tr).trans hperm
      · exact (List.Sublist.append_left (List.sublist_cons_self l w') u).trans hsub

/-- Some step can be taken until all threads have ended. -/
theorem progress (h : Scheduled n exec apart w c s') :
    c.Finished ∨ ∃ l c', Step n exec c l c' := by
  cases w with
  | nil => exact .inl fun b i => (h.threads b i).nil_eq
  | cons l w =>
      cases l with
      | act b i o v =>
          have hi := h.threads b i
          generalize hp : c.threads b i = p at hi
          cases hi with
          | act _ => exact .inr ⟨_, _, .act hp⟩
          | skip hl _ => exact absurd ⟨rfl, rfl⟩ hl
      | meet b g vs =>
          obtain ⟨hsome, hout⟩ := h.proper _ List.mem_cons_self
          have hmembers : ∀ i, ∃ k, g.Has n i → c.threads b i = .meet g (vs i) k := by
            intro i
            have hi := h.threads b i
            generalize c.threads b i = p at hi ⊢
            cases hi with
            | @meet _ _ k _ _ _ _ => exact ⟨k, fun _ => rfl⟩
            | skip hl _ => exact ⟨fun _ => .ret (), fun hg => absurd ⟨rfl, hg⟩ hl⟩
          choose k hk using hmembers
          exact .inr ⟨_, _, .meet hsome hk hout⟩

/-- Nothing is left to do once all threads have ended. -/
theorem finished (h : Scheduled n exec apart w c s') (hc : c.Finished) : w = [] ∧ c.state = s' := by
  have hnone : w = [] := by
    refine List.eq_nil_iff_forall_not_mem.mpr fun l hl => ?_
    have hfree : ∀ b i, ¬ l.Involves n b i := fun b i =>
      Takes.ret_eq (hc b i ▸ h.threads b i) l hl
    cases l with
    | act b i o v => exact hfree b i ⟨rfl, rfl⟩
    | meet b g vs =>
        obtain ⟨⟨i, hi⟩, -⟩ := h.proper _ hl
        exact hfree b i ⟨rfl, hi⟩
  subst hnone
  exact ⟨rfl, h.replays⟩

/-- A run that ends performed the plan in some order, to its effect. -/
theorem complete (hsymm : ∀ o o', apart o o' → apart o' o)
    (hcommute : ∀ o o', apart o o' → Commute exec o o') (h : Scheduled n exec apart w c s')
    (hrun : Run n exec c tr c') (hc : c'.Finished) : tr.Perm w ∧ c'.state = s' := by
  obtain ⟨w', hw', -, hperm, -⟩ := h.run hsymm hcommute hrun
  obtain ⟨rfl, hstate⟩ := hw'.finished hc
  rw [List.append_nil] at hperm
  exact ⟨hperm, hstate⟩

/-- What two threads do without meeting in between is apart. -/
theorem raceFree (hsymm : ∀ o o', apart o o' → apart o' o)
    (hcommute : ∀ o o', apart o o' → Commute exec o o') (h : Scheduled n exec apart w c s')
    {before between after : List (Label Op V)} {b i b' j : Nat} {o o' : Op} {v v' : V}
    (hrun : Run n exec c (before ++ .act b i o v :: (between ++ .act b' j o' v' :: after)) c')
    (hne : (b, i) ≠ (b', j)) :
    apart o o' ∨ ∃ l ∈ between, l.Involves n b i ∧ l.Involves n b' j := by
  obtain ⟨w', -, hseparated, -, -⟩ := h.run hsymm hcommute hrun
  simp only [List.append_assoc, List.cons_append] at hseparated
  exact hseparated.apart_or_meet hne

end Scheduled

-- ============================================================================
-- Making plans
-- ============================================================================

section Making

omit [Zero V]

theorem mem_of_mem_untilMeet {b i b' j : Nat} {a : Label Op V} {w : List (Label Op V)}
    (h : a ∈ untilMeet n b i b' j w) : a ∈ w := (List.takeWhile_sublist _).subset h

/-- Operations of which those of different threads are all apart. -/
theorem Separated.of_apart {w : List (Label Op V)}
    (h : ∀ b i o v b' j o' v', .act b i o v ∈ w → .act b' j o' v' ∈ w → (b, i) ≠ (b', j) →
      apart o o') : Separated n apart w := by
  induction w with
  | nil => trivial
  | cons l w ih =>
      refine Separated.cons (ih fun b i o v b' j o' v' hmem hmem' => h b i o v b' j o' v'
        (List.mem_cons_of_mem l hmem) (List.mem_cons_of_mem l hmem')) ?_
      rintro b i o v rfl b' j hne o' v' hmem
      exact h b i o v b' j o' v' List.mem_cons_self
        (List.mem_cons_of_mem _ (mem_of_mem_untilMeet hmem)) hne

/-- A part that follows another one. -/
theorem Separated.append {w w' : List (Label Op V)} (hw : Separated n apart w)
    (hw' : Separated n apart w')
    (h : ∀ b i o v b' j o' v', .act b i o v ∈ w → (b, i) ≠ (b', j) →
      .act b' j o' v' ∈ untilMeet n b i b' j w' → apart o o') :
    Separated n apart (w ++ w') := by
  induction w with
  | nil => exact hw'
  | cons a w ih =>
      refine Separated.cons (ih hw.tail fun b i o v b' j o' v' hmem => h b i o v b' j o' v'
        (List.mem_cons_of_mem a hmem)) ?_
      rintro b i o v rfl b' j hne o' v' hmem
      rcases mem_untilMeet_append hmem with hmem | hmem
      · exact hw.clear b' j hne o' v' hmem
      · exact h b i o v b' j o' v' List.mem_cons_self hne hmem

/-- The operations of one thread, with their answers. -/
def threadActs (b i : Nat) : List (Label Op V) → List (Op × V)
  | [] => []
  | .act b' i' o v :: w =>
      if b' = b ∧ i' = i then (o, v) :: threadActs b i w else threadActs b i w
  | .meet _ _ _ :: w => threadActs b i w

theorem threadActs_append (b i : Nat) (w w' : List (Label Op V)) :
    threadActs b i (w ++ w') = threadActs b i w ++ threadActs b i w' := by
  induction w with
  | nil => rfl
  | cons l w ih =>
      cases l with
      | act b' i' o v =>
          rw [List.cons_append, threadActs, threadActs, ih]
          split <;> rfl
      | meet b' g vs => exact ih

theorem mem_threadActs {b i : Nat} {w : List (Label Op V)} {e : Op × V} :
    e ∈ threadActs b i w ↔ .act b i e.1 e.2 ∈ w := by
  induction w with
  | nil => simp [threadActs]
  | cons l w ih =>
      cases l with
      | act b' i' o v =>
          rw [threadActs, List.mem_cons, ← ih]
          split
          · rename_i heq
            obtain ⟨rfl, rfl⟩ := heq
            simp [Prod.ext_iff]
          · rename_i hne
            refine (or_iff_right fun heq => hne ?_).symm
            injection heq with hb hi
            exact ⟨hb.symm, hi.symm⟩
      | meet b' g vs => simp [threadActs, ih]

/-- The answers are those that the operations get one after another. -/
def Answers (exec : Op → S → V × S) : List (Op × V) → S → Prop
  | [], _ => True
  | (o, v) :: es, s => (exec o s).1 = v ∧ Answers exec es (exec o s).2

theorem Answers.after {es : List (Op × V)} {o : Op} {s : S} (h : Answers exec es s)
    (hcommute : ∀ e ∈ es, Commute exec e.1 o) : Answers exec es (exec o s).2 := by
  induction es generalizing s with
  | nil => trivial
  | cons e es ih =>
      obtain ⟨hanswer, -, hstate⟩ := hcommute e List.mem_cons_self s
      refine ⟨hanswer.trans h.1, ?_⟩
      rw [← hstate]
      exact ih h.2 fun e' he' => hcommute e' (List.mem_cons_of_mem e he')

/-- Where operations of different threads commute, threads that get their answers by
    themselves get them together. -/
theorem replays_of_threads {w : List (Label Op V)} {s : S}
    (hanswers : ∀ b i, Answers exec (threadActs b i w) s)
    (hcommute : ∀ b i o v b' j o' v', .act b i o v ∈ w → .act b' j o' v' ∈ w → (b, i) ≠ (b', j) →
      Commute exec o o') : ∃ s', Replays exec w s s' := by
  induction w generalizing s with
  | nil => exact ⟨s, rfl⟩
  | cons l w ih =>
      have htail := fun b i o v b' j o' v' hmem hmem' => hcommute b i o v b' j o' v'
        (List.mem_cons_of_mem l hmem) (List.mem_cons_of_mem l hmem')
      cases l with
      | meet b g vs => exact ih hanswers htail
      | act b i o v =>
          have hown := hanswers b i
          rw [threadActs, if_pos ⟨rfl, rfl⟩] at hown
          have hrest : ∀ b' j, Answers exec (threadActs b' j w) (exec o s).2 := by
            intro b' j
            by_cases hsame : b = b' ∧ i = j
            · obtain ⟨rfl, rfl⟩ := hsame
              exact hown.2
            · have hother := hanswers b' j
              rw [threadActs, if_neg hsame] at hother
              refine hother.after fun e he => ?_
              refine hcommute b' j e.1 e.2 b i o v
                (List.mem_cons_of_mem _ (mem_threadActs.mp he)) List.mem_cons_self fun heq => ?_
              injection heq with hb hi
              exact hsame ⟨hb.symm, hi.symm⟩
          obtain ⟨s', hs'⟩ := ih hrest htail
          exact ⟨s', hown.1, hs'⟩

end Making

end PassionProjects.Warps
