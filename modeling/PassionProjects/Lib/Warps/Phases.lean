/-
  PassionProjects.Lib.Warps.Phases

  Blocks, phase by phase.  Between two barriers the threads of a block perform operations
  and meet in warps; at the barrier, the memory is what they leave if they do not race.
-/

import PassionProjects.Lib.Warps.Words

namespace PassionProjects.Warps

open Program
open Kernels (replay replay_append replay_of_not_mem replay_of_mem)

variable {X V : Type}

/-- What the threads of a block do between two barriers: the cells that each may read, its
    writes and its additions. -/
structure Footprint (X V : Type) where
  reads : Nat → Set X
  writes : Nat → List (X × V)
  adds : Nat → List (X × V)

namespace Footprint

def empty : Footprint X V := ⟨fun _ => ∅, fun _ => [], fun _ => []⟩

def extend (f : Footprint X V) (C : Nat → Set X) (ws as : Nat → List (X × V)) : Footprint X V :=
  ⟨fun i => f.reads i ∪ C i, fun i => f.writes i ++ ws i, fun i => f.adds i ++ as i⟩

theorem empty_extend (C : Nat → Set X) (ws as : Nat → List (X × V)) :
    empty.extend C ws as = ⟨C, ws, as⟩ := by
  simp [empty, extend]

def allWrites (n : Nat) (f : Footprint X V) : List (X × V) := (List.range n).flatMap f.writes

def allAdds (n : Nat) (f : Footprint X V) : List (X × V) := (List.range n).flatMap f.adds

theorem mem_allWrites {n : Nat} {f : Footprint X V} {w : X × V} :
    w ∈ f.allWrites n ↔ ∃ i < n, w ∈ f.writes i := by
  simp [allWrites]

theorem mem_allAdds {n : Nat} {f : Footprint X V} {a : X × V} :
    a ∈ f.allAdds n ↔ ∃ i < n, a ∈ f.adds i := by
  simp [allAdds]

/-- No thread writes a cell that another one reads or writes, what is added to is neither
    read nor written, and no thread writes two values to a cell. -/
structure RaceFree (n : Nat) (f : Footprint X V) : Prop where
  writes : ∀ i < n, ∀ j < n, i ≠ j → ∀ w ∈ f.writes i,
    w.1 ∉ f.reads j ∧ ∀ w' ∈ f.writes j, w.1 ≠ w'.1
  adds : ∀ i < n, ∀ j < n, ∀ a ∈ f.adds i, a.1 ∉ f.reads j ∧ ∀ w ∈ f.writes j, a.1 ≠ w.1
  once : ∀ i < n, ∀ w ∈ f.writes i, ∀ w' ∈ f.writes i, w.1 = w'.1 → w.2 = w'.2

/-- The cells that the block writes or adds to. -/
def Updates (n : Nat) (f : Footprint X V) (x : X) : Prop :=
  (∃ w ∈ f.allWrites n, w.1 = x) ∨ ∃ a ∈ f.allAdds n, a.1 = x

/-- The access is one of the thread. -/
def Has (f : Footprint X V) (i : Nat) : Access X V → Prop
  | .read x => x ∈ f.reads i
  | .write x v => (x, v) ∈ f.writes i
  | .add x v => (x, v) ∈ f.adds i

variable {n : Nat} {f : Footprint X V}

theorem RaceFree.apart (h : f.RaceFree n) {i j : Nat} (hi : i < n) (hj : j < n) (hij : i ≠ j)
    {a a' : Access X V} (ha : f.Has i a) (ha' : f.Has j a') : a.Apart a' := by
  cases a with
  | read x =>
      cases a' with
      | read x' => trivial
      | write x' v' =>
          exact fun heq : x = x' => (h.writes j hj i hi hij.symm _ ha').1 (heq ▸ ha : x' ∈ _)
      | add x' v' => exact fun heq : x = x' => (h.adds j hj i hi _ ha').1 (heq ▸ ha : x' ∈ _)
  | write x v =>
      cases a' with
      | read x' => exact fun heq : x = x' => (h.writes i hi j hj hij _ ha).1 (heq ▸ ha' : x ∈ _)
      | write x' v' => exact (h.writes i hi j hj hij _ ha).2 _ ha'
      | add x' v' => exact Ne.symm ((h.adds j hj i hi _ ha').2 _ ha)
  | add x v =>
      cases a' with
      | read x' => exact fun heq : x = x' => (h.adds i hi j hj _ ha).1 (heq ▸ ha' : x ∈ _)
      | write x' v' => exact (h.adds i hi j hj _ ha).2 _ ha'
      | add x' v' => trivial

theorem RaceFree.written_eq (h : f.RaceFree n) {w w' : X × V} (hw : w ∈ f.allWrites n)
    (hw' : w' ∈ f.allWrites n) (heq : w'.1 = w.1) : w'.2 = w.2 := by
  obtain ⟨i, hi, hw⟩ := mem_allWrites.mp hw
  obtain ⟨j, hj, hw'⟩ := mem_allWrites.mp hw'
  rcases eq_or_ne j i with rfl | hne
  · exact h.once j hj w' hw' w hw heq
  · exact absurd heq ((h.writes j hj i hi hne w' hw').2 w hw)

section After

variable [DecidableEq X] (plus : V → V → V)

/-- The memory after the phase. -/
def after (n : Nat) (f : Footprint X V) (μ : X → V) (x : X) : V :=
  (atCell x (f.allAdds n)).foldl plus (replay (f.allWrites n) μ x)

variable {plus} {μ : X → V} {x : X}

theorem after_added (h : ∀ w ∈ f.allWrites n, w.1 ≠ x) :
    f.after plus n μ x = (atCell x (f.allAdds n)).foldl plus (μ x) :=
  congrArg (fun v => List.foldl plus v _) (replay_of_not_mem h μ)

theorem after_kept (h : ¬ f.Updates n x) : f.after plus n μ x = μ x := by
  rw [after_added fun w hw heq => h (.inl ⟨w, hw, heq⟩),
    atCell_eq_nil fun a ha heq => h (.inr ⟨a, ha, heq⟩)]
  rfl

theorem RaceFree.after_written (h : f.RaceFree n) {w : X × V} (hw : w ∈ f.allWrites n) :
    f.after plus n μ w.1 = w.2 := by
  have hadds : atCell w.1 (f.allAdds n) = [] := by
    refine atCell_eq_nil fun a ha => ?_
    obtain ⟨i, hi, ha⟩ := mem_allAdds.mp ha
    obtain ⟨j, hj, hw⟩ := mem_allWrites.mp hw
    exact (h.adds i hi j hj a ha).2 w hw
  rw [after, hadds]
  exact replay_of_mem (fun w' hw' => h.written_eq hw hw') ⟨w, hw, rfl⟩ μ

end After

end Footprint

-- ============================================================================
-- Plans for a block
-- ============================================================================

section Plans

/-- The step is one of block `b`. -/
def Label.Of [Zero V] (n b : Nat) : Label (Access X V) V → Prop
  | .act b' i _ _ => b' = b ∧ i < n
  | .meet b' g vs => b' = b ∧ (Label.meet b' g vs : Label (Access X V) V).Proper n

variable [DecidableEq X] [Zero V] {n b : Nat} {plus : V → V → V} {R : Nat → Set X} {own : Set X}
    {μ₀ μ : X → V}

/-- The word `w` takes the threads to a barrier, behind which they are at `qs` with the
    memory `μ`.  Thread `i` reads cells of `R i` only, and only those of `own` are changed. -/
structure Done (n b : Nat) (plus : V → V → V) (R : Nat → Set X) (own : Set X) (μ₀ : X → V)
    (ps : Nat → Program (Access X V) V Unit) (w : Word X V) (μ : X → V)
    (qs : Nat → Program (Access X V) V Unit) : Prop where
  takes : ∀ i < n, Takes n b i (ps i) w (qs i)
  labels : ∀ l ∈ w, l.Of n b
  reads : ∀ i x v, .act b i (.read x) v ∈ w → x ∈ R i
  writes : ∀ a ∈ w.filterMap Label.written, a.1 ∈ own
  adds : ∀ a ∈ w.filterMap Label.added, a.1 ∈ own
  separated : ∀ w', (∀ l ∈ w', l.Of n b) → Separated n Access.Apart w' →
    Separated n Access.Apart (w ++ w')
  replays : ∀ ν, (∀ i < n, ∀ x ∈ R i, ν x = μ₀ x) →
    Replays (Access.exec plus) w ν (effect plus w ν)
  memory : effect plus w μ₀ = μ

/-- The word `u` of the phase that the threads are in, from `ps` with the memory `μ`. -/
structure Current (n b : Nat) (μ : X → V) (ps : Nat → Program (Access X V) V Unit) (u : Word X V)
    (f : Footprint X V) (qs : Nat → Program (Access X V) V Unit) : Prop where
  takes : ∀ i < n, Takes n b i (ps i) u (qs i)
  labels : ∀ l ∈ u, l.Of n b
  answered : ∀ i < n, Answered (threadActs b i u) μ
  reads : ∀ i < n, ∀ x v, (.read x, v) ∈ threadActs b i u → x ∈ f.reads i
  writes : ∀ i < n, ((threadActs b i u).filterMap fun e => e.1.written) = f.writes i
  adds : ∀ i < n, ((threadActs b i u).filterMap fun e => e.1.added) = f.adds i
  allWrites : (u.filterMap Label.written).Perm (f.allWrites n)
  allAdds : (u.filterMap Label.added).Perm (f.allAdds n)

variable {ps qs rs : Nat → Program (Access X V) V Unit} {u w : Word X V} {f : Footprint X V}

theorem Current.start (μ : X → V) (ps : Nat → Program (Access X V) V Unit) :
    Current n b μ ps [] .empty ps where
  takes _ _ := .nil
  labels _ hl := absurd hl List.not_mem_nil
  answered _ _ := trivial
  reads _ _ _ _ h := absurd h List.not_mem_nil
  writes _ _ := rfl
  adds _ _ := rfl
  allWrites := by simp [Footprint.allWrites, Footprint.empty]
  allAdds := by simp [Footprint.allAdds, Footprint.empty]

/-- Each thread performs some operations. -/
theorem Current.perform (h : Current n b μ ps u f qs) {C : Nat → Set X}
    {ws as : Nat → List (X × V)}
    (hrs : ∀ i < n, Performs (C i) (replay (f.writes i) μ) (qs i) (ws i) (as i) (rs i)) :
    ∃ u', Current n b μ ps u' (f.extend C ws as) rs := by
  have hes : ∀ i, ∃ es : List (Access X V × V), i < n → (∀ n b i', Takes n b i' (qs i)
      (actsOf b i' es) (rs i)) ∧ Answered es (replay (f.writes i) μ) ∧
      (∀ x v, (.read x, v) ∈ es → x ∈ C i) ∧ (es.filterMap fun e => e.1.written) = ws i ∧
        (es.filterMap fun e => e.1.added) = as i := by
    intro i
    by_cases hi : i < n
    · obtain ⟨es, hall⟩ := (hrs i hi).takes
      exact ⟨es, fun _ => hall⟩
    · exact ⟨[], fun hlt => absurd hlt hi⟩
  choose es hes using hes
  have hown : ∀ i < n, threadActs b i (u ++ turns es n b) = threadActs b i u ++ es i := fun i hi =>
    (threadActs_append b i u _).trans (congrArg _ (threadActs_turns hi))
  refine ⟨u ++ turns es n b, ?_⟩
  constructor
  · exact fun i hi => (h.takes i hi).append (takes_turns hi ((hes i hi).1 n b i))
  · intro l hl
    rcases List.mem_append.mp hl with hl | hl
    · exact h.labels l hl
    · obtain ⟨i, hi, hl⟩ := List.mem_flatMap.mp hl
      obtain ⟨e, -, rfl⟩ := List.mem_map.mp hl
      exact ⟨rfl, List.mem_range.mp hi⟩
  · intro i hi
    rw [hown i hi]
    refine answered_append (h.answered i hi) ?_
    rw [h.writes i hi]
    exact (hes i hi).2.1
  · intro i hi x v hmem
    rw [hown i hi] at hmem
    exact (List.mem_append.mp hmem).imp (h.reads i hi x v) ((hes i hi).2.2.1 x v)
  · intro i hi
    rw [hown i hi, List.filterMap_append, h.writes i hi, (hes i hi).2.2.2.1]
    rfl
  · intro i hi
    rw [hown i hi, List.filterMap_append, h.adds i hi, (hes i hi).2.2.2.2]
    rfl
  · rw [List.filterMap_append, written_turns]
    have hws : ((List.range n).flatMap fun i => (es i).filterMap fun e => e.1.written) =
        (List.range n).flatMap ws :=
      List.flatMap_congr fun i hi => (hes i (List.mem_range.mp hi)).2.2.2.1
    rw [hws]
    exact (h.allWrites.append_right _).trans (List.flatMap_append_perm ..)
  · rw [List.filterMap_append, added_turns]
    have has : ((List.range n).flatMap fun i => (es i).filterMap fun e => e.1.added) =
        (List.range n).flatMap as :=
      List.flatMap_congr fun i hi => (hes i (List.mem_range.mp hi)).2.2.2.2
    rw [has]
    exact (h.allAdds.append_right _).trans (List.flatMap_append_perm ..)

/-- A group meets. -/
theorem Current.meet (h : Current n b μ ps u f qs) {g : Group} (vs : Nat → V)
    {k : Nat → (Nat → V) → Program (Access X V) V Unit} (hsome : ∃ i, g.Has n i)
    (hk : ∀ i, g.Has n i → qs i = .meet g (vs i) (k i)) (hout : ∀ i, ¬ g.Has n i → vs i = 0) :
    Current n b μ ps (u ++ [.meet b g vs]) f fun i => if g.Has n i then k i vs else qs i := by
  have hown : ∀ i, threadActs b i (u ++ [.meet b g vs]) = threadActs b i u := fun i =>
    (threadActs_append b i u _).trans (List.append_nil _)
  constructor
  · intro i hi
    refine (h.takes i hi).append ?_
    split
    · rename_i hg
      rw [hk i hg]
      exact .meet hg .nil
    · rename_i hg
      exact .skip (fun hinvolves => hg hinvolves.2) .nil
  · intro l hl
    rcases List.mem_append.mp hl with hl | hl
    · exact h.labels l hl
    · rw [List.mem_singleton.mp hl]
      exact ⟨rfl, hsome, hout⟩
  · exact fun i hi => (hown i).symm ▸ h.answered i hi
  · exact fun i hi => (hown i).symm ▸ h.reads i hi
  · exact fun i hi => (hown i).symm ▸ h.writes i hi
  · exact fun i hi => (hown i).symm ▸ h.adds i hi
  · rw [List.filterMap_append]
    exact (List.append_nil _).symm ▸ h.allWrites
  · rw [List.filterMap_append]
    exact (List.append_nil _).symm ▸ h.allAdds

-- ============================================================================
-- Without races
-- ============================================================================

/-- The operations of the phase are in its footprint. -/
theorem Current.has (h : Current n b μ ps u f qs) {b' i : Nat} {a : Access X V} {v : V}
    (hmem : .act b' i a v ∈ u) : b' = b ∧ i < n ∧ f.Has i a := by
  obtain ⟨rfl, hi⟩ := h.labels _ hmem
  have hown : (a, v) ∈ threadActs b' i u := mem_threadActs.mpr hmem
  refine ⟨rfl, hi, ?_⟩
  cases a with
  | read x => exact h.reads i hi x v hown
  | write x v' =>
      show (x, v') ∈ f.writes i
      rw [← h.writes i hi]
      exact List.mem_filterMap.mpr ⟨_, hown, rfl⟩
  | add x v' =>
      show (x, v') ∈ f.adds i
      rw [← h.adds i hi]
      exact List.mem_filterMap.mpr ⟨_, hown, rfl⟩

theorem Current.apart (h : Current n b μ ps u f qs) (hrace : f.RaceFree n) {b₁ b₂ i j : Nat}
    {a a' : Access X V} {v v' : V} (hmem : .act b₁ i a v ∈ u) (hmem' : .act b₂ j a' v' ∈ u)
    (hne : (b₁, i) ≠ (b₂, j)) : a.Apart a' := by
  obtain ⟨rfl, hi, ha⟩ := h.has hmem
  obtain ⟨rfl, hj, ha'⟩ := h.has hmem'
  exact hrace.apart hi hj (fun hij => hne (hij ▸ rfl)) ha ha'

theorem Current.separated (h : Current n b μ ps u f qs) (hrace : f.RaceFree n) :
    Separated n Access.Apart u :=
  .of_apart fun _ _ _ _ _ _ _ _ hmem hmem' hne => h.apart hrace hmem hmem' hne

/-- In a memory with the same values of what is read, the threads get the same answers. -/
theorem Current.replays [RightCommutative plus] (h : Current n b μ ps u f qs)
    (hrace : f.RaceFree n) {ν : X → V} (hν : ∀ i < n, ∀ x ∈ f.reads i, ν x = μ x) :
    Replays (Access.exec plus) u ν (effect plus u ν) := by
  have hanswers : ∀ b' i, Answers (Access.exec plus) (threadActs b' i u) ν := by
    intro b' i
    by_cases hown : b' = b ∧ i < n
    · obtain ⟨rfl, hi⟩ := hown
      refine (h.answered i hi).answers (h.reads i hi) (fun x c v hmem => ?_) (hν i hi)
      exact (hrace.adds i hi i hi (x, c) (h.has (mem_threadActs.mp hmem)).2.2).1
    · rw [threadActs_eq_nil fun a v hmem => hown ⟨(h.has hmem).1, (h.has hmem).2.1⟩]
      trivial
  obtain ⟨μ', hreplays⟩ := replays_of_threads hanswers
    fun _ _ _ _ _ _ _ _ hmem hmem' hne =>
      Access.commute_of_apart plus _ _ (h.apart hrace hmem hmem' hne)
  exact eq_effect hreplays ▸ hreplays

/-- The word leaves what its footprint tells. -/
theorem Current.effect_eq [RightCommutative plus] (h : Current n b μ ps u f qs)
    (hrace : f.RaceFree n) (ν : X → V) : effect plus u ν = f.after plus n ν := by
  funext x
  have hwrites : ∀ w, w ∈ u.filterMap Label.written ↔ w ∈ f.allWrites n := fun w =>
    h.allWrites.mem_iff
  by_cases hx : ∃ w ∈ f.allWrites n, w.1 = x
  · obtain ⟨w, hw, rfl⟩ := hx
    rw [hrace.after_written hw, effect_of_writes fun a ha => ?_]
    · refine replay_of_mem (fun w' hw' => hrace.written_eq hw ((hwrites w').mp hw'))
        ⟨w, (hwrites w).mpr hw, rfl⟩ ν
    · obtain ⟨i, hi, ha⟩ := Footprint.mem_allAdds.mp (h.allAdds.mem_iff.mp ha)
      obtain ⟨j, hj, hw⟩ := Footprint.mem_allWrites.mp hw
      exact (hrace.adds i hi j hj a ha).2 w hw
  · rw [Footprint.after_added fun w hw heq => hx ⟨w, hw, heq⟩,
      effect_of_adds fun w hw heq => hx ⟨w, (hwrites w).mp hw, heq⟩]
    exact (perm_atCell h.allAdds).foldl_eq _

theorem Done.start (ps : Nat → Program (Access X V) V Unit) :
    Done n b plus R own μ₀ ps [] μ₀ ps where
  takes _ _ := .nil
  labels _ hl := absurd hl List.not_mem_nil
  reads _ _ _ h := absurd h List.not_mem_nil
  writes _ h := absurd h List.not_mem_nil
  adds _ h := absurd h List.not_mem_nil
  separated _ _ h := h
  replays _ _ := rfl
  memory := rfl

/-- What comes after the last barrier. -/
theorem Done.replays_then [RightCommutative plus] (h : Done n b plus R own μ₀ ps w μ qs)
    (hu : Current n b μ qs u f rs) (hrace : f.RaceFree n)
    (hreads : ∀ i < n, ∀ x ∈ f.reads i, x ∈ R i) {ν : X → V}
    (hν : ∀ i < n, ∀ x ∈ R i, ν x = μ₀ x) :
    Replays (Access.exec plus) (w ++ u) ν (effect plus (w ++ u) ν) := by
  rw [effect_append]
  refine replays_append.mpr ⟨_, h.replays ν hν, hu.replays hrace fun i hi x hx => ?_⟩
  rw [← h.memory]
  exact effect_congr (hν i hi x (hreads i hi x hx)) w

/-- All threads come to a barrier. -/
theorem Done.sync [RightCommutative plus] (h : Done n b plus R own μ₀ ps w μ qs)
    (hu : Current n b μ qs u f rs) (hn : 0 < n)
    {k : Nat → (Nat → V) → Program (Access X V) V Unit}
    (hrs : ∀ i < n, rs i = .meet .block 0 (k i)) (hrace : f.RaceFree n)
    (hreads : ∀ i < n, ∀ x ∈ f.reads i, x ∈ R i) (hupdates : ∀ x, f.Updates n x → x ∈ own) :
    Done n b plus R own μ₀ ps (w ++ (u ++ [.meet b .block fun _ => 0])) (f.after plus n μ)
      fun i => k i fun _ => 0 := by
  have hlast := hu.meet (g := .block) (k := k) (fun _ => 0) ⟨0, hn⟩ hrs fun _ _ => rfl
  have hwritten : ∀ p : Label (Access X V) V → Option (X × V),
      p (Label.meet b .block fun _ => 0) = none →
        (w ++ (u ++ [Label.meet b .block fun _ => 0])).filterMap p = w.filterMap p ++
          u.filterMap p := by
    intro p hp
    rw [List.filterMap_append, List.filterMap_append, List.filterMap_cons_none hp,
      List.filterMap_nil, List.append_nil]
  constructor
  · intro i hi
    have htakes := (h.takes i hi).append (hlast.takes i hi)
    rwa [if_pos (show Group.block.Has n i from hi)] at htakes
  · exact fun l hl => (List.mem_append.mp hl).elim (h.labels l) (hlast.labels l)
  · intro i x v hmem
    rcases List.mem_append.mp hmem with hmem | hmem
    · exact h.reads i x v hmem
    · obtain ⟨-, hi, hhas⟩ := hlast.has hmem
      exact hreads i hi x hhas
  · rw [hwritten Label.written rfl]
    intro a ha
    rcases List.mem_append.mp ha with ha | ha
    · exact h.writes a ha
    · exact hupdates a.1 (.inl ⟨a, hu.allWrites.mem_iff.mp ha, rfl⟩)
  · rw [hwritten Label.added rfl]
    intro a ha
    rcases List.mem_append.mp ha with ha | ha
    · exact h.adds a ha
    · exact hupdates a.1 (.inr ⟨a, hu.allAdds.mem_iff.mp ha, rfl⟩)
  · intro w' hlabels hw'
    rw [List.append_assoc, List.append_assoc]
    refine h.separated _ (fun l hl => ?_) ((hu.separated hrace).append hw' ?_)
    · rcases List.mem_append.mp hl with hl | hl
      · exact hu.labels l hl
      · rcases List.mem_cons.mp hl with rfl | hl
        · exact ⟨rfl, ⟨0, hn⟩, fun _ _ => rfl⟩
        · exact hlabels l hl
    · -- behind the barrier all threads of the block have met
      intro b₁ i a v b₂ j a' v' hmem _ hmem'
      obtain ⟨rfl, hi⟩ := hu.labels _ hmem
      have hin := mem_of_mem_untilMeet hmem'
      rcases List.mem_cons.mp hin with heq | hin
      · injection heq
      · obtain ⟨rfl, hj⟩ := hlabels _ hin
        have hboth : ∀ c, Label.Involves n (.meet c .block fun _ => 0 : Label (Access X V) V) c i ∧
            Label.Involves n (.meet c .block fun _ => 0 : Label (Access X V) V) c j :=
          fun _ => ⟨⟨rfl, hi⟩, rfl, hj⟩
        rw [List.singleton_append, untilMeet_cons_stop (hboth _)] at hmem'
        exact absurd hmem' List.not_mem_nil
  · exact fun ν hν => h.replays_then hlast hrace hreads hν
  · rw [effect_append, h.memory, effect_append]
    exact hu.effect_eq hrace μ

end Plans

end PassionProjects.Warps
