/-
  PassionProjects.Lib.Kernels.Grid

  Blocks and grids of threads that read and write a memory.  A block is told phase by
  phase; where the threads of a phase do not race and the blocks keep apart, this tells
  every run of the grid.
-/

import PassionProjects.Lib.Kernels.Memory

namespace PassionProjects.Kernels

open Program

variable {B T X V : Type}

/-- What the threads of a block do between two barriers: the cells that each may read, and
    its writes. -/
structure Footprint (T X V : Type) where
  reads : T → Set X
  writes : T → List (X × V)

namespace Footprint

/-- No thread writes a cell that another one reads or writes. -/
def RaceFree (f : Footprint T X V) : Prop :=
  ∀ i j, i ≠ j → ∀ w ∈ f.writes i, w.1 ∉ f.reads j ∧ ∀ w' ∈ f.writes j, w.1 ≠ w'.1

/-- The memory `μ'` is `μ` after the writes of all threads. -/
structure Leads (f : Footprint T X V) (μ μ' : X → V) : Prop where
  written : ∀ i, ∀ w ∈ f.writes i, μ' w.1 = w.2
  kept : ∀ x, (∀ i, ∀ w ∈ f.writes i, w.1 ≠ x) → μ' x = μ x

/-- The access is a read or a write of the thread. -/
def Has (f : Footprint T X V) (i : T) (a : Access X V) : Prop :=
  (∃ x ∈ f.reads i, a = .read x) ∨ ∃ w ∈ f.writes i, a = .write w.1 w.2

noncomputable def allWrites [Fintype T] (f : Footprint T X V) : List (X × V) :=
  Finset.univ.toList.flatMap f.writes

theorem RaceFree.apart {f : Footprint T X V} (h : f.RaceFree) {i j : T} (hij : i ≠ j)
    {a a' : Access X V} (ha : f.Has i a) (ha' : f.Has j a') : a.Apart a' := by
  rcases ha with ⟨x, hx, rfl⟩ | ⟨w, hw, rfl⟩
  · rcases ha' with ⟨x', hx', rfl⟩ | ⟨w', hw', rfl⟩
    · trivial
    · refine .of_ne fun heq => (h j i hij.symm w' hw').1 ?_
      rwa [← show x = w'.1 from heq]
  · rcases ha' with ⟨x', hx', rfl⟩ | ⟨w', hw', rfl⟩
    · refine .of_ne fun heq => (h i j hij w hw).1 ?_
      rwa [show w.1 = x' from heq]
    · exact .of_ne ((h i j hij w hw).2 w' hw')

theorem Leads.replay [Fintype T] [DecidableEq X] {f : Footprint T X V} {μ μ' : X → V}
    (h : f.Leads μ μ') : Kernels.replay f.allWrites μ = μ' := by
  refine replay_eq (fun w hw => ?_) fun x hx => h.kept x fun i w hw => hx w ?_
  · obtain ⟨i, -, hw⟩ := List.mem_flatMap.mp hw
    exact h.written i w hw
  · exact List.mem_flatMap.mpr ⟨i, by simp, hw⟩

/-- Where no thread writes a cell twice, there is a memory after all writes. -/
theorem RaceFree.leads {f : Footprint T X V} (h : f.RaceFree)
    (hself : ∀ i, ∀ w ∈ f.writes i, ∀ w' ∈ f.writes i, w.1 = w'.1 → w = w') (μ : X → V) :
    ∃ μ', f.Leads μ μ' := by
  classical
  refine ⟨fun x => if hx : ∃ w, (∃ i, w ∈ f.writes i) ∧ w.1 = x then hx.choose.2 else μ x,
    fun i w hw => ?_, fun x hx => dif_neg ?_⟩
  · have hwritten : ∃ w', (∃ i, w' ∈ f.writes i) ∧ w'.1 = w.1 := ⟨w, ⟨i, hw⟩, rfl⟩
    obtain ⟨⟨j, hj⟩, heq⟩ := hwritten.choose_spec
    refine (dif_pos hwritten).trans ?_
    rcases eq_or_ne j i with rfl | hne
    · rw [hself j _ hj w hw heq]
    · exact absurd heq ((h j i hne _ hj).2 w hw)
  · rintro ⟨w, ⟨i, hw⟩, heq⟩
    exact hx i w hw heq

end Footprint

def Reads (fs : List (Footprint T X V)) (x : X) : Prop :=
  ∃ f ∈ fs, ∃ i, x ∈ f.reads i

def Writes (fs : List (Footprint T X V)) (x : X) : Prop :=
  ∃ f ∈ fs, ∃ i, ∃ w ∈ f.writes i, w.1 = x

/-- From `μ` the threads of a block do this between the barriers, and end with `μ'`. -/
inductive BlockPerforms [DecidableEq X] : (X → V) → (T → Program (Access X V) V Unit) →
    List (Footprint T X V) → (X → V) → Prop where
  | last {μ μ' : X → V} {ps : T → Program (Access X V) V Unit} {f : Footprint T X V} :
      (∀ i, Performs (f.reads i) μ (ps i) (f.writes i) (.ret ())) → f.RaceFree → f.Leads μ μ' →
        BlockPerforms μ ps [f] μ'
  | next {μ μ₁ μ' : X → V} {ps k : T → Program (Access X V) V Unit} {f : Footprint T X V}
      {fs : List (Footprint T X V)} :
      (∀ i, Performs (f.reads i) μ (ps i) (f.writes i) (.sync (k i))) → f.RaceFree →
        f.Leads μ μ₁ → BlockPerforms μ₁ k fs μ' → BlockPerforms μ ps (f :: fs) μ'

/-- Threads that only read before they go on with their first phase. -/
theorem BlockPerforms.of_read [DecidableEq X] {R : Type} {μ μ' : X → V}
    {ps : T → Program (Access X V) V R} {r : T → R} {k : T → R → Program (Access X V) V Unit}
    {f : Footprint T X V} {fs : List (Footprint T X V)}
    (hps : ∀ i, Performs (f.reads i) μ (ps i) [] (.ret (r i)))
    (h : BlockPerforms μ (fun i => k i (r i)) (f :: fs) μ') :
    BlockPerforms μ (fun i => ps i >>= k i) (f :: fs) μ' := by
  cases h with
  | last hf hrace hleads => exact .last (fun i => (hps i).bind_read (hf i)) hrace hleads
  | next hf hrace hleads hfs => exact .next (fun i => (hps i).bind_read (hf i)) hrace hleads hfs

-- ============================================================================
-- The serial run of a block
-- ============================================================================

section Serial

variable [DecidableEq X]

/-- Parts none of which writes what another one reads. -/
theorem replays_flatMap {ι : Type} {xs : List ι} (hnodup : xs.Nodup) {C : ι → Set X}
    {ls : ι → List (Label B T (Access X V) V)} {ws : ι → List (X × V)} {μ ν : X → V}
    (hls : ∀ i ∈ xs, ∀ ν, (∀ x ∈ C i, ν x = μ x) →
      Replays Access.exec (ls i) ν (replay (ws i) ν))
    (hapart : ∀ i j, i ≠ j → ∀ w ∈ ws i, w.1 ∉ C j) (hν : ∀ i ∈ xs, ∀ x ∈ C i, ν x = μ x) :
    Replays Access.exec (xs.flatMap ls) ν (replay (xs.flatMap ws) ν) := by
  induction xs generalizing ν with
  | nil => exact rfl
  | cons i xs ih =>
      obtain ⟨hi, hxs⟩ := List.nodup_cons.mp hnodup
      rw [List.flatMap_cons, List.flatMap_cons, replay_append]
      refine replays_append.mpr ⟨_, hls i (by simp) ν (hν i (by simp)), ?_⟩
      refine ih hxs (fun j hj => hls j (List.mem_cons_of_mem i hj)) fun j hj x hx => ?_
      have hne : i ≠ j := (ne_of_mem_of_not_mem hj hi).symm
      rw [replay_of_not_mem fun w hw heq => hapart i j hne w hw (heq ▸ hx)]
      exact hν j (List.mem_cons_of_mem i hj) x hx

/-- A cell that only one of the parts writes. -/
theorem replay_flatMap {ι : Type} {xs : List ι} (hnodup : xs.Nodup) {i : ι} (hi : i ∈ xs)
    {ws : ι → List (X × V)} {μ : X → V} {x : X} (hx : ∀ j, j ≠ i → ∀ w ∈ ws j, w.1 ≠ x) :
    replay (xs.flatMap ws) μ x = replay (ws i) μ x := by
  induction xs generalizing μ with
  | nil => exact absurd hi (by simp)
  | cons j xs ih =>
      obtain ⟨hj, hxs⟩ := List.nodup_cons.mp hnodup
      rw [List.flatMap_cons, replay_append]
      rcases eq_or_ne j i with rfl | hne
      · refine replay_of_not_mem (fun w hw => ?_) _
        obtain ⟨k, hk, hw⟩ := List.mem_flatMap.mp hw
        exact hx k (ne_of_mem_of_not_mem hk hj) w hw
      · rw [ih hxs ((List.mem_cons.mp hi).resolve_left hne.symm)]
        exact replay_congr (.inr (replay_of_not_mem (hx j hne) μ))

variable [Fintype T]

noncomputable def blockWrites (fs : List (Footprint T X V)) : List (X × V) :=
  fs.flatMap Footprint.allWrites

omit [DecidableEq X] in
theorem mem_blockWrites {fs : List (Footprint T X V)} {w : X × V} :
    w ∈ blockWrites fs ↔ ∃ f ∈ fs, ∃ i, w ∈ f.writes i := by
  simp [blockWrites, Footprint.allWrites]

/-- The steps of one thread after another between two barriers. -/
theorem Footprint.RaceFree.replays {f : Footprint T X V} (hf : f.RaceFree) {μ : X → V}
    {ps qs : T → Program (Access X V) V Unit}
    (h : ∀ i, Performs (f.reads i) μ (ps i) (f.writes i) (qs i)) :
    ∃ es : Phase T (Access X V) V, (∀ i, Follows (ps i) (es i) (qs i)) ∧
      (∀ i, ∀ e ∈ es i, f.Has i e.1) ∧
        ∀ b : B, (phaseLabels b es).filterMap Label.written = f.allWrites ∧
          ∀ ν, (∀ i, ∀ x ∈ f.reads i, ν x = μ x) →
            Replays Access.exec (phaseLabels b es) ν (replay f.allWrites ν) := by
  choose es hfollows hes hlabels using fun i => (h i).follows (B := B) (T := T)
  refine ⟨es, hfollows, hes, fun b => ⟨?_, fun ν hν => ?_⟩⟩
  · rw [phaseLabels, List.filterMap_flatMap]
    exact List.flatMap_congr fun i _ => (hlabels i b i).1
  · exact replays_flatMap Finset.univ.nodup_toList (fun i _ => (hlabels i b i).2)
      (fun i j hij w hw => (hf i j hij w hw).1) fun i _ => hν i

/-- A block as a plan. -/
theorem BlockPerforms.phases {μ μ' : X → V} {ps : T → Program (Access X V) V Unit}
    {fs : List (Footprint T X V)} (h : BlockPerforms μ ps fs μ') :
    ∃ ess : List (Phase T (Access X V) V), Phases ps ess ∧
      List.Forall₂ (fun es f => ∀ i, ∀ e ∈ es i, Footprint.Has f i e.1) ess fs ∧
        replay (blockWrites fs) μ = μ' ∧
          ∀ b : B, (blockLabels b ess).filterMap Label.written = blockWrites fs ∧
            ∀ ν, (∀ x, Reads fs x → ν x = μ x) →
              Replays Access.exec (blockLabels b ess) ν (replay (blockWrites fs) ν) := by
  induction h with
  | @last μ μ' ps f hf hrace hleads =>
      obtain ⟨es, hfollows, hes, hlabels⟩ := hrace.replays (B := B) hf
      have hwrites : blockWrites [f] = f.allWrites := by simp [blockWrites]
      refine ⟨[es], .last hfollows, .cons hes .nil, hwrites ▸ hleads.replay, fun b => ?_⟩
      rw [blockLabels, laterLabels, List.append_nil, hwrites]
      exact ⟨(hlabels b).1, fun ν hν =>
        (hlabels b).2 ν fun i x hx => hν x ⟨f, by simp, i, hx⟩⟩
  | @next μ μ₁ μ' ps k f fs hf hrace hleads _ ih =>
      obtain ⟨es, hfollows, hes, hlabels⟩ := hrace.replays (B := B) hf
      obtain ⟨ess, hphases, hess, hlater, hlater'⟩ := ih
      obtain ⟨next, rest, rfl⟩ := hphases.cons_of
      have hwrites : blockWrites (f :: fs) = f.allWrites ++ blockWrites fs := by
        simp [blockWrites]
      refine ⟨es :: next :: rest, .next hfollows hphases, .cons hes hess, ?_, fun b => ?_⟩
      · rw [hwrites, replay_append, hleads.replay, hlater]
      · have hsplit : blockLabels b (es :: next :: rest) =
            phaseLabels b es ++ .release b :: blockLabels b (next :: rest) := rfl
        rw [hsplit, hwrites, List.filterMap_append]
        refine ⟨?_, fun ν hν => ?_⟩
        · rw [(hlabels b).1, List.filterMap_cons]
          exact congrArg (f.allWrites ++ ·) (hlater' b).1
        · rw [replay_append]
          refine replays_append.mpr ⟨_, (hlabels b).2 ν fun i x hx =>
            hν x ⟨f, by simp, i, hx⟩, (hlater' b).2 _ fun x hx => ?_⟩
          obtain ⟨g, hg, i, hx⟩ := hx
          rw [← hleads.replay]
          exact replay_congr (.inr (hν x ⟨g, List.mem_cons_of_mem f hg, i, hx⟩))

end Serial

theorem BlockPerforms.raceFree [DecidableEq X] {μ μ' : X → V}
    {ps : T → Program (Access X V) V Unit} {fs : List (Footprint T X V)}
    (h : BlockPerforms μ ps fs μ') : ∀ f ∈ fs, f.RaceFree := by
  induction h with
  | last _ hrace _ => simpa using hrace
  | next _ hrace _ _ ih => exact List.forall_mem_cons.mpr ⟨hrace, ih⟩

theorem forall₂_getElem? {α β : Type} {R : α → β → Prop} {as : List α} {bs : List β}
    (h : List.Forall₂ R as bs) {n : Nat} {a : α} (ha : as[n]? = some a) :
    ∃ b, bs[n]? = some b ∧ R a b := by
  induction h generalizing n with
  | nil => exact absurd ha (by simp)
  | cons hR _ ih =>
      cases n with
      | zero => exact ⟨_, rfl, (Option.some.inj ha) ▸ hR⟩
      | succ n => exact ih ha

/-- What one member of a list of parts has once, and no other part has. -/
theorem countP_flatMap {ι α : Type} {xs : List ι} (hnodup : xs.Nodup) {i : ι} (hi : i ∈ xs)
    {f : ι → List α} {p : α → Bool} (hother : ∀ j, j ≠ i → ∀ a ∈ f j, p a = false) :
    (xs.flatMap f).countP p = (f i).countP p := by
  have hnone : ∀ ys : List ι, i ∉ ys → (ys.flatMap f).countP p = 0 := by
    intro ys hys
    refine List.countP_eq_zero.mpr fun a ha => ?_
    obtain ⟨j, hj, ha⟩ := List.mem_flatMap.mp ha
    simp [hother j (ne_of_mem_of_not_mem hj hys) a ha]
  obtain ⟨before, after, rfl⟩ := List.append_of_mem hi
  rw [List.nodup_append, List.nodup_cons] at hnodup
  rw [List.flatMap_append, List.flatMap_cons, List.countP_append, List.countP_append,
    hnone before fun hmem => hnodup.2.2 i hmem i (by simp) rfl, hnone after hnodup.2.1.1,
    Nat.zero_add, Nat.add_zero]

-- ============================================================================
-- Grids
-- ============================================================================

/-- What each block does, and the memory it would end with by itself. -/
structure GridPerforms [DecidableEq X] (μ : X → V) (ps : B → T → Program (Access X V) V Unit)
    (fs : B → List (Footprint T X V)) (μ' : B → X → V) : Prop where
  blocks : ∀ b, BlockPerforms μ (ps b) (fs b) (μ' b)
  apart : ∀ b b', b ≠ b' → ∀ x, Writes (fs b) x → ¬ Reads (fs b') x ∧ ¬ Writes (fs b') x

namespace GridPerforms

variable [DecidableEq B] [DecidableEq T] [DecidableEq X] [Fintype B] [Fintype T]
  {μ : X → V} {ps : B → T → Program (Access X V) V Unit} {fs : B → List (Footprint T X V)}
  {μ' : B → X → V}

noncomputable def gridWrites (fs : B → List (Footprint T X V)) : List (X × V) :=
  Finset.univ.toList.flatMap fun b => blockWrites (fs b)

omit [DecidableEq B] [DecidableEq T] [DecidableEq X] in
theorem mem_gridWrites {w : X × V} :
    w ∈ gridWrites fs ↔ ∃ b, ∃ f ∈ fs b, ∃ i, w ∈ f.writes i := by
  simp [gridWrites, mem_blockWrites]

omit [DecidableEq B] [DecidableEq T] [Fintype B] [Fintype T] in
theorem has_apart (h : GridPerforms μ ps fs μ') {b b' : B} (hb : b ≠ b') {f f' : Footprint T X V}
    (hf : f ∈ fs b) (hf' : f' ∈ fs b') {i j : T} {a a' : Access X V} (ha : f.Has i a)
    (ha' : f'.Has j a') : a.Apart a' := by
  rcases ha with ⟨x, hx, rfl⟩ | ⟨w, hw, rfl⟩
  · rcases ha' with ⟨x', hx', rfl⟩ | ⟨w', hw', rfl⟩
    · trivial
    · refine .of_ne fun heq => ?_
      have heq : x = w'.1 := heq
      exact (h.apart b' b hb.symm x ⟨f', hf', j, w', hw', heq.symm⟩).1 ⟨f, hf, i, hx⟩
  · have hwrites : Writes (fs b) w.1 := ⟨f, hf, i, w, hw, rfl⟩
    rcases ha' with ⟨x', hx', rfl⟩ | ⟨w', hw', rfl⟩
    · refine .of_ne fun heq => ?_
      have heq : w.1 = x' := heq
      exact (h.apart b b' hb w.1 hwrites).1 ⟨f', hf', j, heq ▸ hx'⟩
    · refine .of_ne fun heq => ?_
      have heq : w.1 = w'.1 := heq
      exact (h.apart b b' hb w.1 hwrites).2 ⟨f', hf', j, w', hw', heq.symm⟩

omit [DecidableEq B] [DecidableEq T] in
/-- A grid as a plan. -/
theorem scheduled (h : GridPerforms μ ps fs μ') :
    ∃ plan : B → List (Phase T (Access X V) V),
      Scheduled Access.exec Access.Apart plan ⟨μ, ps⟩ (replay (gridWrites fs) μ) ∧
        (∀ b, List.Forall₂ (fun es f => ∀ i, ∀ e ∈ es i, Footprint.Has f i e.1)
          (plan b) (fs b)) ∧
          (serial plan).filterMap Label.written = gridWrites fs := by
  choose plan hphases hplan _ hlabels using fun b => (h.blocks b).phases (B := B)
  have hmem : ∀ b, ∀ es ∈ plan b, ∃ f ∈ fs b, ∀ i, ∀ e ∈ es i, Footprint.Has f i e.1 := by
    intro b es hes
    obtain ⟨n, hn⟩ := List.mem_iff_getElem?.mp hes
    obtain ⟨f, hf, hhas⟩ := forall₂_getElem? (hplan b) hn
    exact ⟨f, List.mem_of_getElem? hf, hhas⟩
  have hindependent : Independent Access.Apart plan := by
    constructor
    · intro b es hes i j hij e he e' he'
      obtain ⟨f, hf, hhas⟩ := hmem b es hes
      exact ((h.blocks b).raceFree f hf).apart hij (hhas i e he) (hhas j e' he')
    · intro b b' hb es hes es' hes' i j e he e' he'
      obtain ⟨f, hf, hhas⟩ := hmem b es hes
      obtain ⟨f', hf', hhas'⟩ := hmem b' es' hes'
      exact h.has_apart hb hf hf' (hhas i e he) (hhas' j e' he')
  refine ⟨plan, ⟨hphases, hindependent, ?_⟩, hplan, ?_⟩
  · refine replays_flatMap (C := fun b => {x | Reads (fs b) x}) (μ := μ)
      Finset.univ.nodup_toList (fun b _ => (hlabels b b).2) (fun b b' hb w hw => ?_)
      fun _ _ _ _ => rfl
    obtain ⟨f, hf, i, hw⟩ := mem_blockWrites.mp hw
    exact (h.apart b b' hb w.1 ⟨f, hf, i, w, hw, rfl⟩).1
  · rw [serial, List.filterMap_flatMap]
    exact List.flatMap_congr fun b _ => (hlabels b b).1

variable [Nonempty T] {c : Config B T (Access X V) V (X → V)}

/-- Every access is one that the thread makes in the phase it is in. -/
theorem access (h : GridPerforms μ ps fs μ') {before after : List (Label B T (Access X V) V)}
    {b : B} {i : T} {a : Access X V} {v : V}
    (hrun : Run Access.exec ⟨μ, ps⟩ (before ++ .act b i a v :: after) c) :
    ∃ f, (fs b)[releases b before]? = some f ∧ f.Has i a := by
  obtain ⟨plan, hscheduled, hplan, -⟩ := h.scheduled
  obtain ⟨es, hes, he⟩ := hscheduled.planned Access.commute_of_apart hrun
  obtain ⟨f, hf, hhas⟩ := forall₂_getElem? (hplan b) hes
  exact ⟨f, hf, hhas i _ he⟩

/-- Two threads of a block with no barrier between read, or access two cells. -/
theorem raceFree (h : GridPerforms μ ps fs μ')
    {before between after : List (Label B T (Access X V) V)} {b : B} {i j : T}
    {a a' : Access X V} {v v' : V}
    (hrun : Run Access.exec ⟨μ, ps⟩
      (before ++ .act b i a v :: (between ++ .act b j a' v' :: after)) c)
    (hbetween : releases b between = 0) (hij : i ≠ j) : a.Apart a' := by
  obtain ⟨plan, hscheduled, -⟩ := h.scheduled
  exact hscheduled.raceFree Access.commute_of_apart hrun hbetween hij

theorem progress (h : GridPerforms μ ps fs μ') {tr : List (Label B T (Access X V) V)}
    (hrun : Run Access.exec ⟨μ, ps⟩ tr c) : c.Finished ∨ ∃ l c', Step Access.exec c l c' := by
  obtain ⟨plan, hscheduled, -⟩ := h.scheduled
  obtain ⟨plan', -, hscheduled'⟩ := hscheduled.run Access.commute_of_apart hrun
  exact hscheduled'.progress

theorem bounded (h : GridPerforms μ ps fs μ') :
    ∃ n, ∀ tr c, Run Access.exec ⟨μ, ps⟩ tr c → tr.length ≤ n := by
  obtain ⟨plan, hscheduled, -⟩ := h.scheduled
  exact ⟨_, fun tr c hrun => hscheduled.length_le Access.commute_of_apart hrun⟩

/-- Some run ends. -/
theorem finishes (h : GridPerforms μ ps fs μ') :
    ∃ tr c, Run Access.exec (⟨μ, ps⟩ : Config B T (Access X V) V (X → V)) tr c ∧ c.Finished := by
  obtain ⟨n, hn⟩ := h.bounded
  by_contra hnone
  have hlong : ∀ m, ∃ tr c,
      Run Access.exec (⟨μ, ps⟩ : Config B T (Access X V) V (X → V)) tr c ∧ tr.length = m := by
    intro m
    induction m with
    | zero => exact ⟨[], _, .start, rfl⟩
    | succ m ih =>
        obtain ⟨tr, c, hrun, hlen⟩ := ih
        rcases h.progress hrun with hc | ⟨l, c', hstep⟩
        · exact absurd ⟨tr, c, hrun, hc⟩ hnone
        · refine ⟨tr ++ [l], c', hrun.step hstep, ?_⟩
          rw [List.length_append, List.length_singleton, hlen]
  obtain ⟨tr, c, hrun, hlen⟩ := hlong (n + 1)
  have hle := hn tr c hrun
  omega

/-- The writes of a run that ends, in some order. -/
theorem writes (h : GridPerforms μ ps fs μ') {tr : List (Label B T (Access X V) V)}
    (hrun : Run Access.exec ⟨μ, ps⟩ tr c) (hc : c.Finished) :
    (tr.filterMap Label.written).Perm (gridWrites fs) := by
  obtain ⟨plan, hscheduled, -, hwrites⟩ := h.scheduled
  obtain ⟨hperm, -⟩ := hscheduled.complete Access.commute_of_apart hrun hc
  exact hwrites ▸ hperm.filterMap _

/-- A run that ends leaves at each cell what the block that writes it left there. -/
theorem state (h : GridPerforms μ ps fs μ') {tr : List (Label B T (Access X V) V)}
    (hrun : Run Access.exec ⟨μ, ps⟩ tr c) (hc : c.Finished) :
    (∀ b x, Writes (fs b) x → c.state x = μ' b x) ∧
      ∀ x, (∀ b, ¬ Writes (fs b) x) → c.state x = μ x := by
  obtain ⟨plan, hscheduled, -⟩ := h.scheduled
  obtain ⟨-, hstate⟩ := hscheduled.complete Access.commute_of_apart hrun hc
  rw [hstate]
  constructor
  · intro b x hx
    obtain ⟨-, -, -, hblock, -⟩ := (h.blocks b).phases (B := B)
    rw [← hblock]
    have hother : ∀ b', b' ≠ b → ∀ w ∈ blockWrites (fs b'), w.1 ≠ x := by
      intro b' hb' w hw heq
      obtain ⟨f, hf, i, hw⟩ := mem_blockWrites.mp hw
      exact (h.apart b b' hb'.symm x hx).2 ⟨f, hf, i, w, hw, heq⟩
    exact replay_flatMap Finset.univ.nodup_toList (Finset.mem_toList.mpr (Finset.mem_univ b))
      hother
  · intro x hx
    refine replay_of_not_mem (fun w hw heq => ?_) μ
    obtain ⟨b, f, hf, i, hw⟩ := mem_gridWrites.mp hw
    exact hx b ⟨f, hf, i, w, hw, heq⟩

end GridPerforms

end PassionProjects.Kernels
