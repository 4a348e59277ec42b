/-
  PassionProjects.Lib.Kernels.Blocks

  Blocks put together from parts.  A part takes the threads from one memory to another and
  leaves each of them after a barrier, so that parts follow one another and stand in loops.

  And loops that stage: in each turn the threads of a block fill shared cells, wait, use
  them, and wait before they fill them again.
-/

import PassionProjects.Lib.Kernels.Grid
import PassionProjects.Lib.Kernels.Loops

namespace PassionProjects.Kernels

open Program

variable {T X V R R' σ ι : Type} [DecidableEq X]

/-- From `μ` the threads of a block do this, each phase up to a barrier, and get to `qs`
    with the memory `μ'`. -/
inductive BlockReaches : (X → V) → (T → Program (Access X V) V R) → List (Footprint T X V) →
    (X → V) → (T → Program (Access X V) V R) → Prop where
  | here {μ : X → V} {ps : T → Program (Access X V) V R} : BlockReaches μ ps [] μ ps
  | next {μ μ₁ μ' : X → V} {ps k qs : T → Program (Access X V) V R} {f : Footprint T X V}
      {fs : List (Footprint T X V)} :
      (∀ i, Performs (f.reads i) μ (ps i) (f.writes i) (.sync (k i))) → f.RaceFree →
        f.Leads μ μ₁ → BlockReaches μ₁ k fs μ' qs → BlockReaches μ ps (f :: fs) μ' qs

/-- The threads end with these results. -/
abbrev BlockReturns (μ : X → V) (ps : T → Program (Access X V) V R)
    (fs : List (Footprint T X V)) (μ' : X → V) (r : T → R) : Prop :=
  BlockReaches μ ps fs μ' fun i => .ret (r i)

namespace BlockReaches

variable {μ μ' μ'' : X → V} {ps qs rs : T → Program (Access X V) V R}
  {fs fs' : List (Footprint T X V)} {f : Footprint T X V}

theorem trans (h : BlockReaches μ ps fs μ' qs) (h' : BlockReaches μ' qs fs' μ'' rs) :
    BlockReaches μ ps (fs ++ fs') μ'' rs := by
  induction h with
  | here => exact h'
  | next hf hrace hleads _ ih => exact .next hf hrace hleads (ih h')

theorem bind {g : T → R → Program (Access X V) V R'} (h : BlockReaches μ ps fs μ' qs) :
    BlockReaches μ (fun i => ps i >>= g i) fs μ' fun i => qs i >>= g i := by
  induction h with
  | here => exact .here
  | next hf hrace hleads _ ih => exact .next (fun i => (hf i).bind_sync (g i)) hrace hleads ih

/-- The threads go on with what the first part returned. -/
theorem andThen {g : T → R → Program (Access X V) V R'} {r : T → R}
    {rs : T → Program (Access X V) V R'} (h : BlockReturns μ ps fs μ' r)
    (h' : BlockReaches μ' (fun i => g i (r i)) fs' μ'' rs) :
    BlockReaches μ (fun i => ps i >>= g i) (fs ++ fs') μ'' rs :=
  (h.bind (g := g)).trans h'

/-- One phase and its barrier. -/
theorem phase {ps : T → Program (Access X V) V R} {r : T → R}
    {g : T → R → Program (Access X V) V R'}
    (hps : ∀ i, Performs (f.reads i) μ (ps i) (f.writes i) (.ret (r i))) (hrace : f.RaceFree)
    (hleads : f.Leads μ μ') {qs : T → Program (Access X V) V R'}
    (h : BlockReaches μ' (fun i => g i (r i)) fs μ'' qs) :
    BlockReaches μ (fun i => ps i >>= fun r => barrier >>= fun _ => g i r) (f :: fs) μ'' qs :=
  .next (fun i => (hps i).bind_here) hrace hleads h

/-- The last phase comes after the part. -/
theorem performs {ps qs : T → Program (Access X V) V Unit} (h : BlockReaches μ ps fs μ' qs)
    (h' : BlockPerforms μ' qs fs' μ'') : BlockPerforms μ ps (fs ++ fs') μ'' := by
  induction h with
  | here => exact h'
  | next hf hrace hleads _ ih => exact .next hf hrace hleads (ih h')

/-- A loop over the values of a counter that carries `s i j` before turn `j`. -/
theorem range {I : Nat → (X → V) → Prop} {s : T → Nat → σ}
    {body : T → σ → Nat → Program (Access X V) V σ} {fs : Nat → List (Footprint T X V)} {n : Nat}
    (hbody : ∀ j < n, ∀ μ, I j μ → ∃ μ',
      BlockReturns μ (fun i => body i (s i j) j) (fs j) μ' (fun i => s i (j + 1)) ∧ I (j + 1) μ')
    (hμ : I 0 μ) :
    ∃ μ', BlockReturns μ (fun i => (List.range n).foldlM (body i) (s i 0))
      ((List.range n).flatMap fs) μ' (fun i => s i n) ∧ I n μ' := by
  induction n with
  | zero => exact ⟨μ, .here, hμ⟩
  | succ n ih =>
      obtain ⟨μ₁, hfirst, hμ₁⟩ := ih fun j hj => hbody j (Nat.lt_succ_of_lt hj)
      obtain ⟨μ', hlast, hμ'⟩ := hbody n n.lt_succ_self μ₁ hμ₁
      refine ⟨μ', ?_, hμ'⟩
      rw [List.range_succ, List.flatMap_append, List.flatMap_singleton]
      simp only [List.foldlM_append, List.foldlM_cons, List.foldlM_nil]
      have hturn : BlockReturns μ₁ (fun i => body i (s i n) n >>= pure) (fs n) μ'
          fun i => s i (n + 1) := by simpa only [bind_pure] using hlast
      exact hfirst.andThen hturn

end BlockReaches

omit [DecidableEq X] in
/-- Threads of which none does anything to memory. -/
theorem Footprint.leads_self {f : Footprint T X V} (h : ∀ i, f.writes i = []) (μ : X → V) :
    f.RaceFree ∧ f.Leads μ μ := by
  refine ⟨fun i j _ w hw => ?_, ⟨fun i w hw => ?_, fun x _ => rfl⟩⟩
  · rw [h i] at hw
    exact absurd hw List.not_mem_nil
  · rw [h i] at hw
    exact absurd hw List.not_mem_nil

-- ============================================================================
-- Staging
-- ============================================================================

/-- What the threads do with the cells of a turn: they only read. -/
def usePhase (cells : T → Set X) : Footprint T X V where
  reads := cells
  writes _ := []

/-- The phases of a turn. -/
def turnPhases (fill : Footprint T X V) (cells : T → Set X) : List (Footprint T X V) :=
  [fill, usePhase cells]

/-- The input stays as it is, each turn fills the cells with what it uses, and thread `i`
    carries `s i j` before turn `j`. -/
theorem BlockReaches.staged {Input : (X → V) → Prop} {Filled : Nat → (X → V) → Prop}
    (fill : Nat → Footprint T X V) (cells : T → Set X) {s : T → Nat → σ} {n : Nat}
    {load : T → Nat → Program (Access X V) V Unit}
    {use tail : T → σ → Nat → Program (Access X V) V σ}
    (hload : ∀ j < n, ∀ μ, Input μ → ∀ i,
      Performs ((fill j).reads i) μ (load i j) ((fill j).writes i) (.ret ()))
    (hrace : ∀ j < n, (fill j).RaceFree)
    (hself : ∀ j < n, ∀ i, ∀ w ∈ (fill j).writes i, ∀ w' ∈ (fill j).writes i, w.1 = w'.1 → w = w')
    (hfilled : ∀ j < n, ∀ μ μ', Input μ → (fill j).Leads μ μ' → Input μ' ∧ Filled j μ')
    (huse : ∀ j < n, ∀ μ, Filled j μ → ∀ i,
      Performs (cells i) μ (use i (s i j) j) [] (.ret (s i (j + 1))))
    (htail : ∀ j < n, ∀ i, tail i (s i (j + 1)) j = .ret (s i (j + 1)))
    {μ : X → V} (hμ : Input μ) :
    ∃ μ', BlockReturns μ (fun i => (List.range n).foldlM (fun s j => do
        load i j
        barrier
        let s ← use i s j
        barrier
        tail i s j) (s i 0))
      ((List.range n).flatMap fun j => turnPhases (fill j) cells) μ' (fun i => s i n) ∧
        Input μ' := by
  refine BlockReaches.range (I := fun _ => Input) (fun j hj μ hμ => ?_) hμ
  obtain ⟨μ₁, hleads⟩ := (hrace j hj).leads (hself j hj) μ
  obtain ⟨hinput, hfill⟩ := hfilled j hj μ μ₁ hμ hleads
  obtain ⟨hread, hkept⟩ := Footprint.leads_self (f := (usePhase cells : Footprint T X V))
    (fun _ => rfl) μ₁
  refine ⟨μ₁, ?_, hinput⟩
  refine BlockReaches.phase (r := fun _ => ()) (g := fun i _ => do
    let s ← use i (s i j) j
    barrier
    tail i s j) (hload j hj μ hμ) (hrace j hj) hleads ?_
  refine BlockReaches.phase (r := fun i => s i (j + 1)) (g := fun i s => tail i s j)
    (f := usePhase cells) (huse j hj μ₁ hfill) hread hkept ?_
  have hend : (fun i => tail i (s i (j + 1)) j) = fun i => .ret (s i (j + 1)) :=
    funext fun i => htail j hj i
  rw [hend]
  exact .here

end PassionProjects.Kernels
