/-
  PassionProjects.Lib.Kernels.Tree

  Tree reductions.  The threads of a block put the values of slots together two by two, the
  first half taking those of the second one, until the first slot has all of them.
-/

import Mathlib.Algebra.BigOperators.Intervals
import PassionProjects.Lib.Kernels.Blocks

namespace PassionProjects.Kernels

open Program

variable {T X V A : Type}

/-- `for (stride = n / 2; stride > 0; stride >>= 1)` -/
def halvings (n : Nat) : List Nat :=
  if n / 2 = 0 then [] else n / 2 :: halvings (n / 2)
termination_by n
decreasing_by omega

theorem halvings_one : halvings 1 = [] := by
  rw [halvings, if_pos (by decide)]

theorem halvings_two_pow_succ (k : Nat) : halvings (2 ^ (k + 1)) = 2 ^ k :: halvings (2 ^ k) := by
  have hhalf : 2 ^ (k + 1) / 2 = 2 ^ k := by omega
  rw [halvings, hhalf, if_neg (Nat.two_pow_pos k).ne']

/-- The threads whose number is below the stride take a step, and all of them wait. -/
def tree (blockDim tid : Nat) (step : Nat → Program (Access X V) V Unit) :
    Program (Access X V) V Unit :=
  (halvings blockDim).forM fun stride =>
    (if tid < stride then step stride else pure ()) >>= fun _ => barrier

/-- Values kept in cells of their own. -/
structure Slots (X V A : Type) where
  size : Nat
  cells : Nat → Set X
  get : (X → V) → Nat → A
  put : Nat → A → List (X × V)
  apart : ∀ {n n' x}, n < size → n' < size → x ∈ cells n → x ∈ cells n' → n = n'
  put_cells : ∀ {n a w}, w ∈ put n a → w.1 ∈ cells n
  put_inj : ∀ {n a w w'}, n < size → w ∈ put n a → w' ∈ put n a → w.1 = w'.1 → w = w'
  get_put : ∀ {n a μ}, (∀ w ∈ put n a, μ w.1 = w.2) → get μ n = a

namespace Slots

variable (s : Slots X V A) (tid : T → Nat) (op : A → A → A)

/-- What the threads do with one stride. -/
def stage (stride : Nat) (vals : Nat → A) : Footprint T X V where
  reads i := {x | tid i < stride ∧ (x ∈ s.cells (tid i) ∨ x ∈ s.cells (tid i + stride))}
  writes i := if tid i < stride then s.put (tid i) (op (vals (tid i)) (vals (tid i + stride)))
    else []

/-- The values after a stride. -/
def halve (stride : Nat) (vals : Nat → A) (n : Nat) : A := op (vals n) (vals (n + stride))

/-- The phases of a tree with `2 ^ k` slots. -/
def phases : Nat → (Nat → A) → List (Footprint T X V)
  | 0, _ => []
  | k + 1, vals => s.stage tid op (2 ^ k) vals :: phases k (halve op (2 ^ k) vals)

/-- What the first slot has at last. -/
def total : Nat → (Nat → A) → A
  | 0, vals => vals 0
  | k + 1, vals => total k (halve op (2 ^ k) vals)

/-- The slots below `n` have these values. -/
def Hold (n : Nat) (vals : Nat → A) (μ : X → V) : Prop := ∀ i < n, s.get μ i = vals i

variable {s tid op} {stride : Nat} {vals : Nat → A}

theorem mem_stage_writes {i : T} {w : X × V} :
    w ∈ (s.stage tid op stride vals).writes i ↔
      tid i < stride ∧ w ∈ s.put (tid i) (op (vals (tid i)) (vals (tid i + stride))) := by
  unfold stage
  dsimp only
  split
  · simp [*]
  · simp [*]

theorem stage_raceFree (hinj : Function.Injective tid) (hsize : stride + stride ≤ s.size) :
    (s.stage tid op stride vals).RaceFree := by
  intro i j hij w hw
  obtain ⟨hi, hw⟩ := mem_stage_writes.mp hw
  have hcell := s.put_cells hw
  constructor
  · rintro ⟨hj, hread | hread⟩
    · exact hij (hinj (s.apart (by omega) (by omega) hcell hread))
    · have heq := s.apart (by omega) (by omega) hcell hread
      omega
  · intro w' hw' heq
    obtain ⟨hj, hw'⟩ := mem_stage_writes.mp hw'
    exact hij (hinj (s.apart (by omega) (by omega) hcell (heq ▸ s.put_cells hw')))

theorem stage_self (hsize : stride ≤ s.size) {i : T} :
    ∀ w ∈ (s.stage tid op stride vals).writes i,
      ∀ w' ∈ (s.stage tid op stride vals).writes i, w.1 = w'.1 → w = w' := by
  intro w hw w' hw'
  obtain ⟨hi, hw⟩ := mem_stage_writes.mp hw
  exact s.put_inj (hi.trans_le hsize) hw (mem_stage_writes.mp hw').2

/-- After a stride its slots have the values put together; other cells are as before. -/
theorem stage_leads {μ μ' : X → V} (h : (s.stage tid op stride vals).Leads μ μ')
    (hsurj : ∀ n < stride, ∃ i, tid i = n) :
    s.Hold stride (halve op stride vals) μ' ∧
      ∀ x, (∀ n < stride, x ∉ s.cells n) → μ' x = μ x := by
  constructor
  · intro n hn
    obtain ⟨i, rfl⟩ := hsurj n hn
    exact s.get_put fun w hw => h.written i w (mem_stage_writes.mpr ⟨hn, hw⟩)
  · intro x hx
    refine h.kept x fun i w hw heq => ?_
    obtain ⟨hi, hw⟩ := mem_stage_writes.mp hw
    exact hx _ hi (heq ▸ s.put_cells hw)

/-- A step puts a slot and the one a stride further together. -/
def Steps [DecidableEq X] (s : Slots X V A) (op : A → A → A)
    (step : Nat → Nat → Program (Access X V) V Unit) : Prop :=
  ∀ n stride (μ : X → V), Performs {x | x ∈ s.cells n ∨ x ∈ s.cells (n + stride)} μ
    (step n stride) (s.put n (op (s.get μ n) (s.get μ (n + stride)))) (.ret ())

/-- A tree leaves in the first slot what the slots come to. -/
theorem tree_returns [DecidableEq X] {step : Nat → Nat → Program (Access X V) V Unit}
    (hstep : s.Steps op step) (hinj : Function.Injective tid) {k : Nat} (hsize : 2 ^ k ≤ s.size)
    (hsurj : ∀ n < 2 ^ k, ∃ i, tid i = n) {μ : X → V} (hμ : s.Hold (2 ^ k) vals μ) :
    ∃ μ', BlockReturns μ (fun i => tree (2 ^ k) (tid i) (step (tid i)))
      (s.phases tid op k vals) μ' (fun _ => ()) ∧ s.get μ' 0 = total op k vals ∧
        ∀ x, (∀ n < 2 ^ k, x ∉ s.cells n) → μ' x = μ x := by
  induction k generalizing vals μ with
  | zero =>
      refine ⟨μ, ?_, hμ 0 Nat.one_pos, fun x _ => rfl⟩
      unfold tree
      rw [pow_zero, halvings_one]
      exact .here
  | succ k ih =>
      have hlt : 2 ^ k < 2 ^ (k + 1) := Nat.pow_lt_pow_right Nat.one_lt_two k.lt_succ_self
      have hrace : (s.stage tid op (2 ^ k) vals).RaceFree :=
        stage_raceFree hinj (by rw [pow_succ] at hsize; omega)
      obtain ⟨μ₁, hleads⟩ := hrace.leads (fun i => stage_self (hlt.le.trans hsize)) μ
      obtain ⟨hhold, hkept⟩ := stage_leads hleads fun n hn => hsurj n (hn.trans hlt)
      obtain ⟨μ', hrest, hget, hkept'⟩ := ih (hlt.le.trans hsize)
        (fun n hn => hsurj n (hn.trans hlt)) hhold
      refine ⟨μ', ?_, hget, fun x hx => ?_⟩
      · unfold tree
        rw [halvings_two_pow_succ]
        refine .next (k := fun i => tree (2 ^ k) (tid i) (step (tid i))) (fun i => ?_) hrace hleads
          hrest
        have hturn : Performs ((s.stage tid op (2 ^ k) vals).reads i) μ
            (if tid i < 2 ^ k then step (tid i) (2 ^ k) else pure ())
            ((s.stage tid op (2 ^ k) vals).writes i) (.ret ()) := by
          unfold stage
          dsimp only
          split
          · rename_i hi
            have h := hstep (tid i) (2 ^ k) μ
            rw [hμ _ (by omega), hμ _ (by rw [pow_succ]; omega)] at h
            exact h.mono fun x hx => ⟨hi, hx⟩
          · exact .here
        exact (hturn.bind_here (f := fun _ => barrier)).bind_sync _
      · rw [hkept' x fun n hn => hx n (hn.trans hlt), hkept x fun n hn => hx n (hn.trans hlt)]

/-- The threads of a tree keep to the slots. -/
theorem phases_has {k : Nat} {f : Footprint T X V} (hf : f ∈ s.phases tid op k vals) {i : T}
    {a : Access X V} (ha : f.Has i a) : ∃ n < 2 ^ k, a.cell ∈ s.cells n := by
  induction k generalizing vals with
  | zero => exact absurd hf List.not_mem_nil
  | succ k ih =>
      have hdouble : 2 ^ (k + 1) = 2 ^ k + 2 ^ k := by rw [pow_succ, mul_two]
      rcases List.mem_cons.mp hf with rfl | hf
      · rcases ha with ⟨x, ⟨hi, hx | hx⟩, rfl⟩ | ⟨w, hw, rfl⟩
        · exact ⟨_, by omega, hx⟩
        · exact ⟨_, by omega, hx⟩
        · obtain ⟨hi, hw⟩ := mem_stage_writes.mp hw
          exact ⟨_, by omega, s.put_cells hw⟩
      · obtain ⟨n, hn, hcell⟩ := ih hf
        exact ⟨n, by omega, hcell⟩

/-- In a commutative monoid the slots come to their sum. -/
theorem total_eq_sum {M : Type} [AddCommMonoid M] {valid : A → Prop} {abs : A → M}
    (hop : ∀ a b, valid a → valid b → valid (op a b) ∧ abs (op a b) = abs a + abs b) (k : Nat)
    (hvals : ∀ n < 2 ^ k, valid (vals n)) :
    valid (total op k vals) ∧ abs (total op k vals) = ∑ n ∈ Finset.range (2 ^ k), abs (vals n) := by
  induction k generalizing vals with
  | zero => exact ⟨hvals 0 Nat.one_pos, by simp [total]⟩
  | succ k ih =>
      have hdouble : 2 ^ (k + 1) = 2 ^ k + 2 ^ k := by rw [pow_succ, mul_two]
      have hpair : ∀ n < 2 ^ k, valid (halve op (2 ^ k) vals n) ∧
          abs (halve op (2 ^ k) vals n) = abs (vals n) + abs (vals (n + 2 ^ k)) := fun n hn =>
        hop _ _ (hvals n (by omega)) (hvals _ (by omega))
      obtain ⟨hvalid, hsum⟩ := ih fun n hn => (hpair n hn).1
      refine ⟨hvalid, hsum.trans ?_⟩
      rw [hdouble, Finset.sum_range_add, ← Finset.sum_add_distrib]
      refine Finset.sum_congr rfl fun n hn => ?_
      rw [(hpair n (Finset.mem_range.mp hn)).2, Nat.add_comm n]

end Slots

end PassionProjects.Kernels
