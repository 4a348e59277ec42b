/-
  PassionProjects.Lib.Warps.Trees

  How a block puts values together.  In shared memory: with one stride after another, the
  active threads put the value of their cell together with that of the cell a stride further
  on, and all threads wait.  In a warp: in each round a lane puts its value together with that
  of the lane some places further on, or with its own one where the warp has no such lane.
-/

import Mathlib.Algebra.BigOperators.Intervals
import PassionProjects.Lib.Kernels.Tree
import PassionProjects.Lib.Warps.Grids

namespace PassionProjects.Warps

open Program
open Kernels (replay halvings halvings_one halvings_two_pow_succ)

variable {X V : Type}

/-- `cell[tid] = op(cell[tid], cell[tid + stride])` -/
def combine (cell : Nat → X) (op : V → V → V) (tid stride : Nat) : Program (Access X V) V Unit := do
  let a ← load (cell tid)
  let b ← load (cell (tid + stride))
  store (cell tid) (op a b)

/-- The loop over the strides. -/
def treeLoop [Zero V] (strides : List Nat) (active : Nat → Nat → Bool) (cell : Nat → X)
    (op : V → V → V) (tid : Nat) : Program (Access X V) V Unit :=
  strides.forM fun stride =>
    (if active stride tid then combine cell op tid stride else pure ()) >>= fun _ => barrier

/-- What the cells have after a stride. -/
def stage (op : V → V → V) (active : Nat → Nat → Bool) (vals : Nat → V) (stride i : Nat) : V :=
  if active stride i then op (vals i) (vals (i + stride)) else vals i

/-- The partner of an active thread is a thread of the block, and not active. -/
def Fits (n : Nat) (active : Nat → Nat → Bool) (strides : List Nat) : Prop :=
  ∀ stride ∈ strides, ∀ i < n, active stride i → i + stride < n ∧ ¬ active stride (i + stride)

namespace Block

variable [DecidableEq X] [Zero V] {B : Block X V} {plus : V → V → V} {μ : X → V}
  {qs k : Nat → Program (Access X V) V Unit} {cell : Nat → X} {op : V → V → V}
  {active : Nat → Nat → Bool} {vals : Nat → V}

/-- What the threads do with one stride. -/
def stageReads (cell : Nat → X) (active : Nat → Nat → Bool) (stride i : Nat) : Set X :=
  {x | active stride i ∧ (x = cell i ∨ x = cell (i + stride))}

def stageWrites (cell : Nat → X) (op : V → V → V) (active : Nat → Nat → Bool) (vals : Nat → V)
    (stride i : Nat) : List (X × V) :=
  if active stride i then [(cell i, op (vals i) (vals (i + stride)))] else []

omit [DecidableEq X] [Zero V] in
theorem mem_stageWrites {stride i : Nat} {w : X × V} :
    w ∈ stageWrites cell op active vals stride i ↔
      active stride i ∧ w = (cell i, op (vals i) (vals (i + stride))) := by
  unfold stageWrites
  split
  · simp [*]
  · simp [*]

omit [Zero V] in
theorem stage_performs {stride i : Nat} (hi : μ (cell i) = vals i)
    (hpartner : active stride i → μ (cell (i + stride)) = vals (i + stride)) :
    Performs (stageReads cell active stride i) μ
      (if active stride i then combine cell op i stride else pure ())
      (stageWrites cell op active vals stride i) [] (.ret ()) := by
  unfold stageWrites
  split
  · rename_i hactive
    rw [← hi, ← hpartner hactive]
    exact .read ⟨hactive, .inl rfl⟩ (.read ⟨hactive, .inr rfl⟩ (.write .here))
  · exact .here

/-- One stride. -/
theorem At.stage [RightCommutative plus] (h : B.At plus μ .empty qs) (hn : 0 < B.size)
    {stride : Nat}
    (hqs : ∀ i < B.size, qs i =
      (if active stride i then combine cell op i stride else pure ()) >>= fun _ =>
        barrier >>= fun _ => k i)
    (hcell : ∀ i < B.size, ∀ j < B.size, cell i = cell j → i = j)
    (hread : ∀ i < B.size, ∀ j < B.size, cell j ∈ B.readable i)
    (hown : ∀ j < B.size, cell j ∈ B.own)
    (hfits : ∀ i < B.size, active stride i → i + stride < B.size ∧ ¬ active stride (i + stride))
    (hvals : ∀ j < B.size, μ (cell j) = vals j) :
    ∃ μ', B.At plus μ' .empty k ∧
    (∀ j < B.size, μ' (cell j) = Warps.stage op active vals stride j) ∧
      ∀ x, (∀ j < B.size, cell j ≠ x) → μ' x = μ x := by
  have hrace : Footprint.RaceFree B.size ⟨stageReads cell active stride,
      stageWrites cell op active vals stride, fun _ => []⟩ := by
    constructor
    · intro i hi j hj hij w hw
      obtain ⟨hactive, rfl⟩ := mem_stageWrites.mp hw
      constructor
      · rintro ⟨hactive', heq | heq⟩
        · exact hij (hcell i hi j hj heq)
        · obtain ⟨hlt, hidle⟩ := hfits j hj hactive'
          exact hidle (hcell i hi _ hlt heq ▸ hactive)
      · intro w' hw' heq
        obtain ⟨-, rfl⟩ := mem_stageWrites.mp hw'
        exact hij (hcell i hi j hj heq)
    · exact fun i hi j hj a ha => absurd ha List.not_mem_nil
    · intro i hi w hw w' hw' _
      rw [(mem_stageWrites.mp hw).2, (mem_stageWrites.mp hw').2]
  refine ⟨_, h.phase hn (fun i hi => ?_) hrace ?_ ?_ (fun i hi a ha => absurd ha List.not_mem_nil),
    fun j hj => ?_, fun x hx => ?_⟩
  · rw [hqs i hi]
    exact (stage_performs (hvals i hi) fun hactive => hvals _ (hfits i hi hactive).1).bind_here
  · rintro i hi x ⟨hactive, rfl | rfl⟩
    · exact hread i hi i hi
    · exact hread i hi _ (hfits i hi hactive).1
  · intro i hi w hw
    obtain ⟨-, rfl⟩ := mem_stageWrites.mp hw
    exact hown i hi
  · unfold Warps.stage
    split
    · rename_i hactive
      exact hrace.after_written (w := (cell j, op (vals j) (vals (j + stride))))
        (Footprint.mem_allWrites.mpr ⟨j, hj, mem_stageWrites.mpr ⟨hactive, rfl⟩⟩)
    · rename_i hidle
      rw [← hvals j hj]
      refine Footprint.after_kept ?_
      rintro (⟨w, hw, heq⟩ | ⟨a, ha, -⟩)
      · obtain ⟨i, hi, hw⟩ := Footprint.mem_allWrites.mp hw
        obtain ⟨hactive, rfl⟩ := mem_stageWrites.mp hw
        exact hidle (hcell i hi j hj heq ▸ hactive)
      · obtain ⟨i, -, ha⟩ := Footprint.mem_allAdds.mp ha
        exact absurd ha List.not_mem_nil
  · refine Footprint.after_kept ?_
    rintro (⟨w, hw, heq⟩ | ⟨a, ha, -⟩)
    · obtain ⟨i, hi, hw⟩ := Footprint.mem_allWrites.mp hw
      obtain ⟨-, rfl⟩ := mem_stageWrites.mp hw
      exact hx i hi heq
    · obtain ⟨i, -, ha⟩ := Footprint.mem_allAdds.mp ha
      exact absurd ha List.not_mem_nil

/-- The whole loop; other cells stay as they are. -/
theorem At.treeLoop [RightCommutative plus] (h : B.At plus μ .empty qs) (hn : 0 < B.size)
    {strides : List Nat}
    (hqs : ∀ i < B.size, qs i = treeLoop strides active cell op i >>= fun _ => k i)
    (hcell : ∀ i < B.size, ∀ j < B.size, cell i = cell j → i = j)
    (hread : ∀ i < B.size, ∀ j < B.size, cell j ∈ B.readable i)
    (hown : ∀ j < B.size, cell j ∈ B.own) (hfits : Fits B.size active strides)
    (hvals : ∀ j < B.size, μ (cell j) = vals j) :
    ∃ μ', B.At plus μ' .empty k ∧
      (∀ j < B.size, μ' (cell j) = strides.foldl (Warps.stage op active) vals j) ∧
        ∀ x, (∀ j < B.size, cell j ≠ x) → μ' x = μ x := by
  induction strides generalizing vals μ qs with
  | nil => exact ⟨μ, h.congr hqs, hvals, fun _ _ => rfl⟩
  | cons stride strides ih =>
      have hturn : ∀ i < B.size, qs i =
          (if active stride i then combine cell op i stride else pure ()) >>= fun _ =>
            barrier >>= fun _ => Warps.treeLoop strides active cell op i >>= fun _ => k i := by
        intro i hi
        rw [hqs i hi]
        show (((if active stride i then combine cell op i stride else pure ()) >>= fun _ =>
          barrier) >>= fun _ => Warps.treeLoop strides active cell op i) >>= _ = _
        rw [bind_assoc, bind_assoc]
      obtain ⟨μ₁, h₁, hvals₁, hkept₁⟩ := h.stage hn hturn hcell hread hown
        (hfits stride List.mem_cons_self) hvals
      obtain ⟨μ', h', hvals', hkept'⟩ := ih h₁ (fun _ _ => rfl)
        (fun s hs => hfits s (List.mem_cons_of_mem stride hs)) hvals₁
      exact ⟨μ', h', hvals', fun x hx => (hkept' x hx).trans (hkept₁ x hx)⟩

end Block

-- ============================================================================
-- What the strides come to
-- ============================================================================

section Sums

variable {A M : Type} [AddCommMonoid M] {op : A → A → A} {lift : M → A}
  {active : Nat → Nat → Bool}

theorem stage_lift (hop : ∀ a b, op (lift a) (lift b) = lift (a + b)) (vals : Nat → M)
    (stride : Nat) : stage op active (fun i => lift (vals i)) stride =
      fun i => lift (stage (· + ·) active vals stride i) := by
  funext i
  unfold stage
  split
  · exact hop ..
  · rfl

theorem foldl_stage_lift (hop : ∀ a b, op (lift a) (lift b) = lift (a + b)) (vals : Nat → M)
    (strides : List Nat) : strides.foldl (stage op active) (fun i => lift (vals i)) =
      fun i => lift (strides.foldl (stage (· + ·) active) vals i) := by
  induction strides generalizing vals with
  | nil => rfl
  | cons stride strides ih =>
      rw [List.foldl_cons, stage_lift hop, ih]
      rfl

/-- `for (stride = n / 2; stride >= low; stride >>= 1)` -/
def halvingsTo (low n : Nat) : List Nat := (halvings n).takeWhile (low ≤ ·)

theorem halvingsTo_self (e : Nat) : halvingsTo (2 ^ e) (2 ^ e) = [] := by
  unfold halvingsTo
  cases e with
  | zero => rw [pow_zero, halvings_one]; rfl
  | succ e =>
      have hlt : ¬ 2 ^ (e + 1) ≤ 2 ^ e := by
        rw [pow_succ]
        have := Nat.two_pow_pos e
        omega
      rw [halvings_two_pow_succ, List.takeWhile_cons_of_neg (by simpa using hlt)]

theorem halvingsTo_succ {e k : Nat} (h : e ≤ k) :
    halvingsTo (2 ^ e) (2 ^ (k + 1)) = 2 ^ k :: halvingsTo (2 ^ e) (2 ^ k) := by
  unfold halvingsTo
  have hle : 2 ^ e ≤ 2 ^ k := Nat.pow_le_pow_right Nat.two_pos h
  rw [halvings_two_pow_succ, List.takeWhile_cons_of_pos (by simpa using hle)]

/-- `tid < stride` -/
def lowHalf (stride tid : Nat) : Bool := tid < stride

theorem fits_lowHalf {e k n : Nat} (hek : e ≤ k) (hn : 2 ^ k ≤ n) :
    Fits n lowHalf (halvingsTo (2 ^ e) (2 ^ k)) := by
  induction k, hek using Nat.le_induction with
  | base =>
      rw [halvingsTo_self]
      exact fun s hs => absurd hs List.not_mem_nil
  | succ k hek ih =>
      have hdouble : 2 ^ (k + 1) = 2 ^ k + 2 ^ k := by rw [pow_succ, mul_two]
      rw [halvingsTo_succ hek]
      intro stride hs i hi hactive
      rcases List.mem_cons.mp hs with rfl | hs
      · have hlt : i < 2 ^ k := of_decide_eq_true hactive
        refine ⟨by omega, fun hpartner => ?_⟩
        have hle : i + 2 ^ k < 2 ^ k := of_decide_eq_true hpartner
        omega
      · exact ih (by omega) stride hs i hi hactive

/-- The first cells keep the sum of all. -/
theorem sum_foldl_lowHalf (vals : Nat → M) {e k : Nat} (hek : e ≤ k) :
    ∑ i ∈ Finset.range (2 ^ e),
        (halvingsTo (2 ^ e) (2 ^ k)).foldl (stage (· + ·) lowHalf) vals i =
      ∑ i ∈ Finset.range (2 ^ k), vals i := by
  induction k, hek using Nat.le_induction generalizing vals with
  | base =>
      rw [halvingsTo_self]
      rfl
  | succ k hek ih =>
      rw [halvingsTo_succ hek, List.foldl_cons, ih, pow_succ, mul_two, Finset.sum_range_add,
        ← Finset.sum_add_distrib]
      refine Finset.sum_congr rfl fun i hi => ?_
      have hactive : lowHalf (2 ^ k) i = true := decide_eq_true (Finset.mem_range.mp hi)
      rw [stage, if_pos hactive, Nat.add_comm i]

/-- `for (unsigned stride = 1; stride < n; stride *= 2)` -/
def doublings (n : Nat) : List Nat := ((List.range 32).map (2 ^ ·)).takeWhile (· < n)

/-- `tid % (2 * stride) == 0 && tid + stride < n` -/
def interleaved (n stride tid : Nat) : Bool := tid % (2 * stride) = 0 ∧ tid + stride < n

theorem fits_interleaved (n : Nat) : Fits n (interleaved n) (doublings n) := by
  intro stride hs i _ hactive
  obtain ⟨hmod, hlt⟩ : i % (2 * stride) = 0 ∧ i + stride < n := of_decide_eq_true hactive
  refine ⟨hlt, fun hpartner => ?_⟩
  obtain ⟨hmod', -⟩ : (i + stride) % (2 * stride) = 0 ∧ _ := of_decide_eq_true hpartner
  have hpos : 0 < stride := by
    obtain ⟨j, -, rfl⟩ := List.mem_map.mp ((List.takeWhile_sublist _).subset hs)
    exact Nat.two_pow_pos j
  rw [Nat.add_mod, hmod, Nat.zero_add, Nat.mod_mod, Nat.mod_eq_of_lt (by omega)] at hmod'
  omega

theorem doublings_two_pow {k : Nat} (hk : k ≤ 31) :
    doublings (2 ^ k) = (List.range k).map (2 ^ ·) := by
  unfold doublings
  rw [List.takeWhile_map]
  refine congrArg (List.map _) ?_
  refine Kernels.takeWhile_range (by omega) (fun i hi => ?_) fun _ => ?_
  · exact decide_eq_true (Nat.pow_lt_pow_right Nat.one_lt_two hi)
  · exact decide_eq_false (Nat.lt_irrefl _)

/-- A cell at a multiple of a stride has the sum of those up to the next multiple. -/
theorem foldl_interleaved (vals : Nat → M) {k t : Nat} (ht : t ≤ k) {i : Nat} (hi : i < 2 ^ k)
    (hmod : i % 2 ^ t = 0) :
    ((List.range t).map (2 ^ ·)).foldl (stage (· + ·) (interleaved (2 ^ k))) vals i =
      ∑ j ∈ Finset.range (2 ^ t), vals (i + j) := by
  induction t generalizing i with
  | zero => simp
  | succ t ih =>
      have hdouble : 2 ^ (t + 1) = 2 * 2 ^ t := by rw [pow_succ, Nat.mul_comm]
      have hdvd : 2 ^ (t + 1) ∣ i := Nat.dvd_of_mod_eq_zero hmod
      have hdvd' : 2 ^ (t + 1) ∣ 2 ^ k := pow_dvd_pow 2 ht
      have hroom : i + 2 ^ (t + 1) ≤ 2 ^ k := by
        obtain ⟨a, rfl⟩ := hdvd
        obtain ⟨c, hc⟩ := hdvd'
        rw [hc] at hi ⊢
        rw [← Nat.mul_succ]
        exact Nat.mul_le_mul_left _ (Nat.lt_of_mul_lt_mul_left hi)
      have hpos := Nat.two_pow_pos t
      have hactive : interleaved (2 ^ k) (2 ^ t) i = true :=
        decide_eq_true ⟨hdouble ▸ hmod, by omega⟩
      have hmod' : i % 2 ^ t = 0 :=
        Nat.mod_eq_zero_of_dvd ((Dvd.intro_left 2 hdouble.symm).trans hdvd)
      have hmod'' : (i + 2 ^ t) % 2 ^ t = 0 := by rw [Nat.add_mod_right, hmod']
      rw [List.range_succ, List.map_append, List.foldl_append]
      show stage _ _ _ (2 ^ t) i = _
      rw [stage, if_pos hactive, ih (by omega) hi hmod', ih (by omega) (by omega) hmod'', pow_succ,
        mul_two, Finset.sum_range_add]
      simp only [Nat.add_assoc]

end Sums

-- ============================================================================
-- Warps
-- ============================================================================

variable {σ : Type}

/-- What the lanes have after a round. -/
def exchanged (op : σ → σ → σ) (s : Nat → σ) (offset i : Nat) : σ :=
  op (s i) (if i % 32 + offset < 32 then s (i + offset) else s i)

/-- `for (int offset = 16; offset > 0; offset >>= 1)` -/
def warpLoop (body : σ → Nat → Program (Access X V) V σ) (s : σ) : Program (Access X V) V σ :=
  (halvings 32).foldlM body s

/-- What the lanes have after the loop. -/
def warpFold (op : σ → σ → σ) (s : Nat → σ) : Nat → σ := (halvings 32).foldl (exchanged op) s

-- ============================================================================
-- Lanes
-- ============================================================================

section Lanes

theorem exchanged_lift {A M : Type} [Add M] {op : A → A → A} {lift : M → A}
    (hop : ∀ a b, op (lift a) (lift b) = lift (a + b)) (s : Nat → M) (offset : Nat) :
    exchanged op (fun i => lift (s i)) offset = fun i => lift (exchanged (· + ·) s offset i) := by
  funext i
  unfold exchanged
  split
  · exact hop ..
  · exact hop ..

theorem foldl_exchanged_lift {A M : Type} [Add M] {op : A → A → A} {lift : M → A}
    (hop : ∀ a b, op (lift a) (lift b) = lift (a + b)) (s : Nat → M) (offsets : List Nat) :
    offsets.foldl (exchanged op) (fun i => lift (s i)) =
      fun i => lift (offsets.foldl (exchanged (· + ·)) s i) := by
  induction offsets generalizing s with
  | nil => rfl
  | cons offset offsets ih =>
      rw [List.foldl_cons, exchanged_lift hop, ih]
      rfl

/-- The first lanes of a warp have what all of them had: from the others on nothing reaches
    them that is not their share. -/
theorem foldl_exchanged {M : Type} [AddCommMonoid M] (s : Nat → M) (w : Nat) {k : Nat}
    (hk : k ≤ 5) :
    (halvings (2 ^ k)).foldl (exchanged (· + ·)) s (32 * w) =
      ∑ j ∈ Finset.range (2 ^ k), s (32 * w + j) := by
  induction k generalizing s with
  | zero => simp [halvings_one]
  | succ k ih =>
      have hpow : 2 ^ k ≤ 16 := Nat.pow_le_pow_right (by decide) (by omega : k ≤ 4)
      rw [halvings_two_pow_succ, List.foldl_cons, ih _ (by omega), pow_succ, mul_two,
        Finset.sum_range_add, ← Finset.sum_add_distrib]
      refine Finset.sum_congr rfl fun j hj => ?_
      have hj := Finset.mem_range.mp hj
      have hlane : (32 * w + j) % 32 + 2 ^ k < 32 := by omega
      unfold exchanged
      rw [if_pos hlane, Nat.add_assoc, Nat.add_comm j]

/-- The first lane has the sum over the warp. -/
theorem warpFold_eq {A M : Type} [AddCommMonoid M] {op : A → A → A} (lift : M → A)
    (hop : ∀ a b, op (lift a) (lift b) = lift (a + b)) (s : Nat → M) (w : Nat) :
    warpFold op (fun i => lift (s i)) (32 * w) =
      lift (∑ j ∈ Finset.range 32, s (32 * w + j)) := by
  have h := foldl_exchanged s w (le_refl 5)
  unfold warpFold
  rw [foldl_exchanged_lift hop]
  exact congrArg lift h

end Lanes

-- ============================================================================
-- Blocks whose warps shuffle
-- ============================================================================

namespace Block

variable [DecidableEq X] [Zero V] {B : Block X V} {plus : V → V → V} {μ : X → V}
  {f : Footprint X V} {qs : Nat → Program (Access X V) V Unit}

theorem lane_has {n w i offset : Nat} (hn : n % 32 = 0) (hi : (Group.warp w).Has n i)
    (hlane : i % 32 + offset < 32) : (Group.warp w).Has n (i + offset) := by
  obtain ⟨hlt, rfl⟩ := hi
  constructor <;> omega

/-- One warp shuffles. -/
theorem At.shflDown (h : B.At plus μ f qs) (hsize : B.size % 32 = 0) {w : Nat} (offset : Nat)
    (hw : 32 * w < B.size) (v : Nat → V) {k : Nat → V → Program (Access X V) V Unit}
    (hqs : ∀ i, (Group.warp w).Has B.size i → qs i = shflDown i (v i) offset >>= k i) :
    B.At plus μ f fun i => if (Group.warp w).Has B.size i then
      k i (if i % 32 + offset < 32 then v (i + offset) else v i) else qs i := by
  have hmeet := h.meet (g := .warp w) (fun i => if (Group.warp w).Has B.size i then v i else 0)
    (k := fun i vs => k i (if i % 32 + offset < 32 then vs (i + offset) else v i))
    ⟨32 * w, hw, by omega⟩ (fun i hi => ?_) fun i hi => if_neg hi
  · refine hmeet.congr fun i _ => ?_
    split
    · rename_i hi
      split
      · rename_i hlane
        exact congrArg (k i) (if_pos (lane_has hsize hi hlane))
      · rfl
    · rfl
  · have hwarp : i / 32 = w := hi.2
    rw [hqs i hi, if_pos hi]
    show Program.meet (.warp (i / 32)) (v i) _ = _
    rw [hwarp]
    rfl

/-- All lanes of some warps shuffle. -/
theorem At.shflDown_all (h : B.At plus μ f qs) (hsize : B.size % 32 = 0) (P : Nat → Prop)
    [DecidablePred P] (offset : Nat) (v : Nat → V) {k : Nat → V → Program (Access X V) V Unit}
    (hqs : ∀ i < B.size, P (i / 32) → qs i = Program.shflDown i (v i) offset >>= k i) :
    B.At plus μ f fun i => if P (i / 32) then
      k i (if i % 32 + offset < 32 then v (i + offset) else v i) else qs i := by
  -- one warp after another
  have hwarps : ∀ m, 32 * m ≤ B.size → B.At plus μ f fun i => if i / 32 < m ∧ P (i / 32) then
      k i (if i % 32 + offset < 32 then v (i + offset) else v i) else qs i := by
    intro m
    induction m with
    | zero => exact fun _ => h.congr fun i _ => (if_neg (by omega)).symm
    | succ m ih =>
        intro hm
        have hbefore := ih (by omega)
        by_cases hP : P m
        · refine (hbefore.shflDown hsize (w := m) (k := k) offset (by omega) v
            fun i hi => ?_).congr fun i hi => ?_
          · obtain ⟨hlt, hwarp⟩ := hi
            rw [if_neg (by omega), hqs i hlt (hwarp ▸ hP)]
          · by_cases hwarp : i / 32 = m
            · have hhas : (Group.warp m).Has B.size i := ⟨hi, hwarp⟩
              have hnext : i / 32 < m + 1 ∧ P (i / 32) := ⟨by omega, hwarp ▸ hP⟩
              rw [if_pos hhas, if_pos hnext]
            · have hhas : ¬ (Group.warp m).Has B.size i := fun hhas => hwarp hhas.2
              rw [if_neg hhas]
              have hiff : (i / 32 < m ∧ P (i / 32)) ↔ (i / 32 < m + 1 ∧ P (i / 32)) :=
                and_congr_left fun _ => by omega
              exact if_congr hiff rfl rfl
        · refine hbefore.congr fun i _ => if_congr ?_ rfl rfl
          refine and_congr_left fun hi => ?_
          have hne : i / 32 ≠ m := fun heq => hP (heq ▸ hi)
          omega
  refine (hwarps (B.size / 32) (by omega)).congr fun i hi => if_congr ?_ rfl rfl
  exact and_iff_right (by omega)

/-- A round in which the lanes exchange their values. -/
def Exchanges (B : Block X V) (plus : V → V → V) (op : σ → σ → σ)
    (body : Nat → σ → Nat → Program (Access X V) V σ) : Prop :=
  ∀ (μ : X → V) (f : Footprint X V) (qs : Nat → Program (Access X V) V Unit) (P : Nat → Prop)
    [DecidablePred P] (offset : Nat) (s : Nat → σ) (k : Nat → σ → Program (Access X V) V Unit),
    B.At plus μ f qs → (∀ i < B.size, P (i / 32) → qs i = body i (s i) offset >>= k i) →
      B.At plus μ f fun i => if P (i / 32) then k i (exchanged op s offset i) else qs i

/-- `val = op(val, __shfl_down_sync(0xffffffffu, val, offset))` -/
def reduceStep (op : V → V → V) (tid : Nat) (val : V) (offset : Nat) :
    Program (Access X V) V V := do
  let other ← Program.shflDown tid val offset
  pure (op val other)

theorem exchanges_reduceStep (hsize : B.size % 32 = 0) (op : V → V → V) :
    B.Exchanges plus op (reduceStep op) := by
  intro μ f qs P _ offset s k h hqs
  refine (h.shflDown_all hsize P offset s
    (k := fun i other => k i (op (s i) other)) hqs).congr fun i _ => ?_
  rfl

/-- The lanes of some warps go through the loop. -/
theorem At.warpLoop {op : σ → σ → σ} {body : Nat → σ → Nat → Program (Access X V) V σ}
    (h : B.At plus μ f qs) (hbody : B.Exchanges plus op body) (P : Nat → Prop) [DecidablePred P]
    {s : Nat → σ} {k : Nat → σ → Program (Access X V) V Unit}
    (hqs : ∀ i < B.size, P (i / 32) → qs i = warpLoop (body i) (s i) >>= k i) :
    B.At plus μ f fun i => if P (i / 32) then k i (warpFold op s i) else qs i := by
  unfold Warps.warpLoop at hqs
  unfold warpFold
  generalize halvings 32 = offsets at hqs
  induction offsets generalizing s qs with
  | nil =>
      refine h.congr fun i hi => ?_
      split
      · rename_i hP
        exact hqs i hi hP
      · rfl
  | cons offset offsets ih =>
      have hround := hbody μ f qs P offset s (fun i t => offsets.foldlM (body i) t >>= k i) h
        fun i hi hP => by rw [hqs i hi hP, List.foldlM_cons, bind_assoc]
      refine (ih hround (s := exchanged op s offset) fun i _ hP => if_pos hP).congr fun i _ => ?_
      split
      · rfl
      · rfl

end Block

end PassionProjects.Warps
