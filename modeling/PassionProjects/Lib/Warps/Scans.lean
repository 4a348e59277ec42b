/-
  PassionProjects.Lib.Warps.Scans

  How a block makes prefix sums of the cells of an array.  By doubling: with one offset after
  another each thread adds to its number the one that many places before, from one half of the
  array into the other.  By sweeping: pairs of cells a stride apart are added up a tree, and
  the sums of what lies before are handed down it.
-/

import Mathlib.Algebra.BigOperators.Intervals
import Mathlib.Tactic.Ring
import PassionProjects.Lib.Warps.Trees
import PassionProjects.Lib.Warps.Writers

namespace PassionProjects.Warps

open Program

variable {X V : Type}

-- ============================================================================
-- Programs
-- ============================================================================

/-- `dst[tid] = (tid >= offset) ? src[tid] + src[tid - offset] : src[tid]`, and the two halves
    change places. -/
def doublingStep [Zero V] [Add V] (cell : Nat → X) (tid : Nat) (halves : Nat × Nat) (offset : Nat) :
    Program (Access X V) V (Nat × Nat) := do
  let (src, dst) := halves
  let added ← (if tid ≥ offset then do
      let a ← load (cell (src + tid))
      let b ← load (cell (src + (tid - offset)))
      pure (a + b)
    else load (cell (src + tid)))
  store (cell (dst + tid)) added
  barrier
  pure (dst, src)

/-- `(tid + 1) * stride * 2 - 1` -/
def sweepIdx (stride tid : Nat) : Nat := (tid + 1) * stride * 2 - 1

/-- A sweep over the first `n` cells: with each stride the threads rewrite pairs. -/
def sweepLoop [Zero V] (n : Nat) (cell : Nat → X) (body : X → X → Program (Access X V) V Unit)
    (strides : List Nat) (tid : Nat) : Program (Access X V) V Unit :=
  strides.forM fun stride =>
    (if sweepIdx stride tid < n then
      body (cell (sweepIdx stride tid - stride)) (cell (sweepIdx stride tid))
    else pure ()) >>= fun _ => barrier

/-- `sdata[idx] += sdata[idx - stride]` -/
def gather [Add V] (left right : X) : Program (Access X V) V Unit := do
  let b ← load right
  let a ← load left
  store right (b + a)

/-- `t = sdata[idx - stride]; sdata[idx - stride] = sdata[idx]; sdata[idx] += t` -/
def spread [Add V] (left right : X) : Program (Access X V) V Unit := do
  let t ← load left
  let b ← load right
  store left b
  let b ← load right
  store right (b + t)

-- ============================================================================
-- What the loops come to
-- ============================================================================

section Sums

variable {M : Type} [AddCommMonoid M]

def doublingStage (vals : Nat → M) (offset i : Nat) : M :=
  if i ≥ offset then vals i + vals (i - offset) else vals i

/-- After some rounds a cell has the sum of those that far back. -/
theorem foldl_doublingStage (vals : Nat → M) (t i : Nat) :
    ((List.range t).map (2 ^ ·)).foldl doublingStage vals i =
      ∑ j ∈ Finset.Ico (i + 1 - 2 ^ t) (i + 1), vals j := by
  induction t generalizing i with
  | zero => simp
  | succ t ih =>
      have hdouble : 2 ^ (t + 1) = 2 ^ t + 2 ^ t := by rw [pow_succ, mul_two]
      rw [List.range_succ, List.map_append, List.foldl_append]
      show doublingStage _ (2 ^ t) i = _
      rw [doublingStage, ih, ih]
      split
      · rename_i hle
        have hback : i - 2 ^ t + 1 = i + 1 - 2 ^ t := by omega
        have hfirst : i + 1 - 2 ^ (t + 1) ≤ i + 1 - 2 ^ t :=
          Nat.sub_le_sub_left (Nat.pow_le_pow_right Nat.two_pos (Nat.le_succ t)) _
        rw [hback, add_comm, Nat.sub_sub, ← hdouble]
        exact Finset.sum_Ico_consecutive _ hfirst (Nat.sub_le ..)
      · rename_i hlt
        rw [Nat.sub_eq_zero_of_le (by omega : i + 1 ≤ 2 ^ t),
          Nat.sub_eq_zero_of_le (by omega : i + 1 ≤ 2 ^ (t + 1))]

theorem foldl_doublings {k : Nat} (hk : k ≤ 31) (vals : Nat → M) {i : Nat} (hi : i < 2 ^ k) :
    (doublings (2 ^ k)).foldl doublingStage vals i = ∑ j ∈ Finset.range (i + 1), vals j := by
  rw [doublings_two_pow hk, foldl_doublingStage, Nat.sub_eq_zero_of_le hi,
    ← Finset.range_eq_Ico]

/-- What becomes of a pair of cells. -/
def sweepStage (f : M → M → M × M) (vals : Nat → M) (stride i : Nat) : M :=
  if 2 * stride ∣ i + 1 then (f (vals (i - stride)) (vals i)).2
  else if stride ∣ i + 1 then (f (vals i) (vals (i + stride))).1
  else vals i

def gathered (a b : M) : M × M := (a, b + a)

def spreaded (a b : M) : M × M := (b, b + a)

/-- A cell has the sum of its segment: the largest one of at most `2 ^ t` cells that ends there
    and begins at a multiple of its length. -/
def Segments (t : Nat) (vals : Nat → M) (s : Nat → M) : Prop :=
  ∀ i r, r ≤ t → 2 ^ r ∣ i + 1 → (r = t ∨ ¬ 2 ^ (r + 1) ∣ i + 1) →
    s i = ∑ j ∈ Finset.Ico (i + 1 - 2 ^ r) (i + 1), vals j

theorem segments_zero (vals : Nat → M) : Segments 0 vals vals := by
  intro i r hr hdvd _
  obtain rfl : r = 0 := by omega
  simp

/-- Halfway through a segment lies the end of one half as long, and not of a longer one. -/
theorem half_dvd {t i : Nat} (h : 2 ^ (t + 1) ∣ i + 1) :
    2 ^ t ≤ i ∧ 2 ^ t ∣ i - 2 ^ t + 1 ∧ ¬ 2 ^ (t + 1) ∣ i - 2 ^ t + 1 := by
  have hpos := Nat.two_pow_pos t
  have hdouble : 2 ^ (t + 1) = 2 * 2 ^ t := by rw [pow_succ, Nat.mul_comm]
  have hle : 2 ^ (t + 1) ≤ i + 1 := Nat.le_of_dvd (Nat.succ_pos i) h
  have hback : i - 2 ^ t + 1 = i + 1 - 2 ^ t := by omega
  refine ⟨by omega, ?_, fun hdvd => ?_⟩
  · rw [hback]
    exact Nat.dvd_sub ((Dvd.intro_left 2 hdouble.symm).trans h) (dvd_refl _)
  · rw [hback] at hdvd
    have hsub := Nat.dvd_sub h hdvd
    rw [Nat.sub_sub_self (by omega)] at hsub
    have := Nat.le_of_dvd hpos hsub
    omega

/-- One round up the tree. -/
theorem Segments.gather {t : Nat} {vals s : Nat → M} (h : Segments t vals s) :
    Segments (t + 1) vals (sweepStage gathered s (2 ^ t)) := by
  have hdouble : 2 ^ (t + 1) = 2 * 2 ^ t := by rw [pow_succ, Nat.mul_comm]
  intro i r hr hdvd hlast
  unfold sweepStage
  rw [← hdouble]
  by_cases htop : 2 ^ (t + 1) ∣ i + 1
  · have hrt : r = t + 1 := by
      rcases hlast with rfl | hnot
      · rfl
      · by_contra hne
        exact hnot ((pow_dvd_pow 2 (by omega)).trans htop)
    subst hrt
    obtain ⟨hle, hhalf, hodd⟩ := half_dvd htop
    have hback : i - 2 ^ t + 1 = i + 1 - 2 ^ t := by omega
    have hfirst : i + 1 - 2 ^ (t + 1) ≤ i + 1 - 2 ^ t := by omega
    have hright : s i = ∑ j ∈ Finset.Ico (i + 1 - 2 ^ t) (i + 1), vals j :=
      h i t le_rfl ((Dvd.intro_left 2 hdouble.symm).trans htop) (.inl rfl)
    have hleft :
        s (i - 2 ^ t) = ∑ j ∈ Finset.Ico (i + 1 - 2 ^ (t + 1)) (i + 1 - 2 ^ t), vals j := by
      rw [h (i - 2 ^ t) t le_rfl hhalf (.inl rfl), hback, Nat.sub_sub, hdouble, Nat.two_mul]
    rw [if_pos htop]
    show s i + s (i - 2 ^ t) = _
    rw [hright, hleft, add_comm]
    exact Finset.sum_Ico_consecutive _ hfirst (Nat.sub_le ..)
  · have hkept : (if 2 ^ t ∣ i + 1 then (gathered (s i) (s (i + 2 ^ t))).1 else s i) = s i := by
      split
      · rfl
      · rfl
    rw [if_neg htop, hkept]
    have hrt : r ≠ t + 1 := fun heq => htop (heq ▸ hdvd)
    refine h i r (by omega) hdvd ?_
    rcases Nat.eq_or_lt_of_le (Nat.le_of_lt_succ (Nat.lt_of_le_of_ne hr hrt)) with heq | hlt
    · exact .inl heq
    · exact .inr (hlast.resolve_left hrt)

theorem segments_foldl (vals : Nat → M) (t : Nat) :
    Segments t vals (((List.range t).map (2 ^ ·)).foldl (sweepStage gathered) vals) := by
  induction t with
  | zero => exact segments_zero vals
  | succ t ih =>
      rw [List.range_succ, List.map_append, List.foldl_append]
      exact ih.gather

/-- On the way down the ends of the segments of `2 ^ t` cells have the sum of what lies before
    them; the other cells are as they were. -/
structure Prefixes (k t : Nat) (vals : Nat → M) (s : Nat → M) : Prop where
  before : ∀ i < 2 ^ k, 2 ^ t ∣ i + 1 → s i = ∑ j ∈ Finset.range (i + 1 - 2 ^ t), vals j
  segment : ∀ i < 2 ^ k, ∀ r < t, 2 ^ r ∣ i + 1 → ¬ 2 ^ (r + 1) ∣ i + 1 →
    s i = ∑ j ∈ Finset.Ico (i + 1 - 2 ^ r) (i + 1), vals j

/-- At the top: the last cell is cleared. -/
theorem Segments.prefixes {k : Nat} {vals s : Nat → M} (h : Segments k vals s) :
    Prefixes k k vals (Function.update s (2 ^ k - 1) 0) := by
  have hpos := Nat.two_pow_pos k
  constructor
  · intro i hi hdvd
    have hle := Nat.le_of_dvd (Nat.succ_pos i) hdvd
    obtain rfl : i = 2 ^ k - 1 := by omega
    rw [Function.update_self, Nat.sub_eq_zero_of_le (by omega)]
    rfl
  · intro i hi r hr hdvd hnot
    have hne : i ≠ 2 ^ k - 1 := by
      rintro rfl
      rw [Nat.sub_add_cancel hpos] at hnot
      exact hnot (pow_dvd_pow 2 hr)
    rw [Function.update_of_ne hne]
    exact h i r (by omega) hdvd (.inr hnot)

/-- An end of a half segment that is not the end of a whole one has its whole one in the array. -/
theorem partner_dvd {k t i : Nat} (ht : t < k) (hi : i < 2 ^ k) (hdvd : 2 ^ t ∣ i + 1)
    (hodd : ¬ 2 ^ (t + 1) ∣ i + 1) : 2 ^ (t + 1) ∣ i + 2 ^ t + 1 ∧ i + 2 ^ t < 2 ^ k := by
  have hdouble : 2 ^ (t + 1) = 2 ^ t * 2 := pow_succ 2 t
  obtain ⟨a, ha⟩ := hdvd
  have hparity : a % 2 = 1 := by
    by_contra heven
    exact hodd (ha ▸ hdouble ▸ Nat.mul_dvd_mul_left _ (Nat.dvd_of_mod_eq_zero (by omega)))
  have hsum : i + 2 ^ t + 1 = 2 ^ t * (a + 1) := by
    rw [Nat.mul_succ, ← ha]
    omega
  have hpartner : 2 ^ (t + 1) ∣ i + 2 ^ t + 1 := by
    rw [hsum, hdouble]
    exact Nat.mul_dvd_mul_left _ (Nat.dvd_of_mod_eq_zero (by omega))
  refine ⟨hpartner, ?_⟩
  -- both are multiples of the half segment, and `2 ^ k` is one of the whole segment
  by_contra hge
  have hlt : i + 1 < 2 ^ k := by
    refine Nat.lt_of_le_of_ne hi fun heq => hodd ?_
    rw [heq]
    exact pow_dvd_pow 2 ht
  obtain ⟨c, hc⟩ := pow_dvd_pow 2 (Nat.le_of_lt ht)
  rw [hc, ha] at hlt
  have hac : a + 1 ≤ c := Nat.lt_of_mul_lt_mul_left hlt
  have hle := Nat.mul_le_mul_left (2 ^ t) hac
  rw [← hc, ← hsum] at hle
  omega

/-- One round down the tree. -/
theorem Prefixes.spread {k t : Nat} {vals s : Nat → M} (h : Prefixes k (t + 1) vals s)
    (ht : t < k) : Prefixes k t vals (sweepStage spreaded s (2 ^ t)) := by
  have hpos := Nat.two_pow_pos t
  have hdouble : 2 ^ (t + 1) = 2 * 2 ^ t := by rw [pow_succ, Nat.mul_comm]
  constructor
  · intro i hi hdvd
    unfold sweepStage
    rw [← hdouble]
    split
    · rename_i htop
      obtain ⟨hle, hhalf, hodd⟩ := half_dvd htop
      have hback : i - 2 ^ t + 1 = i + 1 - 2 ^ t := by omega
      have hfirst : i + 1 - 2 ^ (t + 1) ≤ i + 1 - 2 ^ t := by omega
      show s i + s (i - 2 ^ t) = _
      rw [h.before i hi htop, h.segment (i - 2 ^ t) (by omega) t (Nat.lt_succ_self t) hhalf hodd,
        hback, Nat.sub_sub, ← Nat.two_mul, ← hdouble]
      exact Finset.sum_range_add_sum_Ico vals hfirst
    · rename_i hodd
      obtain ⟨hpartner, hroom⟩ := partner_dvd ht hi hdvd hodd
      show s (i + 2 ^ t) = _
      rw [h.before _ hroom hpartner]
      refine congrArg (fun m => ∑ j ∈ Finset.range m, vals j) ?_
      omega
  · intro i hi r hr hdvd hnot
    unfold sweepStage
    rw [← hdouble, if_neg, if_neg]
    · exact h.segment i hi r (by omega) hdvd hnot
    · exact fun hdvd' => hnot ((pow_dvd_pow 2 hr).trans hdvd')
    · exact fun hdvd' => hnot ((pow_dvd_pow 2 (by omega)).trans hdvd')

theorem Prefixes.foldl {k t : Nat} (ht : t ≤ k) {vals s : Nat → M} (h : Prefixes k t vals s) :
    Prefixes k 0 vals ((halvingsTo 1 (2 ^ t)).foldl (sweepStage spreaded) s) := by
  induction t generalizing s with
  | zero =>
      have hnone : halvingsTo 1 (2 ^ 0) = [] := halvingsTo_self 0
      rw [hnone]
      exact h
  | succ t ih =>
      have hstrides : halvingsTo 1 (2 ^ (t + 1)) = 2 ^ t :: halvingsTo 1 (2 ^ t) :=
        halvingsTo_succ (Nat.zero_le t)
      rw [hstrides, List.foldl_cons]
      exact ih (by omega) (h.spread (by omega))

/-- Up the tree, with the last cell cleared, and down again: each cell has the sum of what lies
    before it. -/
theorem foldl_sweeps {k : Nat} (hk : k ≤ 31) (vals : Nat → M) {i : Nat} (hi : i < 2 ^ k) :
    (halvingsTo 1 (2 ^ k)).foldl (sweepStage spreaded)
        (Function.update ((doublings (2 ^ k)).foldl (sweepStage gathered) vals) (2 ^ k - 1) 0) i =
      ∑ j ∈ Finset.range i, vals j := by
  rw [doublings_two_pow hk]
  have hprefixes := (segments_foldl vals k).prefixes.foldl le_rfl
  rw [hprefixes.before i hi (one_dvd _)]
  rfl

theorem foldl_gathered_last {k : Nat} (hk : k ≤ 31) (vals : Nat → M) :
    (doublings (2 ^ k)).foldl (sweepStage gathered) vals (2 ^ k - 1) =
      ∑ j ∈ Finset.range (2 ^ k), vals j := by
  have hpos := Nat.two_pow_pos k
  have hlast : 2 ^ k - 1 + 1 = 2 ^ k := Nat.sub_add_cancel hpos
  rw [doublings_two_pow hk, segments_foldl vals k (2 ^ k - 1) k le_rfl (by rw [hlast]) (.inl rfl),
    hlast, Nat.sub_self, Finset.range_eq_Ico]

end Sums

-- ============================================================================
-- Blocks
-- ============================================================================

namespace Block

section Doubling

variable [DecidableEq X] [AddCommMonoid V] {B : Block X V} {plus : V → V → V} {μ : X → V}
  {cell : Nat → X} {vals : Nat → V}

/-- The halves of an array of `2 * n` cells, in one order or the other. -/
def Halves (n : Nat) (halves : Nat × Nat) : Prop := halves = (0, n) ∨ halves = (n, 0)

theorem At.doublingStep [RightCommutative plus] {qs : Nat → Program (Access X V) V Unit}
    {k : Nat → Nat × Nat → Program (Access X V) V Unit} {halves : Nat × Nat} {offset : Nat}
    (h : B.At plus μ .empty qs) (hn : 0 < B.size) (hhalves : Halves B.size halves)
    (hqs : ∀ i < B.size, qs i = doublingStep cell i halves offset >>= k i)
    (hcell : ∀ i < 2 * B.size, ∀ j < 2 * B.size, cell i = cell j → i = j)
    (hread : ∀ i < B.size, ∀ j < 2 * B.size, cell j ∈ B.readable i)
    (hown : ∀ j < 2 * B.size, cell j ∈ B.own)
    (hvals : ∀ j < B.size, μ (cell (halves.1 + j)) = vals j) :
    ∃ μ', B.At plus μ' .empty (fun i => k i halves.swap) ∧
      (∀ j < B.size, μ' (cell (halves.2 + j)) = doublingStage vals offset j) ∧
        ∀ x, (∀ j < 2 * B.size, cell j ≠ x) → μ' x = μ x := by
  obtain ⟨src, dst⟩ := halves
  have hsrc : src + B.size ≤ 2 * B.size := by
    rcases hhalves with heq | heq <;> cases heq <;> omega
  have hdst : dst + B.size ≤ 2 * B.size := by
    rcases hhalves with heq | heq <;> cases heq <;> omega
  have hapart : ∀ i < B.size, ∀ j < B.size, dst + i ≠ src + j := by
    intro i hi j hj
    rcases hhalves with heq | heq <;> cases heq <;> omega
  let D (_i : Nat) : Set X := {x | ∃ j < B.size, x = cell (src + j)}
  let ws (i : Nat) : List (X × V) := [(cell (dst + i), doublingStage vals offset i)]
  have hperforms : ∀ i < B.size, Performs (D i) μ (qs i) (ws i) []
      (barrier >>= fun _ => k i (dst, src)) := by
    intro i hi
    rw [hqs i hi]
    show Performs (D i) μ ((Warps.doublingStep cell i (src, dst) offset) >>= k i)
      [(cell (dst + i), doublingStage vals offset i)] [] _
    unfold Warps.doublingStep doublingStage
    dsimp only
    split
    · rename_i hle
      rw [← hvals i hi, ← hvals (i - offset) (by omega)]
      exact .read ⟨i, hi, rfl⟩ (.read ⟨i - offset, by omega, rfl⟩ (.write .here))
    · rw [← hvals i hi]
      exact .read ⟨i, hi, rfl⟩ (.write .here)
  have hreads : ∀ i < B.size, ∀ x ∈ D i, x ∈ B.readable i := by
    rintro i hi x ⟨j, hj, rfl⟩
    exact hread i hi _ (by omega)
  have howns : ∀ i < B.size, ∀ w ∈ ws i, w.1 ∈ B.own := by
    intro i hi w hw
    rw [List.mem_singleton.mp hw]
    exact hown _ (by omega)
  have halone : ∀ i < B.size, ∀ j < B.size, ∀ w ∈ ws i, w.1 ∈ D j → i = j := by
    rintro i hi j hj w hw ⟨j', hj', heq⟩
    rw [List.mem_singleton.mp hw] at heq
    exact absurd (hcell _ (by omega) _ (by omega) heq) (hapart i hi j' hj')
  have hdistinct : Footprint.Distinct B.size ws := by
    intro i hi j hj w hw w' hw' heq
    rw [List.mem_singleton.mp hw, List.mem_singleton.mp hw'] at heq
    have hij := hcell _ (by omega) _ (by omega) heq
    obtain rfl : i = j := by omega
    rw [List.mem_singleton.mp hw, List.mem_singleton.mp hw']
    exact ⟨rfl, rfl⟩
  obtain ⟨μ', h', hwritten, hkept⟩ :=
    h.exchange hn D ws hperforms hreads howns halone hdistinct
  refine ⟨μ', h', fun j hj => hwritten j hj _ (List.mem_singleton_self _), fun x hx => ?_⟩
  apply hkept
  intro i hi w hw
  rw [List.mem_singleton.mp hw]
  exact hx _ (by omega)

/-- Where the halves are at the end of the loop. -/
def swapped (offsets : List Nat) (halves : Nat × Nat) : Nat × Nat :=
  offsets.foldl (fun halves _ => halves.swap) halves

theorem Halves.swap {n : Nat} {halves : Nat × Nat} (h : Halves n halves) :
    Halves n halves.swap := by
  rcases h with rfl | rfl
  · exact .inr rfl
  · exact .inl rfl

theorem Halves.swapped {n : Nat} {halves : Nat × Nat} (h : Halves n halves) (offsets : List Nat) :
    Halves n (swapped offsets halves) := by
  induction offsets generalizing halves with
  | nil => exact h
  | cons offset offsets ih => exact ih h.swap

/-- The whole loop. -/
theorem At.doublingLoop [RightCommutative plus] {qs : Nat → Program (Access X V) V Unit}
    {k : Nat → Nat × Nat → Program (Access X V) V Unit} {halves : Nat × Nat} {offsets : List Nat}
    (h : B.At plus μ .empty qs) (hn : 0 < B.size) (hhalves : Halves B.size halves)
    (hqs : ∀ i < B.size, qs i = offsets.foldlM (Warps.doublingStep cell i) halves >>= k i)
    (hcell : ∀ i < 2 * B.size, ∀ j < 2 * B.size, cell i = cell j → i = j)
    (hread : ∀ i < B.size, ∀ j < 2 * B.size, cell j ∈ B.readable i)
    (hown : ∀ j < 2 * B.size, cell j ∈ B.own)
    (hvals : ∀ j < B.size, μ (cell (halves.1 + j)) = vals j) :
    ∃ μ', B.At plus μ' .empty (fun i => k i (swapped offsets halves)) ∧
      (∀ j < B.size, μ' (cell ((swapped offsets halves).1 + j)) =
        offsets.foldl doublingStage vals j) ∧
          ∀ x, (∀ j < 2 * B.size, cell j ≠ x) → μ' x = μ x := by
  induction offsets generalizing halves vals μ qs with
  | nil => exact ⟨μ, h.congr hqs, hvals, fun _ _ => rfl⟩
  | cons offset offsets ih =>
      have hturn : ∀ i < B.size, qs i = Warps.doublingStep cell i halves offset >>= fun halves' =>
          offsets.foldlM (Warps.doublingStep cell i) halves' >>= k i := by
        intro i hi
        rw [hqs i hi, List.foldlM_cons, bind_assoc]
      obtain ⟨μ₁, h₁, hvals₁, hkept₁⟩ := h.doublingStep hn hhalves hturn hcell hread hown hvals
      obtain ⟨μ', h', hvals', hkept'⟩ := ih h₁ hhalves.swap (fun _ _ => rfl) hvals₁
      exact ⟨μ', h', hvals', fun x hx => (hkept' x hx).trans (hkept₁ x hx)⟩

end Doubling

/-- The pairs of a sweep over `n` cells fill them. -/
def Paired (n : Nat) (strides : List Nat) : Prop :=
  ∀ stride ∈ strides, 0 < stride ∧ 2 * stride ∣ n

theorem two_mul_two_pow_dvd {j k : Nat} (h : j < k) : 2 * 2 ^ j ∣ 2 ^ k := by
  rw [← pow_succ']
  exact pow_dvd_pow 2 h

theorem paired_doublings {k : Nat} (hk : k ≤ 31) : Paired (2 ^ k) (doublings (2 ^ k)) := by
  rw [doublings_two_pow hk]
  intro stride hstride
  obtain ⟨j, hj, rfl⟩ := List.mem_map.mp hstride
  exact ⟨Nat.two_pow_pos j, two_mul_two_pow_dvd (List.mem_range.mp hj)⟩

theorem paired_halvings {k t : Nat} (ht : t ≤ k) : Paired (2 ^ k) (halvingsTo 1 (2 ^ t)) := by
  induction t with
  | zero =>
      have hnone : halvingsTo 1 (2 ^ 0) = [] := halvingsTo_self 0
      rw [hnone]
      exact fun stride hstride => absurd hstride List.not_mem_nil
  | succ t ih =>
      have hstrides : halvingsTo 1 (2 ^ (t + 1)) = 2 ^ t :: halvingsTo 1 (2 ^ t) :=
        halvingsTo_succ (Nat.zero_le t)
      rw [hstrides]
      intro stride hstride
      rcases List.mem_cons.mp hstride with rfl | hrest
      · exact ⟨Nat.two_pow_pos t, two_mul_two_pow_dvd ht⟩
      · exact ih (by omega) stride hrest

section Sweeps

variable [DecidableEq X] [Zero V] {B : Block X V} {plus : V → V → V} {μ : X → V}
  {cell : Nat → X} {vals : Nat → V} {body : X → X → Program (Access X V) V Unit}
  {f : V → V → V × V}

/-- The writes put a value into each of two cells, unless it is there already. -/
structure Puts (μ : X → V) (left right : X) (v v' : V) (ws : List (X × V)) : Prop where
  cells : ∀ w ∈ ws, w = (left, v) ∨ w = (right, v')
  left : (left, v) ∈ ws ∨ μ left = v
  right : (right, v') ∈ ws ∨ μ right = v'

omit [DecidableEq X] [Zero V] in
/-- In a memory that has what was written, and is as before elsewhere. -/
theorem Puts.after {μ μ' : X → V} {left right : X} {v v' : V} {ws : List (X × V)}
    (h : Puts μ left right v v' ws) (hne : left ≠ right) (hwritten : ∀ w ∈ ws, μ' w.1 = w.2)
    (hkept : ∀ x, x = left ∨ x = right → (∀ w ∈ ws, w.1 ≠ x) → μ' x = μ x) :
    μ' left = v ∧ μ' right = v' := by
  constructor
  · by_cases hnone : ∀ w ∈ ws, w.1 ≠ left
    · rcases h.left with hw | heq
      · exact hwritten _ hw
      · exact (hkept left (.inl rfl) hnone).trans heq
    · push Not at hnone
      obtain ⟨w, hw, hfst⟩ := hnone
      rcases h.cells w hw with rfl | rfl
      · exact hwritten _ hw
      · exact absurd hfst.symm hne
  · by_cases hnone : ∀ w ∈ ws, w.1 ≠ right
    · rcases h.right with hw | heq
      · exact hwritten _ hw
      · exact (hkept right (.inr rfl) hnone).trans heq
    · push Not at hnone
      obtain ⟨w, hw, hfst⟩ := hnone
      rcases h.cells w hw with rfl | rfl
      · exact absurd hfst hne
      · exact hwritten _ hw

/-- The body puts `f` of two cells into them. -/
def Rewrites (body : X → X → Program (Access X V) V Unit) (f : V → V → V × V) : Prop :=
  ∀ (left right : X) (μ : X → V), left ≠ right → ∃ ws,
    Performs {left, right} μ (body left right) ws [] (.ret ()) ∧
      Puts μ left right (f (μ left) (μ right)).1 (f (μ left) (μ right)).2 ws

theorem sweepIdx_dvd {stride : Nat} (hpos : 0 < stride) (tid : Nat) :
    stride ≤ sweepIdx stride tid ∧ sweepIdx stride tid + 1 = 2 * stride * (tid + 1) := by
  have hprod : (tid + 1) * stride * 2 = 2 * stride * (tid + 1) := by ring
  have hle : 2 * stride ≤ 2 * stride * (tid + 1) := Nat.le_mul_of_pos_right _ (Nat.succ_pos tid)
  unfold sweepIdx
  omega

/-- The pairs of two threads have no cell in common. -/
theorem pairs_apart {stride i j a b : Nat} (hpos : 0 < stride)
    (ha : a = sweepIdx stride i - stride ∨ a = sweepIdx stride i)
    (hb : b = sweepIdx stride j - stride ∨ b = sweepIdx stride j) (h : a = b) : i = j := by
  obtain ⟨hi, hi'⟩ := sweepIdx_dvd hpos i
  obtain ⟨hj, hj'⟩ := sweepIdx_dvd hpos j
  have hlt : ∀ x y : Nat, x < y → 2 * stride * (x + 1) + 2 * stride ≤ 2 * stride * (y + 1) := by
    intro x y hxy
    rw [← Nat.mul_succ]
    exact Nat.mul_le_mul_left _ (by omega)
  rcases Nat.lt_trichotomy i j with hij | hij | hij
  · have := hlt i j hij
    omega
  · exact hij
  · have := hlt j i hij
    omega

/-- The thread whose pair ends with a cell. -/
theorem exists_sweepIdx {stride j n : Nat} (hpos : 0 < stride) (hdvd : 2 * stride ∣ j + 1)
    (hj : j < n) : ∃ i < n, sweepIdx stride i = j := by
  obtain ⟨a, ha⟩ := hdvd
  have hne : a ≠ 0 := by
    rintro rfl
    omega
  have hle : a ≤ 2 * stride * a := Nat.le_mul_of_pos_left _ (by omega)
  refine ⟨a - 1, by omega, ?_⟩
  have hidx := (sweepIdx_dvd hpos (a - 1)).2
  rw [Nat.sub_add_cancel (by omega), ← ha] at hidx
  omega

/-- The first cell of a pair has the second one in the array. -/
theorem partner_lt {stride j n : Nat} (hpos : 0 < stride) (hn : 2 * stride ∣ n)
    (hdvd : stride ∣ j + 1) (hodd : ¬ 2 * stride ∣ j + 1) (hj : j < n) :
    j + stride < n ∧ 2 * stride ∣ j + stride + 1 := by
  obtain ⟨a, ha⟩ := hdvd
  obtain ⟨c, rfl⟩ := hn
  have hparity : a % 2 = 1 := by
    by_contra heven
    obtain ⟨d, rfl⟩ := Nat.dvd_of_mod_eq_zero (show a % 2 = 0 by omega)
    exact hodd ⟨d, by rw [ha]; ring⟩
  obtain ⟨d, rfl⟩ : ∃ d, a = 2 * d + 1 := ⟨a / 2, by omega⟩
  have hsum : j + stride + 1 = 2 * stride * (d + 1) := by
    have hexpand : 2 * stride * (d + 1) = stride * (2 * d + 1) + stride := by ring
    omega
  refine ⟨?_, ⟨d + 1, hsum⟩⟩
  have hlt : 2 * stride * d < 2 * stride * c := by
    have hexpand : stride * (2 * d + 1) = 2 * stride * d + stride := by ring
    omega
  have hle := Nat.mul_le_mul_left (2 * stride) (Nat.lt_of_mul_lt_mul_left hlt)
  rw [Nat.succ_eq_add_one, ← hsum] at hle
  omega

/-- One stride of a sweep. -/
theorem At.sweepStage [RightCommutative plus] {qs k : Nat → Program (Access X V) V Unit}
    {stride : Nat} (h : B.At plus μ .empty qs) (hn : 0 < B.size) (hbody : Rewrites body f)
    (hpos : 0 < stride) (hdvd : 2 * stride ∣ B.size)
    (hqs : ∀ i < B.size, qs i = (if sweepIdx stride i < B.size then
        body (cell (sweepIdx stride i - stride)) (cell (sweepIdx stride i))
      else pure ()) >>= fun _ => barrier >>= fun _ => k i)
    (hcell : ∀ i < B.size, ∀ j < B.size, cell i = cell j → i = j)
    (hread : ∀ i < B.size, ∀ j < B.size, cell j ∈ B.readable i)
    (hown : ∀ j < B.size, cell j ∈ B.own) (hvals : ∀ j < B.size, μ (cell j) = vals j) :
    ∃ μ', B.At plus μ' .empty k ∧
      (∀ j < B.size, μ' (cell j) = Warps.sweepStage f vals stride j) ∧
        ∀ x, (∀ j < B.size, cell j ≠ x) → μ' x = μ x := by
  -- the pair of thread `i`, and what becomes of it
  let left (i : Nat) : X := cell (sweepIdx stride i - stride)
  let right (i : Nat) : X := cell (sweepIdx stride i)
  let v (i : Nat) : V × V := f (μ (left i)) (μ (right i))
  have hne : ∀ i, sweepIdx stride i < B.size → left i ≠ right i := by
    intro i hi heq
    have hle := (sweepIdx_dvd hpos i).1
    have := hcell _ (by omega) _ hi heq
    omega
  have hwrites : ∀ i, ∃ ws : List (X × V), if sweepIdx stride i < B.size then
      Performs {left i, right i} μ (body (left i) (right i)) ws [] (.ret ()) ∧
        Puts μ (left i) (right i) (v i).1 (v i).2 ws else ws = [] := by
    intro i
    split
    · rename_i hi
      exact hbody (left i) (right i) μ (hne i hi)
    · exact ⟨[], rfl⟩
  choose ws hws using hwrites
  have hputs : ∀ i, sweepIdx stride i < B.size →
      Puts μ (left i) (right i) (v i).1 (v i).2 (ws i) := by
    intro i hi
    have hthread := hws i
    rw [if_pos hi] at hthread
    exact hthread.2
  have hactive : ∀ i, ∀ w ∈ ws i, sweepIdx stride i < B.size := by
    intro i w hw
    by_contra hidle
    have hthread := hws i
    rw [if_neg hidle] at hthread
    rw [hthread] at hw
    exact absurd hw List.not_mem_nil
  let D (i : Nat) : Set X := {x | sweepIdx stride i < B.size ∧ (x = left i ∨ x = right i)}
  have hmem : ∀ i, ∀ w ∈ ws i, w.1 ∈ D i := by
    intro i w hw
    have hi := hactive i w hw
    rcases (hputs i hi).cells w hw with rfl | rfl
    · exact ⟨hi, .inl rfl⟩
    · exact ⟨hi, .inr rfl⟩
  have hcells : ∀ i, ∀ x ∈ D i, ∃ j < B.size, x = cell j ∧
      (j = sweepIdx stride i - stride ∨ j = sweepIdx stride i) := by
    rintro i x ⟨hi, rfl | rfl⟩
    · exact ⟨_, by omega, rfl, .inl rfl⟩
    · exact ⟨_, hi, rfl, .inr rfl⟩
  have hmine : ∀ i j, ∀ x ∈ D i, x ∈ D j → i = j := by
    intro i j x hx hx'
    obtain ⟨a, ha, rfl, hpair⟩ := hcells i x hx
    obtain ⟨b, hb, heq, hpair'⟩ := hcells j _ hx'
    exact pairs_apart hpos hpair hpair' (hcell a ha b hb heq)
  have hperforms : ∀ i < B.size, Performs (D i) μ (qs i) (ws i) [] (barrier >>= fun _ => k i) := by
    intro i hi
    have hthread := hws i
    rw [hqs i hi]
    split
    · rename_i hlt
      rw [if_pos hlt] at hthread
      apply Performs.bind_here
      apply hthread.1.mono
      rintro x (rfl | rfl)
      · exact ⟨hlt, .inl rfl⟩
      · exact ⟨hlt, .inr rfl⟩
    · rename_i hidle
      rw [if_neg hidle] at hthread
      rw [hthread]
      exact .here
  have hdistinct : Footprint.Distinct B.size ws := by
    intro i _ j _ w hw w' hw' heq
    obtain rfl := hmine i j w.1 (hmem i w hw) (heq ▸ hmem j w' hw')
    refine ⟨rfl, ?_⟩
    have hi := hactive i w hw
    rcases (hputs i hi).cells w hw with rfl | rfl <;>
      rcases (hputs i hi).cells w' hw' with rfl | rfl
    · rfl
    · exact absurd heq (hne i hi)
    · exact absurd heq.symm (hne i hi)
    · rfl
  obtain ⟨μ', h', hwritten, hkept⟩ := h.exchange hn D ws hperforms
    (fun i hi x hx => by
      obtain ⟨j, hj, rfl, -⟩ := hcells i x hx
      exact hread i hi j hj)
    (fun i hi w hw => by
      obtain ⟨j, hj, heq, -⟩ := hcells i w.1 (hmem i w hw)
      exact heq ▸ hown j hj)
    (fun i _ j _ w hw hx => hmine i j w.1 (hmem i w hw) hx) hdistinct
  have hpair : ∀ i < B.size, sweepIdx stride i < B.size →
      μ' (left i) = (v i).1 ∧ μ' (right i) = (v i).2 := by
    intro i hi hlt
    apply (hputs i hlt).after (hne i hlt) (hwritten i hi)
    intro x hx hnone
    apply hkept
    intro j _ w hw heq
    obtain rfl := hmine j i x (heq ▸ hmem j w hw) ⟨hlt, hx⟩
    exact hnone w hw heq
  refine ⟨μ', h', fun j hj => ?_, fun x hx => ?_⟩
  · unfold Warps.sweepStage
    split
    · rename_i htop
      obtain ⟨i, hi, rfl⟩ := exists_sweepIdx hpos htop hj
      rw [(hpair i hi hj).2, ← hvals _ hj, ← hvals (sweepIdx stride i - stride) (by omega)]
    · rename_i hodd
      split
      · rename_i hhalf
        obtain ⟨hlt, htop⟩ := partner_lt hpos hdvd hhalf hodd hj
        obtain ⟨i, hi, hidx⟩ := exists_sweepIdx hpos htop hlt
        have hvalue := (hpair i hi (by omega)).1
        simp only [left, right, v, hidx, Nat.add_sub_cancel] at hvalue
        rw [hvalue, hvals j hj, hvals (j + stride) hlt]
      · rename_i hout
        rw [← hvals j hj]
        apply hkept
        intro i _ w hw heq
        obtain ⟨a, ha, hwa, hplace⟩ := hcells i w.1 (hmem i w hw)
        obtain rfl := hcell a ha j hj (hwa.symm.trans heq)
        obtain ⟨hle, hidx⟩ := sweepIdx_dvd hpos i
        have hend : stride ∣ sweepIdx stride i + 1 := by
          rw [hidx]
          exact Dvd.intro_left (2 * (i + 1)) (by ring)
        rcases hplace with rfl | rfl
        · apply hout
          have hback : sweepIdx stride i - stride + 1 = sweepIdx stride i + 1 - stride := by omega
          rw [hback]
          exact Nat.dvd_sub hend (dvd_refl stride)
        · exact hout hend
  · apply hkept
    intro i _ w hw heq
    obtain ⟨a, ha, hwa, -⟩ := hcells i w.1 (hmem i w hw)
    exact hx a ha (hwa.symm.trans heq)

/-- A whole sweep. -/
theorem At.sweepLoop [RightCommutative plus] {qs k : Nat → Program (Access X V) V Unit}
    {strides : List Nat} (h : B.At plus μ .empty qs) (hn : 0 < B.size) (hbody : Rewrites body f)
    (hstrides : Paired B.size strides)
    (hqs : ∀ i < B.size, qs i = sweepLoop B.size cell body strides i >>= fun _ => k i)
    (hcell : ∀ i < B.size, ∀ j < B.size, cell i = cell j → i = j)
    (hread : ∀ i < B.size, ∀ j < B.size, cell j ∈ B.readable i)
    (hown : ∀ j < B.size, cell j ∈ B.own) (hvals : ∀ j < B.size, μ (cell j) = vals j) :
    ∃ μ', B.At plus μ' .empty k ∧
      (∀ j < B.size, μ' (cell j) = strides.foldl (Warps.sweepStage f) vals j) ∧
        ∀ x, (∀ j < B.size, cell j ≠ x) → μ' x = μ x := by
  induction strides generalizing vals μ qs with
  | nil => exact ⟨μ, h.congr hqs, hvals, fun _ _ => rfl⟩
  | cons stride strides ih =>
      have hturn : ∀ i < B.size, qs i = (if sweepIdx stride i < B.size then
          body (cell (sweepIdx stride i - stride)) (cell (sweepIdx stride i))
        else pure ()) >>= fun _ => barrier >>= fun _ =>
          Warps.sweepLoop B.size cell body strides i >>= fun _ => k i := by
        intro i hi
        rw [hqs i hi]
        show ((_ >>= fun _ => barrier) >>= fun _ => Warps.sweepLoop B.size cell body strides i) >>=
          _ = _
        rw [bind_assoc, bind_assoc]
      obtain ⟨hpos, hdvd⟩ := hstrides stride List.mem_cons_self
      obtain ⟨μ₁, h₁, hvals₁, hkept₁⟩ :=
        h.sweepStage hn hbody hpos hdvd hturn hcell hread hown hvals
      obtain ⟨μ', h', hvals', hkept'⟩ := ih h₁
        (fun s hs => hstrides s (List.mem_cons_of_mem stride hs)) (fun _ _ => rfl) hvals₁
      exact ⟨μ', h', hvals', fun x hx => (hkept' x hx).trans (hkept₁ x hx)⟩

end Sweeps

section Bodies

variable [DecidableEq X] [AddCommMonoid V]

theorem rewrites_gather : Rewrites (X := X) (V := V) gather gathered := by
  intro left right μ _
  refine ⟨[(right, μ right + μ left)], .read (.inr rfl) (.read (.inl rfl) (.write .here)), ?_⟩
  constructor
  · exact fun w hw => .inr (List.mem_singleton.mp hw)
  · exact .inr rfl
  · exact .inl (List.mem_singleton_self _)

theorem rewrites_spread : Rewrites (X := X) (V := V) spread spreaded := by
  intro left right μ hne
  refine ⟨[(left, μ right), (right, μ right + μ left)], ?_, ?_⟩
  · refine .read (.inl rfl) (.read (.inr rfl) (.write (.read (.inr rfl) ?_)))
    rw [Function.update_of_ne hne.symm]
    exact .write .here
  · constructor
    · intro w hw
      exact List.mem_pair.mp hw
    · exact .inl (by simp [spreaded])
    · exact .inl (by simp [spreaded])

end Bodies

end Block

end PassionProjects.Warps
