/-
  PassionProjects.Lib.Exponential

  Ordered fields with an exponential function, and the softmax of scores some of which are
  minus infinity; sums weighted by the exponentials of scores, kept relative to the largest
  score so far.  These are a commutative monoid, so that the scores may be taken in any order
  and in any groups; minus infinity is the largest of no scores.
-/

import Mathlib.Algebra.BigOperators.Field
import Mathlib.Algebra.BigOperators.Group.List.Basic
import Mathlib.Algebra.BigOperators.Intervals
import Mathlib.Algebra.Module.BigOperators
import Mathlib.Algebra.Order.BigOperators.Group.Finset
import Mathlib.Analysis.SpecialFunctions.Exp
import Mathlib.Tactic.Ring

namespace PassionProjects

class ExpField (F : Type) extends Field F, LinearOrder F, IsStrictOrderedRing F where
  exp : F → F
  sqrt : F → F
  exp_add (a b : F) : exp (a + b) = exp a * exp b
  exp_pos (a : F) : 0 < exp a
  sqrt_nonneg (a : F) : 0 ≤ sqrt a
  sqrt_mul_self {a : F} : 0 ≤ a → sqrt a * sqrt a = a

noncomputable instance : ExpField ℝ where
  exp := Real.exp
  sqrt := Real.sqrt
  exp_add := Real.exp_add
  exp_pos := Real.exp_pos
  sqrt_nonneg := Real.sqrt_nonneg
  sqrt_mul_self := Real.mul_self_sqrt

namespace ExpField

variable {F : Type} [ExpField F]

theorem exp_ne_zero (a : F) : exp a ≠ 0 := (exp_pos a).ne'

theorem exp_zero : exp (0 : F) = 1 :=
  mul_right_cancel₀ (exp_ne_zero 0) (by rw [← exp_add, add_zero, one_mul])

/-- A sum relative to `m` becomes one relative to `m'`. -/
theorem rescale {m m' x sum : F} (h : x = exp (-m) * sum) :
    x * exp (m - m') = exp (-m') * sum := by
  have hexp : exp (-m) * exp (m - m') = exp (-m') := by
    rw [← exp_add]
    exact congrArg exp (by ring)
  rw [h, mul_right_comm, hexp]

theorem exp_sub (a m : F) : exp (a - m) = exp (-m) * exp a := by
  rw [← exp_add]
  exact congrArg exp (by ring)

-- ============================================================================
-- Softmax
-- ============================================================================

/-- The exponential of a score, which is zero for minus infinity. -/
def weight : WithBot F → F
  | none => 0
  | some a => exp a

@[simp] theorem weight_bot : weight (⊥ : WithBot F) = 0 := rfl

@[simp] theorem weight_coe (a : F) : weight (a : WithBot F) = exp a := rfl

def softmax (n : Nat) (x : Nat → WithBot F) (j : Nat) : F :=
  weight (x j) / ∑ k ∈ Finset.range n, weight (x k)

theorem weight_nonneg (x : WithBot F) : 0 ≤ weight x := by
  cases x with
  | bot => exact le_rfl
  | coe a => exact (exp_pos a).le

/-- The softmax of a row. -/
def softmaxRow (xs : List (WithBot F)) : List F :=
  xs.map fun x => weight x / (xs.map weight).sum

theorem sum_weight_pos {xs : List (WithBot F)} (h : ∃ a : F, ↑a ∈ xs) :
    0 < (xs.map weight).sum := by
  obtain ⟨a, ha⟩ := h
  refine (exp_pos a).trans_le (List.single_le_sum ?_ _ (List.mem_map_of_mem ha))
  intro w hw
  obtain ⟨x, -, rfl⟩ := List.mem_map.mp hw
  exact weight_nonneg x

/-- Only the scores before the `N`-th count where the others are minus infinity. -/
theorem sum_weight_mul {n N : Nat} (hN : N ≤ n) {x : Nat → WithBot F} {s : Nat → F}
    (hs : ∀ j < N, x j = s j) (hbot : ∀ j, N ≤ j → j < n → x j = ⊥) (v : Nat → F) :
    ∑ j ∈ Finset.range n, weight (x j) * v j = ∑ j ∈ Finset.range N, exp (s j) * v j := by
  obtain ⟨m, rfl⟩ := Nat.exists_eq_add_of_le hN
  rw [Finset.sum_range_add]
  have hzero : ∑ j ∈ Finset.range m, weight (x (N + j)) * v (N + j) = 0 := by
    refine Finset.sum_eq_zero fun j hj => ?_
    rw [hbot _ (Nat.le_add_right N j) (Nat.add_lt_add_left (Finset.mem_range.mp hj) N),
      weight_bot, zero_mul]
  rw [hzero, add_zero]
  refine Finset.sum_congr rfl fun j hj => ?_
  rw [hs j (Finset.mem_range.mp hj), weight_coe]

theorem sum_softmax_mul {n N : Nat} (hN : N ≤ n) {x : Nat → WithBot F} {s : Nat → F}
    (hs : ∀ j < N, x j = s j) (hbot : ∀ j, N ≤ j → j < n → x j = ⊥) (v : Nat → F) :
    ∑ j ∈ Finset.range n, softmax n x j * v j =
      (∑ j ∈ Finset.range N, exp (s j) * v j) / ∑ j ∈ Finset.range N, exp (s j) := by
  have htotal := sum_weight_mul hN hs hbot fun _ => 1
  simp only [mul_one] at htotal
  rw [← sum_weight_mul hN hs hbot v, ← htotal, Finset.sum_div]
  exact Finset.sum_congr rfl fun j _ => div_mul_eq_mul_div ..

theorem sum_exp_pos {N : Nat} (hN : 0 < N) (s : Nat → F) :
    0 < ∑ j ∈ Finset.range N, exp (s j) :=
  Finset.sum_pos (fun j _ => exp_pos (s j)) (Finset.nonempty_range_iff.mpr hN.ne')

/-- `exp (x - m)`, which is zero where the score `x` is minus infinity. -/
def expSub : WithBot F → WithBot F → F
  | some a, some b => exp (a - b)
  | _, _ => 0

@[simp] theorem expSub_bot (m : WithBot F) : expSub ⊥ m = 0 := rfl

@[simp] theorem expSub_coe (a b : F) : expSub (a : WithBot F) b = exp (a - b) := rfl

theorem expSub_coe_right (x : WithBot F) (m : F) : expSub x m = exp (-m) * weight x := by
  cases x with
  | bot => exact (mul_zero _).symm
  | coe a => exact exp_sub a m

theorem weight_mul_expSub {x m : WithBot F} (h : x ≤ m) : weight m * expSub x m = weight x := by
  cases x with
  | bot => exact mul_zero _
  | coe a =>
      have hm : m ≠ ⊥ := (lt_of_lt_of_le (WithBot.bot_lt_coe a) h).ne'
      obtain ⟨b, rfl⟩ := WithBot.ne_bot_iff_exists.mp hm
      rw [weight_coe, expSub_coe, weight_coe, ← exp_add, add_sub_cancel]

end ExpField

open ExpField

variable {F : Type} [ExpField F]

/-- A sum over scores relative to the largest one. -/
@[ext] structure Running (F M : Type) [Zero M] where
  max : WithBot F
  sum : M
  empty : max = ⊥ → sum = 0

namespace Running

variable {M : Type} [AddCommGroup M] [Module F M]

/-- The sum that it stands for. -/
def mass (s : Running F M) : M := weight s.max • s.sum

theorem ext_mass {s t : Running F M} (hmax : s.max = t.max) (hmass : s.mass = t.mass) : s = t := by
  refine Running.ext hmax ?_
  unfold mass at hmass
  rw [← hmax] at hmass
  cases hs : s.max with
  | bot => rw [s.empty hs, t.empty (hmax ▸ hs)]
  | coe a =>
      rw [hs] at hmass
      exact (IsUnit.mk0 _ (exp_ne_zero a)).smul_left_cancel.mp hmass

instance : Zero (Running F M) := ⟨⊥, 0, fun _ => rfl⟩

/-- What the scores of both come to. -/
instance : Add (Running F M) where
  add s t :=
    { max := Max.max s.max t.max
      sum := expSub s.max (Max.max s.max t.max) • s.sum +
        expSub t.max (Max.max s.max t.max) • t.sum
      empty := fun h => by
        have hs : s.max = ⊥ := le_bot_iff.mp (h ▸ le_max_left ..)
        have ht : t.max = ⊥ := le_bot_iff.mp (h ▸ le_max_right ..)
        rw [s.empty hs, t.empty ht, smul_zero, smul_zero, add_zero] }

omit [ExpField F] [Module F M] in
@[simp] theorem zero_max : (0 : Running F M).max = ⊥ := rfl

omit [ExpField F] [Module F M] in
@[simp] theorem zero_sum : (0 : Running F M).sum = 0 := rfl

@[simp] theorem add_max (s t : Running F M) : (s + t).max = Max.max s.max t.max := rfl

theorem add_sum (s t : Running F M) :
    (s + t).sum = expSub s.max (Max.max s.max t.max) • s.sum +
      expSub t.max (Max.max s.max t.max) • t.sum := rfl

@[simp] theorem zero_mass : (0 : Running F M).mass = 0 := smul_zero _

@[simp] theorem add_mass (s t : Running F M) : (s + t).mass = s.mass + t.mass := by
  unfold mass
  rw [add_sum, add_max, smul_add, smul_smul, smul_smul, weight_mul_expSub (le_max_left ..),
    weight_mul_expSub (le_max_right ..)]

instance : AddCommMonoid (Running F M) where
  add_assoc s t u := ext_mass (by simp [max_assoc]) (by simp [add_assoc])
  zero_add s := ext_mass (by simp) (by simp)
  add_zero s := ext_mass (by simp) (by simp)
  add_comm s t := ext_mass (by simp [max_comm]) (by simp [add_comm])
  nsmul := nsmulRec

/-- One score with its value. -/
def single (x : WithBot F) (v : M) : Running F M :=
  ⟨x, if x = ⊥ then 0 else v, fun h => if_pos h⟩

omit [Module F M] in
@[simp] theorem single_max (x : WithBot F) (v : M) : (single x v).max = x := rfl

@[simp] theorem single_mass (x : WithBot F) (v : M) : (single x v).mass = weight x • v := by
  cases x with
  | bot => simp [mass, single]
  | coe a => simp [mass, single]

theorem sum_mass (l : List (Running F M)) : l.sum.mass = (l.map mass).sum := by
  induction l with
  | nil => exact zero_mass
  | cons s l ih => rw [List.sum_cons, add_mass, ih, List.map_cons, List.sum_cons]

theorem sum_max (l : List (Running F M)) : l.sum.max = (l.map max).foldr Max.max ⊥ := by
  induction l with
  | nil => rfl
  | cons s l ih => rw [List.sum_cons, add_max, ih, List.map_cons, List.foldr_cons]

/-- The scores of a list, each with its value. -/
def ofList (l : List (WithBot F × M)) : Running F M := (l.map fun s => single s.1 s.2).sum

theorem ofList_append (l l' : List (WithBot F × M)) : ofList (l ++ l') = ofList l + ofList l' := by
  unfold ofList
  rw [List.map_append, List.sum_append]

theorem ofList_perm {l l' : List (WithBot F × M)} (h : l.Perm l') : ofList l = ofList l' :=
  (h.map _).sum_eq

theorem ofList_max (l : List (WithBot F × M)) :
    (ofList l).max = (l.map Prod.fst).foldr Max.max ⊥ := by
  unfold ofList
  rw [sum_max, List.map_map]
  rfl

theorem ofList_mass (l : List (WithBot F × M)) :
    (ofList l).mass = (l.map fun s => weight s.1 • s.2).sum := by
  unfold ofList
  rw [sum_mass, List.map_map]
  exact congrArg List.sum (List.map_congr_left fun s _ => single_mass ..)

theorem le_foldr_max {xs : List (WithBot F)} {x : WithBot F} (h : x ∈ xs) :
    x ≤ xs.foldr Max.max ⊥ := by
  induction xs with
  | nil => exact absurd h List.not_mem_nil
  | cons y ys ih =>
      rcases List.mem_cons.mp h with rfl | h
      · exact le_max_left ..
      · exact (ih h).trans (le_max_right ..)

theorem foldr_max_mem {xs : List (WithBot F)} (h : xs ≠ []) : xs.foldr Max.max ⊥ ∈ xs := by
  induction xs with
  | nil => exact absurd rfl h
  | cons y ys ih =>
      rw [List.foldr_cons]
      rcases eq_or_ne ys [] with rfl | hne
      · simp
      · rcases max_choice y (ys.foldr Max.max ⊥) with hmax | hmax
        · rw [hmax]
          exact List.mem_cons_self
        · rw [hmax]
          exact List.mem_cons_of_mem y (ih hne)

/-- Relative to the largest score, the sum of the exponentials. -/
theorem ofList_sum {l : List (WithBot F × M)} {m : F} (hm : (ofList l).max = m) :
    (ofList l).sum = (l.map fun s => expSub s.1 m • s.2).sum := by
  have hmass := ofList_mass l
  rw [mass, hm, weight_coe] at hmass
  have hexp : exp (-m) * exp m = 1 := by rw [← exp_add, neg_add_cancel, exp_zero]
  calc (ofList l).sum = exp (-m) • exp m • (ofList l).sum := by rw [smul_smul, hexp, one_smul]
    _ = (l.map fun s => exp (-m) • weight s.1 • s.2).sum := by
        rw [hmass, List.smul_sum, List.map_map]
        rfl
    _ = (l.map fun s => expSub s.1 m • s.2).sum := by
        simp only [smul_smul, expSub_coe_right]

/-- What no scores come to, or minus infinities only. -/
theorem ofList_eq_zero {l : List (WithBot F × M)} (h : ∀ s ∈ l, s.1 = ⊥) : ofList l = 0 := by
  refine ext_mass ?_ ?_
  · rw [ofList_max]
    rcases eq_or_ne (l.map Prod.fst) [] with hnil | hne
    · rw [hnil]
      rfl
    · obtain ⟨s, hs, heq⟩ := List.mem_map.mp (foldr_max_mem hne)
      rw [← heq, h s hs]
      rfl
  · rw [ofList_mass, zero_mass]
    refine List.sum_eq_zero fun v hv => ?_
    obtain ⟨s, hs, rfl⟩ := List.mem_map.mp hv
    rw [h s hs, weight_bot, zero_smul]

-- ============================================================================
-- From a lowest score on
-- ============================================================================

theorem sum_finset_max {ι : Type} (t : Finset ι) (f : ι → Running F M) :
    (∑ i ∈ t, f i).max = t.sup fun i => (f i).max := by
  induction t using Finset.cons_induction with
  | empty => rfl
  | cons i t hi ih => rw [Finset.sum_cons, add_max, ih, Finset.sup_cons]

theorem sum_finset_mass {ι : Type} (t : Finset ι) (f : ι → Running F M) :
    (∑ i ∈ t, f i).mass = ∑ i ∈ t, (f i).mass := by
  induction t using Finset.cons_induction with
  | empty => exact zero_mass
  | cons i t hi ih => rw [Finset.sum_cons, add_mass, ih, Finset.sum_cons]

/-- The larger one of a score and `lowest`. -/
def level (lowest : F) (x : WithBot F) : F := Max.max lowest (x.unbotD lowest)

theorem coe_level (lowest : F) (x : WithBot F) :
    ((level lowest x : F) : WithBot F) = Max.max (lowest : WithBot F) x := by
  cases x with
  | bot => simp [level]
  | coe a => exact WithBot.coe_max ..

theorem level_max (lowest : F) (x y : WithBot F) :
    level lowest (Max.max x y) = Max.max (level lowest x) (level lowest y) := by
  refine WithBot.coe_injective ?_
  rw [WithBot.coe_max, coe_level, coe_level, coe_level]
  exact sup_sup_distrib_left ..

theorem level_coe {lowest a : F} (h : lowest ≤ a) : level lowest a = a := max_eq_right h

/-- A sum over scores as a pair: where there are no scores, relative to `lowest`. -/
def above (lowest : F) (s : Running F F) : F × F :=
  (level lowest s.max, exp (-level lowest s.max) * s.mass)

@[simp] theorem above_zero (lowest : F) : above lowest 0 = (lowest, 0) := by
  simp [above, level]

theorem above_single {lowest a : F} (h : lowest ≤ a) (v : F) :
    above lowest (single a v) = (a, v) := by
  have hexp : exp (-a) * exp a = 1 := by rw [← exp_add, neg_add_cancel, exp_zero]
  rw [above, single_max, single_mass, level_coe h, weight_coe, smul_eq_mul, ← mul_assoc,
    hexp, one_mul]

omit [ExpField F] in
theorem sup_coe [LinearOrder F] {n : Nat} {x : Nat → F} {m : F}
    (hm : IsGreatest (x '' Set.Iio n) m) :
    (Finset.range n).sup (fun c => (x c : WithBot F)) = m := by
  obtain ⟨⟨c₀, hc₀, hxc₀⟩, hle⟩ := hm
  refine le_antisymm (Finset.sup_le fun c hc => ?_) ?_
  · exact WithBot.coe_le_coe.mpr (hle ⟨c, Finset.mem_range.mp hc, rfl⟩)
  · exact hxc₀ ▸ Finset.le_sup (f := fun c => (x c : WithBot F)) (Finset.mem_range.mpr hc₀)

theorem above_sum {lowest : F} {n : Nat} {x : Nat → F} (hlow : ∀ c < n, lowest ≤ x c) {m : F}
    (hm : IsGreatest (x '' Set.Iio n) m) (v : Nat → F) :
    above lowest (∑ c ∈ Finset.range n, single (x c) (v c)) =
      (m, ∑ c ∈ Finset.range n, v c * exp (x c - m)) := by
  obtain ⟨c₀, hc₀, hxc₀⟩ := hm.1
  have hmax : (∑ c ∈ Finset.range n, single (x c : WithBot F) (v c)).max = m :=
    (sum_finset_max ..).trans (sup_coe hm)
  rw [above, hmax, level_coe (hxc₀ ▸ hlow c₀ hc₀), sum_finset_mass, Finset.mul_sum]
  refine congrArg (Prod.mk m) (Finset.sum_congr rfl fun c _ => ?_)
  rw [single_mass, weight_coe, smul_eq_mul, exp_sub]
  ring

end Running

end PassionProjects
