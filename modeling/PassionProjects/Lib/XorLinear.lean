/-
  PassionProjects.Lib.XorLinear

  Maps on words that distribute over exclusive or.  Where `f^[d] v` is a combination of
  `v, f v, …, f^[d-1] v`, any iterate is one too, and its coefficients are those of a power
  of `x` modulo a polynomial over the field with two elements: so iterates as far out as
  the period are computed in a few steps.  Polynomials are numbers, a bit a coefficient.
-/

import Mathlib.Algebra.Order.Ring.Nat
import Mathlib.Dynamics.PeriodicPts.Lemmas

namespace PassionProjects.XorLinear

variable {w : Nat}

/-- `f` distributes over exclusive or. -/
structure Linear (f : BitVec w → BitVec w) : Prop where
  xor : ∀ a b, f (a ^^^ b) = f a ^^^ f b

/-- The combination of the first `n` iterates of `v` by the bits of `q`. -/
def combine (f : BitVec w → BitVec w) (v : BitVec w) : Nat → Nat → BitVec w
  | 0, _ => 0
  | n + 1, q => (if q % 2 = 1 then v else 0) ^^^ f (combine f v n (q / 2))

/-- A polynomial of degree less than `d` times `x`, where `x ^ d` is `p`. -/
def timesX (d p a : Nat) : Nat := if 2 * a < 2 ^ d then 2 * a else (2 * a - 2 ^ d) ^^^ p

/-- A product, by the first `n` coefficients of `a`. -/
def mulMod (d p : Nat) : Nat → Nat → Nat → Nat
  | 0, _, _ => 0
  | n + 1, a, b => (if a % 2 = 1 then b else 0) ^^^ timesX d p (mulMod d p n (a / 2) b)

/-- A power of `x`, for an exponent below `2 ^ k`. -/
def powX (d p : Nat) : Nat → Nat → Nat
  | 0, _ => 1
  | k + 1, e =>
      let square := mulMod d p d (powX d p k (e / 2)) (powX d p k (e / 2))
      if e % 2 = 1 then timesX d p square else square

variable {f : BitVec w → BitVec w} {v : BitVec w} {d p : Nat}

theorem combine_succ (n q : Nat) : combine f v (n + 1) q =
    (if q % 2 = 1 then v else 0) ^^^ f (combine f v n (q / 2)) := rfl

namespace Linear

theorem zero (hf : Linear f) : f 0 = 0 := by
  have h := hf.xor 0 0
  rwa [BitVec.xor_self, BitVec.xor_self] at h

/-- A word with its image. -/
theorem add_self (hf : Linear f) : Linear fun a => a ^^^ f a := by
  constructor
  intro a b
  rw [hf.xor]
  ac_rfl

theorem combine_zero (hf : Linear f) (n : Nat) : combine f v n 0 = 0 := by
  induction n with
  | zero => rfl
  | succ n ih =>
      unfold combine
      rw [Nat.zero_div, ih, hf.zero]
      simp

theorem combine_xor (hf : Linear f) (n a b : Nat) :
    combine f v n (a ^^^ b) = combine f v n a ^^^ combine f v n b := by
  induction n generalizing a b with
  | zero => exact BitVec.xor_self.symm
  | succ n ih =>
      rw [combine, combine, combine, Nat.xor_div_two, ih, hf.xor]
      have hbit : (if (a ^^^ b) % 2 = 1 then v else 0) =
          (if a % 2 = 1 then v else 0) ^^^ (if b % 2 = 1 then v else 0) := by
        have hodd : (a ^^^ b) % 2 = 1 ↔ ¬ (a % 2 = 1 ↔ b % 2 = 1) := Nat.xor_mod_two_eq_one
        by_cases ha : a % 2 = 1
        · by_cases hb : b % 2 = 1
          · rw [if_neg (fun h => hodd.mp h (iff_of_true ha hb)), if_pos ha, if_pos hb]
            exact BitVec.xor_self.symm
          · rw [if_pos (hodd.mpr fun h => hb (h.mp ha)), if_pos ha, if_neg hb]
            exact BitVec.xor_zero.symm
        · by_cases hb : b % 2 = 1
          · rw [if_pos (hodd.mpr fun h => ha (h.mpr hb)), if_neg ha, if_pos hb]
            exact BitVec.zero_xor.symm
          · rw [if_neg (fun h => hodd.mp h (iff_of_false ha hb)), if_neg ha, if_neg hb]
            exact BitVec.xor_self.symm
      rw [hbit]
      ac_rfl

theorem combine_double (n a : Nat) : combine f v (n + 1) (2 * a) = f (combine f v n a) := by
  have hdiv : 2 * a / 2 = a := by omega
  rw [combine, if_neg (by omega), hdiv]
  exact BitVec.zero_xor

/-- The top coefficient. -/
theorem combine_top (hf : Linear f) {n r : Nat} (hr : r < 2 ^ n) :
    combine f v (n + 1) (2 ^ n + r) = f^[n] v ^^^ combine f v n r := by
  induction n generalizing r with
  | zero =>
      obtain rfl : r = 0 := Nat.lt_one_iff.mp hr
      have hzero : f (combine f v 0 (1 / 2)) = 0 := hf.zero
      show v ^^^ f (combine f v 0 (1 / 2)) = v ^^^ 0
      rw [hzero]
  | succ n ih =>
      have hpow : 2 ^ (n + 1) = 2 * 2 ^ n := Nat.pow_succ'
      have hdiv : (2 ^ (n + 1) + r) / 2 = 2 ^ n + r / 2 := by omega
      have hmod : (2 ^ (n + 1) + r) % 2 = r % 2 := by omega
      rw [combine, hdiv, hmod, ih (by omega), hf.xor, combine_succ n r,
        Function.iterate_succ_apply']
      ac_rfl

/-- The top coefficient is zero. -/
theorem combine_short (hf : Linear f) {n q : Nat} (hq : q < 2 ^ n) :
    combine f v (n + 1) q = combine f v n q := by
  induction n generalizing q with
  | zero =>
      obtain rfl : q = 0 := Nat.lt_one_iff.mp hq
      rw [hf.combine_zero, hf.combine_zero]
  | succ n ih =>
      have hpow : 2 ^ (n + 1) = 2 * 2 ^ n := Nat.pow_succ'
      rw [combine, ih (by omega), combine_succ n q]

theorem apply_combine (hf : Linear f) (n q : Nat) :
    f (combine f v n q) = combine f (f v) n q := by
  induction n generalizing q with
  | zero => exact hf.zero
  | succ n ih =>
      rw [combine, hf.xor, ih, combine]
      congr 1
      split
      · rfl
      · exact hf.zero

/-- Iterates commute with combinations. -/
theorem iterate_combine (hf : Linear f) (m n q : Nat) :
    f^[m] (combine f v n q) = combine f (f^[m] v) n q := by
  induction m generalizing v with
  | zero => rfl
  | succ m ih =>
      rw [Function.iterate_succ_apply, hf.apply_combine, ih, Function.iterate_succ_apply]

end Linear

theorem timesX_lt (hp : p < 2 ^ d) {a : Nat} (ha : a < 2 ^ d) : timesX d p a < 2 ^ d := by
  unfold timesX
  split
  · assumption
  · exact Nat.xor_lt_two_pow (by omega) hp

theorem mulMod_lt (hp : p < 2 ^ d) {n a b : Nat} (hb : b < 2 ^ d) :
    mulMod d p n a b < 2 ^ d := by
  induction n generalizing a with
  | zero => exact Nat.two_pow_pos d
  | succ n ih =>
      rw [mulMod]
      refine Nat.xor_lt_two_pow ?_ (timesX_lt hp ih)
      split
      · exact hb
      · exact Nat.two_pow_pos d

namespace Linear

variable (hf : Linear f) (hp : p < 2 ^ d) (hd : f^[d] v = combine f v d p)
include hf hd

theorem combine_timesX {a : Nat} (ha : a < 2 ^ d) :
    combine f v d (timesX d p a) = f (combine f v d a) := by
  rw [← combine_double (f := f) (v := v) d a]
  unfold timesX
  split
  · rename_i hlt
    exact (hf.combine_short hlt).symm
  · rename_i hge
    have hsplit : 2 * a = 2 ^ d + (2 * a - 2 ^ d) := by omega
    rw [hsplit, hf.combine_top (by omega), hd, Nat.add_sub_cancel_left, hf.combine_xor,
      BitVec.xor_comm]

include hp

theorem combine_mulMod {n a b : Nat} (hb : b < 2 ^ d) :
    combine f v d (mulMod d p n a b) = combine f (combine f v d b) n a := by
  induction n generalizing a with
  | zero => exact hf.combine_zero d
  | succ n ih =>
      rw [mulMod, hf.combine_xor, combine_timesX hf hd (mulMod_lt hp hb), ih, combine]
      congr 1
      split
      · rfl
      · exact hf.combine_zero d

/-- An iterate is the combination by a power of `x`. -/
theorem iterate_eq (hpos : 0 < d) {k e : Nat} (he : e < 2 ^ k) :
    powX d p k e < 2 ^ d ∧ f^[e] v = combine f v d (powX d p k e) := by
  induction k generalizing e with
  | zero =>
      obtain rfl : e = 0 := Nat.lt_one_iff.mp he
      refine ⟨Nat.one_lt_two_pow hpos.ne', ?_⟩
      obtain ⟨n, rfl⟩ := Nat.exists_eq_succ_of_ne_zero hpos.ne'
      rw [powX, combine, if_pos rfl, hf.combine_zero, hf.zero]
      exact BitVec.xor_zero.symm
  | succ k ih =>
      have hpow : 2 ^ (k + 1) = 2 * 2 ^ k := Nat.pow_succ'
      obtain ⟨hlt, hhalf⟩ := ih (e := e / 2) (by omega)
      have hsquare : f^[e / 2 + e / 2] v =
          combine f v d (mulMod d p d (powX d p k (e / 2)) (powX d p k (e / 2))) := by
        rw [combine_mulMod hf hp hd hlt, Function.iterate_add_apply, hhalf, hf.iterate_combine,
          hhalf]
      have hsquare_lt := mulMod_lt (n := d) (a := powX d p k (e / 2)) hp hlt
      unfold powX
      dsimp only
      split
      · refine ⟨timesX_lt hp hsquare_lt, ?_⟩
        have hodd : e = (e / 2 + e / 2).succ := by omega
        rw [combine_timesX hf hd hsquare_lt, ← hsquare,
          ← Function.iterate_succ_apply' f, ← hodd]
      · refine ⟨hsquare_lt, ?_⟩
        have heven : e = e / 2 + e / 2 := by omega
        rw [← hsquare, ← heven]

end Linear

/-- A point that comes back after `n` steps, and not after `n / q` steps for any prime `q`. -/
theorem minimalPeriod_eq {α : Type} {g : α → α} {x : α} {n : Nat}
    (hback : g^[n] x = x) (hprime : ∀ q, q.Prime → q ∣ n → g^[n / q] x ≠ x) :
    Function.minimalPeriod g x = n := by
  have hdvd : Function.minimalPeriod g x ∣ n :=
    Function.IsPeriodicPt.minimalPeriod_dvd (f := g) (n := n) hback
  by_contra hne
  obtain ⟨c, hc⟩ := hdvd
  have hcone : c ≠ 1 := fun h => hne (by rw [hc, h, Nat.mul_one])
  obtain ⟨q, hq, k, rfl⟩ := Nat.exists_prime_and_dvd hcone
  refine hprime q hq ⟨Function.minimalPeriod g x * k, by rw [hc]; ac_rfl⟩ ?_
  have hdiv : n / q = Function.minimalPeriod g x * k :=
    Nat.div_eq_of_eq_mul_right hq.pos (by rw [hc]; ac_rfl)
  rw [hdiv]
  exact (Function.isPeriodicPt_minimalPeriod g x).mul_const k

end PassionProjects.XorLinear
