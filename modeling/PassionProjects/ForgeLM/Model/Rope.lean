/-
  PassionProjects.ForgeLM.Model.Rope

  Rotary position embeddings (`model/rope.py`) over the reals.
-/

import Mathlib.Analysis.SpecialFunctions.Pow.Real
import PassionProjects.ForgeLM.Text
import PassionProjects.Lib.Rows

namespace PassionProjects.ForgeLM

open Rotations

/-- A tensor of shape `(..., seq_len, head_dim)`; the dimensions before the last two are
    the index `ι`. Its entries are those within the shape. -/
structure Heads (ι F : Type) where
  seqLen : Nat
  headDim : Nat
  entry : ι → Nat → Nat → F

namespace Heads

variable {ι F : Type}

/-- `x[..., start:stop, :]` -/
def slice (x : Heads ι F) (start stop : Nat) : Heads ι F :=
  { x with
    seqLen := min stop x.seqLen - min start x.seqLen
    entry := fun l p => x.entry l (start + p) }

/-- `torch.cat([x, y], dim=-1)` -/
def cat (x y : Heads ι F) : Heads ι F :=
  { x with
    headDim := x.headDim + y.headDim
    entry := fun l p m => if m < x.headDim then x.entry l p m else y.entry l p (m - x.headDim) }

/-- `x.chunk(2, dim=-1)`: a last dimension of one makes a single chunk. -/
def chunk (x : Heads ι F) : Except Error (Heads ι F × Heads ι F) :=
  let size := (x.headDim + 1) / 2
  if x.headDim = 1 then
    .error (.valueError "not enough values to unpack (expected 2, got 1)")
  else
    .ok ({ x with headDim := size },
      { x with
        headDim := x.headDim - size
        entry := fun l p m => x.entry l p (size + m) })

def map (f : F → F) (x : Heads ι F) : Heads ι F :=
  { x with entry := fun l p m => f (x.entry l p m) }

theorem cat_first {x : Heads ι F} {n : Nat} (hn : x.headDim = n) (y : Heads ι F) {l : ι}
    {p m : Nat} (hm : m < n) : (x.cat y).entry l p m = x.entry l p m := if_pos (hn ▸ hm)

theorem cat_second {x : Heads ι F} {n : Nat} (hn : x.headDim = n) (y : Heads ι F) (l : ι)
    (p m : Nat) : (x.cat y).entry l p (n + m) = y.entry l p m := by
  subst hn
  show ite _ _ _ = _
  rw [if_neg (Nat.not_lt.mpr (Nat.le_add_right ..)), Nat.add_sub_cancel_left]

end Heads

/-- `precompute_rope_angles`; `repr` is how Python writes a float. -/
noncomputable def precomputeRopeAngles (repr : ℝ → String) (headDim maxSeqLen : Int) (theta : ℝ) :
    Except Error (Heads Unit ℝ × Heads Unit ℝ) :=
  if headDim ≤ 0 ∨ headDim % 2 ≠ 0 then
    .error (.valueError ("head_dim must be a positive even number, got " ++ toString headDim))
  else if maxSeqLen ≤ 0 then
    .error (.valueError ("max_seq_len must be positive, got " ++ toString maxSeqLen))
  else if theta ≤ 0 then
    .error (.valueError ("theta must be positive, got " ++ repr theta))
  else
    let half := (headDim / 2).toNat
    let exponents : Nat → ℝ := fun m => m * (2 : Nat) / headDim
    let freqs := fun m => 1 / theta ^ exponents m
    let angles : Heads Unit ℝ := ⟨maxSeqLen.toNat, half, fun _ p m => p * freqs m⟩
    let cos := angles.map Real.cos
    let sin := angles.map Real.sin
    .ok (cos.cat cos, sin.cat sin)

variable {ι F : Type} [CommRing F]

/-- `rotate_half` -/
def rotateHalf (x : Heads ι F) : Except Error (Heads ι F) := do
  let (x1, x2) ← x.chunk
  return (x2.map (- ·)).cat x1

/-- `apply_rope`. The shape of `sin` is that of `cos`. -/
def applyRope (x : Heads ι F) (cos sin : Heads Unit F) : Except Error (Heads ι F) :=
  if x.headDim ≠ cos.headDim then
    .error (.valueError ("head_dim mismatch: x has " ++ toString x.headDim ++
      ", cos/sin table has " ++ toString cos.headDim))
  else if x.seqLen ≠ cos.seqLen then
    .error (.valueError ("seq_len mismatch: x has " ++ toString x.seqLen ++
      ", cos/sin table has " ++ toString cos.seqLen))
  else do
    let rotated ← rotateHalf x
    return { x with
      entry := fun l p m =>
        x.entry l p m * cos.entry () p m + rotated.entry l p m * sin.entry () p m }

-- ============================================================================
-- The tables
-- ============================================================================

/-- The angle at a position in a plane. -/
noncomputable def ropeAngle (headDim : Int) (theta : ℝ) (p m : Nat) : ℝ :=
  p * (1 / theta ^ ((m : ℝ) * (2 : Nat) / headDim))

/-- The tables of the sines and cosines, the same in both halves. -/
structure RopeTables (headDim : Int) (theta : ℝ) (half maxLen : Nat) (cos sin : Heads Unit ℝ) :
    Prop where
  headDim_eq : cos.headDim = half + half
  seqLen_eq : cos.seqLen = maxLen
  sin_seqLen_eq : sin.seqLen = maxLen
  cos_first {p m : Nat} : m < half → cos.entry () p m = (ropeAngle headDim theta p m).cos
  sin_first {p m : Nat} : m < half → sin.entry () p m = (ropeAngle headDim theta p m).sin
  cos_second (p m : Nat) : cos.entry () p (half + m) = (ropeAngle headDim theta p m).cos
  sin_second (p m : Nat) : sin.entry () p (half + m) = (ropeAngle headDim theta p m).sin

theorem precompute_tables (repr : ℝ → String) {half maxLen : Nat} {theta : ℝ}
    (hhalf : 0 < half) (hlen : 0 < maxLen) (htheta : 0 < theta) :
    ∃ cos sin, precomputeRopeAngles repr (half + half : Nat) maxLen theta = .ok (cos, sin) ∧
      RopeTables (half + half : Nat) theta half maxLen cos sin := by
  have hdim : ((half + half : Nat) : Int) / 2 = half := by omega
  unfold precomputeRopeAngles
  rw [if_neg (by omega), if_neg (by omega), if_neg htheta.not_ge]
  refine ⟨_, _, rfl, ?_⟩
  simp only [hdim, Int.toNat_natCast]
  exact
    { headDim_eq := rfl
      seqLen_eq := rfl
      sin_seqLen_eq := rfl
      cos_first := fun hm => Heads.cat_first rfl _ hm
      sin_first := fun hm => Heads.cat_first rfl _ hm
      cos_second := Heads.cat_second rfl _ ()
      sin_second := Heads.cat_second rfl _ () }

-- ============================================================================
-- Rotation of the planes
-- ============================================================================

/-- Coordinates `m` and `half + m` are each other's partners. -/
theorem rotateHalf_entry {x : Heads ι F} {half : Nat} (hx : x.headDim = half + half)
    (hhalf : 0 < half) :
    ∃ y, rotateHalf x = .ok y ∧
      ∀ l p m, (m < half → y.entry l p m = -x.entry l p (half + m)) ∧
        y.entry l p (half + m) = x.entry l p m := by
  have hsize : (x.headDim + 1) / 2 = half := by omega
  have hrest : x.headDim - half = half := by omega
  unfold rotateHalf Heads.chunk
  rw [if_neg (by omega), hsize]
  exact ⟨_, rfl, fun l p m =>
    ⟨fun hm => Heads.cat_first hrest _ hm, Heads.cat_second hrest _ l p m⟩⟩

/-- With a slice of the tables, each vector is turned by the angles of its position. -/
theorem applyRope_turned {headDim : Int} {theta : ℝ} {half maxLen start stop : Nat}
    {cos sin : Heads Unit ℝ} (htables : RopeTables headDim theta half maxLen cos sin)
    (hhalf : 0 < half) {x : Heads ι ℝ} (hx : x.headDim = half + half)
    (hstop : stop ≤ maxLen) (hlen : start + x.seqLen = stop) :
    ∃ y, applyRope x (cos.slice start stop) (sin.slice start stop) = .ok y ∧
      y.seqLen = x.seqLen ∧ y.headDim = x.headDim ∧
      ∀ l p, ∀ m < half + half, y.entry l p m =
        turned half (ropeAngle headDim theta (start + p)) (x.entry l p) m := by
  obtain ⟨r, hr, hentry⟩ := rotateHalf_entry hx hhalf
  have hdim : x.headDim = (cos.slice start stop).headDim := hx.trans htables.headDim_eq.symm
  have hseq : x.seqLen = (cos.slice start stop).seqLen := by
    show _ = min stop cos.seqLen - min start cos.seqLen
    rw [htables.seqLen_eq]
    omega
  unfold applyRope
  rw [if_neg (not_not.mpr hdim), if_neg (not_not.mpr hseq), hr]
  refine ⟨_, rfl, rfl, rfl, fun l p m hm => ?_⟩
  show x.entry l p m * cos.entry () (start + p) m + r.entry l p m * sin.entry () (start + p) m = _
  by_cases hfirst : m < half
  · rw [htables.cos_first hfirst, htables.sin_first hfirst, (hentry l p m).1 hfirst,
      turned_first hfirst, neg_mul, sub_eq_add_neg]
  · obtain ⟨m, rfl⟩ := Nat.exists_eq_add_of_le (Nat.not_lt.mp hfirst)
    rw [htables.cos_second, htables.sin_second, (hentry l p m).2, turned_second]

-- ============================================================================
-- Scores
-- ============================================================================

/-- One vector, `x.unsqueeze(0)`. -/
def Heads.ofVector (headDim : Nat) (x : Nat → F) : Heads Unit F := ⟨1, headDim, fun _ _ m => x m⟩

/-- A vector of the tables' width, rotated for a position. -/
def ropeAt (cos sin : Heads Unit F) (x : Nat → F) (p : Nat) : Except Error (Heads Unit F) :=
  applyRope (.ofVector cos.headDim x) (cos.slice p (p + 1)) (sin.slice p (p + 1))

/-- The dot product of a query at a position and a key at another. -/
def ropeScore (cos sin : Heads Unit F) (q : Nat → F) (i : Nat) (k : Nat → F) (j : Nat) :
    Except Error F := do
  let rq ← ropeAt cos sin q i
  let rk ← ropeAt cos sin k j
  return dot cos.headDim (rq.entry () 0) (rk.entry () 0)

section

variable {headDim : Int} {theta : ℝ} {half maxLen : Nat} {cos sin : Heads Unit ℝ}

theorem ropeAt_turned (htables : RopeTables headDim theta half maxLen cos sin) (hhalf : 0 < half)
    (x : Nat → ℝ) {p : Nat} (hp : p < maxLen) :
    ∃ y, ropeAt cos sin x p = .ok y ∧ ∀ m < half + half,
      y.entry () 0 m = turned half (ropeAngle headDim theta p) x m := by
  obtain ⟨y, hy, -, -, hentry⟩ := applyRope_turned htables hhalf
    (x := .ofVector cos.headDim x) htables.headDim_eq (Nat.succ_le_of_lt hp) rfl
  exact ⟨y, hy, hentry () 0⟩

theorem ropeScore_eq (htables : RopeTables headDim theta half maxLen cos sin) (hhalf : 0 < half)
    (q k : Nat → ℝ) {i j : Nat} (hi : i < maxLen) (hj : j < maxLen) :
    ropeScore cos sin q i k j = .ok (dot (half + half)
      (turned half (ropeAngle headDim theta i) q) (turned half (ropeAngle headDim theta j) k)) := by
  obtain ⟨rq, hrq, hq⟩ := ropeAt_turned htables hhalf q hi
  obtain ⟨rk, hrk, hk⟩ := ropeAt_turned htables hhalf k hj
  unfold ropeScore
  rw [hrq, hrk, htables.headDim_eq]
  exact congrArg Except.ok (dot_congr hq hk)

end

theorem ropeAngle_sub (headDim : Int) (theta : ℝ) (i j s m : Nat) :
    ropeAngle headDim theta i m - ropeAngle headDim theta j m =
      ropeAngle headDim theta (i + s) m - ropeAngle headDim theta (j + s) m := by
  unfold ropeAngle
  push_cast
  ring

/-- The score of two positions is that of any two positions as far apart, and rotations
    for one position leave the dot product as it is. Coordinate `m` turns together with
    coordinate `headDim / 2 + m`. -/
theorem rope_score_relative (repr : ℝ → String) {headDim maxSeqLen : Int} {theta : ℝ}
    (hdim : 0 < headDim) (heven : headDim % 2 = 0) (hlen : 0 < maxSeqLen) (htheta : 0 < theta) :
    ∃ cos sin, precomputeRopeAngles repr headDim maxSeqLen theta = .ok (cos, sin) ∧
      (∀ q k : Nat → ℝ, ∀ i j s : Nat, (i + s : Nat) < maxSeqLen → (j + s : Nat) < maxSeqLen →
        ∃ score, ropeScore cos sin q i k j = .ok score ∧
          ropeScore cos sin q (i + s) k (j + s) = .ok score) ∧
      (∀ q k : Nat → ℝ, ∀ i : Nat, i < maxSeqLen →
        ropeScore cos sin q i k i = .ok (dot headDim.toNat q k)) ∧
      ∀ x : Nat → ℝ, ∀ p : Nat, p < maxSeqLen → ∃ y, ropeAt cos sin x p = .ok y ∧
        ∀ m < (headDim / 2).toNat,
          y.entry () 0 m = x m * (ropeAngle headDim theta p m).cos -
            x ((headDim / 2).toNat + m) * (ropeAngle headDim theta p m).sin ∧
          y.entry () 0 ((headDim / 2).toNat + m) =
            x ((headDim / 2).toNat + m) * (ropeAngle headDim theta p m).cos +
              x m * (ropeAngle headDim theta p m).sin := by
  obtain ⟨half, rfl⟩ : ∃ half : Nat, headDim = (half + half : Nat) :=
    ⟨(headDim / 2).toNat, by omega⟩
  obtain ⟨maxLen, rfl⟩ := Int.eq_ofNat_of_zero_le hlen.le
  have hhalf : 0 < half := by omega
  have hmax : 0 < maxLen := by omega
  have hcoe : (((half + half : Nat) : Int) / 2).toNat = half := by omega
  obtain ⟨cos, sin, hcode, htables⟩ := precompute_tables repr hhalf hmax htheta
  rw [hcoe, Int.toNat_natCast]
  refine ⟨cos, sin, hcode, fun q k i j s hi hj => ?_, fun q k i hi => ?_, fun x p hp => ?_⟩
  · refine ⟨_, ropeScore_eq htables hhalf q k (by omega) (by omega), ?_⟩
    rw [ropeScore_eq htables hhalf q k (by omega) (by omega)]
    exact congrArg Except.ok
      (dot_turned_congr fun m _ => ropeAngle_sub (half + half : Nat) theta i j s m).symm
  · rw [ropeScore_eq htables hhalf q k (by omega) (by omega), dot_turned_same]
  · obtain ⟨y, hy, hentry⟩ := ropeAt_turned htables hhalf x (p := p) (by omega)
    refine ⟨y, hy, fun m hm => ⟨?_, ?_⟩⟩
    · rw [hentry m (by omega), turned_first hm]
    · rw [hentry (half + m) (by omega), turned_second]

theorem rope_score_relative_eight :
    ∃ cos sin, precomputeRopeAngles (fun _ => "10000.0") 8 64 10000 = .ok (cos, sin) ∧
      (∀ q k : Nat → ℝ, ∀ i j s : Nat, (i + s : Nat) < (64 : Int) → (j + s : Nat) < (64 : Int) →
        ∃ score, ropeScore cos sin q i k j = .ok score ∧
          ropeScore cos sin q (i + s) k (j + s) = .ok score) := by
  obtain ⟨cos, sin, hcode, hrelative, -⟩ := rope_score_relative (fun _ => "10000.0")
    (by decide : (0 : Int) < 8) (by decide) (by decide : (0 : Int) < 64)
    (by norm_num : (0 : ℝ) < 10000)
  exact ⟨cos, sin, hcode, hrelative⟩

end PassionProjects.ForgeLM
