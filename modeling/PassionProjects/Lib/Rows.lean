/-
  PassionProjects.Lib.Rows

  Rows of a tensor: running sums and their shift by one place, writing through an index,
  sorting together with the index, and rotating planes of it.
-/

import Mathlib.Algebra.BigOperators.Group.List.Basic
import Mathlib.Algebra.BigOperators.Intervals
import Mathlib.Analysis.Complex.Trigonometric
import Mathlib.Data.List.Sort
import Mathlib.Tactic.Ring

namespace PassionProjects.Rows

open List

variable {α β γ : Type}

-- ============================================================================
-- Running sums
-- ============================================================================

section Sums

variable [AddMonoid γ]

/-- The sum up to each place, that place included. -/
def cumsum (acc : γ) : List γ → List γ
  | [] => []
  | x :: xs => (acc + x) :: cumsum (acc + x) xs

/-- The sum up to each place, that place left out. -/
def sumsBefore (acc : γ) : List γ → List γ
  | [] => []
  | x :: xs => acc :: sumsBefore (acc + x) xs

@[simp] theorem length_cumsum (acc : γ) (xs : List γ) : (cumsum acc xs).length = xs.length := by
  induction xs generalizing acc with
  | nil => rfl
  | cons x xs ih => exact congrArg Nat.succ (ih _)

@[simp] theorem length_sumsBefore (acc : γ) (xs : List γ) :
    (sumsBefore acc xs).length = xs.length := by
  induction xs generalizing acc with
  | nil => rfl
  | cons x xs ih => exact congrArg Nat.succ (ih _)

theorem cumsum_shift (acc x : γ) (xs : List γ) :
    acc :: (cumsum acc (x :: xs)).dropLast = sumsBefore acc (x :: xs) := by
  induction xs generalizing acc x with
  | nil => rfl
  | cons y ys ih =>
      show acc :: (acc + x) :: (cumsum (acc + x) (y :: ys)).dropLast = _
      rw [ih]
      rfl

/-- Moved by one place, with what holds of the empty sum at the first one. -/
theorem shift_cumsum (f : γ → β) (acc : γ) (xs : List γ) :
    (((cumsum acc xs).map f).take 1 ++ ((cumsum acc xs).map f).dropLast).set 0 (f acc) =
      (sumsBefore acc xs).map f := by
  cases xs with
  | nil => rfl
  | cons x xs =>
      rw [← cumsum_shift, map_cons, map_dropLast]
      rfl

/-- What stands beside an entry is the sum over the entries before it. -/
theorem mem_zip_sumsBefore (acc : γ) (key : α → β) (f : α → γ) (before : List α) (a : α)
    (after : List α) :
    (key a, acc + (before.map f).sum) ∈
      ((before ++ a :: after).map key).zip (sumsBefore acc ((before ++ a :: after).map f)) := by
  induction before generalizing acc with
  | nil =>
      rw [map_nil, sum_nil, add_zero]
      exact mem_cons_self
  | cons b before ih =>
      rw [map_cons, sum_cons, ← add_assoc]
      exact mem_cons_of_mem _ (ih (acc + f b))

end Sums

-- ============================================================================
-- Writing through an index
-- ============================================================================

/-- `torch.scatter` -/
def scatter (row : List β) (index : List Nat) (src : List β) : List β :=
  (index.zip src).foldl (fun row w => row.set w.1 w.2) row

theorem length_writes (row : List β) (writes : List (Nat × β)) :
    (writes.foldl (fun row w => row.set w.1 w.2) row).length = row.length := by
  induction writes generalizing row with
  | nil => rfl
  | cons w writes ih =>
      rw [foldl_cons, ih]
      exact length_set

theorem getElem?_writes_of_notMem {row : List β} {writes : List (Nat × β)} {i : Nat}
    (h : i ∉ writes.map Prod.fst) :
    (writes.foldl (fun row w => row.set w.1 w.2) row)[i]? = row[i]? := by
  induction writes generalizing row with
  | nil => rfl
  | cons w writes ih =>
      rw [map_cons, mem_cons, not_or] at h
      rw [foldl_cons, ih h.2, getElem?_set_ne (Ne.symm h.1)]

theorem getElem?_writes {row : List β} {writes : List (Nat × β)} {i : Nat} {b : β}
    (hnodup : (writes.map Prod.fst).Nodup) (hi : i < row.length) (h : (i, b) ∈ writes) :
    (writes.foldl (fun row w => row.set w.1 w.2) row)[i]? = some b := by
  induction writes generalizing row with
  | nil => exact absurd h not_mem_nil
  | cons w writes ih =>
      rw [map_cons, nodup_cons] at hnodup
      rw [foldl_cons]
      rcases mem_cons.mp h with rfl | h
      · rw [getElem?_writes_of_notMem hnodup.1, getElem?_set_self hi]
      · exact ih hnodup.2 (by rwa [length_set]) h

@[simp] theorem length_scatter (row : List β) (index : List Nat) (src : List β) :
    (scatter row index src).length = row.length := length_writes row _

/-- Where no index occurs twice, each one gets what is written through it. -/
theorem getElem?_scatter {row : List β} {index : List Nat} {src : List β} {i : Nat} {b : β}
    (hnodup : index.Nodup) (hlen : index.length ≤ src.length) (hi : i < row.length)
    (h : (i, b) ∈ index.zip src) : (scatter row index src)[i]? = some b := by
  refine getElem?_writes ?_ hi h
  rwa [map_fst_zip hlen]

-- ============================================================================
-- Sorting with the index
-- ============================================================================

section Sorting

variable [LinearOrder α]

/-- `torch.sort(row, descending=True)`: the values, each with the place that it had. -/
def sortDescending (row : List α) : List (α × Nat) :=
  row.zipIdx.insertionSort fun a b => b.1 ≤ a.1

theorem sortDescending_perm (row : List α) : (sortDescending row).Perm row.zipIdx :=
  perm_insertionSort _ _

theorem sortDescending_values_perm (row : List α) :
    ((sortDescending row).map Prod.fst).Perm row := by
  have hperm := (sortDescending_perm row).map Prod.fst
  rwa [zipIdx_map_fst] at hperm

theorem sortDescending_index_nodup (row : List α) : ((sortDescending row).map Prod.snd).Nodup := by
  have hperm := (sortDescending_perm row).map Prod.snd
  rw [zipIdx_map_snd] at hperm
  exact hperm.nodup_iff.mpr nodup_range'

theorem sortDescending_values_pairwise {row : List α} (hnodup : row.Nodup) :
    ((sortDescending row).map Prod.fst).Pairwise (· > ·) := by
  have htotal : Std.Total fun a b : α × Nat => b.1 ≤ a.1 := ⟨fun a b => le_total b.1 a.1⟩
  have htrans : IsTrans (α × Nat) fun a b => b.1 ≤ a.1 := ⟨fun a b c hab hbc => hbc.trans hab⟩
  have hsorted : (sortDescending row).Pairwise fun a b => b.1 ≤ a.1 :=
    pairwise_insertionSort _ _
  have hdistinct : ((sortDescending row).map Prod.fst).Pairwise (· ≠ ·) :=
    (sortDescending_values_perm row).nodup_iff.mpr hnodup
  refine (pairwise_map.mpr hsorted).imp₂ (fun a b hle hne => lt_of_le_of_ne hle hne.symm) hdistinct

/-- In a strictly descending list the entries before one are the larger ones. -/
theorem filter_gt_of_pairwise {before after : List α} {a : α}
    (h : (before ++ a :: after).Pairwise (· > ·)) :
    (before ++ a :: after).filter (fun b => a < b) = before := by
  rw [pairwise_append, pairwise_cons] at h
  obtain ⟨-, ⟨hafter, -⟩, hbefore⟩ := h
  have hkeep : before.filter (fun b => a < b) = before :=
    filter_eq_self.mpr fun b hb => decide_eq_true (hbefore b hb a mem_cons_self)
  have hdrop : (a :: after).filter (fun b => a < b) = [] := by
    rw [filter_eq_nil_iff]
    rintro b hb hlt
    rcases mem_cons.mp hb with rfl | hb
    · exact lt_irrefl _ (of_decide_eq_true hlt)
    · exact lt_asymm (hafter b hb) (of_decide_eq_true hlt)
  rw [filter_append, hkeep, hdrop, append_nil]

end Sorting

end PassionProjects.Rows

namespace PassionProjects.Rotations

open Finset

/-- The dot product of the first `n` coordinates. -/
def dot {R : Type} [CommRing R] (n : Nat) (x y : Nat → R) : R := ∑ m ∈ range n, x m * y m

theorem dot_congr {R : Type} [CommRing R] {n : Nat} {x x' y y' : Nat → R}
    (hx : ∀ m < n, x m = x' m) (hy : ∀ m < n, y m = y' m) : dot n x y = dot n x' y' :=
  sum_congr rfl fun m hm => by rw [hx m (mem_range.mp hm), hy m (mem_range.mp hm)]

theorem dot_halves {R : Type} [CommRing R] (half : Nat) (x y : Nat → R) :
    dot (half + half) x y =
      ∑ m ∈ range half, (x m * y m + x (half + m) * y (half + m)) := by
  unfold dot
  rw [sum_range_add, ← sum_add_distrib]

noncomputable def turned (half : Nat) (angle : Nat → ℝ) (x : Nat → ℝ) (m : Nat) : ℝ :=
  if m < half then x m * (angle m).cos - x (half + m) * (angle m).sin
  else x m * (angle (m - half)).cos + x (m - half) * (angle (m - half)).sin

variable {half : Nat} {a b : Nat → ℝ} {x y : Nat → ℝ} {m : Nat}

theorem turned_first (hm : m < half) :
    turned half a x m = x m * (a m).cos - x (half + m) * (a m).sin := if_pos hm

theorem turned_second :
    turned half a x (half + m) = x (half + m) * (a m).cos + x m * (a m).sin := by
  unfold turned
  rw [if_neg (Nat.not_lt.mpr (Nat.le_add_right half m)), Nat.add_sub_cancel_left]

/-- Only the differences of the angles are seen by the dot product. -/
theorem dot_turned (half : Nat) (a b x y : Nat → ℝ) :
    dot (half + half) (turned half a x) (turned half b y) =
      ∑ m ∈ range half, ((x m * y m + x (half + m) * y (half + m)) * (a m - b m).cos +
        (x m * y (half + m) - x (half + m) * y m) * (a m - b m).sin) := by
  rw [dot_halves]
  refine sum_congr rfl fun m hm => ?_
  have hm := mem_range.mp hm
  rw [turned_first hm, turned_first hm, turned_second, turned_second, Real.cos_sub, Real.sin_sub]
  ring

theorem dot_turned_congr {a' b' : Nat → ℝ} (h : ∀ m < half, a m - b m = a' m - b' m) :
    dot (half + half) (turned half a x) (turned half b y) =
      dot (half + half) (turned half a' x) (turned half b' y) := by
  rw [dot_turned, dot_turned]
  exact sum_congr rfl fun m hm => by rw [h m (mem_range.mp hm)]

theorem dot_turned_same (half : Nat) (a x y : Nat → ℝ) :
    dot (half + half) (turned half a x) (turned half a y) = dot (half + half) x y := by
  rw [dot_turned, dot_halves]
  refine sum_congr rfl fun m _ => ?_
  rw [sub_self, Real.cos_zero, Real.sin_zero, mul_one, mul_zero, add_zero]

end PassionProjects.Rotations
