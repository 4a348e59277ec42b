/-
  PassionProjects.Lib.Kernels.Loops

  Loops of a thread: over the values below a bound, over every so many of them, and over
  values of which a later one ends the loop.
-/

import Mathlib.Algebra.BigOperators.Group.Finset.Basic
import PassionProjects.Lib.Kernels.Memory

namespace PassionProjects.Kernels

section Loops

open Program

variable {X V R ι σ : Type}

/-- An index belongs to one row and one column. -/
theorem index_inj {n row row' col col' : Nat} (hcol : col < n) (hcol' : col' < n)
    (heq : row * n + col = row' * n + col') : row = row' ∧ col = col' := by
  have hpos := Nat.zero_lt_of_lt hcol
  have hdiv := congrArg (· / n) heq
  have hmod := congrArg (· % n) heq
  simp only [Nat.mul_comm _ n, Nat.mul_add_div hpos, Nat.div_eq_of_lt hcol,
    Nat.div_eq_of_lt hcol', Nat.add_zero] at hdiv
  simp only [Nat.mul_comm _ n, Nat.mul_add_mod, Nat.mod_eq_of_lt hcol, Nat.mod_eq_of_lt hcol']
    at hmod
  exact ⟨hdiv, hmod⟩

-- ============================================================================
-- Counters
-- ============================================================================

/-- The values of a counter that goes up by `step` as long as it is below `bound`. -/
def strided (start bound step : Nat) : List Nat :=
  List.range' start ((bound - start + step - 1) / step) step

theorem mem_strided {start bound step n : Nat} (hstep : 0 < step) (hstart : start < step) :
    n ∈ strided start bound step ↔ n < bound ∧ n % step = start := by
  rw [strided, List.mem_range']
  constructor
  · rintro ⟨i, hi, rfl⟩
    rw [Nat.lt_div_iff_mul_lt hstep] at hi
    refine ⟨by rw [Nat.mul_comm] at hi; omega, ?_⟩
    rw [Nat.add_mul_mod_self_left, Nat.mod_eq_of_lt hstart]
  · rintro ⟨hlt, rfl⟩
    have hdiv := Nat.mod_add_div n step
    refine ⟨n / step, ?_, hdiv.symm⟩
    rw [Nat.lt_div_iff_mul_lt hstep, Nat.mul_comm]
    omega

theorem lt_of_mem_strided {start bound step n : Nat} (hstep : 0 < step)
    (h : n ∈ strided start bound step) : n < bound := by
  rw [strided, List.mem_range'] at h
  obtain ⟨i, hi, rfl⟩ := h
  rw [Nat.lt_div_iff_mul_lt hstep] at hi
  rw [Nat.mul_comm] at hi
  omega

theorem nodup_strided {start bound step : Nat} (hstep : 0 < step) :
    (strided start bound step).Nodup := List.nodup_range' step hstep

/-- The counters that begin at each value below the step take every value once. -/
theorem sum_strided {M : Type} [AddCommMonoid M] (g : Nat → M) {bound step : Nat}
    (hstep : 0 < step) :
    ∑ start ∈ Finset.range step, ((strided start bound step).map g).sum =
      ∑ n ∈ Finset.range bound, g n := by
  have hpart : ∀ start ∈ Finset.range step, ((strided start bound step).map g).sum =
      ∑ n ∈ Finset.range bound with n % step = start, g n := by
    intro start hstart
    rw [← List.sum_toFinset g (nodup_strided hstep)]
    refine Finset.sum_congr (Finset.ext fun n => ?_) fun _ _ => rfl
    rw [List.mem_toFinset, mem_strided hstep (Finset.mem_range.mp hstart), Finset.mem_filter,
      Finset.mem_range]
  rw [Finset.sum_congr rfl hpart]
  exact Finset.sum_fiberwise_of_maps_to
    (fun n _ => Finset.mem_range.mpr (Nat.mod_lt n hstep)) g

/-- Where each value below a bound is taken by its owner and by nobody else, all together take
    each value once. -/
theorem perm_range_of_owner (owner : Nat → Nat) {elements : Nat → List Nat} {n m : Nat}
    (hmem : ∀ t < m, ∀ j, j ∈ elements t ↔ j < n ∧ owner j = t)
    (hnodup : ∀ t < m, (elements t).Nodup) (howner : ∀ j < n, owner j < m) :
    ((List.range m).flatMap elements).Perm (List.range n) := by
  refine (List.perm_ext_iff_of_nodup (List.nodup_flatMap.mpr ⟨fun t ht => ?_, ?_⟩)
    List.nodup_range).mpr fun j => ?_
  · exact hnodup t (List.mem_range.mp ht)
  · refine List.nodup_range.pairwise_of_forall_ne fun t ht t' ht' hne j hj hj' => hne ?_
    have howned := ((hmem t (List.mem_range.mp ht) j).mp hj).2
    exact howned.symm.trans ((hmem t' (List.mem_range.mp ht') j).mp hj').2
  · rw [List.mem_flatMap, List.mem_range]
    constructor
    · rintro ⟨t, ht, hj⟩
      exact ((hmem t (List.mem_range.mp ht) j).mp hj).1
    · intro hj
      exact ⟨owner j, List.mem_range.mpr (howner j hj), (hmem _ (howner j hj) j).mpr ⟨hj, rfl⟩⟩

/-- Where all together take each value once, their sums add up to the whole one. -/
theorem sum_of_perm_range {M : Type} [AddCommMonoid M] {elements : Nat → List Nat} {n m : Nat}
    (h : ((List.range m).flatMap elements).Perm (List.range n)) (g : Nat → M) :
    ∑ t ∈ Finset.range m, ((elements t).map g).sum = ∑ j ∈ Finset.range n, g j := by
  have hsum : (((List.range m).flatMap elements).map g).sum = ((List.range n).map g).sum :=
    (h.map g).sum_eq
  rw [List.map_flatMap, List.flatMap_def, List.sum_flatten, List.map_map] at hsum
  exact hsum

theorem sum_range_mul {M : Type} [AddCommMonoid M] (g : Nat → M) (m n : Nat) :
    ∑ t ∈ Finset.range (m * n), g t = ∑ b ∈ Finset.range m, ∑ i ∈ Finset.range n,
      g (b * n + i) := by
  induction m with
  | zero => simp
  | succ m ih => rw [Nat.succ_mul, Finset.sum_range_add, Finset.sum_range_succ, ih]

theorem foldl_add_eq_sum {M : Type} [AddCommMonoid M] (f : Nat → M) (k : Nat) :
    (List.range k).foldl (fun acc j => acc + f j) 0 = ∑ j ∈ Finset.range k, f j := by
  induction k with
  | zero => rfl
  | succ k ih =>
      rw [List.range_succ, List.foldl_append, ih, Finset.sum_range_succ]
      rfl

/-- A counter that ends its loop at a bound. -/
theorem takeWhile_range {p : Nat → Bool} {n k : Nat} (hk : k ≤ n) (hp : ∀ i < k, p i)
    (hend : k < n → p k = false) : (List.range n).takeWhile p = List.range k := by
  obtain ⟨m, rfl⟩ := Nat.exists_eq_add_of_le hk
  have hsplit : List.range (k + m) = List.range k ++ List.range' k m := by
    rw [List.range_eq_range', List.range_eq_range', ← List.range'_append_1, Nat.zero_add]
  rw [hsplit, List.takeWhile_append_of_pos fun i hi => hp i (List.mem_range.mp hi)]
  cases m with
  | zero => rw [List.range'_zero, List.takeWhile_nil, List.append_nil]
  | succ m =>
      rw [List.range'_succ, List.takeWhile_cons, hend (Nat.lt_add_of_pos_right m.succ_pos)]
      exact List.append_nil _

-- ============================================================================
-- What loops perform
-- ============================================================================

namespace Performs

variable [DecidableEq X] {C : Set X} {μ : X → V}

/-- A loop that carries `f j` before turn `j`. -/
theorem range {n : Nat} {f : Nat → σ} {body : σ → Nat → Program (Access X V) V σ}
    {ws : Nat → List (X × V)}
    (h : ∀ j < n, Performs C (replay ((List.range j).flatMap ws) μ) (body (f j) j) (ws j)
      (.ret (f (j + 1)))) :
    Performs C μ ((List.range n).foldlM body (f 0)) ((List.range n).flatMap ws) (.ret (f n)) := by
  induction n with
  | zero => exact .here
  | succ n ih =>
      rw [List.range_succ, List.foldlM_append, List.flatMap_append]
      refine (ih fun j hj => h j (Nat.lt_succ_of_lt hj)).bind ?_
      simpa using h n n.lt_succ_self

/-- A loop that only reads. -/
theorem range_read {n : Nat} {f : Nat → σ} {body : σ → Nat → Program (Access X V) V σ}
    (h : ∀ j < n, Performs C μ (body (f j) j) [] (.ret (f (j + 1)))) :
    Performs C μ ((List.range n).foldlM body (f 0)) [] (.ret (f n)) := by
  have hnil : (List.range n).flatMap (fun _ => ([] : List (X × V))) = [] := by simp
  rw [← hnil]
  refine range fun j hj => ?_
  rw [show (List.range j).flatMap (fun _ => ([] : List (X × V))) = [] by simp]
  exact h j hj

/-- A loop over a list that only reads. -/
theorem foldlM_read {xs : List ι} {f : σ → ι → σ} {body : σ → ι → Program (Access X V) V σ}
    {s : σ} (h : ∀ s, ∀ x ∈ xs, Performs C μ (body s x) [] (.ret (f s x))) :
    Performs C μ (xs.foldlM body s) [] (.ret (xs.foldl f s)) := by
  induction xs generalizing s with
  | nil => exact .here
  | cons x xs ih =>
      rw [List.foldlM_cons, List.foldl_cons]
      exact (h s x (by simp)).bind_read (ih fun s x' hx' => h s x' (List.mem_cons_of_mem x hx'))

/-- A loop each turn of which has cells of its own, that no other turn writes. -/
theorem forM_own {xs : List ι} (own : ι → Set X) {body : ι → Program (Access X V) V Unit}
    {ws : ι → List (X × V)} (hnodup : xs.Nodup)
    (h : ∀ x ∈ xs, ∀ ν, (∀ y ∈ own x, ν y = μ y) → Performs C ν (body x) (ws x) (.ret ()))
    (hws : ∀ x ∈ xs, ∀ x' ∈ xs, x ≠ x' → ∀ w ∈ ws x, w.1 ∉ own x') :
    Performs C μ (xs.forM body) (xs.flatMap ws) (.ret ()) := by
  induction xs generalizing μ with
  | nil => exact .here
  | cons x xs ih =>
      obtain ⟨hx, hxs⟩ := List.nodup_cons.mp hnodup
      change Performs C μ (body x >>= fun _ => xs.forM body) _ _
      rw [List.flatMap_cons]
      refine (h x (by simp) μ fun _ _ => rfl).bind (ih hxs (fun x' hx' ν hν => ?_)
        fun y hy y' hy' => hws y (List.mem_cons_of_mem x hy) y' (List.mem_cons_of_mem x hy'))
      refine h x' (List.mem_cons_of_mem x hx') ν fun y hy => (hν y hy).trans ?_
      exact replay_of_not_mem (fun w hw heq => hws x (by simp) x' (List.mem_cons_of_mem x hx')
        (ne_of_mem_of_not_mem hx' hx).symm w hw (heq ▸ hy)) μ

/-- A loop none of whose turns writes what a turn reads. -/
theorem forM {xs : List ι} {body : ι → Program (Access X V) V Unit} {ws : ι → List (X × V)}
    (h : ∀ x ∈ xs, ∀ ν, (∀ y ∈ C, ν y = μ y) → Performs C ν (body x) (ws x) (.ret ()))
    (hws : ∀ x ∈ xs, ∀ w ∈ ws x, w.1 ∉ C) :
    Performs C μ (xs.forM body) (xs.flatMap ws) (.ret ()) := by
  induction xs generalizing μ with
  | nil => exact .here
  | cons x xs ih =>
      change Performs C μ (body x >>= fun _ => xs.forM body) _ _
      rw [List.flatMap_cons]
      have hkept : ∀ y ∈ C, replay (ws x) μ y = μ y := fun y hy =>
        replay_of_not_mem (fun w hw heq => hws x (by simp) w hw (heq ▸ hy)) μ
      refine (h x (by simp) μ fun _ _ => rfl).bind (ih (fun x' hx' ν hν => ?_) fun x' hx' =>
        hws x' (List.mem_cons_of_mem x hx'))
      exact h x' (List.mem_cons_of_mem x hx') ν fun y hy => (hν y hy).trans (hkept y hy)

end Performs

end Loops

section Overflow

open Program

variable {X V R : Type}

/-- The value of an expression of type `int`. -/
def evalInt (trap : X) (n : Nat) : Program (Access X V) V Nat :=
  if n < 2 ^ 31 then pure n else load trap >>= fun _ => pure n

theorem evalInt_of_lt {trap : X} {n : Nat} (h : n < 2 ^ 31) :
    (evalInt trap n : Program (Access X V) V Nat) = pure n := if_pos h

/-- `for (int j = start; j < bound; j += step)` -/
def forStrided (trap : X) (start bound step : Nat) (body : Nat → Program (Access X V) V Unit) :
    Program (Access X V) V Unit :=
  (strided start bound step).forM fun j => do
    body j
    let _ ← evalInt trap (j + step)
    pure ()

theorem forM_congr {ι : Type} {xs : List ι} {body body' : ι → Program (Access X V) V Unit}
    (h : ∀ x ∈ xs, body x = body' x) : xs.forM body = xs.forM body' := by
  induction xs with
  | nil => rfl
  | cons x xs ih =>
      show (body x >>= fun _ => xs.forM body) = (body' x >>= fun _ => xs.forM body')
      rw [h x List.mem_cons_self, ih fun x' hx' => h x' (List.mem_cons_of_mem x hx')]

/-- A counter that does not overflow. -/
theorem forStrided_eq {trap : X} {start bound step : Nat}
    {body : Nat → Program (Access X V) V Unit} (hstep : 0 < step) (h : bound + step ≤ 2 ^ 31) :
    forStrided trap start bound step body = (strided start bound step).forM body := by
  refine forM_congr fun j hj => ?_
  have hlt := lt_of_mem_strided hstep hj
  rw [evalInt_of_lt (by omega)]
  simp

end Overflow

end PassionProjects.Kernels
