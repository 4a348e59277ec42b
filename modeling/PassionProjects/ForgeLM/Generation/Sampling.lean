/-
  PassionProjects.ForgeLM.Generation.Sampling

  The nucleus filter of `generation/sampling.py`, with softmax and sums exact.
-/

import Mathlib.Analysis.SpecialFunctions.Log.Basic
import Mathlib.Data.List.TakeWhile
import PassionProjects.ForgeLM.Text
import PassionProjects.Lib.Exponential
import PassionProjects.Lib.Results
import PassionProjects.Lib.Rows
import PassionProjects.Lib.Sorted

namespace PassionProjects.ForgeLM

open ExpField Rows

variable {F : Type} [ExpField F]

/-- `_top_p_filter` on one row of the batch: all of its operations are along the last
    dimension. -/
def topPFilterRow (logits : List (WithBot F)) (topP : F) : Except Error (List (WithBot F)) :=
  let sorted := sortDescending logits
  let sortedLogits := sorted.map Prod.fst
  let sortedIdx := sorted.map Prod.snd
  let sortedProbs := softmaxRow sortedLogits
  let cumulative := cumsum 0 sortedProbs
  let sortedRemove := cumulative.map fun c => decide (topP < c)
  -- `sorted_remove[:, 1:] = sorted_remove[:, :-1].clone()`
  let sortedRemove := sortedRemove.take 1 ++ sortedRemove.dropLast
  if sortedRemove.length = 0 then
    .error .indexError
  else
    let sortedRemove := sortedRemove.set 0 false
    let remove := scatter (List.replicate logits.length false) sortedIdx sortedRemove
    .ok (List.zipWith (fun logit removed => if removed then ⊥ else logit) logits remove)

/-- `_top_p_filter` -/
def topPFilter (logits : List (List (WithBot F))) (topP : F) :
    Except Error (List (List (WithBot F))) :=
  logits.mapM fun row => topPFilterRow row topP

-- ============================================================================
-- The nucleus
-- ============================================================================

/-- The probability of some tokens of a row. -/
def probability (row tokens : List (WithBot F)) : F :=
  (tokens.map fun x => weight x / (row.map weight).sum).sum

/-- The smallest prefix of the tokens by descending probability whose probability is at
    least `topP`. -/
structure IsNucleus (row : List (WithBot F)) (topP : F) (kept : List (WithBot F)) : Prop where
  leads : ∃ sorted, sorted.Perm row ∧ sorted.Pairwise (· > ·) ∧ kept <+: sorted
  reaches : topP ≤ probability row kept
  smallest : ∀ shorter, shorter <+: kept → shorter ≠ kept → probability row shorter < topP

/-- The row with every logit outside of its nucleus at minus infinity. -/
def KeepsNucleus (topP : F) (row out : List (WithBot F)) : Prop :=
  ∃ kept, IsNucleus row topP kept ∧ out = row.map fun x => if x ∈ kept then x else ⊥

/-- The probability of the tokens that are likelier than one. -/
def probabilityAbove (row : List (WithBot F)) (x : WithBot F) : F :=
  probability row (row.filter fun y => x < y)

variable {row : List (WithBot F)} {topP : F}

theorem probability_append (xs ys : List (WithBot F)) :
    probability row (xs ++ ys) = probability row xs + probability row ys := by
  unfold probability
  rw [List.map_append, List.sum_append]

theorem probability_perm {xs ys : List (WithBot F)} (h : xs.Perm ys) :
    probability row xs = probability row ys := (h.map _).sum_eq

theorem share_nonneg (row tokens : List (WithBot F)) :
    ∀ p ∈ tokens.map (fun x => weight x / (row.map weight).sum), 0 ≤ p := by
  intro p hp
  obtain ⟨x, -, rfl⟩ := List.mem_map.mp hp
  refine div_nonneg (weight_nonneg x) (List.sum_nonneg fun w hw => ?_)
  obtain ⟨y, -, rfl⟩ := List.mem_map.mp hw
  exact weight_nonneg y

theorem probability_nonneg (row xs : List (WithBot F)) : 0 ≤ probability row xs :=
  List.sum_nonneg (share_nonneg row xs)

theorem probability_all (hfin : ∃ a : F, ↑a ∈ row) : probability row row = 1 := by
  unfold probability
  simp only [div_eq_mul_inv]
  rw [List.sum_map_mul_right]
  exact mul_inv_cancel₀ (sum_weight_pos hfin).ne'

/-- What comes before a token in descending order is what is likelier. -/
theorem probability_before {sorted before after : List (WithBot F)} {x : WithBot F}
    (hperm : sorted.Perm row) (hsorted : sorted.Pairwise (· > ·))
    (h : sorted = before ++ x :: after) : probability row before = probabilityAbove row x := by
  subst h
  rw [← filter_gt_of_pairwise hsorted]
  exact probability_perm (hperm.filter _)

theorem IsNucleus.mem_iff {kept : List (WithBot F)} (h : IsNucleus row topP kept)
    {x : WithBot F} (hx : x ∈ row) : x ∈ kept ↔ probabilityAbove row x < topP := by
  obtain ⟨sorted, hperm, hsorted, rest, rfl⟩ := h.leads
  constructor
  · intro hkept
    obtain ⟨before, after, rfl⟩ := List.append_of_mem hkept
    rw [← probability_before hperm hsorted (List.append_assoc before (x :: after) rest)]
    exact h.smallest before (List.prefix_append _ _) (by simp)
  · intro hlt
    rcases List.mem_append.mp (hperm.mem_iff.mpr hx) with hkept | hrest
    · exact hkept
    · obtain ⟨before, after, rfl⟩ := List.append_of_mem hrest
      rw [← probability_before hperm hsorted (List.append_assoc kept before (x :: after)).symm,
        probability_append] at hlt
      have hle := h.reaches.trans (le_add_of_nonneg_right (probability_nonneg row before))
      exact absurd hlt hle.not_gt

theorem exists_nucleus (hnodup : row.Nodup) (hfin : ∃ a : F, ↑a ∈ row) (hle : topP ≤ 1) :
    ∃ kept, IsNucleus row topP kept := by
  let sorted := (sortDescending row).map Prod.fst
  have hperm : sorted.Perm row := sortDescending_values_perm row
  have hsorted : sorted.Pairwise (· > ·) := sortDescending_values_pairwise hnodup
  let p : WithBot F → Bool := fun x => probabilityAbove row x < topP
  have hsplit : sorted.takeWhile p ++ sorted.dropWhile p = sorted := List.takeWhile_append_dropWhile
  refine ⟨sorted.takeWhile p, ⟨sorted, hperm, hsorted, List.takeWhile_prefix p⟩, ?_, ?_⟩
  · cases hrest : sorted.dropWhile p with
    | nil =>
        rw [hrest, List.append_nil] at hsplit
        rw [hsplit, probability_perm hperm, probability_all hfin]
        exact hle
    | cons x after =>
        rw [hrest] at hsplit
        have hx := List.head?_dropWhile_not p sorted
        rw [hrest] at hx
        rw [probability_before hperm hsorted hsplit.symm]
        exact not_lt.mp (of_decide_eq_false hx)
  · rintro shorter ⟨rest, hrest⟩ hne
    cases rest with
    | nil => exact absurd (by simpa using hrest) hne
    | cons x rest =>
        have hx : p x = true :=
          List.mem_takeWhile_imp (hrest ▸ List.mem_append_right _ List.mem_cons_self)
        have hat : sorted = shorter ++ x :: (rest ++ sorted.dropWhile p) := by
          rw [← List.cons_append, ← List.append_assoc, hrest, hsplit]
        rw [probability_before hperm hsorted hat]
        exact of_decide_eq_true hx

/-- What keeping the nucleus comes to for each token by itself. -/
theorem keepsNucleus_iff (hnodup : row.Nodup) (hfin : ∃ a : F, ↑a ∈ row) (hle : topP ≤ 1)
    {out : List (WithBot F)} :
    KeepsNucleus topP row out ↔
      out = row.map fun x => if probabilityAbove row x < topP then x else ⊥ := by
  have hmap {kept : List (WithBot F)} (h : IsNucleus row topP kept) :
      (row.map fun x => if x ∈ kept then x else ⊥) =
        row.map fun x => if probabilityAbove row x < topP then x else ⊥ :=
    List.map_congr_left fun x hx => if_congr (h.mem_iff hx) rfl rfl
  constructor
  · rintro ⟨kept, h, rfl⟩
    exact hmap h
  · rintro rfl
    obtain ⟨kept, h⟩ := exists_nucleus hnodup hfin hle
    exact ⟨kept, h, (hmap h).symm⟩

-- ============================================================================
-- What the filter computes
-- ============================================================================

/-- The row with the tokens at minus infinity before which more than `topP` is reached. -/
def filtered (topP : F) (row : List (WithBot F)) : List (WithBot F) :=
  row.map fun x => if topP < probabilityAbove row x then ⊥ else x

theorem softmaxRow_sorted (row : List (WithBot F)) :
    softmaxRow ((sortDescending row).map Prod.fst) =
      (sortDescending row).map fun s => weight s.1 / (row.map weight).sum := by
  unfold softmaxRow
  rw [((sortDescending_values_perm row).map weight).sum_eq, List.map_map]
  rfl

/-- The mask at the place of a token, once it is shifted and scattered. -/
theorem remove_at (hnodup : row.Nodup) {i : Nat} {x : WithBot F} (hx : row[i]? = some x) :
    (scatter (List.replicate row.length false) ((sortDescending row).map Prod.snd)
        ((sumsBefore 0 (softmaxRow ((sortDescending row).map Prod.fst))).map
          fun c => decide (topP < c)))[i]? =
      some (decide (topP < probabilityAbove row x)) := by
  have hi : i < row.length := (List.getElem?_eq_some_iff.mp hx).1
  have hmem : (x, i) ∈ sortDescending row :=
    (sortDescending_perm row).mem_iff.mpr (List.mem_zipIdx_iff_getElem?.mpr hx)
  rw [softmaxRow_sorted]
  refine getElem?_scatter (sortDescending_index_nodup row) (by simp) (by simpa using hi) ?_
  obtain ⟨before, after, hsplit⟩ := List.append_of_mem hmem
  have habove : (before.map fun s => weight s.1 / (row.map weight).sum).sum =
      probabilityAbove row x := by
    have hvalues : (sortDescending row).map Prod.fst =
        before.map Prod.fst ++ x :: after.map Prod.fst := by rw [hsplit, List.map_append]; rfl
    rw [← probability_before (sortDescending_values_perm row)
      (sortDescending_values_pairwise hnodup) hvalues]
    unfold probability
    rw [List.map_map]
    rfl
  have hat := mem_zip_sumsBefore 0 Prod.snd (fun s : WithBot F × Nat =>
    weight s.1 / (row.map weight).sum) before (x, i) after
  rw [← hsplit, zero_add, habove] at hat
  rw [List.zip_map_right]
  exact List.mem_map_of_mem (f := Prod.map id fun c => decide (topP < c)) hat

theorem topPFilterRow_eq (hnodup : row.Nodup) (hne : row ≠ []) (hpos : 0 < topP) :
    topPFilterRow row topP = .ok (filtered topP row) := by
  have hlen : (sortDescending row).length = row.length := by
    rw [(sortDescending_perm row).length_eq, List.length_zipIdx]
  have hfirst : false = decide (topP < 0) := (decide_eq_false hpos.not_gt).symm
  unfold topPFilterRow filtered
  rw [if_neg (by simp [hlen, softmaxRow, List.length_eq_zero_iff, hne])]
  refine congrArg Except.ok (List.ext_getElem? fun i => ?_)
  rw [hfirst, shift_cumsum, List.getElem?_zipWith, List.getElem?_map]
  cases hx : row[i]? with
  | none => rfl
  | some x =>
      rw [← hfirst, remove_at hnodup hx]
      by_cases habove : topP < probabilityAbove row x
      · simp [habove]
      · simp [habove]

/-- The two masks differ on a finite logit before which exactly `topP` is reached. -/
theorem keepsNucleus_filtered_iff (hnodup : row.Nodup) (hfin : ∃ a : F, ↑a ∈ row)
    (hle : topP ≤ 1) :
    KeepsNucleus topP row (filtered topP row) ↔
      ∀ a : F, ↑a ∈ row → probabilityAbove row a ≠ topP := by
  rw [keepsNucleus_iff hnodup hfin hle, filtered, List.map_inj_left]
  constructor
  · intro h a ha heq
    have hsame := h a ha
    rw [if_neg heq.not_gt, if_neg heq.not_lt] at hsame
    exact WithBot.coe_ne_bot hsame
  · intro h x hx
    cases x with
    | bot => rw [ite_self, ite_self]
    | coe a =>
        rcases lt_or_gt_of_ne (h a hx) with hlt | hgt
        · rw [if_neg hlt.not_gt, if_pos hlt]
        · rw [if_pos hgt, if_neg hgt.not_gt]

/-- The likeliest token is kept. -/
theorem filtered_remains (hfin : ∃ a : F, ↑a ∈ row) (hpos : 0 < topP) :
    ∃ a : F, ↑a ∈ filtered topP row := by
  obtain ⟨b, hb⟩ := hfin
  obtain ⟨x, hx, hmax⟩ := row.toFinset.exists_max_image id ⟨_, List.mem_toFinset.mpr hb⟩
  have hnone : row.filter (fun y => x < y) = [] := by
    rw [List.filter_eq_nil_iff]
    exact fun y hy hlt => (hmax y (List.mem_toFinset.mpr hy)).not_gt (of_decide_eq_true hlt)
  have habove : probabilityAbove row x = 0 := by
    unfold probabilityAbove
    rw [hnone]
    rfl
  have hfinite : x ≠ ⊥ := by
    rintro rfl
    exact WithBot.coe_ne_bot (le_bot_iff.mp (hmax b (List.mem_toFinset.mpr hb)))
  obtain ⟨a, rfl⟩ := WithBot.ne_bot_iff_exists.mp hfinite
  refine ⟨a, List.mem_map.mpr ⟨a, List.mem_toFinset.mp hx, ?_⟩⟩
  rw [habove, if_neg hpos.not_gt]

/-- The filter leaves the nucleus where no finite logit comes just after exactly `topP`;
    some token remains in any case. -/
theorem top_p_filter_keeps_nucleus_iff (logits : List (List (WithBot F))) (hpos : 0 < topP)
    (hle : topP ≤ 1) (hnodup : ∀ row ∈ logits, row.Nodup)
    (hfin : ∀ row ∈ logits, ∃ a : F, ↑a ∈ row) :
    ∃ out, topPFilter logits topP = .ok out ∧ (∀ row ∈ out, ∃ a : F, ↑a ∈ row) ∧
      (List.Forall₂ (KeepsNucleus topP) logits out ↔
        ∀ row ∈ logits, ∀ a : F, ↑a ∈ row → probabilityAbove row a ≠ topP) := by
  refine ⟨logits.map (filtered topP), Results.mapM_ok fun row hrow => ?_, ?_, ?_⟩
  · exact topPFilterRow_eq (hnodup row hrow)
      (List.ne_nil_of_mem (hfin row hrow).choose_spec) hpos
  · intro out hout
    obtain ⟨row, hrow, rfl⟩ := List.mem_map.mp hout
    exact filtered_remains (hfin row hrow) hpos
  · rw [List.forall₂_map_right_iff, List.forall₂_same]
    exact forall₂_congr fun row hrow =>
      keepsNucleus_filtered_iff (hnodup row hrow) (hfin row hrow) hle

/-- Probabilities 1/2, 1/3 and 1/6. -/
noncomputable def sixths : List (WithBot ℝ) :=
  [↑(Real.log (3 : Nat)), ↑(Real.log (2 : Nat)), ↑(0 : ℝ)]

theorem sixths_nodup : sixths.Nodup := by
  have h₀ : (0 : ℝ) < Real.log 2 := Real.log_pos one_lt_two
  have h₁ : Real.log 2 < Real.log 3 := Real.log_lt_log two_pos (by norm_num)
  simp [sixths, h₀.ne', h₁.ne', (h₀.trans h₁).ne']

theorem sixths_finite : ∃ a : ℝ, ↑a ∈ sixths := ⟨0, by simp [sixths]⟩

theorem top_p_filter_keeps_nucleus_iff_sixths :
    ∃ out, topPFilter [sixths] 1 = .ok out ∧ (∀ row ∈ out, ∃ a : ℝ, ↑a ∈ row) ∧
      (List.Forall₂ (KeepsNucleus 1) [sixths] out ↔
        ∀ row ∈ [sixths], ∀ a : ℝ, ↑a ∈ row → probabilityAbove row a ≠ 1) :=
  top_p_filter_keeps_nucleus_iff [sixths] one_pos le_rfl
    (List.forall_mem_singleton.mpr sixths_nodup) (List.forall_mem_singleton.mpr sixths_finite)

theorem probabilityAbove_sixths : probabilityAbove sixths (Real.log 2 : ℝ) = 1 / 2 := by
  have h₀ : (0 : ℝ) < Real.log 2 := Real.log_pos one_lt_two
  have h₁ : Real.log 2 < Real.log 3 := Real.log_lt_log two_pos (by norm_num)
  have hexp (x : ℝ) : exp x = Real.exp x := rfl
  have hzero : weight (0 : WithBot ℝ) = 1 := Real.exp_zero
  simp [probabilityAbove, probability, sixths, h₀.le, h₁, hexp, hzero, Real.exp_log]
  norm_num

/-- With the first token at exactly `topP`, the second one is kept as well. -/
theorem top_p_filter_keeps_more :
    ∃ out, topPFilter [sixths] (1 / 2) = .ok out ∧
      ¬ List.Forall₂ (KeepsNucleus (1 / 2)) [sixths] out := by
  refine ⟨[filtered (1 / 2) sixths], Results.mapM_ok (g := filtered (1 / 2)) fun row hrow => ?_,
    fun h => ?_⟩
  · rw [List.mem_singleton.mp hrow]
    exact topPFilterRow_eq sixths_nodup (by simp [sixths]) one_half_pos
  · have hkeeps : KeepsNucleus (1 / 2) sixths (filtered (1 / 2) sixths) :=
      (List.forall₂_cons.mp h).1
    exact (keepsNucleus_filtered_iff sixths_nodup sixths_finite one_half_lt_one.le).mp hkeeps
      (Real.log 2) (by simp [sixths]) probabilityAbove_sixths

end PassionProjects.ForgeLM
