/-
  PassionProjects.Flashlite.OnlineSoftmax

  The running maximum and sum of a row of scores, tile by tile (`online_softmax.py`).
-/

import PassionProjects.Lib.Exponential

namespace PassionProjects.Flashlite

open ExpField

variable {F : Type} [ExpField F]

/-- `combine_online_stats` -/
def combineOnlineStats (mA : WithBot F) (lA : F) (mB : WithBot F) (lB : F) : WithBot F × F :=
  let m := max mA mB
  if m = ⊥ then
    (⊥, 0)
  else
    let ca := if mA = ⊥ then 0 else expSub mA m
    let cb := if mB = ⊥ then 0 else expSub mB m
    (m, lA * ca + lB * cb)

/-- `max(tile)` -/
def maxOf (tile : List (WithBot F)) : WithBot F := tile.foldr max ⊥

/-- The local maximum and sum of a tile. -/
def tileStats (tile : List (WithBot F)) : WithBot F × F :=
  let tileMax := maxOf tile
  if tileMax = ⊥ then (⊥, 0) else (tileMax, (tile.map fun v => expSub v tileMax).sum)

/-- `range(0, n, tile_size)` -/
def tileStarts (n tileSize : Nat) : List Nat :=
  List.range' 0 ((n + tileSize - 1) / tileSize) tileSize

/-- `online_softmax_stats` on a 1-D tensor. An error is the text of a `ValueError`. -/
def onlineSoftmaxStats (scores : List (WithBot F)) (tileSize : Int) :
    Except String (WithBot F × F) :=
  if scores.length = 0 then
    .error "online_softmax_stats: scores must be non-empty"
  else if tileSize ≤ 0 then
    .error ("online_softmax_stats: tile_size must be positive, got " ++ toString tileSize)
  else
    .ok ((tileStarts scores.length tileSize.toNat).foldl (fun ml start =>
      let tile := (scores.drop start).take tileSize.toNat
      let t := tileStats tile
      combineOnlineStats ml.1 ml.2 t.1 t.2) (⊥, 0))

/-- `weights @ tile_v` -/
def weighted {d : Nat} (weights : List F) (rows : List (Fin d → F)) (c : Fin d) : F :=
  (List.zipWith (fun w row => w * row c) weights rows).sum

/-- The running state of `online_softmax_attention_row`. -/
structure AttentionState (F : Type) (d : Nat) where
  m : WithBot F
  l : F
  acc : Fin d → F

/-- The body of its loop. -/
def absorbTile {d : Nat} (s : AttentionState F d) (tileScores : List (WithBot F))
    (tileV : List (Fin d → F)) : AttentionState F d :=
  if tileScores.any fun x => x ≠ ⊥ then
    let tileMax := maxOf tileScores
    let weights := tileScores.map fun v => expSub v tileMax
    let tileSum := weights.sum
    let tileWeightedV := weighted weights tileV
    let new := combineOnlineStats s.m s.l tileMax tileSum
    let oldCorrection := if s.m = ⊥ then 0 else expSub s.m new.1
    let newTileCorrection := expSub tileMax new.1
    ⟨new.1, new.2, fun c => s.acc c * oldCorrection + tileWeightedV c * newTileCorrection⟩
  else
    s

/-- `online_softmax_attention_row`, with `v_rows` of shape `[vRows.length, d]`. -/
def onlineSoftmaxAttentionRow {d : Nat} (scores : List (WithBot F)) (vRows : List (Fin d → F))
    (tileSize : Int) : Except String (Fin d → F) :=
  if vRows.length ≠ scores.length then
    .error ("online_softmax_attention_row: v_rows must be [S, D] with S == scores.shape[0]; " ++
      "got scores=(" ++ toString scores.length ++ ",), v_rows=(" ++ toString vRows.length ++ ", " ++
      toString d ++ ")")
  else if scores.length = 0 then
    .error "online_softmax_attention_row: scores/v_rows must be non-empty"
  else if tileSize ≤ 0 then
    .error ("online_softmax_attention_row: tile_size must be positive, got " ++ toString tileSize)
  else
    let s := (tileStarts scores.length tileSize.toNat).foldl (fun s start =>
      absorbTile s ((scores.drop start).take tileSize.toNat)
        ((vRows.drop start).take tileSize.toNat)) ⟨⊥, 0, fun _ => 0⟩
    if s.l = 0 then
      .error ("online_softmax_attention_row: l == 0 (every entry -inf); " ++
        "this row is fully masked and undefined -- not a supported input")
    else
      .ok fun c => s.acc c / s.l

-- ============================================================================
-- Running sums
-- ============================================================================

theorem correction_eq (x m : WithBot F) : (if x = ⊥ then 0 else expSub x m) = expSub x m := by
  split
  · rename_i hx
    rw [hx, expSub_bot]
  · rfl

/-- The case of two empty parts is that of the formula. -/
theorem combineOnlineStats_eq (mA : WithBot F) (lA : F) (mB : WithBot F) (lB : F) :
    combineOnlineStats mA lA mB lB =
      (max mA mB, expSub mA (max mA mB) * lA + expSub mB (max mA mB) * lB) := by
  unfold combineOnlineStats
  dsimp only
  split
  · rename_i hm
    obtain ⟨rfl, rfl⟩ := max_eq_bot.mp hm
    rw [expSub_bot, zero_mul, zero_mul, add_zero]
    rfl
  · rw [correction_eq, correction_eq, mul_comm lA, mul_comm lB]

theorem combine_running (s t : Running F F) :
    combineOnlineStats s.max s.sum t.max t.sum = ((s + t).max, (s + t).sum) :=
  combineOnlineStats_eq ..

/-- The scores with the value 1, so that what is summed is their exponentials. -/
def ones (scores : List (WithBot F)) : List (WithBot F × F) := scores.map fun x => (x, 1)

theorem maxOf_eq (scores : List (WithBot F)) :
    maxOf scores = (Running.ofList (ones scores)).max := by
  rw [Running.ofList_max, ones, List.map_map]
  exact congrArg maxOf (List.map_id scores).symm

theorem ones_sum {scores : List (WithBot F)} {m : F} (hm : maxOf scores = m) :
    (Running.ofList (ones scores)).sum = (scores.map fun v => expSub v m).sum := by
  rw [Running.ofList_sum (maxOf_eq scores ▸ hm), ones, List.map_map]
  exact congrArg List.sum (List.map_congr_left fun v _ => mul_one _)

/-- The maximum of some scores, and the sum of their exponentials relative to it. -/
def statsOf (scores : List (WithBot F)) : WithBot F × F :=
  ((Running.ofList (ones scores)).max, (Running.ofList (ones scores)).sum)

theorem tileStats_eq (tile : List (WithBot F)) : tileStats tile = statsOf tile := by
  unfold tileStats statsOf
  dsimp only
  split
  · rename_i hm
    have hbot : (Running.ofList (ones tile)).max = ⊥ := maxOf_eq tile ▸ hm
    rw [hbot, (Running.ofList (ones tile)).empty hbot]
  · rename_i hm
    obtain ⟨a, ha⟩ := WithBot.ne_bot_iff_exists.mp hm
    rw [← ha, ones_sum ha.symm, ← maxOf_eq, ha]

theorem combine_statsOf (scores scores' : List (WithBot F)) :
    combineOnlineStats (statsOf scores).1 (statsOf scores).2 (statsOf scores').1
      (statsOf scores').2 = statsOf (scores ++ scores') := by
  unfold statsOf ones
  rw [combine_running, List.map_append, Running.ofList_append]

/-- What holds tile by tile holds of the whole row. -/
theorem foldl_tileStarts {σ : Type} {I : σ → Nat → Prop} {f : σ → Nat → σ} {n tileSize : Nat}
    (ht : 0 < tileSize) {s : σ} (hinit : I s 0)
    (hstep : ∀ s start, start < n → I s start → I (f s start) (start + tileSize)) :
    ∃ stop, n ≤ stop ∧ I ((tileStarts n tileSize).foldl f s) stop := by
  have hcount : n ≤ tileSize * ((n + tileSize - 1) / tileSize) := by
    have hmod := Nat.mod_lt (n + tileSize - 1) ht
    have hdiv := Nat.div_add_mod (n + tileSize - 1) tileSize
    omega
  have hbefore : ∀ k, k < (n + tileSize - 1) / tileSize → tileSize * k < n := by
    intro k hk
    have hle : tileSize * (k + 1) ≤ n + tileSize - 1 :=
      (Nat.mul_le_mul_left tileSize hk).trans (Nat.mul_div_le ..)
    rw [Nat.mul_succ] at hle
    omega
  refine ⟨_, hcount, ?_⟩
  unfold tileStarts
  generalize (n + tileSize - 1) / tileSize = count at hbefore
  induction count with
  | zero => exact hinit
  | succ k ih =>
      rw [List.range'_concat, List.foldl_append, Nat.zero_add]
      exact hstep _ _ (hbefore k k.lt_succ_self) (ih fun j hj => hbefore j (Nat.lt_succ_of_lt hj))

theorem onlineSoftmaxStats_eq {scores : List (WithBot F)} (hne : scores ≠ []) {tileSize : Int}
    (ht : 0 < tileSize) : onlineSoftmaxStats scores tileSize = .ok (statsOf scores) := by
  let step (ml : WithBot F × F) (start : Nat) : WithBot F × F :=
    let tile := (scores.drop start).take tileSize.toNat
    combineOnlineStats ml.1 ml.2 (tileStats tile).1 (tileStats tile).2
  have hstep : ∀ ml start, start < scores.length → ml = statsOf (scores.take start) →
      step ml start = statsOf (scores.take (start + tileSize.toNat)) := by
    rintro ml start - rfl
    rw [List.take_add, ← combine_statsOf, ← tileStats_eq ((scores.drop start).take _)]
  obtain ⟨stop, hstop, hrow⟩ := foldl_tileStarts (s := (⊥, 0)) (Int.pos_iff_toNat_pos.mp ht) rfl
    hstep
  rw [List.take_of_length_le hstop] at hrow
  unfold onlineSoftmaxStats
  rw [if_neg (by simpa using hne), if_neg (by omega)]
  exact congrArg Except.ok hrow

-- ============================================================================
-- The weighted output
-- ============================================================================

section Output

variable {d : Nat}

/-- The scores, each with the value 1 and its row of values. -/
def valued (scores : List (WithBot F)) (vRows : List (Fin d → F)) :
    List (WithBot F × F × (Fin d → F)) :=
  List.zipWith (fun x row => (x, 1, row)) scores vRows

theorem zipWith_first {α β γ : Type} (f : α → γ) {xs : List α} {ys : List β}
    (h : ys.length = xs.length) : List.zipWith (fun x _ => f x) xs ys = xs.map f := by
  induction xs generalizing ys with
  | nil => rfl
  | cons x xs ih =>
      obtain ⟨y, ys, rfl⟩ := List.exists_cons_of_length_eq_add_one h
      exact congrArg (f x :: ·) (ih (Nat.succ.inj h))

variable {scores : List (WithBot F)} {vRows : List (Fin d → F)}

/-- What a sum over the scores with their values is made of. -/
theorem valued_sum (f : WithBot F → F) (h : vRows.length = scores.length) :
    ((valued scores vRows).map fun s => f s.1 • s.2).sum =
      ((scores.map f).sum, weighted (scores.map f) vRows) := by
  unfold valued weighted
  rw [List.map_zipWith]
  refine Prod.ext ?_ (funext fun c => ?_)
  · have hfst := map_list_sum (AddMonoidHom.fst F (Fin d → F))
      (List.zipWith (fun x row => f x • ((1 : F), row)) scores vRows)
    rw [List.map_zipWith] at hfst
    refine hfst.trans (congrArg List.sum ?_)
    simp only [AddMonoidHom.coe_fst, Prod.smul_fst, smul_eq_mul, mul_one]
    exact zipWith_first f h
  · have hsnd := map_list_sum ((Pi.evalAddMonoidHom (fun _ : Fin d => F) c).comp
      (AddMonoidHom.snd F (Fin d → F)))
      (List.zipWith (fun x row => f x • ((1 : F), row)) scores vRows)
    rw [List.map_zipWith] at hsnd
    refine hsnd.trans (congrArg List.sum ?_)
    rw [List.zipWith_map_left]
    rfl

theorem valued_fst (h : vRows.length = scores.length) :
    (valued scores vRows).map Prod.fst = scores := by
  unfold valued
  rw [List.map_zipWith]
  exact (zipWith_first id h).trans scores.map_id

theorem valued_max (h : vRows.length = scores.length) :
    (Running.ofList (valued scores vRows)).max = maxOf scores := by
  rw [Running.ofList_max, valued_fst h]
  rfl

theorem valued_take (n : Nat) :
    valued (scores.take n) (vRows.take n) = (valued scores vRows).take n := List.take_zipWith.symm

theorem valued_drop (n : Nat) :
    valued (scores.drop n) (vRows.drop n) = (valued scores vRows).drop n := List.drop_zipWith.symm

/-- The state after some scores. -/
def stateOf (l : List (WithBot F × F × (Fin d → F))) : AttentionState F d :=
  ⟨(Running.ofList l).max, (Running.ofList l).sum.1, (Running.ofList l).sum.2⟩

theorem absorbTile_stateOf (l : List (WithBot F × F × (Fin d → F)))
    (h : vRows.length = scores.length) :
    absorbTile (stateOf l) scores vRows = stateOf (l ++ valued scores vRows) := by
  unfold absorbTile stateOf
  rw [Running.ofList_append]
  split
  · rename_i hany
    obtain ⟨x, hx, hfinite⟩ := List.any_eq_true.mp hany
    have hne : maxOf scores ≠ ⊥ := fun hbot =>
      (of_decide_eq_true hfinite) (le_bot_iff.mp (hbot ▸ Running.le_foldr_max hx))
    obtain ⟨a, ha⟩ := WithBot.ne_bot_iff_exists.mp hne
    have hsum := Running.ofList_sum ((valued_max h).trans ha.symm)
    rw [valued_sum (fun x => expSub x a) h] at hsum
    dsimp only
    rw [combineOnlineStats_eq, correction_eq, Running.add_max, Running.add_sum, valued_max h, hsum,
      ← ha]
    refine congrArg (AttentionState.mk _ _) (funext fun c => ?_)
    rw [mul_comm, mul_comm (weighted ..)]
    rfl
  · rename_i hnone
    have hbot : ∀ x ∈ scores, x = ⊥ := by
      intro x hx
      by_contra hne
      exact hnone (List.any_eq_true.mpr ⟨x, hx, decide_eq_true hne⟩)
    have hzero : Running.ofList (valued scores vRows) = 0 := by
      refine Running.ofList_eq_zero fun s hs => hbot _ ?_
      exact valued_fst h ▸ List.mem_map_of_mem hs
    rw [hzero, add_zero]

theorem maxOf_ne_bot (hfin : ∃ a : F, ↑a ∈ scores) : maxOf scores ≠ ⊥ := by
  obtain ⟨a, ha⟩ := hfin
  exact (lt_of_lt_of_le (WithBot.bot_lt_coe a) (Running.le_foldr_max ha)).ne'

/-- The quotient does not depend on the maximum. -/
theorem stateOf_output (h : vRows.length = scores.length) (hfin : ∃ a : F, ↑a ∈ scores) :
    (stateOf (valued scores vRows)).l ≠ 0 ∧
      ∀ c, (stateOf (valued scores vRows)).acc c / (stateOf (valued scores vRows)).l =
        weighted (softmaxRow scores) vRows c := by
  obtain ⟨m, hm⟩ := WithBot.ne_bot_iff_exists.mp (maxOf_ne_bot hfin)
  have hmass := Running.ofList_mass (valued scores vRows)
  rw [valued_sum weight h, Running.mass, valued_max h, ← hm, weight_coe] at hmass
  have hl : exp m * (stateOf (valued scores vRows)).l = (scores.map weight).sum :=
    congrArg Prod.fst hmass
  have hacc (c : Fin d) : exp m * (stateOf (valued scores vRows)).acc c =
      weighted (scores.map weight) vRows c := congrFun (congrArg Prod.snd hmass) c
  refine ⟨fun hzero => ?_, fun c => ?_⟩
  · rw [hzero, mul_zero] at hl
    exact (sum_weight_pos hfin).ne hl
  · rw [← mul_div_mul_left _ _ (exp_ne_zero m), hacc, hl]
    unfold weighted softmaxRow
    rw [List.zipWith_map_left, List.zipWith_map_left]
    have hscale : ∀ ps : List F, ps.sum / (scores.map weight).sum =
        (ps.map fun p => p * (scores.map weight).sum⁻¹).sum := fun ps => by
      rw [List.sum_map_mul_right, List.map_id', div_eq_mul_inv]
    rw [hscale, List.map_zipWith]
    simp only [div_eq_mul_inv, mul_right_comm]

theorem onlineSoftmaxAttentionRow_eq (hfin : ∃ a : F, ↑a ∈ scores)
    (h : vRows.length = scores.length) {tileSize : Int} (ht : 0 < tileSize) :
    onlineSoftmaxAttentionRow scores vRows tileSize =
      .ok (weighted (softmaxRow scores) vRows) := by
  let step (s : AttentionState F d) (start : Nat) : AttentionState F d :=
    absorbTile s ((scores.drop start).take tileSize.toNat) ((vRows.drop start).take tileSize.toNat)
  have hstep : ∀ s start, start < scores.length →
      s = stateOf ((valued scores vRows).take start) →
        step s start = stateOf ((valued scores vRows).take (start + tileSize.toNat)) := by
    rintro s start - rfl
    have hlen : ((vRows.drop start).take tileSize.toNat).length =
        ((scores.drop start).take tileSize.toNat).length := by
      simp only [List.length_take, List.length_drop, h]
    refine (absorbTile_stateOf _ hlen).trans ?_
    rw [valued_take, valued_drop, ← List.take_add]
  obtain ⟨stop, hstop, hrow⟩ := foldl_tileStarts (s := ⟨⊥, 0, fun _ => 0⟩)
    (Int.pos_iff_toNat_pos.mp ht) rfl hstep
  have hvalued : (valued scores vRows).length = scores.length := by
    rw [valued, List.length_zipWith, h, Nat.min_self]
  rw [List.take_of_length_le (hvalued.le.trans hstop)] at hrow
  obtain ⟨hl, hout⟩ := stateOf_output h hfin
  have hne : scores.length ≠ 0 :=
    (List.length_pos_of_mem hfin.choose_spec).ne'
  unfold onlineSoftmaxAttentionRow
  rw [if_neg (not_not.mpr h), if_neg hne, if_neg ht.not_ge]
  dsimp only
  rw [if_neg (by rwa [hrow]), hrow]
  exact congrArg Except.ok (funext hout)

end Output

-- ============================================================================
-- Groups of tiles in any order
-- ============================================================================

/-- What `combine_online_stats` can return: minus infinity comes with zero. -/
def Producible (p : WithBot F × F) : Prop := p.1 = ⊥ → p.2 = 0

/-- `combine_online_stats` on pairs. -/
def combine (p q : WithBot F × F) : WithBot F × F := combineOnlineStats p.1 p.2 q.1 q.2

theorem producible_combine (p q : WithBot F × F) : Producible (combine p q) := by
  intro hm
  rw [combine, combineOnlineStats_eq] at hm ⊢
  obtain ⟨hp, hq⟩ := max_eq_bot.mp hm
  rw [hp, hq, expSub_bot, zero_mul, zero_mul, add_zero]

theorem producible_tileStats (tile : List (WithBot F)) : Producible (tileStats tile) := by
  rw [tileStats_eq]
  exact (Running.ofList (ones tile)).empty

theorem combine_comm (p q : WithBot F × F) : combine p q = combine q p := by
  rw [combine, combine, combineOnlineStats_eq, combineOnlineStats_eq, max_comm, add_comm]

theorem exists_running {p : WithBot F × F} (hp : Producible p) :
    ∃ s : Running F F, p = (s.max, s.sum) := ⟨⟨p.1, p.2, hp⟩, rfl⟩

theorem combine_assoc {p q r : WithBot F × F} (hp : Producible p) (hq : Producible q)
    (hr : Producible r) : combine (combine p q) r = combine p (combine q r) := by
  obtain ⟨s, rfl⟩ := exists_running hp
  obtain ⟨t, rfl⟩ := exists_running hq
  obtain ⟨u, rfl⟩ := exists_running hr
  simp only [combine, combine_running, add_assoc]

theorem combine_empty {p : WithBot F × F} (hp : Producible p) : combine (⊥, 0) p = p := by
  obtain ⟨s, rfl⟩ := exists_running hp
  have h := combine_running 0 s
  rwa [zero_add] at h

/-- Tiles put together two by two. -/
inductive Grouping (F : Type) where
  | tile (scores : List (WithBot F))
  | both (a b : Grouping F)

namespace Grouping

def scores : Grouping F → List (WithBot F)
  | .tile scores => scores
  | .both a b => a.scores ++ b.scores

def stats : Grouping F → WithBot F × F
  | .tile scores => tileStats scores
  | .both a b => combine a.stats b.stats

theorem stats_eq (g : Grouping F) : g.stats = statsOf g.scores := by
  induction g with
  | tile scores => exact tileStats_eq scores
  | both a b iha ihb => rw [stats, iha, ihb, combine, combine_statsOf, scores]

end Grouping

theorem statsOf_perm {scores scores' : List (WithBot F)} (h : scores.Perm scores') :
    statsOf scores = statsOf scores' := by
  unfold statsOf ones
  rw [Running.ofList_perm (h.map _)]

/-- The row's maximum, and the sum of the exponentials relative to it. -/
theorem statsOf_eq {scores : List (WithBot F)} (hfin : ∃ a : F, ↑a ∈ scores) :
    ∃ m : F, ((m : WithBot F) ∈ scores ∧ ∀ x ∈ scores, x ≤ m) ∧
      statsOf scores = (↑m, (scores.map fun x => expSub x m).sum) := by
  obtain ⟨m, hm⟩ := WithBot.ne_bot_iff_exists.mp (maxOf_ne_bot hfin)
  refine ⟨m, ⟨?_, fun x hx => ?_⟩, ?_⟩
  · rw [hm]
    exact Running.foldr_max_mem (List.ne_nil_of_mem hfin.choose_spec)
  · rw [hm]
    exact Running.le_foldr_max hx
  · unfold statsOf
    rw [ones_sum hm.symm, ← maxOf_eq, hm]

end PassionProjects.Flashlite
