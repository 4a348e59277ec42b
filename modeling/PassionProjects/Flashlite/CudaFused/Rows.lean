/-
  PassionProjects.Flashlite.CudaFused.Rows

  Attention by standard tensor operations, over tensors of shape
  `[batch, heads, seq_len, head_dim]`, and the state of a row after some keys: a running
  maximum, and sums of exponentials relative to it.  After the keys that the row may attend
  to, it yields the row of the reference.

  And what one thread of the fused kernel does between two barriers: which cells it may
  read, what it writes, and how the state of its row goes on.
-/

import PassionProjects.Flashlite.CudaFused.AttentionFused
import PassionProjects.Lib.Exponential

namespace PassionProjects.Flashlite

section Reference

open ExpField

/-- The entry at a batch, a head, a position and a coordinate. -/
abbrev Tensor (F : Type) := Nat → Nat → Nat → Nat → F

/-- A contiguous buffer as a tensor. -/
def contiguous {F : Type} (heads seqLen headDim : Nat) (buffer : Nat → F) : Tensor F :=
  fun b h i d => buffer (((b * heads + h) * seqLen + i) * headDim + d)

variable {F : Type} [ExpField F]

/-- The keys strictly in the future of a query, `torch.triu(torch.ones(..), diagonal=1)`. -/
def causalMask (i j : Nat) : Bool := i + 1 ≤ j

def referenceAttention (seqLen headDim : Nat) (q k v : Tensor F) (causal : Bool)
    (scale : Option F) : Tensor F := fun b h i d =>
  let effectiveScale := scale.getD (1 / sqrt (headDim : F))
  let scores : Nat → Nat → WithBot F := fun i j =>
    ((∑ e ∈ Finset.range headDim, q b h i e * k b h j e) * effectiveScale : F)
  let scores : Nat → Nat → WithBot F := fun i j =>
    if causal ∧ causalMask i j then ⊥ else scores i j
  let probs := fun i j => softmax seqLen (scores i) j
  ∑ j ∈ Finset.range seqLen, probs i j * v b h j d

end Reference

section RowState

open ExpField

variable {F : Type} [ExpField F]

namespace RowState

def init : RowState F := ⟨-fltMax, 0, fun _ => 0⟩

/-- The state after a key with a score and a row of values. -/
def absorb (D : Nat) (s : RowState F) (score : F) (value : Nat → F) : RowState F :=
  let mNew := max s.m score
  let correction := if s.m = -fltMax then 0 else exp (s.m - mNew)
  let p := exp (score - mNew)
  ⟨mNew, s.l * correction + p,
    fun d => if d < D then s.acc d * correction + p * value d else s.acc d⟩

/-- The state after the first keys of a row. -/
def after (D : Nat) (score : Nat → F) (value : Nat → Nat → F) : Nat → RowState F
  | 0 => init
  | n + 1 => (after D score value n).absorb D (score n) (value n)

variable {D : Nat} {score : Nat → F} {value : Nat → Nat → F}

/-- The maximum is the sentinel before the first key only. -/
theorem sentinel_lt {n : Nat} (hscore : ∀ j < n, -fltMax < score j) (hn : 0 < n) :
    -fltMax < (after D score value n).m := by
  obtain ⟨n, rfl⟩ := Nat.exists_eq_succ_of_ne_zero hn.ne'
  exact lt_max_of_lt_right (hscore n n.lt_succ_self)

/-- A sum relative to the maximum goes on with a key. -/
theorem absorb_sum {m x sum : F} (score v : F) (h : x = exp (-m) * sum)
    (hsentinel : m = -fltMax → sum = 0) :
    x * (if m = -fltMax then 0 else exp (m - max m score)) + exp (score - max m score) * v =
      exp (-max m score) * (sum + exp score * v) := by
  rw [exp_sub score, mul_add, mul_assoc (exp (-max m score)) (exp score) v]
  congr 1
  split
  · rename_i hm
    rw [hsentinel hm, mul_zero, mul_zero]
  · exact rescale h

theorem after_sums (D : Nat) (value : Nat → Nat → F) {n : Nat}
    (hscore : ∀ j < n, -fltMax < score j) :
    (after D score value n).l =
        exp (-(after D score value n).m) * ∑ j ∈ Finset.range n, exp (score j) ∧
      ∀ d < D, (after D score value n).acc d =
        exp (-(after D score value n).m) * ∑ j ∈ Finset.range n, exp (score j) * value j d := by
  induction n with
  | zero => simp [after, init]
  | succ n ih =>
      have hn := fun j hj => hscore j (Nat.lt_succ_of_lt hj)
      obtain ⟨hl, hacc⟩ := ih hn
      have hempty : (after D score value n).m = -fltMax → n = 0 := fun hm =>
        Nat.eq_zero_of_not_pos fun hpos => (sentinel_lt hn hpos).ne' hm
      constructor
      · have h := absorb_sum (score n) 1 hl fun hm => by simp [hempty hm]
        simp only [mul_one] at h
        rw [Finset.sum_range_succ]
        exact h
      · intro d hd
        have h := absorb_sum (score n) (value n d) (hacc d hd) fun hm => by
          simp [hempty hm]
        rw [Finset.sum_range_succ]
        refine Eq.trans ?_ h
        simp only [after, absorb, if_pos hd]

/-- What is stored for a row is the average of the values by the exponentials of the
    scores. -/
theorem after_output {n : Nat} (hscore : ∀ j < n, -fltMax < score j) (hn : 0 < n) {d : Nat}
    (hd : d < D) :
    (after D score value n).acc d *
        (if (after D score value n).l > 0 then 1 / (after D score value n).l else 0) =
      (∑ j ∈ Finset.range n, exp (score j) * value j d) / ∑ j ∈ Finset.range n, exp (score j) := by
  obtain ⟨hl, hacc⟩ := after_sums D value hscore
  have hpos := mul_pos (exp_pos (-(after D score value n).m)) (sum_exp_pos hn score)
  rw [hacc d hd, hl, if_pos hpos, mul_one_div, mul_div_mul_left _ _ (exp_ne_zero _)]

end RowState

/-- The keys that a row attends to come first. -/
def visible (S : Nat) (causal : Bool) (row : Nat) : Nat := if causal then row + 1 else S

/-- The row that the reference computes. -/
theorem referenceAttention_row {S D : Nat} {q k v : Tensor F} {causal : Bool} {b h i d : Nat}
    (hi : i < S) (scale : F) :
    referenceAttention S D q k v causal (some scale) b h i d =
      (∑ j ∈ Finset.range (visible S causal i),
        exp ((∑ e ∈ Finset.range D, q b h i e * k b h j e) * scale) * v b h j d) /
      ∑ j ∈ Finset.range (visible S causal i),
        exp ((∑ e ∈ Finset.range D, q b h i e * k b h j e) * scale) := by
  refine sum_softmax_mul (N := visible S causal i) ?_ (fun j hj => ?_) (fun j hj hjS => ?_) _
  · unfold visible
    split <;> omega
  · refine if_neg ?_
    cases causal with
    | false => simp
    | true => simpa [causalMask, visible] using hj
  · refine if_pos ?_
    cases causal with
    | false => exact absurd hjS (Nat.not_lt_of_le hj)
    | true => simpa [causalMask, visible] using hj

end RowState

section Rows

open ExpField Kernels FusedAttention

variable {F : Type} [ExpField F]

/-- The buffers have so many elements, and a block so many bytes of shared memory. -/
def Cell.InBuffer (elements sharedBytes : Nat) : Cell → Prop
  | .q n | .k n | .v n | .out n => n < elements
  | .smem _ n => (n + 1) * 4 ≤ sharedBytes

/-- The cells that the host can see. -/
def Cell.IsGlobal : Cell → Prop
  | .smem _ _ => False
  | _ => True

/-- The buffers hold the inputs. -/
structure Holds (q k v : Nat → F) (μ : Cell → F) : Prop where
  q : ∀ n, μ (.q n) = q n
  k : ∀ n, μ (.k n) = k n
  v : ∀ n, μ (.v n) = v n

def inputCells (total : Nat) : Set Cell := {x | ∃ n < total, x = .q n ∨ x = .k n ∨ x = .v n}

def sharedCells (D : Nat) (blockIdx : Nat × Nat) : Set Cell :=
  {x | ∃ n < 2 * kFusedTileDim * D, x = .smem blockIdx n}

theorem element_lt {S D base total row d : Nat} (hbase : base + S * D ≤ total) (hrow : row < S)
    (hd : d < D) : base + row * D + d < total := by
  have hrows : (row + 1) * D ≤ S * D := Nat.mul_le_mul_right D hrow
  rw [Nat.succ_mul] at hrows
  omega

omit [ExpField F] in
/-- An array of which one more element is set. -/
theorem update_next {f g : Nat → F} (j : Nat) :
    Function.update (fun d => if d < j then g d else f d) j (g j) =
      fun d => if d < j + 1 then g d else f d := by
  funext d
  rcases eq_or_ne d j with rfl | hne
  · rw [Function.update_self, if_pos d.lt_succ_self]
  · rw [Function.update_of_ne hne]
    have hiff : d < j ↔ d < j + 1 := by omega
    simp only [hiff]

section Load

variable {S D base total : Nat} {blockIdx : Nat × Nat} {q k v : Nat → F} {μ : Cell → F}

/-- The query row as the thread keeps it. -/
def queryRow (q : Nat → F) (D base row d : Nat) : F := if d < D then q (base + row * D + d) else 0

theorem loadQuery_performs (hμ : Holds q k v μ) (hbase : base + S * D ≤ total) {row : Nat}
    (hrow : row < S) :
    Performs (inputCells total) μ (loadQuery D base row) [] (.ret (queryRow q D base row)) := by
  have hloop : Performs (inputCells total) μ (loadQuery D base row) []
      (.ret fun d => if d < D then q (base + row * D + d) else 0) := by
    refine Performs.range_read (f := fun j d => if d < j then q (base + row * D + d) else 0)
      fun j hj => ?_
    have hmem : Cell.q (base + row * D + j) ∈ inputCells total :=
      ⟨_, element_lt hbase hrow hj, .inl rfl⟩
    refine .load_bind hmem ?_
    rw [hμ.q]
    exact update_next (f := fun _ => 0) (g := fun d => q (base + row * D + d)) j ▸ .here
  exact hloop

/-- An element of a tile of keys or values. -/
def tileEntry (S D base tileStart : Nat) (buffer : Nat → F) (idx : Nat) : F :=
  if tileStart + idx / D < S then buffer (base + (tileStart + idx / D) * D + idx % D) else 0

theorem tileEntry_at {tileStart jj d : Nat} {buffer : Nat → F} (hd : d < D)
    (hj : tileStart + jj < S) :
    tileEntry S D base tileStart buffer (jj * D + d) =
      buffer (base + (tileStart + jj) * D + d) := by
  have hdiv : (jj * D + d) / D = jj := by
    rw [Nat.mul_comm, Nat.mul_add_div (Nat.zero_lt_of_lt hd), Nat.div_eq_of_lt hd, Nat.add_zero]
  have hmod : (jj * D + d) % D = d := by
    rw [Nat.mul_comm, Nat.mul_add_mod, Nat.mod_eq_of_lt hd]
  rw [tileEntry, hdiv, hmod, if_pos hj]

def tileWrites (S D base : Nat) (blockIdx : Nat × Nat) (tileStart : Nat) (k v : Nat → F)
    (threadIdx : Nat) : List (Cell × F) :=
  (strided threadIdx (kFusedTileDim * D) kFusedTileDim).flatMap fun idx =>
    [(kTile blockIdx idx, tileEntry S D base tileStart k idx),
      (vTile D blockIdx idx, tileEntry S D base tileStart v idx)]

theorem loadTile_performs (hμ : Holds q k v μ) (hbase : base + S * D ≤ total) (hD : 0 < D)
    (threadIdx tileStart : Nat) :
    Performs (inputCells total) μ (loadTile S D base blockIdx threadIdx tileStart)
      (tileWrites S D base blockIdx tileStart k v threadIdx) (.ret ()) := by
  refine Performs.forM (fun idx _ ν hν => ?_) fun idx _ w hw => ?_
  · unfold tileEntry
    dsimp only
    split
    · rename_i hrow
      have hlt := element_lt hbase hrow (Nat.mod_lt idx hD)
      have hk : Cell.k _ ∈ inputCells total := ⟨_, hlt, .inr (.inl rfl)⟩
      have hv : Cell.v _ ∈ inputCells total := ⟨_, hlt, .inr (.inr rfl)⟩
      refine .load_bind hk ?_
      rw [hν _ hk, hμ.k]
      refine .store_bind (.load_bind hv ?_)
      rw [Function.update_of_ne (by simp [kTile]), hν _ hv, hμ.v]
      exact .store _ _
    · exact .write (.write .here)
  · rcases List.mem_cons.mp hw with rfl | hw
    · rintro ⟨n, -, h | h | h⟩ <;> cases h
    · rw [List.mem_singleton.mp hw]
      rintro ⟨n, -, h | h | h⟩ <;> cases h

end Load

section Compute

variable {S D base : Nat} {blockIdx : Nat × Nat} {q k v : Nat → F} {μ : Cell → F}

/-- Shared memory holds the tile that begins at a row. -/
structure TileHolds (S D base : Nat) (blockIdx : Nat × Nat) (tileStart : Nat) (k v : Nat → F)
    (μ : Cell → F) : Prop where
  k : ∀ idx < kFusedTileDim * D, μ (kTile blockIdx idx) = tileEntry S D base tileStart k idx
  v : ∀ idx < kFusedTileDim * D, μ (vTile D blockIdx idx) = tileEntry S D base tileStart v idx

/-- The score of a row for a key. -/
def rowScore (q k : Nat → F) (D base : Nat) (scale : F) (row j : Nat) : F :=
  (∑ e ∈ Finset.range D, q (base + row * D + e) * k (base + j * D + e)) * scale

/-- The values of a key. -/
def valueRow (v : Nat → F) (D base j d : Nat) : F := v (base + j * D + d)

theorem tile_index_lt {jj d : Nat} (hjj : jj < kFusedTileDim) (hd : d < D) :
    jj * D + d < kFusedTileDim * D := by
  have hbase : 0 + kFusedTileDim * D ≤ kFusedTileDim * D := (Nat.zero_add _).le
  have h := element_lt hbase hjj hd
  rwa [Nat.zero_add] at h

theorem kTile_mem {idx : Nat} (h : idx < kFusedTileDim * D) :
    kTile blockIdx idx ∈ sharedCells D blockIdx :=
  ⟨idx, by rw [Nat.mul_assoc, Nat.two_mul]; omega, rfl⟩

theorem vTile_mem {idx : Nat} (h : idx < kFusedTileDim * D) :
    vTile D blockIdx idx ∈ sharedCells D blockIdx :=
  ⟨kFusedTileDim * D + idx, by rw [Nat.mul_assoc, Nat.two_mul]; omega, rfl⟩

variable {tileStart jj : Nat} (hμ : TileHolds S D base blockIdx tileStart k v μ)
  (hjj : jj < kFusedTileDim) (hj : tileStart + jj < S)

include hμ hjj hj

theorem scoreOf_performs (row : Nat) (scale : F) :
    Performs (sharedCells D blockIdx) μ (scoreOf D scale blockIdx (queryRow q D base row) jj) []
      (.ret (rowScore q k D base scale row (tileStart + jj))) := by
  refine Performs.bind_read (r := ∑ e ∈ Finset.range D,
    q (base + row * D + e) * k (base + (tileStart + jj) * D + e)) ?_ .here
  refine Performs.range_read (f := fun d => ∑ e ∈ Finset.range d,
    q (base + row * D + e) * k (base + (tileStart + jj) * D + e)) fun d hd => ?_
  refine .load_bind (kTile_mem (tile_index_lt hjj hd)) ?_
  rw [hμ.k _ (tile_index_lt hjj hd), tileEntry_at hd hj, queryRow, if_pos hd,
    Finset.sum_range_succ]
  exact .here

theorem absorbKey_performs (row : Nat) (scale : F) (s : RowState F) :
    Performs (sharedCells D blockIdx) μ
      (absorbKey D scale blockIdx (queryRow q D base row) s jj) []
      (.ret (s.absorb D (rowScore q k D base scale row (tileStart + jj))
        (valueRow v D base (tileStart + jj)))) := by
  refine (scoreOf_performs hμ hjj hj row scale).bind_read ?_
  refine Performs.bind_read (r := (s.absorb D (rowScore q k D base scale row (tileStart + jj))
    (valueRow v D base (tileStart + jj))).acc) ?_ .here
  -- The elements below `d` have been rescaled before turn `d`.
  set score := rowScore q k D base scale row (tileStart + jj)
  set next : Nat → F := fun d =>
    s.acc d * (if s.m = -fltMax then 0 else exp (s.m - max s.m score)) +
      exp (score - max s.m score) * valueRow v D base (tileStart + jj) d
  refine Performs.range_read (f := fun j d => if d < j then next d else s.acc d) fun d hd => ?_
  refine .load_bind (vTile_mem (tile_index_lt hjj hd)) ?_
  rw [hμ.v _ (tile_index_lt hjj hd), tileEntry_at hd hj, ← update_next d]
  dsimp only
  rw [if_neg (Nat.lt_irrefl d)]
  exact .here

omit hμ hjj hj in
/-- The loop over a tile ends at the first key in the future. -/
theorem tile_keys {row : Nat} {causal : Bool} (hstart : tileStart ≤ visible S causal row)
    (hle : visible S causal row ≤ S) :
    (List.range (min kFusedTileDim (S - tileStart))).takeWhile
      (fun jj => ¬ (causal ∧ tileStart + jj > row)) =
        List.range (min kFusedTileDim (visible S causal row - tileStart)) := by
  refine takeWhile_range (by omega) (fun j hj => decide_eq_true fun h => ?_) fun hend =>
    decide_eq_false (not_not.mpr ?_)
  · have hvisible : visible S causal row = row + 1 := if_pos h.1
    omega
  · cases causal with
    | false =>
        have hvisible : visible S false row = S := rfl
        omega
    | true =>
        have hvisible : visible S true row = row + 1 := rfl
        exact ⟨rfl, by omega⟩

omit hjj hj in
/-- The keys of a tile take the state from those before the tile to those before the next
    one, as far as the row may attend to them. -/
theorem absorbTile_performs {row : Nat} (hrow : row < S) (htile : tileStart < S) (scale : F)
    (causal : Bool) :
    Performs (sharedCells D blockIdx) μ
      (FusedAttention.absorbTile S D scale causal blockIdx row tileStart (queryRow q D base row)
        (.after D (rowScore q k D base scale row) (valueRow v D base)
          (min tileStart (visible S causal row)))) []
      (.ret (.after D (rowScore q k D base scale row) (valueRow v D base)
        (min (tileStart + kFusedTileDim) (visible S causal row)))) := by
  have hle : visible S causal row ≤ S := by
    unfold visible
    split <;> omega
  unfold FusedAttention.absorbTile
  split
  · rename_i hkeys
    have hstart : tileStart ≤ visible S causal row := by
      cases causal with
      | false => exact htile.le
      | true =>
          have hnot : ¬ tileStart > row := fun hlt => hkeys.2 ⟨rfl, hlt⟩
          exact (Nat.le_of_not_lt hnot).trans row.le_succ
    dsimp only
    rw [tile_keys hstart hle, Nat.min_eq_left hstart]
    have hend : min (tileStart + kFusedTileDim) (visible S causal row) =
        tileStart + min kFusedTileDim (visible S causal row - tileStart) := by omega
    rw [hend]
    refine Performs.range_read (f := fun jj => RowState.after D (rowScore q k D base scale row)
      (valueRow v D base) (tileStart + jj)) fun jj hjj => ?_
    exact absorbKey_performs hμ (by omega) (by omega) row scale _
  · rename_i hskip
    have hfuture : causal ∧ tileStart > row := by
      by_contra hnot
      exact hskip ⟨hrow, hnot⟩
    have hvisible : visible S causal row = row + 1 := if_pos hfuture.1
    rw [hvisible, Nat.min_eq_right hfuture.2, Nat.min_eq_right (by omega)]
    exact .here

end Compute

def rowWrites (D base row : Nat) (s : RowState F) : List (Cell × F) :=
  (List.range D).flatMap fun d =>
    [(.out (base + row * D + d), s.acc d * (if s.l > 0 then 1 / s.l else 0))]

theorem storeRow_performs (C : Set Cell) (μ : Cell → F) (D base row : Nat) (s : RowState F)
    (hC : ∀ n, .out n ∉ C) :
    Performs C μ (storeRow D base row s) (rowWrites D base row s) (.ret ()) := by
  refine Performs.forM (fun d _ ν _ => .store _ _) fun d _ w hw => ?_
  rw [List.mem_singleton.mp hw]
  exact hC _

end Rows

end PassionProjects.Flashlite
