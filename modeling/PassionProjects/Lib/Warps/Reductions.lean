/-
  PassionProjects.Lib.Warps.Reductions

  Reductions over a block.  Every thread brings a value and goes on with what those of all
  threads come to: by a tree in shared memory, or by the shuffles of each warp, whose results
  the first warp puts together.
-/

import PassionProjects.Lib.Warps.Trees

namespace PassionProjects.Warps

open Program
open Kernels (replay strided lt_of_mem_strided)

variable {X V σ : Type}

-- ============================================================================
-- Loops of a thread
-- ============================================================================

/-- The value of an expression of type `int`.  One that does not fit is no value: the thread
    goes to the cell `trap`. -/
def evalInt (trap : X) (n : Nat) : Program (Access X V) V Nat :=
  if n < 2 ^ 31 then pure n else load trap >>= fun _ => pure n

/-- `for (int c = start; c < bound; c += step)`, where the turns carry a value. -/
def foldStrided (trap : X) (start bound step : Nat) (body : σ → Nat → Program (Access X V) V σ)
    (s : σ) : Program (Access X V) V σ :=
  (strided start bound step).foldlM (fun s c => do
    let s ← body s c
    let _ ← evalInt trap (c + step)
    pure s) s

/-- The same loop where the turns write. -/
def forStrided (trap : X) (start bound step : Nat) (body : Nat → Program (Access X V) V Unit) :
    Program (Access X V) V Unit :=
  (strided start bound step).forM fun c => do
    body c
    let _ ← evalInt trap (c + step)
    pure ()

section Loops

variable [DecidableEq X] {C : Set X} {μ : X → V} {trap : X} {start bound step : Nat}

theorem Performs.evalInt {n : Nat} (h : n < 2 ^ 31) :
    Performs C μ (evalInt trap n) [] [] (.ret n) := by
  rw [Warps.evalInt, if_pos h]
  exact .here

theorem Performs.foldStrided (hstep : 0 < step) (hbound : bound + step ≤ 2 ^ 31)
    {body : σ → Nat → Program (Access X V) V σ} {f : σ → Nat → σ}
    (h : ∀ s, ∀ c ∈ strided start bound step,
      Performs C μ (body s c) [] [] (.ret (f s c))) (s : σ) :
    Performs C μ (foldStrided trap start bound step body s) [] []
      (.ret ((strided start bound step).foldl f s)) := by
  refine Performs.foldlM_read fun s c hc => (h s c hc).bind_read ?_
  have hlt := lt_of_mem_strided hstep hc
  exact (Performs.evalInt (by omega)).bind_read .here

theorem Performs.forStrided (hstep : 0 < step) (hbound : bound + step ≤ 2 ^ 31)
    {body : Nat → Program (Access X V) V Unit} {ws : Nat → List (X × V)}
    (h : ∀ c ∈ strided start bound step, ∀ ν, (∀ y ∈ C, ν y = μ y) →
      Performs C ν (body c) (ws c) [] (.ret ()))
    (hws : ∀ c ∈ strided start bound step, ∀ w ∈ ws c, w.1 ∉ C) :
    Performs C μ (forStrided trap start bound step body) ((strided start bound step).flatMap ws) []
      (.ret ()) := by
  have hturn : ∀ c ∈ strided start bound step, ∀ ν, (∀ y ∈ C, ν y = μ y) → Performs C ν
      (body c >>= fun _ => Warps.evalInt trap (c + step) >>= fun _ => pure ()) (ws c) []
        (.ret ()) := by
    intro c hc ν hν
    have hlt := lt_of_mem_strided hstep hc
    have hboth :=
      (h c hc ν hν).bind (f := fun _ => Warps.evalInt trap (c + step) >>= fun _ => pure ())
      ((Performs.evalInt (by omega)).bind_read .here)
    rwa [List.append_nil] at hboth
  have hloop := Performs.forM hturn hws
  rwa [List.flatMap_eq_nil_iff.mpr fun _ _ => rfl] at hloop

end Loops

/-- A loop that puts values together one after another. -/
theorem foldl_lift {ι A M : Type} [AddCommMonoid M] {op : A → A → A} {lift : M → A}
    (hop : ∀ a b, op (lift a) (lift b) = lift (a + b)) (xs : List ι) {f : A → ι → A} {g : ι → M}
    (hf : ∀ a, ∀ x ∈ xs, f a x = op a (lift (g x))) (s : M) :
    xs.foldl f (lift s) = lift (s + (xs.map g).sum) := by
  induction xs generalizing s with
  | nil => simp
  | cons x xs ih =>
      rw [List.foldl_cons, hf _ x List.mem_cons_self, hop,
        ih fun a x' hx' => hf a x' (List.mem_cons_of_mem x hx'), List.map_cons, List.sum_cons,
        add_assoc]

-- ============================================================================
-- Places
-- ============================================================================

/-- Cells that have a value of `σ` together, and how a thread reads it. -/
structure Place (X V σ : Type) [DecidableEq X] where
  cells : Set X
  words : σ → List (X × V)
  load : Program (Access X V) V σ
  words_cells : ∀ {s w}, w ∈ words s → w.1 ∈ cells
  words_inj : ∀ {s w w'}, w ∈ words s → w' ∈ words s → w.1 = w'.1 → w.2 = w'.2
  load_words : ∀ {s μ}, (∀ w ∈ words s, μ w.1 = w.2) → Performs cells μ load [] [] (.ret s)

namespace Place

variable [DecidableEq X]

def one (x : X) : Place X V V where
  cells := {x}
  words v := [(x, v)]
  load := Warps.load x
  words_cells hw := by
    obtain rfl := List.mem_singleton.mp hw
    rfl
  words_inj hw hw' _ := by rw [List.mem_singleton.mp hw, List.mem_singleton.mp hw']
  load_words {s μ} h := by
    have hx : μ x = s := h (x, s) (List.mem_singleton_self _)
    rw [← hx]
    exact .load rfl

def two (x y : X) (hne : x ≠ y) : Place X V (V × V) where
  cells := {x, y}
  words s := [(x, s.1), (y, s.2)]
  load := do
    let a ← Warps.load x
    let b ← Warps.load y
    pure (a, b)
  words_cells hw := by
    rcases List.mem_pair.mp hw with rfl | rfl
    · exact .inl rfl
    · exact .inr rfl
  words_inj hw hw' heq := by
    rcases List.mem_pair.mp hw with rfl | rfl <;> rcases List.mem_pair.mp hw' with rfl | rfl
    · rfl
    · exact absurd heq hne
    · exact absurd heq.symm hne
    · rfl
  load_words {s μ} h := by
    have hx : μ x = s.1 := h (x, s.1) (by simp)
    have hy : μ y = s.2 := h (y, s.2) (by simp)
    have hs : s = (μ x, μ y) := by rw [hx, hy]
    rw [hs]
    exact .read (.inl rfl) (.read (.inr rfl) .here)

variable {μ : X → V} {C : Set X}

def store (p : Place X V σ) (s : σ) : Program (Access X V) V Unit :=
  (p.words s).forM fun w => Warps.store w.1 w.2

theorem store_performs (p : Place X V σ) (s : σ) :
    Performs C μ (p.store s) (p.words s) [] (.ret ()) := by
  unfold store
  induction p.words s generalizing μ with
  | nil => exact .here
  | cons w ws ih => exact .write ih

end Place

-- ============================================================================
-- Blocks that read
-- ============================================================================

namespace Footprint

/-- The threads read cells of `C` that they may, and write `ws`. -/
def writing (readable : Nat → Set X) (C : Set X) (ws : Nat → List (X × V)) : Footprint X V :=
  ⟨fun i => {x | x ∈ C ∧ x ∈ readable i}, ws, fun _ => []⟩

/-- No two threads write the same cell, and none writes two values to one. -/
def Distinct (n : Nat) (ws : Nat → List (X × V)) : Prop :=
  ∀ i < n, ∀ j < n, ∀ w ∈ ws i, ∀ w' ∈ ws j, w.1 = w'.1 → i = j ∧ w.2 = w'.2

variable {readable : Nat → Set X} {C : Set X} {ws : Nat → List (X × V)} {n : Nat}

theorem raceFree_writing (hC : ∀ i < n, ∀ w ∈ ws i, w.1 ∉ C) (hws : Distinct n ws) :
    RaceFree n (writing readable C ws) := by
  constructor
  · intro i hi j hj hij w hw
    exact ⟨fun hread => hC i hi w hw hread.1,
      fun w' hw' heq => hij (hws i hi j hj w hw w' hw' heq).1⟩
  · exact fun i _ j _ a ha => absurd ha List.not_mem_nil
  · exact fun i hi w hw w' hw' heq => (hws i hi i hi w hw w' hw' heq).2

theorem updates_writing {x : X} :
    (writing readable C ws).Updates n x ↔ ∃ i < n, ∃ w ∈ ws i, w.1 = x := by
  constructor
  · rintro (⟨w, hw, heq⟩ | ⟨a, ha, -⟩)
    · obtain ⟨i, hi, hw⟩ := mem_allWrites.mp hw
      exact ⟨i, hi, w, hw, heq⟩
    · obtain ⟨i, -, ha⟩ := mem_allAdds.mp ha
      exact absurd ha List.not_mem_nil
  · rintro ⟨i, hi, w, hw, heq⟩
    exact .inl ⟨w, mem_allWrites.mpr ⟨i, hi, hw⟩, heq⟩

variable [DecidableEq X]

/-- A cell that is written, where no thread writes one of its cells twice. -/
theorem atCell_writing (hws : Distinct n ws) (hnodup : ∀ i < n, ((ws i).map Prod.fst).Nodup)
    {i : Nat} (hi : i < n) {w : X × V} (hw : w ∈ ws i) :
    atCell w.1 ((writing readable C ws).allWrites n) = [w.2] := by
  have hkeys : (((writing readable C ws).allWrites n).map Prod.fst).Nodup := by
    rw [allWrites, List.map_flatMap]
    refine List.nodup_flatMap.mpr ⟨fun j hj => hnodup j (List.mem_range.mp hj), ?_⟩
    refine List.nodup_range.pairwise_of_forall_ne fun j hj j' hj' hne x hx hx' => hne ?_
    obtain ⟨u, hu, rfl⟩ := List.mem_map.mp hx
    obtain ⟨u', hu', heq⟩ := List.mem_map.mp hx'
    exact (hws j (List.mem_range.mp hj) j' (List.mem_range.mp hj') u hu u' hu' heq.symm).1
  have hmem : w ∈ (writing readable C ws).allWrites n := mem_allWrites.mpr ⟨i, hi, hw⟩
  obtain ⟨before, after, hsplit⟩ := List.append_of_mem hmem
  rw [hsplit, List.map_append, List.map_cons] at hkeys
  have hother : ∀ u ∈ before ++ after, u.1 ≠ w.1 := by
    intro u hu heq
    refine (List.nodup_middle.mp hkeys).notMem ?_
    rw [← heq, ← List.map_append]
    exact List.mem_map_of_mem hu
  have hself : atCell w.1 (w :: after) = w.2 :: atCell w.1 after :=
    List.filterMap_cons_some (if_pos rfl)
  rw [hsplit, atCell_append, hself, atCell_eq_nil fun u hu =>
    hother u (List.mem_append_left after hu),
    atCell_eq_nil fun u hu => hother u (List.mem_append_right before hu)]
  rfl

end Footprint

namespace Block

open Footprint (writing Distinct raceFree_writing updates_writing)

variable [DecidableEq X] [Zero V] {B : Block X V} {plus : V → V → V} {μ : X → V} {C C' : Set X}
  {f : Footprint X V} {qs rs : Nat → Program (Access X V) V Unit}

theorem At.mono (h : B.At plus μ f qs) {D : Nat → Set X}
    (hD : ∀ i < B.size, ∀ x ∈ f.reads i, x ∈ D i) : B.At plus μ ⟨D, f.writes, f.adds⟩ qs := by
  obtain ⟨w, ps, u, hdone, hcurrent⟩ := h
  exact ⟨w, ps, u, hdone, { hcurrent with
    reads := fun i hi x v hmem => hD i hi x (hcurrent.reads i hi x v hmem) }⟩

/-- The threads are at `qs`.  Since the last barrier they have only read, cells of `C`. -/
def Reading (B : Block X V) (plus : V → V → V) (C : Set X) (μ : X → V)
    (qs : Nat → Program (Access X V) V Unit) : Prop :=
  B.At plus μ (writing B.readable C fun _ => []) qs

namespace Reading

theorem of_empty (h : B.At plus μ .empty qs) : B.Reading plus ∅ μ qs :=
  h.mono fun _ _ x hx => absurd hx (Set.notMem_empty x)

theorem at_empty (h : B.Reading plus ∅ μ qs) : B.At plus μ .empty qs :=
  At.mono h fun _ _ _ hx => hx.1

theorem mono (h : B.Reading plus C μ qs) (hC : C ⊆ C') : B.Reading plus C' μ qs :=
  At.mono h fun _ _ _ hx => ⟨hC hx.1, hx.2⟩

theorem congr (h : B.Reading plus C μ qs) (hrs : ∀ i < B.size, qs i = rs i) :
    B.Reading plus C μ rs := At.congr h hrs

theorem read (h : B.Reading plus C μ qs) {D : Nat → Set X}
    (hrs : ∀ i < B.size, Performs (D i) μ (qs i) [] [] (rs i))
    (hD : ∀ i < B.size, ∀ x ∈ D i, x ∈ C ∧ x ∈ B.readable i) : B.Reading plus C μ rs :=
  (h.perform hrs).mono fun i hi x hx => hx.elim id (hD i hi x)

/-- The threads write, and have not yet come to a barrier. -/
theorem written (h : B.Reading plus C μ qs) {D : Nat → Set X} {ws : Nat → List (X × V)}
    (hrs : ∀ i < B.size, Performs (D i) μ (qs i) (ws i) [] (rs i))
    (hD : ∀ i < B.size, ∀ x ∈ D i, x ∈ C ∧ x ∈ B.readable i) :
    B.At plus μ (writing B.readable C ws) rs :=
  (h.perform hrs).mono fun i hi x hx => hx.elim id (hD i hi x)

/-- The threads write, and all of them wait. -/
theorem write [RightCommutative plus] (h : B.Reading plus C μ qs) (hn : 0 < B.size)
    (ws : Nat → List (X × V)) {k : Nat → Program (Access X V) V Unit}
    (hqs : ∀ i < B.size, Performs ∅ μ (qs i) (ws i) [] (barrier >>= fun _ => k i))
    (hC : ∀ i < B.size, ∀ w ∈ ws i, w.1 ∉ C) (hown : ∀ i < B.size, ∀ w ∈ ws i, w.1 ∈ B.own)
    (hws : Distinct B.size ws) :
    ∃ μ', B.Reading plus ∅ μ' k ∧ (∀ i < B.size, ∀ w ∈ ws i, μ' w.1 = w.2) ∧
      ∀ x, (∀ i < B.size, ∀ w ∈ ws i, w.1 ≠ x) → μ' x = μ x := by
  have hrace : (writing B.readable C ws).RaceFree B.size := raceFree_writing hC hws
  have hwritten := h.written hqs fun _ _ x hx => absurd hx (Set.notMem_empty x)
  refine ⟨_, of_empty (hwritten.sync (k := fun i _ => k i) hn (fun _ _ => rfl) hrace
    (fun _ _ _ hx => hx.2) fun x hx => ?_), fun i hi w hw => ?_, fun x hx => ?_⟩
  · obtain ⟨i, hi, w, hw, rfl⟩ := updates_writing.mp hx
    exact hown i hi w hw
  · exact hrace.after_written (Footprint.mem_allWrites.mpr ⟨i, hi, hw⟩)
  · refine Footprint.after_kept fun hupdates => ?_
    obtain ⟨i, hi, w, hw, heq⟩ := updates_writing.mp hupdates
    exact hx i hi w hw heq

end Reading

-- ============================================================================
-- Through a tree
-- ============================================================================

section Reduces

variable {M : Type} [AddCommMonoid M] {lift : M → σ} {scratch result : Set X}
  {reduce : Nat → σ → Program (Access X V) V σ}

/-- Every thread goes on with what the values of all threads come to.  In between the block
    writes cells of `scratch`, and behind its last barrier the threads read `result`. -/
def Reduces (B : Block X V) (plus : V → V → V) (lift : M → σ) (scratch result : Set X)
    (reduce : Nat → σ → Program (Access X V) V σ) : Prop :=
  ∀ (C : Set X) (μ : X → V) (s : Nat → M) (k : Nat → σ → Program (Access X V) V Unit),
    (∀ x ∈ C, x ∉ scratch) → B.Reading plus C μ (fun i => reduce i (lift (s i)) >>= k i) →
      ∃ μ', B.Reading plus result μ' (fun i => k i (lift (∑ i ∈ Finset.range B.size, s i))) ∧
        ∀ x ∉ scratch, μ' x = μ x

theorem Reduces.mono {scratch' : Set X} (h : B.Reduces plus lift scratch result reduce)
    (hsub : scratch ⊆ scratch') : B.Reduces plus lift scratch' result reduce := by
  intro C μ s k hC hat
  obtain ⟨μ', h', hkept⟩ := h C μ s k (fun x hx hmem => hC x hx (hsub hmem)) hat
  exact ⟨μ', h', fun x hx => hkept x fun hmem => hx (hsub hmem)⟩

end Reduces

end Block

/-- The values go into the cells; after a tree, all threads read the first one. -/
def treeReduce [Zero V] (blockDim : Nat) (cell : Nat → X) (op : V → V → V) (tid : Nat) (val : V) :
    Program (Access X V) V V := do
  store (cell tid) val
  barrier
  treeLoop (halvingsTo 1 blockDim) lowHalf cell op tid
  let result ← load (cell 0)
  barrier
  pure result

namespace Block

section Tree

variable {M : Type} [AddCommMonoid M] {lift : M → V} [DecidableEq X] [Zero V] {B : Block X V}
  {plus : V → V → V} {cell : Nat → X} {op : V → V → V}

theorem treeReduce_reduces [RightCommutative plus] {k : Nat} (hsize : B.size = 2 ^ k)
    (hop : ∀ a b, op (lift a) (lift b) = lift (a + b)) (hcell : Function.Injective cell)
    (hread : ∀ i < B.size, ∀ j < B.size, cell j ∈ B.readable i)
    (hown : ∀ j < B.size, cell j ∈ B.own) :
    B.Reduces plus lift {x | ∃ j < B.size, x = cell j} ∅ (treeReduce B.size cell op) := by
  intro C μ s next hC h
  have hn : 0 < B.size := hsize ▸ Nat.two_pow_pos k
  -- each thread writes its cell
  obtain ⟨μ₁, h₁, hvals₁, hkept₁⟩ := h.write hn (fun i => [(cell i, lift (s i))])
    (k := fun i => treeLoop (halvingsTo 1 B.size) lowHalf cell op i >>= fun _ =>
      load (cell 0) >>= fun r => barrier >>= fun _ => next i r)
    (fun i _ => by
      simp only [treeReduce, bind_assoc]
      exact .write .here)
    (fun i hi w hw hmem => hC _ hmem ⟨i, hi, congrArg Prod.fst (List.mem_singleton.mp hw)⟩)
    (fun i hi w hw => List.mem_singleton.mp hw ▸ hown i hi)
    (fun i _ j _ w hw w' hw' heq => by
      obtain rfl := List.mem_singleton.mp hw
      obtain rfl := List.mem_singleton.mp hw'
      obtain rfl := hcell heq
      exact ⟨rfl, rfl⟩)
  -- the tree leaves the sum in the first one
  obtain ⟨μ₂, h₂, hvals₂, hkept₂⟩ := h₁.at_empty.treeLoop hn (fun _ _ => rfl)
    (fun _ _ _ _ heq => hcell heq) hread hown (hsize ▸ fits_lowHalf k.zero_le le_rfl)
    fun j hj => hvals₁ j hj (cell j, lift (s j)) (List.mem_singleton_self _)
  have htotal : μ₂ (cell 0) = lift (∑ i ∈ Finset.range B.size, s i) := by
    rw [hvals₂ 0 hn, foldl_stage_lift hop, hsize, ← sum_foldl_lowHalf s k.zero_le]
    exact congrArg lift (Finset.sum_range_one _).symm
  -- all threads read it
  have hloaded := ((Reading.of_empty h₂).mono (Set.empty_subset {cell 0})).read
    (fun i _ => Performs.bind_here (.load (Set.mem_singleton _)))
    fun i hi x hx => ⟨hx, Set.mem_singleton_iff.mp hx ▸ hread i hi 0 hn⟩
  obtain ⟨μ₃, h₃, -, hkept₃⟩ := hloaded.write hn (fun _ => [])
    (k := fun i => next i (lift (∑ i ∈ Finset.range B.size, s i)))
    (fun i _ => htotal ▸ .here) (fun _ _ _ hw => absurd hw List.not_mem_nil)
    (fun _ _ _ hw => absurd hw List.not_mem_nil) fun _ _ _ _ _ hw => absurd hw List.not_mem_nil
  refine ⟨μ₃, h₃, fun x hx => ?_⟩
  have hother : ∀ j < B.size, cell j ≠ x := fun j hj heq => hx ⟨j, hj, heq.symm⟩
  rw [hkept₃ x fun _ _ _ hw => absurd hw List.not_mem_nil, hkept₂ x hother]
  refine hkept₁ x fun i hi w hw => ?_
  rw [List.mem_singleton.mp hw]
  exact hother i hi

end Tree

end Block

-- ============================================================================
-- Through the warps
-- ============================================================================

/-- `val = op(val, other)`, where a shuffle for each half brings the other pair. -/
def reducePairStep (op : V × V → V × V → V × V) (tid : Nat) (val : V × V) (offset : Nat) :
    Program (Access X V) V (V × V) := do
  let a ← shflDown tid val.1 offset
  let b ← shflDown tid val.2 offset
  pure (op val (a, b))

/-- Each warp puts its values together, and the first one what the warps come to; lanes
    without a warp bring `empty`. -/
def warpReduce [DecidableEq X] [Zero V] (blockDim : Nat) (partials : Nat → Place X V σ)
    (result : Place X V σ) (step : Nat → σ → Nat → Program (Access X V) V σ) (empty : σ) (tid : Nat)
    (val : σ) : Program (Access X V) V σ := do
  let val ← warpLoop (step tid) val
  let lane := tid % 32
  let warpId := tid / 32
  (if lane = 0 then (partials warpId).store val else pure ())
  barrier
  let numWarps := (blockDim + 31) / 32
  let val ← (if tid < numWarps then (partials tid).load else pure empty)
  let val ← (if warpId = 0 then warpLoop (step tid) val else pure val)
  (if tid = 0 then result.store val else pure ())
  barrier
  result.load

namespace Block

section Warps

variable [DecidableEq X] [Zero V] {B : Block X V} {plus : V → V → V} {M : Type} [AddCommMonoid M]
  {lift : M → σ} {op : σ → σ → σ} {partials : Nat → Place X V σ} {result : Place X V σ}
  {step : Nat → σ → Nat → Program (Access X V) V σ}

theorem exchanges_reducePairStep (hsize : B.size % 32 = 0) (op : V × V → V × V → V × V) :
    B.Exchanges plus op (reducePairStep op) := by
  intro μ f qs P _ offset s k h hqs
  -- one shuffle after the other
  let other (i : Nat) : V × V := if i % 32 + offset < 32 then s (i + offset) else s i
  have hfst := h.shflDown_all hsize P offset (fun i => (s i).1)
    (k := fun i a => shflDown i (s i).2 offset >>= fun b => k i (op (s i) (a, b))) hqs
  have hsnd := hfst.shflDown_all hsize P offset (fun i => (s i).2)
    (k := fun i b => k i (op (s i) ((other i).1, b))) fun i _ hP => by
      rw [if_pos hP, ← apply_ite Prod.fst]
  refine hsnd.congr fun i _ => ?_
  split
  · rw [← apply_ite Prod.snd]
    rfl
  · rfl

/-- The cells that the block writes. -/
def warpScratch (n : Nat) (partials : Nat → Place X V σ) (result : Place X V σ) : Set X :=
  {x | (∃ w, 32 * w < n ∧ x ∈ (partials w).cells) ∨ x ∈ result.cells}

/-- What warp `w` comes to. -/
def warpSum (n : Nat) (s : Nat → M) (w : Nat) : M :=
  if 32 * w < n then ∑ j ∈ Finset.range 32, s (32 * w + j) else 0

theorem sum_warpSum {n : Nat} (hn : n % 32 = 0) (hmax : n ≤ 1024) (s : Nat → M) :
    ∑ w ∈ Finset.range 32, warpSum n s w = ∑ i ∈ Finset.range n, s i := by
  obtain ⟨m, rfl⟩ := Nat.dvd_of_mod_eq_zero hn
  rw [Nat.mul_comm 32 m, Kernels.sum_range_mul]
  have hsub : Finset.range m ⊆ Finset.range 32 := Finset.range_subset_range.mpr (by omega)
  rw [← Finset.sum_subset hsub fun w _ hw => ?_]
  · refine Finset.sum_congr rfl fun w hw => ?_
    have hlt : 32 * w < m * 32 := by
      have := Finset.mem_range.mp hw
      omega
    rw [warpSum, if_pos hlt]
    simp only [Nat.mul_comm 32 w]
  · have hge : ¬ 32 * w < m * 32 := by
      have hnot : ¬ w < m := fun hlt => hw (Finset.mem_range.mpr hlt)
      omega
    exact if_neg hge

/-- Some threads store their values, each in a place of its own, and all of them wait. -/
theorem Reading.store [RightCommutative plus] {C : Set X} {μ : X → V} (hn : 0 < B.size)
    {p : Nat → Prop} [DecidablePred p] (place : Nat → Place X V σ) {val : Nat → σ}
    {k : Nat → Program (Access X V) V Unit}
    (h : B.Reading plus C μ fun i =>
      (if p i then (place i).store (val i) else pure ()) >>= fun _ => barrier >>= fun _ => k i)
    (hcells : ∀ i < B.size, p i → ∀ x ∈ (place i).cells, x ∉ C ∧ x ∈ B.own)
    (happart : ∀ i < B.size, ∀ j < B.size, p i → p j → ∀ x ∈ (place i).cells,
      x ∈ (place j).cells → i = j) :
    ∃ μ', B.Reading plus ∅ μ' k ∧
      (∀ i < B.size, p i → ∀ w ∈ (place i).words (val i), μ' w.1 = w.2) ∧
        ∀ x, (∀ i < B.size, p i → x ∉ (place i).cells) → μ' x = μ x := by
  let ws (i : Nat) : List (X × V) := if p i then (place i).words (val i) else []
  have hws : ∀ i, ∀ w ∈ ws i, p i ∧ w ∈ (place i).words (val i) := fun _ _ hw =>
    List.mem_ite_nil_right.mp hw
  have hperforms :
      ∀ i < B.size, Performs ∅ μ ((if p i then (place i).store (val i) else pure ()) >>=
      fun _ => barrier >>= fun _ => k i) (ws i) [] (barrier >>= fun _ => k i) := by
    intro i _
    refine Performs.bind_here (r := ()) ?_
    dsimp only [ws]
    split
    · exact (place i).store_performs (val i)
    · exact .here
  have hmine : ∀ i < B.size, ∀ w ∈ ws i, w.1 ∉ C ∧ w.1 ∈ B.own := fun i hi w hw =>
    hcells i hi (hws i w hw).1 _ ((place i).words_cells (hws i w hw).2)
  have hdistinct : Footprint.Distinct B.size ws := by
    intro i hi j hj w hw w' hw' heq
    obtain ⟨hp, hw⟩ := hws i w hw
    obtain ⟨hp', hw'⟩ := hws j w' hw'
    obtain rfl := happart i hi j hj hp hp' _ ((place i).words_cells hw)
      (heq ▸ (place j).words_cells hw')
    exact ⟨rfl, (place i).words_inj hw hw' heq⟩
  obtain ⟨μ', h', hwritten, hkept⟩ := h.write hn ws hperforms (fun i hi w hw => (hmine i hi w hw).1)
    (fun i hi w hw => (hmine i hi w hw).2) hdistinct
  refine ⟨μ', h', fun i hi hp w hw => hwritten i hi w ?_, fun x hx => hkept x ?_⟩
  · dsimp only [ws]
    rwa [if_pos hp]
  · rintro i hi w hw rfl
    exact hx i hi (hws i w hw).1 ((place i).words_cells (hws i w hw).2)

theorem warpReduce_reduces [RightCommutative plus] (hn : 0 < B.size) (hsize : B.size % 32 = 0)
    (hmax : B.size ≤ 1024) (hstep : B.Exchanges plus op step)
    (hop : ∀ a b, op (lift a) (lift b) = lift (a + b))
    (hpartials : ∀ w w' x, x ∈ (partials w).cells → x ∈ (partials w').cells → w = w')
    (hresult : ∀ w, ∀ x ∈ (partials w).cells, x ∉ result.cells)
    (hread : ∀ i < B.size, ∀ x ∈ warpScratch B.size partials result, x ∈ B.readable i)
    (hown : ∀ x ∈ warpScratch B.size partials result, x ∈ B.own) :
    B.Reduces plus lift (warpScratch B.size partials result) result.cells
      (warpReduce B.size partials result step (lift 0)) := by
  intro C μ s next hC h
  -- what a thread does once its warp has shuffled, and once the first one has
  let last (i : Nat) (val : σ) : Program (Access X V) V Unit :=
    (if i = 0 then result.store val else pure ()) >>= fun _ => barrier >>= fun _ =>
      result.load >>= next i
  let first (i : Nat) (val : σ) : Program (Access X V) V Unit :=
    (if i / 32 = 0 then warpLoop (step i) val else pure val) >>= last i
  let second (i : Nat) : Program (Access X V) V Unit :=
    (if i < (B.size + 31) / 32 then (partials i).load else pure (lift 0)) >>= first i
  have hshuffled : B.Reading plus C μ fun i =>
      (if i % 32 = 0 then (partials (i / 32)).store (warpFold op (fun i => lift (s i)) i)
        else pure ()) >>= fun _ => barrier >>= fun _ => second i := by
    refine Reading.congr (At.warpLoop h hstep (fun _ => True) (s := fun i => lift (s i))
      (k := fun i val =>
        (if i % 32 = 0 then (partials (i / 32)).store val else pure ()) >>= fun _ =>
        barrier >>= fun _ => second i) fun i _ _ => ?_) fun i _ => if_pos trivial
    simp only [warpReduce, bind_assoc, second, first, last]
  -- the partial results are written
  have hmine : ∀ i < B.size, i % 32 = 0 → ∀ x ∈ (partials (i / 32)).cells, x ∉ C ∧ x ∈ B.own := by
    intro i hi hlane x hx
    have hin : x ∈ warpScratch B.size partials result := .inl ⟨i / 32, by omega, hx⟩
    exact ⟨fun hmem => hC x hmem hin, hown x hin⟩
  obtain ⟨μ₁, h₁, hvals₁, hkept₁⟩ := Reading.store hn (fun i => partials (i / 32)) hshuffled hmine
    fun i _ j _ hi hj x hx hx' => by
      have hwarp := hpartials _ _ x hx hx'
      omega
  have hpart : ∀ w, 32 * w < B.size → ∀ p ∈ (partials w).words (lift (warpSum B.size s w)),
      μ₁ p.1 = p.2 := by
    intro w hw p hp
    have hlane := hvals₁ (32 * w) hw (Nat.mul_mod_right 32 w)
    rw [Nat.mul_div_cancel_left w (by decide), warpFold_eq lift hop] at hlane
    rw [warpSum, if_pos hw] at hp
    exact hlane p hp
  -- and read by the first threads
  let D (i : Nat) : Set X := {x | 32 * i < B.size ∧ x ∈ (partials i).cells}
  have hloads :
      ∀ i < B.size, Performs (D i) μ₁ (second i) [] [] (first i (lift (warpSum B.size s i))) := by
    intro i _
    refine Performs.bind_here ?_
    by_cases hi : 32 * i < B.size
    · rw [if_pos (by omega)]
      exact ((partials i).load_words (hpart i hi)).mono fun x hx => ⟨hi, hx⟩
    · rw [if_neg (by omega), warpSum, if_neg hi]
      exact .here
  have hloaded := (h₁.mono (Set.empty_subset {x | ∃ w, x ∈ (partials w).cells})).read hloads
    fun i hi x hx => ⟨⟨i, hx.2⟩, hread i hi x (.inl ⟨i, hx⟩)⟩
  -- the first warp shuffles
  have hfirst := At.warpLoop hloaded hstep (· = 0) (s := fun i => lift (warpSum B.size s i))
    (k := last) fun i _ hzero => congrArg (· >>= last i) (if_pos hzero)
  let val (i : Nat) : σ := if i / 32 = 0 then warpFold op (fun i => lift (warpSum B.size s i)) i
    else lift (warpSum B.size s i)
  have hlast : B.Reading plus {x | ∃ w, x ∈ (partials w).cells} μ₁ fun i => last i (val i) := by
    refine Reading.congr hfirst fun i _ => ?_
    dsimp only [val]
    split
    · rfl
    · rename_i hother
      exact congrArg (· >>= last i) (if_neg hother)
  have htotal : val 0 = lift (∑ i ∈ Finset.range B.size, s i) := by
    have hwarp := warpFold_eq lift hop (warpSum B.size s) 0
    simp only [Nat.mul_zero, Nat.zero_add, sum_warpSum hsize hmax] at hwarp
    exact hwarp
  -- the first thread writes the result
  obtain ⟨μ₂, h₂, hvals₂, hkept₂⟩ := Reading.store hn (p := (· = 0)) (fun _ => result) hlast
    (fun i _ _ x hx => ⟨fun ⟨w, hw⟩ => hresult w x hw hx, hown x (.inr hx)⟩)
    fun i _ j _ hi hj _ _ _ => hi.trans hj.symm
  -- and all threads read it
  have hends := (h₂.mono (Set.empty_subset result.cells)).read
    (fun i _ => (result.load_words (htotal ▸ hvals₂ 0 hn rfl)).bind_here)
    fun i hi x hx => ⟨hx, hread i hi x (.inr hx)⟩
  refine ⟨μ₂, hends, fun x hx => ?_⟩
  rw [hkept₂ x fun i _ _ hmem => hx (.inr hmem)]
  exact hkept₁ x fun i hi hlane hmem => hx (.inl ⟨i / 32, by omega, hmem⟩)

end Warps

end Block

end PassionProjects.Warps
