/-
  PassionProjects.Lib.Warps.Writers

  Launches whose blocks write.  Between two barriers a thread may write what it has read
  itself; in its last phase a thread writes cells that no other thread of the grid writes or
  reads.
-/

import PassionProjects.Lib.Warps.Launches
import PassionProjects.Lib.Warps.Reductions

namespace PassionProjects.Warps

open Program
open Kernels (replay_of_not_mem)

variable {X V R R' : Type}

-- ============================================================================
-- One thread
-- ============================================================================

namespace Performs

variable [DecidableEq X] {C : Set X} {μ : X → V} {ws ws' : List (X × V)}

/-- What is done under a condition. -/
theorem when {p : Program (Access X V) V Unit} (c : Prop) [Decidable c]
    (h : c → Performs C μ p ws [] (.ret ())) :
    Performs C μ (if c then p else pure ()) (if c then ws else []) [] (.ret ()) := by
  split
  · rename_i hc
    exact h hc
  · exact .here

/-- What comes first writes nothing that is read later. -/
theorem bind_apart {p : Program (Access X V) V R} {r : R} {f : R → Program (Access X V) V R'}
    {q : Program (Access X V) V R'} (h : Performs C μ p ws [] (.ret r))
    (hf : Performs C μ (f r) ws' [] q) (hws : ∀ w ∈ ws, w.1 ∉ C) :
    Performs C μ (p >>= f) (ws ++ ws') [] q := by
  apply h.bind
  apply hf.congr
  intro x hx
  apply replay_of_not_mem
  intro w hw heq
  exact hws w hw (heq ▸ hx)

end Performs

-- ============================================================================
-- A phase of a block
-- ============================================================================

namespace Footprint

/-- The threads read cells of `D`, and write `ws`. -/
def readWrite (D : Nat → Set X) (ws : Nat → List (X × V)) : Footprint X V := ⟨D, ws, fun _ => []⟩

variable {D : Nat → Set X} {ws : Nat → List (X × V)} {n : Nat}

theorem raceFree_readWrite (hapart : ∀ i < n, ∀ j < n, ∀ w ∈ ws i, w.1 ∈ D j → i = j)
    (hws : Distinct n ws) : RaceFree n (readWrite D ws) := by
  constructor
  · intro i hi j hj hij w hw
    exact ⟨fun hread => hij (hapart i hi j hj w hw hread),
      fun w' hw' heq => hij (hws i hi j hj w hw w' hw' heq).1⟩
  · exact fun i _ j _ a ha => absurd ha List.not_mem_nil
  · exact fun i hi w hw w' hw' heq => (hws i hi i hi w hw w' hw' heq).2

theorem updates_readWrite {x : X} :
    (readWrite D ws).Updates n x ↔ ∃ i < n, ∃ w ∈ ws i, w.1 = x :=
  @updates_writing X V (fun _ => ∅) ∅ ws n x

end Footprint

namespace Block

open Footprint (readWrite Distinct)

variable [DecidableEq X] [Zero V] {B : Block X V} {plus : V → V → V} {μ : X → V}
  {qs k : Nat → Program (Access X V) V Unit}

/-- The threads read and write, and all of them wait. -/
theorem At.exchange [RightCommutative plus] (h : B.At plus μ .empty qs) (hn : 0 < B.size)
    (D : Nat → Set X) (ws : Nat → List (X × V))
    (hqs : ∀ i < B.size, Performs (D i) μ (qs i) (ws i) [] (barrier >>= fun _ => k i))
    (hD : ∀ i < B.size, ∀ x ∈ D i, x ∈ B.readable i)
    (hown : ∀ i < B.size, ∀ w ∈ ws i, w.1 ∈ B.own)
    (hapart : ∀ i < B.size, ∀ j < B.size, ∀ w ∈ ws i, w.1 ∈ D j → i = j)
    (hws : Distinct B.size ws) :
    ∃ μ', B.At plus μ' .empty k ∧ (∀ i < B.size, ∀ w ∈ ws i, μ' w.1 = w.2) ∧
      ∀ x, (∀ i < B.size, ∀ w ∈ ws i, w.1 ≠ x) → μ' x = μ x := by
  have hrace : (readWrite D ws).RaceFree B.size := Footprint.raceFree_readWrite hapart hws
  refine ⟨_, h.phase hn hqs hrace hD hown fun i _ a ha => absurd ha List.not_mem_nil,
    fun i hi w hw => ?_, fun x hx => ?_⟩
  · exact hrace.after_written (Footprint.mem_allWrites.mpr ⟨i, hi, hw⟩)
  · refine Footprint.after_kept fun hupdates => ?_
    obtain ⟨i, hi, w, hw, heq⟩ := Footprint.updates_readWrite.mp hupdates
    exact hx i hi w hw heq

/-- The threads read and write, and end. -/
theorem At.last (h : B.At plus μ .empty qs) {D : Nat → Set X} {ws : Nat → List (X × V)}
    (hqs : ∀ i < B.size, Performs (D i) μ (qs i) (ws i) [] (.ret ())) :
    B.At plus μ (readWrite D ws) fun _ => .ret () := by
  have hlast := h.perform hqs
  rwa [Footprint.empty_extend] at hlast

end Block

-- ============================================================================
-- Launches
-- ============================================================================

namespace Launch

open Footprint (readWrite)

/-- In its last phase thread `i` of block `b` reads cells of `reads b i` and writes `ws b i`.
    The cells of `own b` are shared memory. -/
structure Writes (l : Launch X V) (isGlobal : X → Prop) (readable : Nat → Nat → Set X)
    (own : Nat → Set X) (reads : Nat → Nat → Set X) (ws : Nat → Nat → List (X × V)) : Prop where
  shared : ∀ b < l.gridDim, ∀ x ∈ own b, ¬ isGlobal x ∧ ∀ b' < l.gridDim,
    (x ∈ own b' → b = b') ∧ ∀ i < l.blockDim, x ∈ readable b' i → b = b'
  global : ∀ b < l.gridDim, ∀ i < l.blockDim, ∀ w ∈ ws b i, isGlobal w.1
  readable_of_reads : ∀ b < l.gridDim, ∀ i < l.blockDim, reads b i ⊆ readable b i
  unread : ∀ b < l.gridDim, ∀ i < l.blockDim, ∀ w ∈ ws b i, ∀ b' < l.gridDim, ∀ j < l.blockDim,
    w.1 ∈ readable b' j → b = b' ∧ (w.1 ∈ reads b' j → i = j)
  distinct : ∀ b < l.gridDim, ∀ i < l.blockDim, ∀ w ∈ ws b i, ∀ b' < l.gridDim, ∀ j < l.blockDim,
    ∀ w' ∈ ws b' j, w.1 = w'.1 → b = b' ∧ i = j ∧ w.2 = w'.2
  nodup : ∀ b < l.gridDim, ∀ i < l.blockDim, ((ws b i).map Prod.fst).Nodup

namespace Writes

variable {l : Launch X V} {isGlobal : X → Prop} {readable : Nat → Nat → Set X} {own : Nat → Set X}
  {reads : Nat → Nat → Set X} {ws : Nat → Nat → List (X × V)} {b : Nat}

theorem raceFree (h : l.Writes isGlobal readable own reads ws) (hb : b < l.gridDim) :
    (readWrite (reads b) (ws b)).RaceFree l.blockDim :=
  Footprint.raceFree_readWrite
    (fun i hi j hj w hw hread =>
      (h.unread b hb i hi w hw b hb j hj (h.readable_of_reads b hb j hj hread)).2 hread)
    fun i hi j hj w hw w' hw' heq => (h.distinct b hb i hi w hw b hb j hj w' hw' heq).2

variable [DecidableEq X] [Zero V] {plus : V → V → V} {μ : X → V}

/-- The blocks come to their last phases, and what they write does not depend on what the
    shared memory holds at first. -/
theorem ends (h : l.Writes isGlobal readable own reads ws)
    (hblocks : ∀ μ₀, (∀ x, isGlobal x → μ₀ x = μ x) → ∀ b < l.gridDim,
      ∃ μ', (l.block readable own μ₀ b).At plus μ' (readWrite (reads b) (ws b)) fun _ => .ret ()) :
    l.Ends plus isGlobal μ readable own (fun b => readWrite (reads b) (ws b)) fun _ _ => True := by
  intro μ₀ hμ₀
  constructor
  · exact fun _ _ => rfl
  · exact fun _ _ => rfl
  · exact fun _ _ => rfl
  · intro b hb
    obtain ⟨μ', h'⟩ := hblocks μ₀ hμ₀ b hb
    exact ⟨μ', h', h.raceFree hb, h.readable_of_reads b hb, trivial⟩
  · rintro b hb b' hb' hne x (hx | hx) i hi hread
    · exact hne (((h.shared b hb x hx).2 b' hb').2 i hi hread)
    · obtain ⟨j, hj, w, hw, rfl⟩ := Footprint.updates_readWrite.mp hx
      exact hne (h.unread b hb j hj w hw b' hb' i hi hread).1
  · intro b hb b' hb' hne x hx
    refine ⟨fun hx' => hne (((h.shared b hb x hx).2 b' hb').1 hx'), fun hupdates => ?_⟩
    obtain ⟨j, hj, w, hw, rfl⟩ := Footprint.updates_readWrite.mp hupdates
    exact (h.shared b hb _ hx).1 (h.global b' hb' j hj w hw)
  · intro b hb b' hb' hne w hw hupdates
    obtain ⟨i, hi, hw⟩ := Footprint.mem_allWrites.mp hw
    obtain ⟨j, hj, w', hw', heq⟩ := Footprint.updates_readWrite.mp hupdates
    exact hne (h.distinct b hb i hi w hw b' hb' j hj w' hw' heq.symm).1

/-- Threads that never wait. -/
theorem ends_of_performs (h : l.Writes isGlobal readable (fun _ => ∅) readable ws)
    (hthreads : ∀ μ₀, (∀ x, isGlobal x → μ₀ x = μ x) → ∀ b < l.gridDim, ∀ i < l.blockDim,
      Performs (readable b i) μ₀ (l.kernel b i) (ws b i) [] (.ret ())) :
    l.Ends plus isGlobal μ readable (fun _ => ∅) (fun b => readWrite (readable b) (ws b))
      fun _ _ => True := by
  apply h.ends
  intro μ₀ hμ₀ b hb
  have hstart : (l.block readable (fun _ => ∅) μ₀ b).At plus μ₀ .empty (l.kernel b) := .start
  exact ⟨μ₀, hstart.last (hthreads μ₀ hμ₀ b hb)⟩

variable [RightCommutative plus] {tr : List (Label (Access X V) V)}
  {c : Config (Access X V) V (X → V)}

theorem safe {may : Nat → Nat → X → Prop}
    (hends : l.Ends plus isGlobal μ readable own (fun b => readWrite (reads b) (ws b))
      fun _ _ => True)
    (hread : ∀ b < l.gridDim, ∀ i < l.blockDim, ∀ x ∈ readable b i, may b i x)
    (hown : ∀ b < l.gridDim, ∀ i < l.blockDim, ∀ x ∈ own b, may b i x)
    (hws : ∀ b < l.gridDim, ∀ i < l.blockDim, ∀ j < l.blockDim, ∀ w ∈ ws b j, may b i w.1) :
    Safe plus isGlobal may l μ := by
  refine hends.safe hread hown fun b hb i hi x hx => ?_
  obtain ⟨j, hj, w, hw, rfl⟩ := Footprint.updates_readWrite.mp hx
  exact hws b hb i hi j hj w hw

/-- What a thread writes in its last phase is there at the end, and was written once. -/
theorem written (h : l.Writes isGlobal readable own reads ws)
    (hends : l.Ends plus isGlobal μ readable own (fun b => readWrite (reads b) (ws b))
      fun _ _ => True)
    (hrun : Launched plus isGlobal l μ tr c) (hc : c.Finished) {i : Nat} (hb : b < l.gridDim)
    (hi : i < l.blockDim) {w : X × V} (hw : w ∈ ws b i) :
    c.state w.1 = w.2 ∧ (atCell w.1 (tr.filterMap Label.written)).length = 1 := by
  have hdistinct : Footprint.Distinct l.blockDim (ws b) := fun i hi j hj w hw w' hw' heq =>
    (h.distinct b hb i hi w hw b hb j hj w' hw' heq).2
  obtain ⟨hstate, hcount⟩ := hends.written (fun b hb x hx => (h.shared b hb x hx).1) hrun hc
    (h.global b hb i hi w hw) hb (v := w.2) (Footprint.mem_allWrites.mpr ⟨i, hi, hw⟩)
  have hcell : atCell w.1 ((readWrite (reads b) (ws b)).allWrites l.blockDim) = [w.2] :=
    @Footprint.atCell_writing X V (fun _ => ∅) ∅ (ws b) _ _ hdistinct (h.nodup b hb) i hi w hw
  exact ⟨hstate, hcount.trans (congrArg List.length hcell)⟩

/-- What no thread writes is as before. -/
theorem kept (h : l.Writes isGlobal readable own reads ws)
    (hends : l.Ends plus isGlobal μ readable own (fun b => readWrite (reads b) (ws b))
      fun _ _ => True)
    (hrun : Launched plus isGlobal l μ tr c) (hc : c.Finished) {x : X} (hx : isGlobal x)
    (hnone : ∀ b < l.gridDim, ∀ i < l.blockDim, ∀ w ∈ ws b i, w.1 ≠ x) : c.state x = μ x := by
  refine hends.kept (fun b hb x hx => (h.shared b hb x hx).1) hrun hc hx fun b hb hupdates => ?_
  obtain ⟨i, hi, w, hw, heq⟩ := Footprint.updates_readWrite.mp hupdates
  exact hnone b hb i hi w hw heq

end Writes

end Launch

-- ============================================================================
-- Runs to the end
-- ============================================================================

section Ends

variable [DecidableEq X] [Zero V] {plus : V → V → V} {isGlobal : X → Prop}
  {may : Nat → Nat → X → Prop} {l : Launch X V} {μ : X → V}

/-- Some schedule takes the launch to its end. -/
theorem Safe.exists_finished (h : Safe plus isGlobal may l μ) :
    ∃ tr c, Launched plus isGlobal l μ tr c ∧ c.Finished := by
  obtain ⟨n, hn⟩ := h.bounded μ fun _ _ => rfl
  have hrest : ∀ m tr c, Run l.blockDim (Access.exec plus) (l.start μ) tr c → n - tr.length < m →
      ∃ tr' c', Launched plus isGlobal l μ tr' c' ∧ c'.Finished := by
    intro m
    induction m with
    | zero => exact fun _ _ _ hlt => absurd hlt (Nat.not_lt_zero _)
    | succ m ih =>
        intro tr c hrun hlt
        have hlaunched : Launched plus isGlobal l μ tr c := ⟨μ, fun _ _ => rfl, hrun⟩
        rcases h.progress tr c hlaunched with hfinished | ⟨label, c', hstep⟩
        · exact ⟨tr, c, hlaunched, hfinished⟩
        · have hrun' : Run l.blockDim (Access.exec plus) (l.start μ) (tr ++ [label]) c' :=
            .step hrun hstep
          have hlength := hn _ _ hrun'
          rw [List.length_append, List.length_singleton] at hlength
          apply ih _ _ hrun'
          rw [List.length_append, List.length_singleton]
          omega
  exact hrest (n + 1) [] _ .start (Nat.lt_succ_of_le (Nat.sub_le ..))

/-- Safe launches can be run one after another. -/
theorem exists_completes {cs : List (Command X V)}
    (h : ∀ l, .launch l ∈ cs → ∃ may, ∀ μ, Safe plus isGlobal may l μ) (μ : X → V) :
    ∃ μ', Completes plus isGlobal cs μ μ' := by
  induction cs generalizing μ with
  | nil => exact ⟨μ, .nil⟩
  | cons c cs ih =>
      have ih := ih fun l hl => h l (List.mem_cons_of_mem c hl)
      cases c with
      | memset xs v =>
          obtain ⟨μ', hμ'⟩ := ih (Kernels.replay (xs.map (·, v)) μ)
          exact ⟨μ', .memset hμ'⟩
      | launch l =>
          obtain ⟨may, hsafe⟩ := h l List.mem_cons_self
          obtain ⟨tr, c, hrun, hc⟩ := (hsafe μ).exists_finished
          obtain ⟨μ', hμ'⟩ := ih c.state
          exact ⟨μ', .launch hrun hc hμ'⟩

end Ends

end PassionProjects.Warps
