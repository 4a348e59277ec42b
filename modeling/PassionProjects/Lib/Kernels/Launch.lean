/-
  PassionProjects.Lib.Kernels.Launch

  Kernels launched from a host program, one after another, on a memory part of which
  belongs to the blocks of one launch only; kernels on grids and blocks of three dimensions,
  and what it is for a launch to compute the values of some cells.
-/

import Mathlib.Data.Fintype.Prod
import PassionProjects.Lib.Kernels.Grid
import PassionProjects.Lib.Raising

namespace PassionProjects.Kernels

open Raising Raising.Prog

variable {X V ε : Type}

/-- A kernel for `gridX` by `gridY` blocks of `blockX` threads. -/
structure Launch (X V : Type) where
  gridX : Nat
  gridY : Nat
  blockX : Nat
  sharedBytes : Nat
  kernel : Nat × Nat → Nat → Program (Access X V) V Unit

namespace Launch

/-- The limits of the hardware. -/
def Accepted (l : Launch X V) : Prop :=
  (0 < l.gridX ∧ l.gridX < 2 ^ 31) ∧ (0 < l.gridY ∧ l.gridY ≤ 65535) ∧
    (0 < l.blockX ∧ l.blockX ≤ 1024) ∧ l.sharedBytes ≤ 49152

instance (l : Launch X V) : Decidable l.Accepted := inferInstanceAs (Decidable (_ ∧ _))

abbrev Block (l : Launch X V) := Fin l.gridX × Fin l.gridY

abbrev Thread (l : Launch X V) := Fin l.blockX

/-- The threads before their first step. -/
def start (l : Launch X V) (μ : X → V) : Config l.Block l.Thread (Access X V) V (X → V) :=
  ⟨μ, fun b i => l.kernel (b.1, b.2) i⟩

end Launch

theorem block_ne {gridX gridY : Nat} {b b' : Fin gridX × Fin gridY} (h : b ≠ b') :
    ((b.1, b.2) : Nat × Nat) ≠ (↑b'.1, ↑b'.2) := fun heq =>
  h (Prod.ext (Fin.ext (congrArg Prod.fst heq)) (Fin.ext (congrArg Prod.snd heq)))

section Runs

variable [DecidableEq X]

/-- From the memory `μ` the launch gets to `c`.  What the cells of the blocks hold at first
    is not known. -/
def Launched (isGlobal : X → Prop) (l : Launch X V) (μ : X → V)
    (tr : List (Label l.Block l.Thread (Access X V) V))
    (c : Config l.Block l.Thread (Access X V) V (X → V)) : Prop :=
  ∃ μ₀, (∀ x, isGlobal x → μ₀ x = μ x) ∧ Run Access.exec (l.start μ₀) tr c

end Runs

/-- A host program that launches kernels, and the launches it has made. -/
abbrev Host (ε X V : Type) := Prog ε (List (Launch X V))

/-- Launches a kernel, and fails with `e` where the hardware does not take it. -/
def submit (e : ε) (l : Launch X V) : Host ε X V Unit := ask l.Accepted e l

theorem submit_ok {e : ε} {l : Launch X V} (h : l.Accepted) (ls : List (Launch X V)) :
    submit e l ls = (.ok (), ls ++ [l]) := ask_ok h ls

theorem submit_error {e : ε} {l : Launch X V} (h : ¬ l.Accepted) (ls : List (Launch X V)) :
    submit e l ls = (.error e, ls) := ask_error h ls

-- ============================================================================
-- Three dimensions
-- ============================================================================

structure Dim3 where
  x : Nat
  y : Nat
  z : Nat
  deriving DecidableEq

/-- A kernel for a grid of blocks of threads. -/
structure Launch3 (X V : Type) where
  grid : Dim3
  block : Dim3
  sharedBytes : Nat
  kernel : Dim3 → Dim3 → Program (Access X V) V Unit

/-- The places in a box. -/
abbrev Dim3.Index (d : Dim3) := Fin d.x × Fin d.y × Fin d.z

def Dim3.at {d : Dim3} (i : d.Index) : Dim3 := ⟨i.1, i.2.1, i.2.2⟩

theorem Dim3.at_injective {d : Dim3} : Function.Injective (Dim3.at (d := d)) := by
  intro i j h
  injection h with hx hy hz
  exact Prod.ext (Fin.ext hx) (Prod.ext (Fin.ext hy) (Fin.ext hz))

namespace Launch3

/-- The limits of the hardware. -/
def Accepted (l : Launch3 X V) : Prop :=
  (0 < l.grid.x ∧ l.grid.x < 2 ^ 31) ∧ (0 < l.grid.y ∧ l.grid.y ≤ 65535) ∧
    (0 < l.grid.z ∧ l.grid.z ≤ 65535) ∧ (0 < l.block.x ∧ l.block.x ≤ 1024) ∧
    (0 < l.block.y ∧ l.block.y ≤ 1024) ∧ (0 < l.block.z ∧ l.block.z ≤ 64) ∧
    l.block.x * l.block.y * l.block.z ≤ 1024 ∧ l.sharedBytes ≤ 49152

instance (l : Launch3 X V) : Decidable l.Accepted := inferInstanceAs (Decidable (_ ∧ _))

/-- The threads before their first step. -/
def start (l : Launch3 X V) (μ : X → V) :
    Config l.grid.Index l.block.Index (Access X V) V (X → V) :=
  ⟨μ, fun b i => l.kernel (.at b) (.at i)⟩

/-- Launches a kernel, and fails with `e` where the hardware does not take it. -/
def submit (e : ε) (l : Launch3 X V) : Prog ε (List (Launch3 X V)) Unit := ask l.Accepted e l

theorem submit_ok {e : ε} {l : Launch3 X V} (h : l.Accepted) (ls : List (Launch3 X V)) :
    submit e l ls = (.ok (), ls ++ [l]) := ask_ok h ls

variable [DecidableEq X]

/-- From the memory `μ` the launch gets to `c`.  What the cells of the blocks hold at first
    is not known. -/
def Launched (isGlobal : X → Prop) (l : Launch3 X V) (μ : X → V)
    (tr : List (Label l.grid.Index l.block.Index (Access X V) V))
    (c : Config l.grid.Index l.block.Index (Access X V) V (X → V)) : Prop :=
  ∃ μ₀, (∀ x, isGlobal x → μ₀ x = μ x) ∧ Run Access.exec (l.start μ₀) tr c

/-- Under every schedule of its threads the launch stays inside the cells `inside`, has no
    races, ends, writes each cell of `target` once and no other global one, and leaves
    `result` there. -/
structure Computes (isGlobal inside target : X → Prop) (l : Launch3 X V) (μ : X → V)
    (result : X → V) : Prop where
  inside : ∀ before b i a v after c,
    Launched isGlobal l μ (before ++ .act b i a v :: after) c → inside a.cell
  raceFree : ∀ before between after b i j a a' v v' c,
    Launched isGlobal l μ
      (before ++ .act b i a v :: (between ++ .act b j a' v' :: after)) c →
        releases b between = 0 → i ≠ j → a.Apart a'
  progress : ∀ tr c, Launched isGlobal l μ tr c →
    c.Finished ∨ ∃ label c', Step Access.exec c label c'
  bounded : ∀ μ₀, (∀ x, isGlobal x → μ₀ x = μ x) →
    ∃ n, ∀ tr c, Run Access.exec (l.start μ₀) tr c → tr.length ≤ n
  writtenOnce : ∀ tr c, Launched isGlobal l μ tr c → c.Finished → ∀ x, target x →
    (tr.filterMap Label.written).countP (·.1 = x) = 1
  output : ∀ tr c, Launched isGlobal l μ tr c → c.Finished → ∀ x, target x →
    c.state x = result x
  kept : ∀ tr c, Launched isGlobal l μ tr c → c.Finished → ∀ x, isGlobal x → ¬ target x →
    c.state x = μ x

/-- A grid whose blocks write each cell of the target once computes what they leave. -/
theorem Computes.of_grid {isGlobal inside target : X → Prop} {l : Launch3 X V} {μ result : X → V}
    (fs : l.grid.Index → List (Footprint l.block.Index X V)) [Nonempty l.block.Index]
    (hgrid : ∀ μ₀ : X → V, (∀ x, isGlobal x → μ₀ x = μ x) → ∃ μ',
      GridPerforms μ₀ (fun b i => l.kernel (.at b) (.at i)) fs μ' ∧
        ∀ b x, target x → Writes (fs b) x → μ' b x = result x)
    (hinside : ∀ b, ∀ f ∈ fs b, ∀ i a, f.Has i a → inside a.cell)
    (honce : ∀ x, target x → ∃ b, (blockWrites (fs b)).countP (·.1 = x) = 1)
    (htarget : ∀ b x, Writes (fs b) x → isGlobal x → target x) :
    Computes isGlobal inside target l μ result := by
  have hwrites : ∀ x, target x → ∃ b, Writes (fs b) x := by
    intro x hx
    obtain ⟨b, hb⟩ := honce x hx
    obtain ⟨w, hw, heq⟩ := List.countP_pos_iff.mp (hb ▸ Nat.one_pos)
    obtain ⟨f, hf, i, hw⟩ := mem_blockWrites.mp hw
    exact ⟨b, f, hf, i, w, hw, of_decide_eq_true heq⟩
  constructor
  · rintro before b i a v after c ⟨μ₀, hμ₀, hrun⟩
    obtain ⟨μ', hperforms, -⟩ := hgrid μ₀ hμ₀
    obtain ⟨f, hf, hhas⟩ := hperforms.access hrun
    exact hinside b f (List.mem_of_getElem? hf) i a hhas
  · rintro before between after b i j a a' v v' c ⟨μ₀, hμ₀, hrun⟩ hbetween hij
    obtain ⟨μ', hperforms, -⟩ := hgrid μ₀ hμ₀
    exact hperforms.raceFree hrun hbetween hij
  · rintro tr c ⟨μ₀, hμ₀, hrun⟩
    obtain ⟨μ', hperforms, -⟩ := hgrid μ₀ hμ₀
    exact hperforms.progress hrun
  · intro μ₀ hμ₀
    obtain ⟨μ', hperforms, -⟩ := hgrid μ₀ hμ₀
    exact hperforms.bounded
  · rintro tr c ⟨μ₀, hμ₀, hrun⟩ hc x hx
    obtain ⟨μ', hperforms, -⟩ := hgrid μ₀ hμ₀
    obtain ⟨b, hb⟩ := honce x hx
    refine ((hperforms.writes hrun hc).countP_eq _).trans ?_
    rw [GridPerforms.gridWrites, countP_flatMap Finset.univ.nodup_toList (by simp : b ∈ _), hb]
    intro b' hne w hw
    refine decide_eq_false fun heq => ?_
    obtain ⟨w', hw', heq'⟩ := List.countP_pos_iff.mp (hb ▸ Nat.one_pos)
    obtain ⟨f, hf, i, hw⟩ := mem_blockWrites.mp hw
    obtain ⟨f', hf', i', hw'⟩ := mem_blockWrites.mp hw'
    exact (hperforms.apart b b' hne.symm x ⟨f', hf', i', w', hw', of_decide_eq_true heq'⟩).2
      ⟨f, hf, i, w, hw, heq⟩
  · rintro tr c ⟨μ₀, hμ₀, hrun⟩ hc x hx
    obtain ⟨μ', hperforms, hresult⟩ := hgrid μ₀ hμ₀
    obtain ⟨b, hb⟩ := hwrites x hx
    exact ((hperforms.state hrun hc).1 b x hb).trans (hresult b x hx hb)
  · rintro tr c ⟨μ₀, hμ₀, hrun⟩ hc x hglobal hx
    obtain ⟨μ', hperforms, -⟩ := hgrid μ₀ hμ₀
    exact ((hperforms.state hrun hc).2 x fun b hb => hx (htarget b x hb hglobal)).trans
      (hμ₀ x hglobal)

end Launch3

-- ============================================================================
-- Counting the writes of a block
-- ============================================================================

section Counting

variable {T : Type} [Fintype T] [DecidableEq X]

theorem countP_blockWrites_eq_zero {fs : List (Footprint T X V)} {x : X} (h : ¬ Writes fs x) :
    (blockWrites fs).countP (·.1 = x) = 0 := by
  refine List.countP_eq_zero.mpr fun w hw heq => h ?_
  obtain ⟨f, hf, i, hw⟩ := mem_blockWrites.mp hw
  exact ⟨f, hf, i, w, hw, of_decide_eq_true heq⟩

/-- Only the last phase writes the cell. -/
theorem countP_blockWrites_concat {fs : List (Footprint T X V)} {f : Footprint T X V} {x : X}
    (h : ¬ Writes fs x) :
    (blockWrites (fs ++ [f])).countP (·.1 = x) = f.allWrites.countP (·.1 = x) := by
  have hsplit : blockWrites (fs ++ [f]) = blockWrites fs ++ f.allWrites := by
    simp [blockWrites]
  rw [hsplit, List.countP_append, countP_blockWrites_eq_zero h, Nat.zero_add]

/-- Only one thread writes the cell. -/
theorem countP_allWrites {f : Footprint T X V} {i : T} {x : X}
    (h : ∀ j, j ≠ i → ∀ w ∈ f.writes j, w.1 ≠ x) :
    f.allWrites.countP (·.1 = x) = (f.writes i).countP (·.1 = x) := by
  rw [Footprint.allWrites, countP_flatMap Finset.univ.nodup_toList (by simp : i ∈ _)]
  exact fun j hne w hw => decide_eq_false (h j hne w hw)

end Counting

end PassionProjects.Kernels
