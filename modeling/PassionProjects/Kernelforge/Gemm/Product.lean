/-
  PassionProjects.Kernelforge.Gemm.Product

  The tiled kernels compute the product of the reference, for all shapes whose launch the
  hardware takes.
-/

import Mathlib.Algebra.Ring.Int.Defs
import PassionProjects.Kernelforge.Gemm.GemmRegisterTiled

namespace PassionProjects.Kernelforge

open Kernels

variable {F : Type} [Semiring F]

-- ============================================================================
-- The reference
-- ============================================================================

/-- `reference::gemm`: the output, which was `c` before. -/
def gemm (a b c : Nat → F) (m n k : Nat) : Nat → F :=
  (List.range m).foldl (fun c mi =>
    (List.range n).foldl (fun c ni =>
      let acc := (List.range k).foldl (fun acc ki => acc + a (mi * k + ki) * b (ki * n + ni)) 0
      Function.update c (mi * n + ni) acc) c) c

/-- Assignments in a loop are writes. -/
theorem foldl_update {ι X V : Type} [DecidableEq X] (xs : List ι) (f : ι → X) (v : ι → V)
    (c : X → V) :
    xs.foldl (fun c i => Function.update c (f i) (v i)) c =
      replay (xs.map fun i => (f i, v i)) c := by
  induction xs generalizing c with
  | nil => rfl
  | cons i xs ih => exact ih _

theorem foldl_replay {ι X V : Type} [DecidableEq X] (xs : List ι) (ws : ι → List (X × V))
    (c : X → V) : xs.foldl (fun c i => replay (ws i) c) c = replay (xs.flatMap ws) c := by
  induction xs generalizing c with
  | nil => rfl
  | cons i xs ih =>
      rw [List.foldl_cons, ih, List.flatMap_cons, replay_append]

theorem gemm_eq {x : GemmJob F} {row col : Nat} (hrow : row < x.m) (hcol : col < x.n)
    (c : Nat → F) : gemm x.a x.b c x.m x.n x.k (row * x.n + col) = x.dot row col := by
  have hwrites : gemm x.a x.b c x.m x.n x.k = replay ((List.range x.m).flatMap fun mi =>
      (List.range x.n).map fun ni => (mi * x.n + ni, x.dot mi ni)) c := by
    rw [← foldl_replay]
    refine congrArg (fun f => (List.range x.m).foldl f c) ?_
    funext c mi
    rw [← foldl_update]
    refine congrArg (fun f => (List.range x.n).foldl f c) ?_
    funext c ni
    exact congrArg (Function.update c (mi * x.n + ni)) (foldl_add_eq_sum _ x.k)
  rw [hwrites]
  refine replay_of_mem (fun w hw heq => ?_) ⟨(row * x.n + col, x.dot row col), ?_, rfl⟩ c
  · obtain ⟨mi, -, hw⟩ := List.mem_flatMap.mp hw
    obtain ⟨ni, hni, rfl⟩ := List.mem_map.mp hw
    obtain ⟨rfl, rfl⟩ := index_inj (List.mem_range.mp hni) hcol heq
    rfl
  · exact List.mem_flatMap.mpr ⟨row, List.mem_range.mpr hrow,
      List.mem_map.mpr ⟨col, List.mem_range.mpr hcol, rfl⟩⟩

theorem product_eq {x : GemmJob F} {row col : Nat} (hcol : col < x.n) :
    x.product (.c (row * x.n + col)) = x.dot row col := by
  have hpos := Nat.zero_lt_of_lt hcol
  show x.dot _ _ = _
  rw [Nat.mul_comm, Nat.mul_add_div hpos, Nat.mul_add_mod, Nat.div_eq_of_lt hcol,
    Nat.mod_eq_of_lt hcol, Nat.add_zero]

-- ============================================================================
-- The launchers
-- ============================================================================

theorem gemmTiledLaunch_ok {m n k : Nat} (hm : m ≤ 2 ^ 31 - 64) (hn : n ≤ 2 ^ 31 - 64)
    (hgrid : (m + kGemmTileDim - 1) / kGemmTileDim ≤ 65535) :
    gemmTiledLaunch (F := F) m n k [] =
      (.ok (), if m = 0 ∨ n = 0 then [] else [gemmTiledGrid m n k]) := by
  unfold gemmTiledLaunch
  split
  · rfl
  · rename_i hpos
    have hone : 1 ≤ 65535 := by decide
    have hblock : kGemmTileDim * kGemmTileDim * 1 ≤ 1024 ∧
        2 * (kGemmTileDim * kGemmTileDim) * 4 ≤ 49152 := by decide
    have hx : (gemmTiledGrid (F := F) m n k).grid.x = (n + kGemmTileDim - 1) / kGemmTileDim :=
      gridSize_eq (by decide) (by decide) hn
    have hy : (gemmTiledGrid (F := F) m n k).grid.y = (m + kGemmTileDim - 1) / kGemmTileDim :=
      gridSize_eq (by decide) (by decide) hm
    refine Launch3.submit_ok ⟨?_, ?_, ⟨Nat.one_pos, hone⟩, ?_⟩ []
    · rw [hx]
      unfold kGemmTileDim
      omega
    · rw [hy]
      unfold kGemmTileDim at hgrid ⊢
      omega
    · have hside : 0 < kGemmTileDim ∧ kGemmTileDim ≤ 1024 := by decide
      exact ⟨hside, hside, ⟨Nat.one_pos, Nat.le_of_ble_eq_true rfl⟩, hblock.1, hblock.2⟩

theorem gemmRegisterTiledLaunch_ok {m n k : Nat} (hm : m ≤ 2 ^ 31 - 64) (hn : n ≤ 2 ^ 31 - 64)
    (hgrid : (m + kGemmRegBM - 1) / kGemmRegBM ≤ 65535) :
    gemmRegisterTiledLaunch (F := F) m n k [] =
      (.ok (), if m = 0 ∨ n = 0 then [] else [gemmRegisterTiledGrid m n k]) := by
  unfold gemmRegisterTiledLaunch
  split
  · rfl
  · rename_i hpos
    have hone : 1 ≤ 65535 := by decide
    have hblock : kGemmRegBlockThreads * 1 * 1 ≤ 1024 ∧
        (kGemmRegBM * kGemmRegBK + kGemmRegBK * kGemmRegBN) * 4 ≤ 49152 := by decide
    have hx : (gemmRegisterTiledGrid (F := F) m n k).grid.x = (n + kGemmRegBN - 1) / kGemmRegBN :=
      gridSize_eq (by decide) (by decide) hn
    have hy : (gemmRegisterTiledGrid (F := F) m n k).grid.y = (m + kGemmRegBM - 1) / kGemmRegBM :=
      gridSize_eq (by decide) (by decide) hm
    refine Launch3.submit_ok ⟨?_, ?_, ⟨Nat.one_pos, hone⟩, ?_⟩ []
    · rw [hx]
      unfold kGemmRegBN
      omega
    · rw [hy]
      unfold kGemmRegBM at hgrid ⊢
      omega
    · have hside : 0 < kGemmRegBlockThreads ∧ kGemmRegBlockThreads ≤ 1024 := by decide
      have hside' : 0 < 1 ∧ 1 ≤ 1024 := by decide
      exact ⟨hside, hside', ⟨Nat.one_pos, Nat.le_of_ble_eq_true rfl⟩, hblock.1, hblock.2⟩

/-- The launches, if there is anything to write, compute the product. -/
def Multiplies (x : GemmJob F) (bm bn bk : Nat) (ls : List (Launch3 GemmCell F)) : Prop :=
  (0 < x.m * x.n → ls.length = 1) ∧ ∀ l ∈ ls, ∀ μ, x.Holds μ →
    l.Computes GemmCell.IsGlobal (GemmCell.InBuffer x.m x.n x.k bm bn bk) (IsOutput x.m x.n) μ
      x.product

theorem multiplies_of_computes {x : GemmJob F} {bm bn bk : Nat} {l : Launch3 GemmCell F}
    (h : ∀ μ, x.Holds μ → l.Computes GemmCell.IsGlobal
      (GemmCell.InBuffer x.m x.n x.k bm bn bk) (IsOutput x.m x.n) μ x.product) :
    Multiplies x bm bn bk (if x.m = 0 ∨ x.n = 0 then [] else [l]) := by
  constructor
  · intro hpos
    have hne : ¬ (x.m = 0 ∨ x.n = 0) := by
      rintro (hm | hn)
      · rw [hm, Nat.zero_mul] at hpos
        exact absurd hpos (Nat.lt_irrefl 0)
      · rw [hn, Nat.mul_zero] at hpos
        exact absurd hpos (Nat.lt_irrefl 0)
    rw [if_neg hne]
    rfl
  · intro l' hl'
    split at hl'
    · exact absurd hl' List.not_mem_nil
    · rw [List.mem_singleton.mp hl']
      exact h

/-- Both tiled kernels compute the product of the reference. -/
theorem tiled_gemm_computes (x : GemmJob F) (hm : x.m ≤ 2 ^ 31 - 64) (hn : x.n ≤ 2 ^ 31 - 64)
    (hk : x.k ≤ 2 ^ 31 - 64) :
    ((x.m + kGemmTileDim - 1) / kGemmTileDim ≤ 65535 →
      ∃ ls, gemmTiledLaunch x.m x.n x.k [] = (.ok (), ls) ∧
        Multiplies x kGemmTileDim kGemmTileDim kGemmTileDim ls) ∧
    ((x.m + kGemmRegBM - 1) / kGemmRegBM ≤ 65535 →
      ∃ ls, gemmRegisterTiledLaunch x.m x.n x.k [] = (.ok (), ls) ∧
        Multiplies x kGemmRegBM kGemmRegBN kGemmRegBK ls) ∧
    ∀ row < x.m, ∀ col < x.n,
      x.product (.c (row * x.n + col)) =
        ∑ j ∈ Finset.range x.k, x.a (row * x.k + j) * x.b (j * x.n + col) ∧
      ∀ c, gemm x.a x.b c x.m x.n x.k (row * x.n + col) = x.product (.c (row * x.n + col)) := by
  refine ⟨fun hgrid => ⟨_, gemmTiledLaunch_ok hm hn hgrid, ?_⟩,
    fun hgrid => ⟨_, gemmRegisterTiledLaunch_ok hm hn hgrid, ?_⟩, fun row hrow col hcol => ?_⟩
  · exact multiplies_of_computes fun μ hμ => gemmTiled_computes hm hn hk hμ
  · exact multiplies_of_computes fun μ hμ => gemmRegisterTiled_computes hm hn hk hμ
  · exact ⟨product_eq hcol, fun c => (gemm_eq hrow hcol c).trans (product_eq hcol).symm⟩

/-- A shape that is no multiple of a tile, over the integers. -/
def raggedJob : GemmJob Int := ⟨33, 65, 17, fun i => i, fun i => i⟩

theorem tiled_gemm_computes_ragged :
    (∃ ls, gemmTiledLaunch 33 65 17 [] = (.ok (), ls) ∧
      Multiplies raggedJob kGemmTileDim kGemmTileDim kGemmTileDim ls) ∧
    ∃ ls, gemmRegisterTiledLaunch 33 65 17 [] = (.ok (), ls) ∧
      Multiplies raggedJob kGemmRegBM kGemmRegBN kGemmRegBK ls := by
  obtain ⟨htiled, hregister, -⟩ := tiled_gemm_computes raggedJob (by decide) (by decide) (by decide)
  exact ⟨htiled (by decide), hregister (by decide)⟩

end PassionProjects.Kernelforge
