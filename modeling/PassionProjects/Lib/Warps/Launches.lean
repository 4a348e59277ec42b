/-
  PassionProjects.Lib.Warps.Launches

  What a host program asks of the device, one thing after another, and what holds of a
  launched kernel under every schedule of its threads.
-/

import PassionProjects.Lib.Raising
import PassionProjects.Lib.Warps.Grids

namespace PassionProjects.Warps

open Program Raising Raising.Prog
open Kernels (replay replay_of_mem)

variable {X V ε : Type}

/-- A kernel for a grid of blocks of threads. -/
structure Launch (X V : Type) where
  gridDim : Nat
  blockDim : Nat
  sharedBytes : Nat
  kernel : Nat → Nat → Program (Access X V) V Unit

inductive Command (X V : Type) where
  | memset (xs : List X) (v : V)
  | launch (l : Launch X V)

/-- A host program, and what it has asked for. -/
abbrev Host (ε X V : Type) := Prog ε (List (Command X V))

def memset (xs : List X) (v : V) : Host ε X V Unit := modify (· ++ [.memset xs v])

namespace Launch

/-- The limits of the hardware. -/
def Accepted (l : Launch X V) : Prop :=
  (0 < l.gridDim ∧ l.gridDim < 2 ^ 31) ∧ (0 < l.blockDim ∧ l.blockDim ≤ 1024) ∧
    l.sharedBytes ≤ 49152

instance (l : Launch X V) : Decidable l.Accepted := inferInstanceAs (Decidable (_ ∧ _))

/-- Launches a kernel, and fails with `e` where the hardware does not take it. -/
def submit (e : ε) (l : Launch X V) : Host ε X V Unit := ask l.Accepted e (.launch l)

theorem submit_ok {e : ε} {l : Launch X V} (h : l.Accepted) (cs : List (Command X V)) :
    submit e l cs = (.ok (), cs ++ [.launch l]) := ask_ok h cs

/-- The threads before their first step. -/
def start (l : Launch X V) (μ : X → V) : Config (Access X V) V (X → V) :=
  ⟨μ, fun b i => if b < l.gridDim ∧ i < l.blockDim then l.kernel b i else .ret ()⟩

def block (l : Launch X V) (readable : Nat → Nat → Set X) (own : Nat → Set X) (μ : X → V)
    (b : Nat) : Block X V := ⟨l.blockDim, b, readable b, own b, μ, l.kernel b⟩

end Launch

section Runs

variable [DecidableEq X] [Zero V] (plus : V → V → V) (isGlobal : X → Prop)

/-- From the memory `μ` the launch gets to `c`.  What the cells of the blocks hold at first
    is not known. -/
def Launched (l : Launch X V) (μ : X → V) (tr : List (Label (Access X V) V))
    (c : Config (Access X V) V (X → V)) : Prop :=
  ∃ μ₀, (∀ x, isGlobal x → μ₀ x = μ x) ∧ Run l.blockDim (Access.exec plus) (l.start μ₀) tr c

/-- Each command ends before the next one begins. -/
inductive Completes : List (Command X V) → (X → V) → (X → V) → Prop where
  | nil {μ : X → V} : Completes [] μ μ
  | memset {xs : List X} {v : V} {cs : List (Command X V)} {μ μ' : X → V} :
      Completes cs (replay (xs.map (·, v)) μ) μ' → Completes (.memset xs v :: cs) μ μ'
  | launch {l : Launch X V} {cs : List (Command X V)} {μ μ' : X → V}
      {tr : List (Label (Access X V) V)} {c : Config (Access X V) V (X → V)} :
      Launched plus isGlobal l μ tr c → c.Finished → Completes cs c.state μ' →
        Completes (.launch l :: cs) μ μ'

/-- Under every schedule thread `i` of block `b` stays inside the cells `may b i`, conflicting
    accesses have a meeting of their threads between them, and the launch ends. -/
structure Safe (may : Nat → Nat → X → Prop) (l : Launch X V) (μ : X → V) : Prop where
  inside : ∀ before b i a v after c,
    Launched plus isGlobal l μ (before ++ .act b i a v :: after) c → may b i a.cell
  raceFree : ∀ before between after b i a v b' j a' v' c,
    Launched plus isGlobal l μ
      (before ++ .act b i a v :: (between ++ .act b' j a' v' :: after)) c → (b, i) ≠ (b', j) →
        a.Apart a' ∨ ∃ m ∈ between, m.Involves l.blockDim b i ∧ m.Involves l.blockDim b' j
  progress : ∀ tr c, Launched plus isGlobal l μ tr c →
    c.Finished ∨ ∃ m c', Step l.blockDim (Access.exec plus) c m c'
  bounded : ∀ μ₀, (∀ x, isGlobal x → μ₀ x = μ x) →
    ∃ n, ∀ tr c, Run l.blockDim (Access.exec plus) (l.start μ₀) tr c → tr.length ≤ n

end Runs

section Outcome

variable [DecidableEq X] [Zero V] {plus : V → V → V} {isGlobal : X → Prop} {l : Launch X V}
  {μ : X → V} {readable : Nat → Nat → Set X} {own : Nat → Set X} {f : Nat → Footprint X V}
  {Q : Nat → (X → V) → Prop}

/-- The blocks of the launch come to their ends, whatever their own cells hold at first. -/
def Launch.Ends (plus : V → V → V) (isGlobal : X → Prop) (l : Launch X V) (μ : X → V)
    (readable : Nat → Nat → Set X) (own : Nat → Set X) (f : Nat → Footprint X V)
    (Q : Nat → (X → V) → Prop) : Prop :=
  ∀ μ₀, (∀ x, isGlobal x → μ₀ x = μ x) →
    GridEnds plus l.blockDim l.gridDim μ₀ (l.block readable own μ₀) f Q

theorem Launch.Ends.safe [RightCommutative plus] {may : Nat → Nat → X → Prop}
    (h : l.Ends plus isGlobal μ readable own f Q)
    (hread : ∀ b < l.gridDim, ∀ i < l.blockDim, ∀ x ∈ readable b i, may b i x)
    (hown : ∀ b < l.gridDim, ∀ i < l.blockDim, ∀ x ∈ own b, may b i x)
    (hupdates : ∀ b < l.gridDim, ∀ i < l.blockDim, ∀ x, (f b).Updates l.blockDim x → may b i x) :
    Safe plus isGlobal may l μ := by
  have hsymm : ∀ a a' : Access X V, a.Apart a' → a'.Apart a := fun _ _ => .symm
  have hcommute := Access.commute_of_apart (X := X) plus
  constructor
  · rintro before b i a v after c ⟨μ₀, hμ₀, hrun⟩
    have hgrid := h μ₀ hμ₀
    obtain ⟨W, hW, hplan⟩ := hgrid.scheduled
    obtain ⟨w', -, -, hperm, -⟩ := hplan.run hsymm hcommute hrun
    obtain ⟨hb, hi, -, hallows⟩ := hgrid.act_mem_word hW le_rfl (a := a) (b := b) (i := i) (v := v)
      (hperm.mem_iff.mp (by simp))
    by_cases ha : ∃ x, a = .read x
    · obtain ⟨x, rfl⟩ := ha
      exact hread b hb i hi x hallows
    · rcases hgrid.touches hb hallows fun x heq => ha ⟨x, heq⟩ with hx | hx
      · exact hown b hb i hi _ hx
      · exact hupdates b hb i hi _ hx
  · rintro before between after b i a v b' j a' v' c ⟨μ₀, hμ₀, hrun⟩ hne
    obtain ⟨W, hW, hplan⟩ := (h μ₀ hμ₀).scheduled
    exact hplan.raceFree hsymm hcommute hrun hne
  · rintro tr c ⟨μ₀, hμ₀, hrun⟩
    obtain ⟨W, hW, hplan⟩ := (h μ₀ hμ₀).scheduled
    obtain ⟨w', hw', -⟩ := hplan.run hsymm hcommute hrun
    exact hw'.progress
  · intro μ₀ hμ₀
    obtain ⟨W, hW, hplan⟩ := (h μ₀ hμ₀).scheduled
    refine ⟨(GridEnds.word l.gridDim W).length, fun tr c hrun => ?_⟩
    obtain ⟨w', -, -, hperm, -⟩ := hplan.run hsymm hcommute hrun
    have hlength := hperm.length_eq
    rw [List.length_append] at hlength
    exact hlength ▸ Nat.le_add_right _ _

namespace GridEnds

variable {n gridDim : Nat} {B : Nat → Block X V} {W : Nat → Word X V} {x : X}

/-- A cell that no block adds to. -/
theorem not_added (h : GridEnds plus n gridDim μ B f Q)
    (hW : ∀ b < gridDim, (B b).Plan plus (f b) (Q b) (W b)) (hx : ∀ b < gridDim, x ∉ (B b).own)
    {b : Nat} (hb : b < gridDim) {v : V} (hw : (x, v) ∈ (f b).allWrites n) :
    ∀ a ∈ (word gridDim W).filterMap Label.added, a.1 ≠ x := by
  rintro a ha rfl
  obtain ⟨b', hb', i, -, hallows⟩ := h.added_word hW le_rfl ha
  rcases hallows with hown | hadd
  · exact hx b' hb' hown
  · rw [h.size b' hb'] at hadd
    rcases eq_or_ne b b' with rfl | hne
    · obtain ⟨μ', -, hrace, -⟩ := h.ends b hb
      rw [h.size b hb] at hrace
      obtain ⟨i, hi, hadd⟩ := Footprint.mem_allAdds.mp hadd
      obtain ⟨j, hj, hw⟩ := Footprint.mem_allWrites.mp hw
      exact (hrace.adds i hi j hj _ hadd).2 _ hw rfl
    · exact h.unwritten b hb b' hb' hne _ hw (.inr ⟨_, hadd, rfl⟩)

/-- The values written to a cell are those that one block writes there. -/
theorem written_eq (h : GridEnds plus n gridDim μ B f Q)
    (hW : ∀ b < gridDim, (B b).Plan plus (f b) (Q b) (W b)) (hx : ∀ b < gridDim, x ∉ (B b).own)
    {b : Nat} (hb : b < gridDim) {v : V} (hw : (x, v) ∈ (f b).allWrites n) :
    (atCell x ((word gridDim W).filterMap Label.written)).Perm (atCell x ((f b).allWrites n)) := by
  have hother : ∀ b' < gridDim, b' ≠ b → atCell x ((W b').filterMap Label.written) = [] := by
    intro b' hb' hne
    have hnone : atCell x ((f b').allWrites n) = [] := atCell_eq_nil fun w' hw' heq =>
      h.unwritten b hb b' hb' hne.symm _ hw (.inl ⟨w', hw', heq⟩)
    have hperm := (hW b' hb').written x (hx b' hb')
    rw [h.size b' hb', hnone] at hperm
    exact hperm.eq_nil
  obtain ⟨before, after, hrange⟩ := List.append_of_mem (List.mem_range.mpr hb)
  have hnodup : (before ++ b :: after).Nodup := hrange ▸ List.nodup_range
  have hnil : ∀ xs : List Nat, (∀ c ∈ xs, c < gridDim ∧ c ≠ b) →
      atCell x ((xs.flatMap W).filterMap Label.written) = [] := by
    intro xs hxs
    rw [List.filterMap_flatMap, atCell_flatMap]
    exact List.flatMap_eq_nil_iff.mpr fun c hc => hother c (hxs c hc).1 (hxs c hc).2
  have hlt : ∀ c ∈ before ++ b :: after, c < gridDim := fun c hc =>
    List.mem_range.mp (hrange ▸ hc)
  have hsplit := List.nodup_middle.mp hnodup |>.notMem
  rw [word, hrange, List.flatMap_append, List.flatMap_cons, List.filterMap_append,
    List.filterMap_append, atCell_append, atCell_append,
    hnil before fun c hc => ⟨hlt c (by simp [hc]), fun heq => hsplit (by simp [← heq, hc])⟩,
    hnil after fun c hc => ⟨hlt c (by simp [hc]), fun heq => hsplit (by simp [← heq, hc])⟩,
    List.nil_append, List.append_nil]
  have hperm := (hW b hb).written x (hx b hb)
  rwa [h.size b hb] at hperm

/-- A cell that a block writes in its last phase has the value written. -/
theorem effect_written (h : GridEnds plus n gridDim μ B f Q)
    (hW : ∀ b < gridDim, (B b).Plan plus (f b) (Q b) (W b)) (hx : ∀ b < gridDim, x ∉ (B b).own)
    {b : Nat} (hb : b < gridDim) {v : V} (hw : (x, v) ∈ (f b).allWrites n) :
    effect plus (word gridDim W) μ x = v := by
  have hperm := h.written_eq hW hx hb hw
  obtain ⟨μ', -, hrace, -⟩ := h.ends b hb
  rw [h.size b hb] at hrace
  rw [effect_of_writes (h.not_added hW hx hb hw)]
  refine replay_of_mem (fun w' hw' heq => ?_)
    ⟨(x, v), mem_atCell.mp (hperm.mem_iff.mpr (mem_atCell.mpr hw)), rfl⟩ μ
  subst heq
  have hmem := mem_atCell.mp (hperm.mem_iff.mp (mem_atCell.mpr hw'))
  exact hrace.written_eq hw hmem rfl

/-- A cell that the blocks do not write has what was there and what they add to it. -/
theorem effect_added [RightCommutative plus] (h : GridEnds plus n gridDim μ B f Q)
    (hW : ∀ b < gridDim, (B b).Plan plus (f b) (Q b) (W b)) (hx : ∀ b < gridDim, x ∉ (B b).own)
    (hwrites : ∀ b < gridDim, ∀ w ∈ (f b).allWrites n, w.1 ≠ x) :
    effect plus (word gridDim W) μ x =
      ((List.range gridDim).flatMap fun b => atCell x ((f b).allAdds n)).foldl plus (μ x) := by
  have hnone : ∀ a ∈ (word gridDim W).filterMap Label.written, a.1 ≠ x := by
    rintro a ha rfl
    obtain ⟨b, hb, i, -, hallows⟩ := h.written_word hW le_rfl ha
    rcases hallows with hown | hw
    · exact hx b hb hown
    · rw [h.size b hb] at hw
      exact hwrites b hb _ hw rfl
  rw [effect_of_adds hnone]
  have hperm : (atCell x ((word gridDim W).filterMap Label.added)).Perm
      ((List.range gridDim).flatMap fun b => atCell x ((f b).allAdds n)) := by
    rw [word, List.filterMap_flatMap, atCell_flatMap]
    refine List.Perm.flatMap_left _ fun b hb => ?_
    have hb := List.mem_range.mp hb
    have hblock := (hW b hb).added x (hx b hb)
    rwa [h.size b hb] at hblock
  exact hperm.foldl_eq _

/-- A cell of a block's own has what was there at its last barrier. -/
theorem effect_own (h : GridEnds plus n gridDim μ B f Q)
    (hW : ∀ b < gridDim, (B b).Plan plus (f b) (Q b) (W b)) {b : Nat} (hb : b < gridDim) :
    ∃ μ', Q b μ' ∧ ∀ x ∈ (B b).own, ¬ (f b).Updates n x →
      effect plus (word gridDim W) μ x = μ' x := by
  obtain ⟨μ', hQ, hlast⟩ := (hW b hb).last
  refine ⟨μ', hQ, fun x hx hupdates => ?_⟩
  have hother : ∀ c < gridDim, c ≠ b → ∀ ν, effect plus (W c) ν x = ν x := by
    intro c hc hne ν
    have hshared := h.unshared b hb c hc hne.symm x hx
    have hnone : ∀ p : X × V, p.1 = x → p ∉ (f c).allWrites n ∧ p ∉ (f c).allAdds n := by
      rintro p rfl
      exact ⟨fun hp => hshared.2 (.inl ⟨p, hp, rfl⟩), fun hp => hshared.2 (.inr ⟨p, hp, rfl⟩)⟩
    refine effect_kept (fun p hp heq => ?_) (fun p hp heq => ?_) ν
    · have hmem : p.2 ∈ atCell x ((W c).filterMap Label.written) := mem_atCell.mpr (heq ▸ hp)
      have hin := mem_atCell.mp (((hW c hc).written x hshared.1).mem_iff.mp hmem)
      rw [h.size c hc] at hin
      exact (hnone (x, p.2) rfl).1 hin
    · have hmem : p.2 ∈ atCell x ((W c).filterMap Label.added) := mem_atCell.mpr (heq ▸ hp)
      have hin := mem_atCell.mp (((hW c hc).added x hshared.1).mem_iff.mp hmem)
      rw [h.size c hc] at hin
      exact (hnone (x, p.2) rfl).2 hin
  have hkept : ∀ xs : List Nat, (∀ c ∈ xs, c < gridDim ∧ c ≠ b) → ∀ ν,
      effect plus (xs.flatMap W) ν x = ν x := by
    intro xs
    induction xs with
    | nil => exact fun _ _ => rfl
    | cons c xs ih =>
        intro hxs ν
        rw [List.flatMap_cons, effect_append, ih fun c' hc' => hxs c' (List.mem_cons_of_mem c hc')]
        exact hother c (hxs c List.mem_cons_self).1 (hxs c List.mem_cons_self).2 ν
  obtain ⟨before, after, hrange⟩ := List.append_of_mem (List.mem_range.mpr hb)
  have hnodup : (before ++ b :: after).Nodup := hrange ▸ List.nodup_range
  have hlt : ∀ c ∈ before ++ b :: after, c < gridDim := fun c hc =>
    List.mem_range.mp (hrange ▸ hc)
  have hsplit := List.nodup_middle.mp hnodup |>.notMem
  rw [word, hrange, List.flatMap_append, List.flatMap_cons, effect_append, effect_append,
    hkept after fun c hc => ⟨hlt c (by simp [hc]), fun heq => hsplit (by simp [← heq, hc])⟩]
  rw [← hlast x (h.size b hb ▸ hupdates), h.memory b hb]
  exact effect_congr (hkept before
    (fun c hc => ⟨hlt c (by simp [hc]), fun heq => hsplit (by simp [← heq, hc])⟩) μ) (W b)

end GridEnds

namespace Launch.Ends

variable [RightCommutative plus] {tr : List (Label (Access X V) V)}
  {c : Config (Access X V) V (X → V)} {x : X}

/-- What is written in the last phase of a block is there at the end, and was written as
    often as this phase does. -/
theorem written (h : l.Ends plus isGlobal μ readable own f Q)
    (hown : ∀ b < l.gridDim, ∀ x ∈ own b, ¬ isGlobal x) (hrun : Launched plus isGlobal l μ tr c)
    (hc : c.Finished) (hx : isGlobal x) {b : Nat} (hb : b < l.gridDim) {v : V}
    (hw : (x, v) ∈ (f b).allWrites l.blockDim) :
    c.state x = v ∧ (atCell x (tr.filterMap Label.written)).length =
      (atCell x ((f b).allWrites l.blockDim)).length := by
  obtain ⟨μ₀, hμ₀, hrun⟩ := hrun
  have hgrid := h μ₀ hμ₀
  obtain ⟨W, hW, hplan⟩ := hgrid.scheduled
  obtain ⟨hperm, hstate⟩ := hplan.complete (fun _ _ => .symm) (Access.commute_of_apart plus) hrun hc
  have hnot : ∀ b < l.gridDim, x ∉ own b := fun b hb hmem => hown b hb x hmem hx
  refine ⟨?_, ?_⟩
  · rw [hstate]
    exact hgrid.effect_written hW hnot hb hw
  · exact (perm_atCell (hperm.filterMap _)).length_eq.trans
      (hgrid.written_eq hW hnot hb hw).length_eq

/-- What the blocks add in their last phases. -/
theorem added (h : l.Ends plus isGlobal μ readable own f Q)
    (hown : ∀ b < l.gridDim, ∀ x ∈ own b, ¬ isGlobal x) (hrun : Launched plus isGlobal l μ tr c)
    (hc : c.Finished) (hx : isGlobal x)
    (hwrites : ∀ b < l.gridDim, ∀ w ∈ (f b).allWrites l.blockDim, w.1 ≠ x) :
    c.state x = ((List.range l.gridDim).flatMap fun b =>
      atCell x ((f b).allAdds l.blockDim)).foldl plus (μ x) := by
  obtain ⟨μ₀, hμ₀, hrun⟩ := hrun
  have hgrid := h μ₀ hμ₀
  obtain ⟨W, hW, hplan⟩ := hgrid.scheduled
  obtain ⟨-, hstate⟩ := hplan.complete (fun _ _ => .symm) (Access.commute_of_apart plus) hrun hc
  rw [hstate, ← hμ₀ x hx]
  exact hgrid.effect_added hW (fun b hb hmem => hown b hb x hmem hx) hwrites

/-- What no block changes is as before. -/
theorem kept (h : l.Ends plus isGlobal μ readable own f Q)
    (hown : ∀ b < l.gridDim, ∀ x ∈ own b, ¬ isGlobal x) (hrun : Launched plus isGlobal l μ tr c)
    (hc : c.Finished) (hx : isGlobal x)
    (hnone : ∀ b < l.gridDim, ¬ (f b).Updates l.blockDim x) : c.state x = μ x := by
  rw [h.added hown hrun hc hx fun b hb w hw heq => hnone b hb (.inl ⟨w, hw, heq⟩)]
  have hnil : ((List.range l.gridDim).flatMap fun b =>
      atCell x ((f b).allAdds l.blockDim)) = [] :=
    List.flatMap_eq_nil_iff.mpr fun b hb => atCell_eq_nil fun a ha heq =>
      hnone b (List.mem_range.mp hb) (.inr ⟨a, ha, heq⟩)
  rw [hnil]
  rfl

end Launch.Ends

-- ============================================================================
-- Before the end
-- ============================================================================

namespace Launched

variable {P Q : Access X V → Prop} {tr : List (Label (Access X V) V)}
  {c : Config (Access X V) V (X → V)} {b i : Nat}

theorem takes (h : Launched plus isGlobal l μ tr c) (hin : b < l.gridDim ∧ i < l.blockDim) :
    Takes l.blockDim b i (l.kernel b i) tr (c.threads b i) := by
  obtain ⟨μ₀, -, hrun⟩ := h
  have hthread := hrun.takes b i
  dsimp only [Launch.start] at hthread
  rwa [if_pos hin] at hthread

/-- Threads that the launch does not have do nothing. -/
theorem idle (h : Launched plus isGlobal l μ tr c) (hout : ¬ (b < l.gridDim ∧ i < l.blockDim)) :
    (c.threads b i).All P := by
  obtain ⟨μ₀, -, hrun⟩ := h
  have hthread := hrun.takes b i
  dsimp only [Launch.start] at hthread
  rw [if_neg hout] at hthread
  exact (hthread.all trivial).1

theorem of_act (h : Launched plus isGlobal l μ tr c) {a : Access X V}
    {k : V → Program (Access X V) V Unit} (hthread : c.threads b i = .act a k) :
    b < l.gridDim ∧ i < l.blockDim := by
  by_contra hout
  have hnone := h.idle (P := fun _ => False) hout
  rw [hthread] at hnone
  exact hnone.1

theorem all (h : Launched plus isGlobal l μ tr c)
    (hP : ∀ i < l.blockDim, (l.kernel b i).All P) : (c.threads b i).All P := by
  by_cases hin : b < l.gridDim ∧ i < l.blockDim
  · exact ((h.takes hin).all (hP i hin.2)).1
  · exact h.idle hin

/-- Where a thread is about to do what it does behind its first barrier only, all threads of
    its block have come past theirs. -/
theorem passed (h : Launched plus isGlobal l μ tr c)
    (hphased : ∀ j < l.blockDim, (l.kernel b j).Phased P Q) {a : Access X V}
    {k : V → Program (Access X V) V Unit} (hthread : c.threads b i = .act a k) (ha : ¬ P a)
    (j : Nat) : (c.threads b j).All Q := by
  have hin := h.of_act hthread
  have hmet : ∃ vs, .meet b .block vs ∈ tr := by
    rcases (h.takes hin).phased hin.2 (hphased i hin.2) with ⟨hbefore, -⟩ | ⟨-, hmet⟩
    · rw [hthread] at hbefore
      exact absurd hbefore.1 ha
    · exact hmet
  by_cases hj : j < l.blockDim
  · rcases (h.takes ⟨hin.1, hj⟩).phased hj (hphased j hj) with ⟨-, hnot⟩ | ⟨hpassed, -⟩
    · obtain ⟨vs, hmem⟩ := hmet
      exact absurd hmem (hnot vs)
    · exact hpassed
  · exact h.idle fun hboth => hj hboth.2

end Launched

namespace Launch.Ends

variable {tr : List (Label (Access X V) V)} {c : Config (Access X V) V (X → V)} {x : X}
  [RightCommutative plus] {b i : Nat} {d : V} {k : V → Program (Access X V) V Unit}

/-- What a thread is about to add to a cell that nobody writes any more is part of what the
    cell has at the end. -/
theorem reaches (h : l.Ends plus isGlobal μ readable own f Q)
    (hrun : Launched plus isGlobal l μ tr c) (hadd : c.threads b i = .act (.add x d) k)
    (hkept : ∀ b' j, (c.threads b' j).All fun a => ∀ v, a ≠ .write x v) :
    ∃ (μ₀ : X → V) (W : Nat → Word X V) (ds : List V), (∀ x, isGlobal x → μ₀ x = μ x) ∧
      (∀ b < l.gridDim, (l.block readable own μ₀ b).Plan plus (f b) (Q b) (W b)) ∧
        effect plus (GridEnds.word l.gridDim W) μ₀ x = ds.foldl plus (plus (c.state x) d) := by
  obtain ⟨μ₀, hμ₀, hrun⟩ := hrun
  obtain ⟨W, hW, hplan⟩ := (h μ₀ hμ₀).scheduled
  obtain ⟨w', hw', -, -, -⟩ := hplan.run (fun _ _ => .symm) (Access.commute_of_apart plus) hrun
  have hnone : ∀ a ∈ w'.filterMap Label.written, a.1 ≠ x := by
    rintro a ha rfl
    obtain ⟨label, hlabel, ha⟩ := List.mem_filterMap.mp ha
    cases label with
    | meet b g vs => exact nomatch ha
    | act b' j o v =>
        cases o with
        | read y => exact nomatch ha
        | add y e => exact nomatch ha
        | write y e =>
            obtain rfl : (y, e) = a := Option.some.inj ha
            exact ((hw'.threads b' j).all (hkept b' j)).2 _ _ hlabel e rfl
  have hmem : d ∈ atCell x (w'.filterMap Label.added) := by
    obtain ⟨u, v, w'', rfl, -, -⟩ := Takes.first_act (hadd ▸ hw'.threads b i)
    exact mem_atCell.mpr
      (List.mem_filterMap.mpr ⟨_, List.mem_append_right u List.mem_cons_self, rfl⟩)
  obtain ⟨ds, es, hsplit⟩ := List.append_of_mem hmem
  have hfirst : (atCell x (w'.filterMap Label.added)).Perm (d :: (ds ++ es)) :=
    hsplit ▸ List.perm_middle
  refine ⟨μ₀, W, ds ++ es, hμ₀, hW, ?_⟩
  have heffect : effect plus (GridEnds.word l.gridDim W) μ₀ = effect plus w' c.state :=
    eq_effect hw'.replays
  rw [heffect, effect_of_adds hnone, hfirst.foldl_eq]
  rfl

theorem reaches_global (h : l.Ends plus isGlobal μ readable own f Q)
    (hown : ∀ b < l.gridDim, ∀ x ∈ own b, ¬ isGlobal x) (hrun : Launched plus isGlobal l μ tr c)
    (hadd : c.threads b i = .act (.add x d) k)
    (hkept : ∀ b' j, (c.threads b' j).All fun a => ∀ v, a ≠ .write x v) (hx : isGlobal x)
    (hwrites : ∀ b < l.gridDim, ∀ w ∈ (f b).allWrites l.blockDim, w.1 ≠ x) :
    ∃ ds : List V, ((List.range l.gridDim).flatMap fun b =>
      atCell x ((f b).allAdds l.blockDim)).foldl plus (μ x) =
        ds.foldl plus (plus (c.state x) d) := by
  obtain ⟨μ₀, W, ds, hμ₀, hW, heffect⟩ := h.reaches hrun hadd hkept
  refine ⟨ds, ?_⟩
  rw [← heffect, ← hμ₀ x hx]
  exact ((h μ₀ hμ₀).effect_added hW (fun b hb hmem => hown b hb x hmem hx) hwrites).symm

theorem reaches_own (h : l.Ends plus isGlobal μ readable own f Q)
    (hrun : Launched plus isGlobal l μ tr c) (hadd : c.threads b i = .act (.add x d) k)
    (hkept : ∀ b' j, (c.threads b' j).All fun a => ∀ v, a ≠ .write x v) {b' : Nat}
    (hb' : b' < l.gridDim) (hx : x ∈ own b') (hupdates : ¬ (f b').Updates l.blockDim x) :
    ∃ (ν : X → V) (ds : List V), Q b' ν ∧ ν x = ds.foldl plus (plus (c.state x) d) := by
  obtain ⟨μ₀, W, ds, hμ₀, hW, heffect⟩ := h.reaches hrun hadd hkept
  obtain ⟨ν, hQ, hν⟩ := (h μ₀ hμ₀).effect_own hW hb'
  exact ⟨ν, ds, hQ, (hν x hx hupdates).symm.trans heffect⟩

end Launch.Ends

variable {plus' : V → V → V} {tr : List (Label (Access X V) V)}
  {c : Config (Access X V) V (X → V)}

/-- Wherever a thread is about to add, the two additions come to the same. -/
def Agrees (plus plus' : V → V → V) (isGlobal : X → Prop) (l : Launch X V) (μ : X → V) : Prop :=
  ∀ tr c, Launched plus isGlobal l μ tr c → ∀ b i x d k, c.threads b i = .act (.add x d) k →
    plus' (c.state x) d = plus (c.state x) d

theorem Agrees.launched (h : Agrees plus plus' isGlobal l μ)
    (hrun : Launched plus' isGlobal l μ tr c) :
    Launched plus isGlobal l μ tr c := by
  obtain ⟨μ₀, hμ₀, hrun⟩ := hrun
  refine ⟨μ₀, hμ₀, ?_⟩
  induction hrun with
  | start => exact .start
  | @step c' c'' tr label _ hstep ih =>
      refine .step ih ?_
      cases hstep with
      | @act b i o k hthread =>
          have hexec : Access.exec plus' o c'.state = Access.exec plus o c'.state := by
            cases o with
            | read x => rfl
            | write x v => rfl
            | add x d =>
                have hplus := h tr c' ⟨μ₀, hμ₀, ih⟩ b i x d k hthread
                exact congrArg (fun v => (d, Function.update c'.state x v)) hplus
          rw [hexec]
          exact .act hthread
      | meet hsome hmembers hout => exact .meet hsome hmembers hout

end Outcome

end PassionProjects.Warps
