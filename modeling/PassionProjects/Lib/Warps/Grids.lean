/-
  PassionProjects.Lib.Warps.Grids

  Where the threads of a block are, the plan of a block that has come to its end, and grids
  of blocks that keep apart.  Blocks may add to the same cells in their last phases;
  whatever else a block changes, the others neither read nor change.
-/

import PassionProjects.Lib.Warps.Phases

namespace PassionProjects.Warps

section Blocks

open Program
open Kernels (replay)

variable {X V : Type}

/-- The threads of a block, of which each reads `readable` cells, and which change only its
    `own` ones before the last barrier. -/
structure Block (X V : Type) where
  size : Nat
  number : Nat
  readable : Nat → Set X
  own : Set X
  memory : X → V
  program : Nat → Program (Access X V) V Unit

namespace Block

variable [DecidableEq X] [Zero V] {B : Block X V} {plus : V → V → V} {μ : X → V}
  {f : Footprint X V} {qs rs : Nat → Program (Access X V) V Unit}

/-- The threads are at `qs`.  The memory was `μ` at the barrier behind them, and since then
    they did `f`. -/
def At (B : Block X V) (plus : V → V → V) (μ : X → V) (f : Footprint X V)
    (qs : Nat → Program (Access X V) V Unit) : Prop :=
  ∃ w ps u, Done B.size B.number plus B.readable B.own B.memory B.program w μ ps ∧
    Current B.size B.number μ ps u f qs

namespace At

theorem start : B.At plus B.memory .empty B.program :=
  ⟨[], B.program, [], .start _, .start ..⟩

theorem perform (h : B.At plus μ f qs) {C : Nat → Set X} {ws as : Nat → List (X × V)}
    (hrs : ∀ i < B.size, Performs (C i) (replay (f.writes i) μ) (qs i) (ws i) (as i) (rs i)) :
    B.At plus μ (f.extend C ws as) rs := by
  obtain ⟨w, ps, u, hdone, hcurrent⟩ := h
  obtain ⟨u', hcurrent'⟩ := hcurrent.perform hrs
  exact ⟨w, ps, u', hdone, hcurrent'⟩

theorem meet (h : B.At plus μ f qs) {g : Group} (vs : Nat → V)
    {k : Nat → (Nat → V) → Program (Access X V) V Unit} (hsome : ∃ i, g.Has B.size i)
    (hk : ∀ i, g.Has B.size i → qs i = .meet g (vs i) (k i))
    (hout : ∀ i, ¬ g.Has B.size i → vs i = 0) :
    B.At plus μ f fun i => if g.Has B.size i then k i vs else qs i := by
  obtain ⟨w, ps, u, hdone, hcurrent⟩ := h
  exact ⟨w, ps, _, hdone, hcurrent.meet vs hsome hk hout⟩

theorem sync [RightCommutative plus] (h : B.At plus μ f qs) (hn : 0 < B.size)
    {k : Nat → (Nat → V) → Program (Access X V) V Unit}
    (hk : ∀ i < B.size, qs i = .meet .block 0 (k i)) (hrace : f.RaceFree B.size)
    (hreads : ∀ i < B.size, ∀ x ∈ f.reads i, x ∈ B.readable i)
    (hupdates : ∀ x, f.Updates B.size x → x ∈ B.own) :
    B.At plus (f.after plus B.size μ) .empty fun i => k i fun _ => 0 := by
  obtain ⟨w, ps, u, hdone, hcurrent⟩ := h
  exact ⟨_, _, [], hdone.sync hcurrent hn hk hrace hreads hupdates, .start ..⟩

/-- A phase and its barrier. -/
theorem phase [RightCommutative plus] (h : B.At plus μ .empty qs) (hn : 0 < B.size)
    {C : Nat → Set X} {ws as : Nat → List (X × V)} {k : Nat → Program (Access X V) V Unit}
    (hqs : ∀ i < B.size, Performs (C i) μ (qs i) (ws i) (as i) (barrier >>= fun _ => k i))
    (hrace : Footprint.RaceFree B.size ⟨C, ws, as⟩)
    (hreads : ∀ i < B.size, ∀ x ∈ C i, x ∈ B.readable i)
    (hwrites : ∀ i < B.size, ∀ w ∈ ws i, w.1 ∈ B.own)
    (hadds : ∀ i < B.size, ∀ a ∈ as i, a.1 ∈ B.own) :
    B.At plus (Footprint.after plus B.size ⟨C, ws, as⟩ μ) .empty k := by
  have hphase := h.perform hqs
  rw [Footprint.empty_extend] at hphase
  refine hphase.sync (k := fun i _ => k i) hn (fun _ _ => rfl) hrace hreads ?_
  rintro x (⟨w, hw, rfl⟩ | ⟨a, ha, rfl⟩)
  · obtain ⟨i, hi, hw⟩ := Footprint.mem_allWrites.mp hw
    exact hwrites i hi w hw
  · obtain ⟨i, hi, ha⟩ := Footprint.mem_allAdds.mp ha
    exact hadds i hi a ha

/-- Programs of threads that the block does not have do not matter. -/
theorem congr (h : B.At plus μ f qs) (hrs : ∀ i < B.size, qs i = rs i) : B.At plus μ f rs := by
  obtain ⟨w, ps, u, hdone, hcurrent⟩ := h
  refine ⟨w, ps, u, hdone, { hcurrent with takes := fun i hi => ?_ }⟩
  rw [← hrs i hi]
  exact hcurrent.takes i hi

end At

/-- The access is one that thread `i` makes. -/
def Allows (B : Block X V) (f : Footprint X V) (i : Nat) : Access X V → Prop
  | .read x => x ∈ B.readable i
  | .write x v => x ∈ B.own ∨ (x, v) ∈ f.allWrites B.size
  | .add x v => x ∈ B.own ∨ (x, v) ∈ f.allAdds B.size

/-- All threads have ended.  At the last barrier `Q` held of the memory, and `f` is what they
    did since. -/
def Ends (B : Block X V) (plus : V → V → V) (f : Footprint X V) (Q : (X → V) → Prop) : Prop :=
  ∃ μ, B.At plus μ f (fun _ => .ret ()) ∧ f.RaceFree B.size ∧
    (∀ i < B.size, ∀ x ∈ f.reads i, x ∈ B.readable i) ∧ Q μ

structure Plan (B : Block X V) (plus : V → V → V) (f : Footprint X V) (Q : (X → V) → Prop)
    (W : Word X V) : Prop where
  takes : ∀ i < B.size, Takes B.size B.number i (B.program i) W (.ret ())
  labels : ∀ l ∈ W, l.Of B.size B.number
  allowed : ∀ i a v, .act B.number i a v ∈ W → B.Allows f i a
  separated : Separated B.size Access.Apart W
  replays : ∀ ν, (∀ i < B.size, ∀ x ∈ B.readable i, ν x = B.memory x) →
    Replays (Access.exec plus) W ν (effect plus W ν)
  written : ∀ x ∉ B.own,
    (atCell x (W.filterMap Label.written)).Perm (atCell x (f.allWrites B.size))
  added : ∀ x ∉ B.own, (atCell x (W.filterMap Label.added)).Perm (atCell x (f.allAdds B.size))
  last : ∃ μ, Q μ ∧ ∀ x, ¬ f.Updates B.size x → effect plus W B.memory x = μ x

omit [Zero V] in
/-- Before the last barrier the cell is left alone. -/
theorem perm_atCell_append {x : X} {ws ws' ws'' : List (X × V)} (h : ∀ w ∈ ws, w.1 ≠ x)
    (hperm : ws'.Perm ws'') : (atCell x (ws ++ ws')).Perm (atCell x ws'') := by
  rw [atCell_append, atCell_eq_nil h]
  exact perm_atCell hperm

theorem Ends.plan [RightCommutative plus] {Q : (X → V) → Prop} (h : B.Ends plus f Q) :
    ∃ W, B.Plan plus f Q W := by
  obtain ⟨μ, ⟨w, ps, u, hdone, hcurrent⟩, hrace, hreads, hQ⟩ := h
  refine ⟨w ++ u, ?_⟩
  constructor
  · exact fun i hi => (hdone.takes i hi).append (hcurrent.takes i hi)
  · exact fun l hl => (List.mem_append.mp hl).elim (hdone.labels l) (hcurrent.labels l)
  · intro i a v hmem
    rcases List.mem_append.mp hmem with hmem | hmem
    · cases a with
      | read x => exact hdone.reads i x v hmem
      | write x c => exact .inl (hdone.writes (x, c) (List.mem_filterMap.mpr ⟨_, hmem, rfl⟩))
      | add x c => exact .inl (hdone.adds (x, c) (List.mem_filterMap.mpr ⟨_, hmem, rfl⟩))
    · obtain ⟨-, hi, hhas⟩ := hcurrent.has hmem
      cases a with
      | read x => exact hreads i hi x hhas
      | write x c => exact .inr (Footprint.mem_allWrites.mpr ⟨i, hi, hhas⟩)
      | add x c => exact .inr (Footprint.mem_allAdds.mpr ⟨i, hi, hhas⟩)
  · exact hdone.separated u hcurrent.labels (hcurrent.separated hrace)
  · exact fun ν hν => hdone.replays_then hcurrent hrace hreads hν
  · intro x hx
    rw [List.filterMap_append]
    exact perm_atCell_append (fun a ha heq => hx (heq ▸ hdone.writes a ha)) hcurrent.allWrites
  · intro x hx
    rw [List.filterMap_append]
    exact perm_atCell_append (fun a ha heq => hx (heq ▸ hdone.adds a ha)) hcurrent.allAdds
  · refine ⟨μ, hQ, fun x hx => ?_⟩
    rw [effect_append, hdone.memory, hcurrent.effect_eq hrace]
    exact Footprint.after_kept hx

end Block

end Blocks

section Grids

open Program
open Kernels (replay replay_of_mem)

variable {X V : Type}

/-- The blocks of a grid come to their ends with the last phases `f`. -/
structure GridEnds [DecidableEq X] [Zero V] (plus : V → V → V) (n gridDim : Nat) (μ : X → V)
    (B : Nat → Block X V) (f : Nat → Footprint X V) (Q : Nat → (X → V) → Prop) : Prop where
  size : ∀ b < gridDim, (B b).size = n
  number : ∀ b < gridDim, (B b).number = b
  memory : ∀ b < gridDim, (B b).memory = μ
  ends : ∀ b < gridDim, (B b).Ends plus (f b) (Q b)
  unread : ∀ b < gridDim, ∀ b' < gridDim, b ≠ b' → ∀ x,
    x ∈ (B b).own ∨ (f b).Updates n x → ∀ i < n, x ∉ (B b').readable i
  unshared : ∀ b < gridDim, ∀ b' < gridDim, b ≠ b' → ∀ x ∈ (B b).own,
    x ∉ (B b').own ∧ ¬ (f b').Updates n x
  unwritten : ∀ b < gridDim, ∀ b' < gridDim, b ≠ b' → ∀ w ∈ (f b).allWrites n,
    ¬ (f b').Updates n w.1

namespace GridEnds

variable [DecidableEq X] [Zero V] {plus : V → V → V} {n gridDim : Nat} {μ : X → V}
  {B : Nat → Block X V} {f : Nat → Footprint X V} {Q : Nat → (X → V) → Prop} {b b' i j : Nat}
  {a a' : Access X V}

theorem touches (h : GridEnds plus n gridDim μ B f Q) (hb : b < gridDim)
    (ha : (B b).Allows (f b) i a) (hread : ∀ x, a ≠ .read x) :
    a.cell ∈ (B b).own ∨ (f b).Updates n a.cell := by
  have hsize := h.size b hb
  cases a with
  | read x => exact absurd rfl (hread x)
  | write x v => exact ha.imp_right fun hw => .inl ⟨_, hsize ▸ hw, rfl⟩
  | add x v => exact ha.imp_right fun hw => .inr ⟨_, hsize ▸ hw, rfl⟩

/-- An access of one block is apart from a write of another one. -/
theorem apart_write (h : GridEnds plus n gridDim μ B f Q) (hb : b < gridDim) (hb' : b' < gridDim)
    (hne : b ≠ b') (hj : j < n) {x : X} {v : V} (hwrite : (B b).Allows (f b) i (.write x v))
    (ha : (B b').Allows (f b') j a) : a.cell ≠ x := by
  rintro rfl
  have hmine := h.touches hb hwrite fun _ => nofun
  by_cases hread : ∃ y, a = .read y
  · obtain ⟨y, rfl⟩ := hread
    exact h.unread b hb b' hb' hne y hmine j hj ha
  · have hother := h.touches hb' ha fun y heq => hread ⟨y, heq⟩
    rcases hwrite with hown | hw
    · have hshared := h.unshared b hb b' hb' hne _ hown
      exact hother.elim hshared.1 hshared.2
    · rw [h.size b hb] at hw
      rcases hother with hown | hupdates
      · exact (h.unshared b' hb' b hb hne.symm _ hown).2 (.inl ⟨_, hw, rfl⟩)
      · exact h.unwritten b hb b' hb' hne _ hw hupdates

theorem apart (h : GridEnds plus n gridDim μ B f Q) (hb : b < gridDim) (hb' : b' < gridDim)
    (hne : b ≠ b') (hi : i < n) (hj : j < n) (ha : (B b).Allows (f b) i a)
    (ha' : (B b').Allows (f b') j a') : a.Apart a' := by
  cases a with
  | write x v => exact .of_ne (h.apart_write hb hb' hne hj ha ha').symm
  | read x =>
      cases a' with
      | read x' => trivial
      | write x' v' => exact .of_ne (h.apart_write hb' hb hne.symm hi ha' ha)
      | add x' v' =>
          have hmine := h.touches hb' ha' fun _ => nofun
          exact fun heq : x = x' => h.unread b' hb' b hb hne.symm x' hmine i hi (heq ▸ ha : x' ∈ _)
  | add x v =>
      cases a' with
      | read x' =>
          have hmine := h.touches hb ha fun _ => nofun
          exact fun heq : x = x' => h.unread b hb b' hb' hne x hmine j hj (heq ▸ ha' : x ∈ _)
      | write x' v' => exact .of_ne (h.apart_write hb' hb hne.symm hi ha' ha)
      | add x' v' => trivial

/-- The threads before their first step. -/
def threads (n gridDim : Nat) (B : Nat → Block X V) (b i : Nat) : Program (Access X V) V Unit :=
  if b < gridDim ∧ i < n then (B b).program i else .ret ()

/-- The words of the blocks one after another. -/
def word (gridDim : Nat) (W : Nat → Word X V) : Word X V := (List.range gridDim).flatMap W

omit [DecidableEq X] [Zero V] in
theorem word_succ (m : Nat) (W : Nat → Word X V) : word (m + 1) W = word m W ++ W m := by
  rw [word, List.range_succ, List.flatMap_append, List.flatMap_singleton]
  rfl

omit [Zero V] in
/-- A cell that a part of a plan does not change. -/
theorem effect_kept {w : Word X V} {x : X} (h : ∀ a ∈ w.filterMap Label.written, a.1 ≠ x)
    (h' : ∀ a ∈ w.filterMap Label.added, a.1 ≠ x) (μ : X → V) : effect plus w μ x = μ x := by
  rw [effect_of_adds h, atCell_eq_nil h']
  rfl

variable {W : Nat → Word X V}

theorem act_mem_word (h : GridEnds plus n gridDim μ B f Q)
    (hW : ∀ b < gridDim, (B b).Plan plus (f b) (Q b) (W b)) {m : Nat} (hm : m ≤ gridDim) {v : V}
    (hmem : .act b i a v ∈ word m W) :
    b < m ∧ i < n ∧ .act b i a v ∈ W b ∧ (B b).Allows (f b) i a := by
  obtain ⟨c, hc, hmem⟩ := List.mem_flatMap.mp hmem
  have hc := List.mem_range.mp hc
  have hcgrid := Nat.lt_of_lt_of_le hc hm
  have hof := (hW c hcgrid).labels _ hmem
  rw [h.size c hcgrid, h.number c hcgrid] at hof
  obtain ⟨rfl, hi⟩ := hof
  refine ⟨hc, hi, hmem, (hW b hcgrid).allowed i a v ?_⟩
  rwa [h.number b hcgrid]

theorem of_word (h : GridEnds plus n gridDim μ B f Q)
    (hW : ∀ b < gridDim, (B b).Plan plus (f b) (Q b) (W b)) {l : Label (Access X V) V}
    (hl : l ∈ word gridDim W) : ∃ b < gridDim, l.Of n b ∧ l ∈ W b := by
  obtain ⟨b, hb, hl⟩ := List.mem_flatMap.mp hl
  have hb := List.mem_range.mp hb
  have hof := (hW b hb).labels _ hl
  rw [h.size b hb, h.number b hb] at hof
  exact ⟨b, hb, hof, hl⟩

theorem separated_word (h : GridEnds plus n gridDim μ B f Q)
    (hW : ∀ b < gridDim, (B b).Plan plus (f b) (Q b) (W b)) {m : Nat} (hm : m ≤ gridDim) :
    Separated n Access.Apart (word m W) := by
  induction m with
  | zero => trivial
  | succ m ih =>
      rw [word_succ]
      have hsep := (hW m hm).separated
      rw [h.size m hm] at hsep
      refine (ih (Nat.le_of_succ_le hm)).append hsep ?_
      intro b i a v b' j a' v' hmem _ hmem'
      obtain ⟨hb, hi, -, ha⟩ := h.act_mem_word hW (Nat.le_of_succ_le hm) hmem
      have hin := mem_of_mem_untilMeet hmem'
      have hof := (hW m hm).labels _ hin
      rw [h.number m hm] at hof
      obtain ⟨rfl, hj⟩ := hof
      refine h.apart (hb.trans hm) hm hb.ne hi (h.size b' hm ▸ hj) ha
        ((hW b' hm).allowed j a' v' ?_)
      rwa [h.number b' hm]

theorem written_word (h : GridEnds plus n gridDim μ B f Q)
    (hW : ∀ b < gridDim, (B b).Plan plus (f b) (Q b) (W b)) {m : Nat} (hm : m ≤ gridDim) {w : X × V}
    (hw : w ∈ (word m W).filterMap Label.written) :
    ∃ b < m, ∃ i < n, (B b).Allows (f b) i (.write w.1 w.2) := by
  obtain ⟨l, hl, hw⟩ := List.mem_filterMap.mp hw
  cases l with
  | meet b g vs => exact nomatch hw
  | act b i a v =>
      cases a with
      | read x => exact nomatch hw
      | add x c => exact nomatch hw
      | write x c =>
          obtain rfl : (x, c) = w := Option.some.inj hw
          obtain ⟨hb, hi, -, ha⟩ := h.act_mem_word hW hm hl
          exact ⟨b, hb, i, hi, ha⟩

theorem added_word (h : GridEnds plus n gridDim μ B f Q)
    (hW : ∀ b < gridDim, (B b).Plan plus (f b) (Q b) (W b)) {m : Nat} (hm : m ≤ gridDim) {w : X × V}
    (hw : w ∈ (word m W).filterMap Label.added) :
    ∃ b < m, ∃ i < n, (B b).Allows (f b) i (.add w.1 w.2) := by
  obtain ⟨l, hl, hw⟩ := List.mem_filterMap.mp hw
  cases l with
  | meet b g vs => exact nomatch hw
  | act b i a v =>
      cases a with
      | read x => exact nomatch hw
      | write x c => exact nomatch hw
      | add x c =>
          obtain rfl : (x, c) = w := Option.some.inj hw
          obtain ⟨hb, hi, -, ha⟩ := h.act_mem_word hW hm hl
          exact ⟨b, hb, i, hi, ha⟩

theorem replays_word (h : GridEnds plus n gridDim μ B f Q)
    (hW : ∀ b < gridDim, (B b).Plan plus (f b) (Q b) (W b)) {m : Nat} (hm : m ≤ gridDim) :
    Replays (Access.exec plus) (word m W) μ (effect plus (word m W) μ) := by
  induction m with
  | zero => exact rfl
  | succ m ih =>
      have hle := Nat.le_of_succ_le hm
      rw [word_succ, effect_append]
      refine replays_append.mpr ⟨_, ih hle, (hW m hm).replays _ fun j hj x hx => ?_⟩
      rw [h.memory m hm]
      -- the blocks before this one leave alone what it reads
      refine effect_kept (fun w hw heq => ?_) (fun w hw heq => ?_) μ
      · obtain ⟨b, hb, i, -, ha⟩ := h.written_word hW hle hw
        exact h.unread b (hb.trans hm) m hm hb.ne w.1
          (h.touches (hb.trans hm) ha fun _ => nofun) j (h.size m hm ▸ hj) (heq ▸ hx)
      · obtain ⟨b, hb, i, -, ha⟩ := h.added_word hW hle hw
        exact h.unread b (hb.trans hm) m hm hb.ne w.1
          (h.touches (hb.trans hm) ha fun _ => nofun) j (h.size m hm ▸ hj) (heq ▸ hx)

theorem takes_word (h : GridEnds plus n gridDim μ B f Q)
    (hW : ∀ b < gridDim, (B b).Plan plus (f b) (Q b) (W b)) (b i : Nat) :
    Takes n b i (threads n gridDim B b i) (word gridDim W) (.ret ()) := by
  have hother : ∀ c < gridDim, c ≠ b → ∀ l ∈ W c, ¬ l.Involves n b i := by
    intro c hc hne l hl
    have hof := (hW c hc).labels _ hl
    rw [h.number c hc] at hof
    cases l with
    | act b' i' a v => exact fun hinvolves => hne (hof.1.symm.trans hinvolves.1)
    | meet b' g vs => exact fun hinvolves => hne (hof.1.symm.trans hinvolves.1)
  unfold threads
  split
  · rename_i hbi
    obtain ⟨before, after, hrange⟩ := List.append_of_mem (List.mem_range.mpr hbi.1)
    have hnodup : (before ++ b :: after).Nodup := hrange ▸ List.nodup_range
    have hskip : ∀ l ∈ before.flatMap W ++ after.flatMap W, ¬ l.Involves n b i := by
      intro l hl
      rw [← List.flatMap_append] at hl
      obtain ⟨c, hc, hl⟩ := List.mem_flatMap.mp hl
      have hcgrid : c ∈ List.range gridDim := by
        rw [hrange]
        rcases List.mem_append.mp hc with hc | hc <;> simp [hc]
      refine hother c (List.mem_range.mp hcgrid) ?_ l hl
      rintro rfl
      exact (List.nodup_middle.mp hnodup).notMem hc
    have hgo := (hW b hbi.1).takes i (h.size b hbi.1 ▸ hbi.2)
    rw [h.size b hbi.1, h.number b hbi.1] at hgo
    rw [word, hrange, List.flatMap_append, List.flatMap_cons]
    refine Takes.skip_all (fun l hl => hskip l (List.mem_append_left _ hl)) (hgo.append ?_)
    exact .none fun l hl => hskip l (List.mem_append_right _ hl)
  · rename_i hnone
    refine .none fun l hl => ?_
    obtain ⟨c, hc, hof, -⟩ := h.of_word hW hl
    cases l with
    | act b' i' a v =>
        rintro ⟨rfl, rfl⟩
        obtain ⟨rfl, hi⟩ := hof
        exact hnone ⟨hc, hi⟩
    | meet b' g vs =>
        rintro ⟨rfl, hi⟩
        obtain ⟨rfl, -⟩ := hof
        exact hnone ⟨hc, hi.lt⟩

/-- A grid as a plan. -/
theorem scheduled [RightCommutative plus] (h : GridEnds plus n gridDim μ B f Q) :
    ∃ W : Nat → Word X V, (∀ b < gridDim, (B b).Plan plus (f b) (Q b) (W b)) ∧
      Scheduled n (Access.exec plus) Access.Apart (word gridDim W) ⟨μ, threads n gridDim B⟩
        (effect plus (word gridDim W) μ) := by
  have hplans : ∀ b, ∃ W, b < gridDim → (B b).Plan plus (f b) (Q b) W := by
    intro b
    by_cases hb : b < gridDim
    · obtain ⟨W, hW⟩ := (h.ends b hb).plan
      exact ⟨W, fun _ => hW⟩
    · exact ⟨[], fun hlt => absurd hlt hb⟩
  choose W hW using hplans
  refine ⟨W, hW, h.takes_word hW, fun l hl => ?_, h.separated_word hW le_rfl,
    h.replays_word hW le_rfl⟩
  obtain ⟨b, hb, hof, -⟩ := h.of_word hW hl
  cases l with
  | act b' i a v => trivial
  | meet b' g vs => exact hof.2

end GridEnds

end Grids

end PassionProjects.Warps
