/-
  PassionProjects.Lib.Warps.Words

  Threads that read, write and add to the cells of a memory.  What a thread does is told by
  the cells it may read, by its writes and by its additions; additions to one cell may be
  made in any order.  The words of a plan are what its threads perform.
-/

import PassionProjects.Lib.Kernels.Loops
import PassionProjects.Lib.Warps.Plans

namespace PassionProjects.Warps

section Memory

open Program
open Kernels (replay replay_append replay_of_not_mem replay_of_mem)

variable {X V R R' : Type}

inductive Access (X V : Type) where
  | read (x : X)
  | write (x : X) (v : V)
  | add (x : X) (v : V)

namespace Access

def cell : Access X V → X
  | .read x => x
  | .write x _ => x
  | .add x _ => x

/-- `plus` is what `atomicAdd` computes.  The answer to a write or an addition, which no
    thread here uses, is its argument. -/
def exec [DecidableEq X] (plus : V → V → V) : Access X V → (X → V) → V × (X → V)
  | .read x, μ => (μ x, μ)
  | .write x v, μ => (v, Function.update μ x v)
  | .add x v, μ => (v, Function.update μ x (plus (μ x) v))

/-- Two reads, two additions, or two cells. -/
def Apart : Access X V → Access X V → Prop
  | .read _, .read _ => True
  | .add _ _, .add _ _ => True
  | a, a' => a.cell ≠ a'.cell

theorem Apart.of_ne {a a' : Access X V} (h : a.cell ≠ a'.cell) : a.Apart a' := by
  cases a <;> cases a' <;> trivial

theorem Apart.symm {a a' : Access X V} (h : a.Apart a') : a'.Apart a := by
  cases a with
  | read x =>
      cases a' with
      | read x' => trivial
      | write x' v' => exact Ne.symm h
      | add x' v' => exact Ne.symm h
  | write x v => cases a' <;> exact Ne.symm h
  | add x v =>
      cases a' with
      | read x' => exact Ne.symm h
      | write x' v' => exact Ne.symm h
      | add x' v' => trivial

/-- Accesses to two cells. -/
theorem commute_of_ne [DecidableEq X] (plus : V → V → V) {a a' : Access X V}
    (h : a.cell ≠ a'.cell) : Commute (exec plus) a a' := by
  intro μ
  have h' := h.symm
  cases a <;> cases a' <;> dsimp only [cell] at h h' <;>
    simp [exec, Function.update_of_ne, h, h', Function.update_comm h]

theorem commute_of_apart [DecidableEq X] (plus : V → V → V) [RightCommutative plus]
    (a a' : Access X V) (h : a.Apart a') : Commute (exec plus) a a' := by
  by_cases hne : a.cell = a'.cell
  · cases a with
    | read x =>
        cases a' with
        | read x' => exact fun μ => ⟨rfl, rfl, rfl⟩
        | write x' v' => exact absurd hne h
        | add x' v' => exact absurd hne h
    | write x v => cases a' <;> exact absurd hne h
    | add x v =>
        cases a' with
        | read x' => exact absurd hne h
        | write x' v' => exact absurd hne h
        | add x' v' =>
            obtain rfl : x = x' := hne
            intro μ
            refine ⟨rfl, rfl, ?_⟩
            show Function.update (Function.update μ x _) x _ = _
            simp only [exec, Function.update_idem, Function.update_self]
            exact congrArg (Function.update μ x) (RightCommutative.right_comm (μ x) v v')
  · exact commute_of_ne plus hne

end Access

def load (x : X) : Program (Access X V) V V := perform (.read x)

def store (x : X) (v : V) : Program (Access X V) V Unit := perform (.write x v) >>= fun _ => ret ()

def atomicAdd (x : X) (v : V) : Program (Access X V) V Unit :=
  perform (.add x v) >>= fun _ => ret ()

-- ============================================================================
-- One thread
-- ============================================================================

section Performs

variable [DecidableEq X]

/-- From `μ` the thread gets to `q`.  It reads cells of `C` only, makes the writes `ws` and
    the additions `as`; it does not read what it adds to. -/
inductive Performs (C : Set X) : (X → V) → Program (Access X V) V R → List (X × V) →
    List (X × V) → Program (Access X V) V R → Prop where
  | here {μ : X → V} {p : Program (Access X V) V R} : Performs C μ p [] [] p
  | read {μ : X → V} {x : X} {k : V → Program (Access X V) V R} {ws as : List (X × V)}
      {q : Program (Access X V) V R} :
      x ∈ C → Performs C μ (k (μ x)) ws as q → Performs C μ (.act (.read x) k) ws as q
  | write {μ : X → V} {x : X} {v : V} {k : V → Program (Access X V) V R} {ws as : List (X × V)}
      {q : Program (Access X V) V R} :
      Performs C (Function.update μ x v) (k v) ws as q →
        Performs C μ (.act (.write x v) k) ((x, v) :: ws) as q
  | add {μ : X → V} {x : X} {v : V} {k : V → Program (Access X V) V R} {ws as : List (X × V)}
      {q : Program (Access X V) V R} :
      Performs C μ (k v) ws as q → Performs C μ (.act (.add x v) k) ws ((x, v) :: as) q

namespace Performs

variable {C : Set X} {μ μ' : X → V} {p : Program (Access X V) V R}
  {ws ws' as as' : List (X × V)}

theorem load {x : X} (hx : x ∈ C) : Performs C μ (load x) [] [] (.ret (μ x)) := .read hx .here

theorem store (x : X) (v : V) : Performs C μ (store x v) [(x, v)] [] (.ret ()) := .write .here

theorem bind {r : R} {f : R → Program (Access X V) V R'} {q : Program (Access X V) V R'}
    (h : Performs C μ p ws as (.ret r)) (hf : Performs C (replay ws μ) (f r) ws' as' q) :
    Performs C μ (p >>= f) (ws ++ ws') (as ++ as') q := by
  generalize hret : Program.ret r = p' at h
  induction h with
  | here =>
      subst hret
      exact hf
  | read hx _ ih => exact .read hx (ih hf hret)
  | write _ ih => exact .write (ih hf hret)
  | add _ ih => exact .add (ih hf hret)

/-- A thread that only reads goes on from the same memory. -/
theorem bind_read {r : R} {f : R → Program (Access X V) V R'} {q : Program (Access X V) V R'}
    (h : Performs C μ p [] [] (.ret r)) (hf : Performs C μ (f r) ws as q) :
    Performs C μ (p >>= f) ws as q := bind h hf

theorem bind_here {r : R} {f : R → Program (Access X V) V R'}
    (h : Performs C μ p ws as (.ret r)) : Performs C μ (p >>= f) ws as (f r) := by
  have hbind := h.bind (f := f) .here
  rwa [List.append_nil, List.append_nil] at hbind

/-- The values of other cells do not matter. -/
theorem congr {q : Program (Access X V) V R} (h : Performs C μ p ws as q)
    (hμ : ∀ x ∈ C, μ' x = μ x) : Performs C μ' p ws as q := by
  induction h generalizing μ' with
  | here => exact .here
  | read hx _ ih => exact .read hx (hμ _ hx ▸ ih hμ)
  | @write μ y v _ _ _ _ _ ih =>
      refine .write (ih fun x hx => ?_)
      rcases eq_or_ne x y with rfl | hne
      · rw [Function.update_self, Function.update_self]
      · rw [Function.update_of_ne hne, Function.update_of_ne hne, hμ x hx]
  | add _ ih => exact .add (ih hμ)

theorem mono {C' : Set X} {q : Program (Access X V) V R} (h : Performs C μ p ws as q)
    (hC : ∀ x ∈ C, x ∈ C') : Performs C' μ p ws as q := by
  induction h with
  | here => exact .here
  | read hx _ ih => exact .read (hC _ hx) ih
  | write _ ih => exact .write ih
  | add _ ih => exact .add ih

/-- A loop over a list that only reads. -/
theorem foldlM_read {ι σ : Type} {xs : List ι} {f : σ → ι → σ}
    {body : σ → ι → Program (Access X V) V σ} {s : σ}
    (h : ∀ s, ∀ x ∈ xs, Performs C μ (body s x) [] [] (.ret (f s x))) :
    Performs C μ (xs.foldlM body s) [] [] (.ret (xs.foldl f s)) := by
  induction xs generalizing s with
  | nil => exact .here
  | cons x xs ih =>
      rw [List.foldlM_cons, List.foldl_cons]
      exact (h s x (by simp)).bind_read (ih fun s x' hx' => h s x' (List.mem_cons_of_mem x hx'))

/-- A loop none of whose turns writes what a turn reads. -/
theorem forM {ι : Type} {xs : List ι} {body : ι → Program (Access X V) V Unit}
    {ws as : ι → List (X × V)}
    (h : ∀ x ∈ xs, ∀ ν, (∀ y ∈ C, ν y = μ y) → Performs C ν (body x) (ws x) (as x) (.ret ()))
    (hws : ∀ x ∈ xs, ∀ w ∈ ws x, w.1 ∉ C) :
    Performs C μ (xs.forM body) (xs.flatMap ws) (xs.flatMap as) (.ret ()) := by
  induction xs generalizing μ with
  | nil => exact .here
  | cons x xs ih =>
      change Performs C μ (body x >>= fun _ => xs.forM body) _ _ _
      rw [List.flatMap_cons, List.flatMap_cons]
      have hkept : ∀ y ∈ C, replay (ws x) μ y = μ y := fun y hy =>
        replay_of_not_mem (fun w hw heq => hws x (by simp) w hw (heq ▸ hy)) μ
      refine (h x (by simp) μ fun _ _ => rfl).bind (ih (fun x' hx' ν hν => ?_) fun x' hx' =>
        hws x' (List.mem_cons_of_mem x hx'))
      exact h x' (List.mem_cons_of_mem x hx') ν fun y hy => (hν y hy).trans (hkept y hy)

/-- A loop that writes nothing. -/
theorem forM_add {ι : Type} {xs : List ι} {body : ι → Program (Access X V) V Unit}
    {as : ι → List (X × V)}
    (h : ∀ x ∈ xs, ∀ ν, (∀ y ∈ C, ν y = μ y) → Performs C ν (body x) [] (as x) (.ret ())) :
    Performs C μ (xs.forM body) [] (xs.flatMap as) (.ret ()) := by
  have hloop := forM h fun _ _ w hw => absurd hw List.not_mem_nil
  rwa [List.flatMap_eq_nil_iff.mpr fun _ _ => rfl] at hloop

end Performs

end Performs

end Memory

section Words

open Program
open Kernels (replay replay_append replay_of_not_mem replay_of_mem)

variable {X V R : Type}

abbrev Word (X V : Type) := List (Label (Access X V) V)

namespace Access

def written : Access X V → Option (X × V)
  | .write x v => some (x, v)
  | _ => none

def added : Access X V → Option (X × V)
  | .add x v => some (x, v)
  | _ => none

end Access

def Label.written : Label (Access X V) V → Option (X × V)
  | .act _ _ a _ => a.written
  | .meet _ _ _ => none

def Label.added : Label (Access X V) V → Option (X × V)
  | .act _ _ a _ => a.added
  | .meet _ _ _ => none

/-- The values that go to one cell. -/
def atCell [DecidableEq X] (x : X) (ws : List (X × V)) : List V :=
  ws.filterMap fun w => if w.1 = x then some w.2 else none

section AtCell

variable [DecidableEq X] {x : X} {ws ws' : List (X × V)}

theorem atCell_append (ws ws' : List (X × V)) :
    atCell x (ws ++ ws') = atCell x ws ++ atCell x ws' := List.filterMap_append

theorem atCell_eq_nil (h : ∀ w ∈ ws, w.1 ≠ x) : atCell x ws = [] :=
  List.filterMap_eq_nil_iff.mpr fun w hw => if_neg (h w hw)

theorem perm_atCell (h : ws.Perm ws') : (atCell x ws).Perm (atCell x ws') := h.filterMap _

theorem mem_atCell {v : V} : v ∈ atCell x ws ↔ (x, v) ∈ ws := by
  simp only [atCell, List.mem_filterMap, Option.ite_none_right_eq_some, Option.some.injEq]
  constructor
  · rintro ⟨w, hw, rfl, rfl⟩
    exact hw
  · exact fun h => ⟨_, h, rfl, rfl⟩

theorem atCell_flatMap {ι : Type} (xs : List ι) (f : ι → List (X × V)) :
    atCell x (xs.flatMap f) = xs.flatMap fun i => atCell x (f i) := List.filterMap_flatMap

end AtCell

section Effect

variable [DecidableEq X] (plus : V → V → V)

/-- The memory after the operations of a word. -/
def effect : Word X V → (X → V) → X → V
  | [], μ => μ
  | .act _ _ a _ :: w, μ => effect w (a.exec plus μ).2
  | .meet _ _ _ :: w, μ => effect w μ

theorem effect_append (w w' : Word X V) (μ : X → V) :
    effect plus (w ++ w') μ = effect plus w' (effect plus w μ) := by
  induction w generalizing μ with
  | nil => rfl
  | cons l w ih =>
      cases l with
      | act b i a v => exact ih _
      | meet b g vs => exact ih _

variable {plus}

theorem eq_effect {w : Word X V} {μ μ' : X → V} (h : Replays (Access.exec plus) w μ μ') :
    μ' = effect plus w μ := by
  induction w generalizing μ with
  | nil => exact h.symm
  | cons l w ih =>
      cases l with
      | act b i a v => exact ih h.2
      | meet b g vs => exact ih h

theorem exec_congr {μ ν : X → V} {x : X} (h : μ x = ν x) (a : Access X V) :
    (a.exec plus μ).2 x = (a.exec plus ν).2 x := by
  cases a with
  | read y => exact h
  | write y v =>
      rcases eq_or_ne x y with rfl | hne
      · simp [Access.exec]
      · simp [Access.exec, hne, h]
  | add y v =>
      rcases eq_or_ne x y with rfl | hne
      · simp [Access.exec, h]
      · simp [Access.exec, hne, h]

/-- What becomes of a cell depends on what was there only. -/
theorem effect_congr {μ ν : X → V} {x : X} (h : μ x = ν x) (w : Word X V) :
    effect plus w μ x = effect plus w ν x := by
  induction w generalizing μ ν with
  | nil => exact h
  | cons l w ih =>
      cases l with
      | act b i a v => exact ih (exec_congr h a)
      | meet b g vs => exact ih h

/-- A cell to which nothing is added. -/
theorem effect_of_writes {w : Word X V} {x : X} (h : ∀ a ∈ w.filterMap Label.added, a.1 ≠ x)
    (μ : X → V) : effect plus w μ x = replay (w.filterMap Label.written) μ x := by
  induction w generalizing μ with
  | nil => rfl
  | cons l w ih =>
      cases l with
      | meet b g vs => exact ih h μ
      | act b i a v =>
          cases a with
          | read y => exact ih h μ
          | write y u => exact ih h _
          | add y u =>
              have hy : y ≠ x := h (y, u) List.mem_cons_self
              refine (effect_congr ?_ w).trans (ih (fun a ha => h a (List.mem_cons_of_mem _ ha)) μ)
              exact Function.update_of_ne hy.symm _ _

/-- A cell that is not written. -/
theorem effect_of_adds {w : Word X V} {x : X} (h : ∀ a ∈ w.filterMap Label.written, a.1 ≠ x)
    (μ : X → V) :
    effect plus w μ x = (atCell x (w.filterMap Label.added)).foldl plus (μ x) := by
  induction w generalizing μ with
  | nil => rfl
  | cons l w ih =>
      cases l with
      | meet b g vs => exact ih h μ
      | act b i a v =>
          cases a with
          | read y => exact ih h μ
          | write y u =>
              have hy : y ≠ x := h (y, u) List.mem_cons_self
              refine (effect_congr ?_ w).trans (ih (fun a ha => h a (List.mem_cons_of_mem _ ha)) μ)
              exact Function.update_of_ne hy.symm _ _
          | add y u =>
              refine (ih h _).trans ?_
              rcases eq_or_ne y x with rfl | hne
              · simp [Access.exec, Label.added, Access.added, atCell]
              · simp [Access.exec, Label.added, Access.added, atCell, hne, hne.symm]

end Effect

-- ============================================================================
-- The word of one thread
-- ============================================================================

def actsOf (b i : Nat) (es : List (Access X V × V)) : Word X V :=
  es.map fun e => .act b i e.1 e.2

theorem written_actsOf (b i : Nat) (es : List (Access X V × V)) :
    (actsOf b i es).filterMap Label.written = es.filterMap fun e => e.1.written := by
  rw [actsOf, List.filterMap_map]
  rfl

theorem added_actsOf (b i : Nat) (es : List (Access X V × V)) :
    (actsOf b i es).filterMap Label.added = es.filterMap fun e => e.1.added := by
  rw [actsOf, List.filterMap_map]
  rfl

theorem threadActs_actsOf (b i : Nat) (es : List (Access X V × V)) :
    threadActs b i (actsOf b i es) = es := by
  induction es with
  | nil => rfl
  | cons e es ih =>
      show threadActs b i (.act b i e.1 e.2 :: actsOf b i es) = _
      rw [threadActs, if_pos ⟨rfl, rfl⟩, ih]

theorem threadActs_eq_nil {b i : Nat} {w : Word X V} (h : ∀ a v, .act b i a v ∉ w) :
    threadActs b i w = [] := by
  refine List.eq_nil_iff_forall_not_mem.mpr fun e he => ?_
  exact h e.1 e.2 (mem_threadActs.mp he)

section Answered

variable [DecidableEq X]

/-- The answers that a thread gets which sees its own writes. -/
def Answered : List (Access X V × V) → (X → V) → Prop
  | [], _ => True
  | (.read x, v) :: es, μ => v = μ x ∧ Answered es μ
  | (.write x u, v) :: es, μ => v = u ∧ Answered es (Function.update μ x u)
  | (.add _ u, v) :: es, μ => v = u ∧ Answered es μ

theorem answered_append {es es' : List (Access X V × V)} {μ : X → V} (h : Answered es μ)
    (h' : Answered es' (replay (es.filterMap fun e => e.1.written) μ)) :
    Answered (es ++ es') μ := by
  induction es generalizing μ with
  | nil => exact h'
  | cons e es ih =>
      obtain ⟨a, v⟩ := e
      cases a with
      | read x => exact ⟨h.1, ih h.2 h'⟩
      | write x u => exact ⟨h.1, ih h.2 h'⟩
      | add x u => exact ⟨h.1, ih h.2 h'⟩

/-- It gets them in every memory with the same values of the cells that it reads, to which
    nothing is added. -/
theorem Answered.answers {plus : V → V → V} {es : List (Access X V × V)} {C : Set X} {μ ν : X → V}
    (h : Answered es μ) (hreads : ∀ x v, (.read x, v) ∈ es → x ∈ C)
    (hadds : ∀ x u v, (.add x u, v) ∈ es → x ∉ C) (hν : ∀ x ∈ C, ν x = μ x) :
    Answers (Access.exec plus) es ν := by
  induction es generalizing μ ν with
  | nil => trivial
  | cons e es ih =>
      have htail := fun x v hmem => hreads x v (List.mem_cons_of_mem e hmem)
      have htail' := fun x u v hmem => hadds x u v (List.mem_cons_of_mem e hmem)
      obtain ⟨a, v⟩ := e
      cases a with
      | read x =>
          exact ⟨(hν x (hreads x v List.mem_cons_self)).trans h.1.symm, ih h.2 htail htail' hν⟩
      | write x u =>
          refine ⟨h.1.symm, ih h.2 htail htail' fun y hy => ?_⟩
          rcases eq_or_ne y x with rfl | hne
          · simp [Access.exec]
          · simp [Access.exec, hne, hν y hy]
      | add x u =>
          refine ⟨h.1.symm, ih h.2 htail htail' fun y hy => ?_⟩
          have hne : y ≠ x := fun heq => hadds x u v List.mem_cons_self (heq ▸ hy)
          simp [Access.exec, hne, hν y hy]

/-- The operations behind what a thread performs. -/
theorem Performs.takes {C : Set X} {μ : X → V} {p q : Program (Access X V) V R}
    {ws as : List (X × V)} (h : Performs C μ p ws as q) :
    ∃ es : List (Access X V × V), (∀ n b i, Takes n b i p (actsOf b i es) q) ∧ Answered es μ ∧
      (∀ x v, (.read x, v) ∈ es → x ∈ C) ∧ (es.filterMap fun e => e.1.written) = ws ∧
        (es.filterMap fun e => e.1.added) = as := by
  induction h with
  | here => exact ⟨[], fun _ _ _ => .nil, trivial, by simp, rfl, rfl⟩
  | @read μ x k ws as q hx _ ih =>
      obtain ⟨es, htakes, hanswered, hreads, hws, has⟩ := ih
      refine ⟨(.read x, μ x) :: es, fun n b i => .act (htakes n b i),
        ⟨rfl, hanswered⟩, ?_, hws, has⟩
      intro y v hmem
      rcases List.mem_cons.mp hmem with heq | hmem
      · injection heq with hread
        injection hread with hread
        exact hread ▸ hx
      · exact hreads y v hmem
  | @write μ x v k ws as q _ ih =>
      obtain ⟨es, htakes, hanswered, hreads, hws, has⟩ := ih
      refine ⟨(.write x v, v) :: es, fun n b i => .act (htakes n b i), ⟨rfl, hanswered⟩,
        fun y u hmem => hreads y u ?_, congrArg ((x, v) :: ·) hws, has⟩
      simpa using hmem
  | @add μ x v k ws as q _ ih =>
      obtain ⟨es, htakes, hanswered, hreads, hws, has⟩ := ih
      refine ⟨(.add x v, v) :: es, fun n b i => .act (htakes n b i), ⟨rfl, hanswered⟩,
        fun y u hmem => hreads y u ?_, hws, congrArg ((x, v) :: ·) has⟩
      simpa using hmem

end Answered

-- ============================================================================
-- One thread after another
-- ============================================================================

section Turns

variable {n b i : Nat} (es : Nat → List (Access X V × V))

/-- Each thread does this. -/
def turns (n b : Nat) : Word X V := (List.range n).flatMap fun i => actsOf b i (es i)

variable {es}

theorem split_turns (es : Nat → List (Access X V × V)) (b : Nat) (hi : i < n) :
    ∃ u u', turns es n b = u ++ actsOf b i (es i) ++ u' ∧
    (∀ l ∈ u ++ u', ∃ j a v, j ≠ i ∧ l = .act b j a v) := by
  obtain ⟨before, after, hrange⟩ := List.append_of_mem (List.mem_range.mpr hi)
  have hnodup : (before ++ i :: after).Nodup := hrange ▸ List.nodup_range
  refine ⟨before.flatMap fun j => actsOf b j (es j),
    after.flatMap fun j => actsOf b j (es j), ?_, ?_⟩
  · rw [turns, hrange, List.flatMap_append, List.flatMap_cons, List.append_assoc]
  · intro l hl
    rw [← List.flatMap_append] at hl
    obtain ⟨j, hj, hl⟩ := List.mem_flatMap.mp hl
    obtain ⟨e, -, rfl⟩ := List.mem_map.mp hl
    refine ⟨j, e.1, e.2, ?_, rfl⟩
    rintro rfl
    exact (List.nodup_middle.mp hnodup).notMem hj

theorem takes_turns {p q : Program (Access X V) V R} (hi : i < n)
    (h : Takes n b i p (actsOf b i (es i)) q) : Takes n b i p (turns es n b) q := by
  obtain ⟨u, u', heq, hother⟩ := split_turns es b hi
  have hskip : ∀ l ∈ u ++ u', ¬ l.Involves n b i := by
    intro l hl hinvolves
    obtain ⟨j, a, v, hne, rfl⟩ := hother l hl
    exact hne hinvolves.2
  rw [heq, List.append_assoc]
  refine Takes.skip_all (fun l hl => hskip l (List.mem_append_left u' hl)) (h.append ?_)
  exact .none fun l hl => hskip l (List.mem_append_right u hl)

theorem threadActs_turns (hi : i < n) : threadActs b i (turns es n b) = es i := by
  obtain ⟨u, u', heq, hother⟩ := split_turns es b hi
  have hnone : ∀ a v, .act b i a v ∉ u ++ u' := by
    intro a v hmem
    obtain ⟨j, a', v', hne, heq⟩ := hother _ hmem
    injection heq with _ hj
    exact hne hj.symm
  rw [heq, threadActs_append, threadActs_append, threadActs_actsOf,
    threadActs_eq_nil fun a v hmem => hnone a v (List.mem_append_left u' hmem),
    threadActs_eq_nil fun a v hmem => hnone a v (List.mem_append_right u hmem),
    List.nil_append, List.append_nil]

theorem written_turns : (turns es n b).filterMap Label.written =
    (List.range n).flatMap fun i => (es i).filterMap fun e => e.1.written := by
  rw [turns, List.filterMap_flatMap]
  exact List.flatMap_congr fun i _ => written_actsOf b i (es i)

theorem added_turns : (turns es n b).filterMap Label.added =
    (List.range n).flatMap fun i => (es i).filterMap fun e => e.1.added := by
  rw [turns, List.filterMap_flatMap]
  exact List.flatMap_congr fun i _ => added_actsOf b i (es i)

end Turns

end Words

end PassionProjects.Warps
