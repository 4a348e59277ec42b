/-
  PassionProjects.Lib.Kernels.Memory

  Threads that read and write the cells of a memory.  What a thread does up to the next
  barrier is told by the cells it may read and by its writes; where no thread writes a cell
  that another one reads or writes between two barriers, what the threads of a grid do
  together is told by this alone.
-/

import Mathlib.Data.Set.Basic
import PassionProjects.Lib.Kernels.Planned

namespace PassionProjects.Kernels

open Program

variable {B T X V R R' : Type}

inductive Access (X V : Type) where
  | read (x : X)
  | write (x : X) (v : V)

namespace Access

def cell : Access X V → X
  | .read x => x
  | .write x _ => x

/-- The answer to a write is the value written. -/
def exec [DecidableEq X] : Access X V → (X → V) → V × (X → V)
  | .read x, μ => (μ x, μ)
  | .write x v, μ => (v, Function.update μ x v)

/-- Two reads, or two cells. -/
def Apart : Access X V → Access X V → Prop
  | .read _, .read _ => True
  | a, a' => a.cell ≠ a'.cell

theorem Apart.of_ne {a a' : Access X V} (h : a.cell ≠ a'.cell) : a.Apart a' := by
  cases a <;> cases a' <;> trivial

theorem commute_of_apart [DecidableEq X] (a a' : Access X V) (h : a.Apart a') :
    Commute exec a a' := by
  intro μ
  cases a with
  | read x =>
      cases a' with
      | read x' => exact ⟨rfl, rfl, rfl⟩
      | write x' v' => exact ⟨Function.update_of_ne h _ _, rfl, rfl⟩
  | write x v =>
      cases a' with
      | read x' => exact ⟨rfl, Function.update_of_ne (Ne.symm h) _ _, rfl⟩
      | write x' v' => exact ⟨rfl, rfl, Function.update_comm h _ _ _⟩

end Access

/-- What a step wrote. -/
def Label.written : Label B T (Access X V) V → Option (X × V)
  | .act _ _ (.write x v) _ => some (x, v)
  | _ => none

def load (x : X) : Program (Access X V) V V := perform (.read x)

def store (x : X) (v : V) : Program (Access X V) V Unit := perform (.write x v) >>= fun _ => ret ()

@[simp] theorem load_bind (x : X) (f : V → Program (Access X V) V R) :
    load x >>= f = act (.read x) f := rfl

@[simp] theorem store_bind (x : X) (v : V) (f : Unit → Program (Access X V) V R) :
    store x v >>= f = act (.write x v) fun _ => f () := rfl

-- ============================================================================
-- Lists of writes
-- ============================================================================

section Replay

variable [DecidableEq X]

/-- The memory after some writes. -/
def replay : List (X × V) → (X → V) → X → V
  | [], μ => μ
  | w :: ws, μ => replay ws (Function.update μ w.1 w.2)

theorem replay_append (ws ws' : List (X × V)) (μ : X → V) :
    replay (ws ++ ws') μ = replay ws' (replay ws μ) := by
  induction ws generalizing μ with
  | nil => rfl
  | cons w ws ih => exact ih _

/-- A cell that is not written keeps its value. -/
theorem replay_of_not_mem {ws : List (X × V)} {x : X} (h : ∀ w ∈ ws, w.1 ≠ x) (μ : X → V) :
    replay ws μ x = μ x := by
  induction ws generalizing μ with
  | nil => rfl
  | cons w ws ih =>
      rw [replay, ih fun w' hw' => h w' (List.mem_cons_of_mem w hw'),
        Function.update_of_ne (h w (List.mem_cons_self ..)).symm]

/-- A cell to which only one value is written. -/
theorem replay_of_mem {ws : List (X × V)} {y : X} {v : V}
    (hws : ∀ w ∈ ws, w.1 = y → w.2 = v) (hmem : ∃ w ∈ ws, w.1 = y) (c : X → V) :
    replay ws c y = v := by
  induction ws generalizing c with
  | nil => exact absurd hmem (by simp)
  | cons w ws ih =>
      have hrest := fun w' hw' => hws w' (List.mem_cons_of_mem w hw')
      by_cases hlater : ∃ w' ∈ ws, w'.1 = y
      · exact ih hrest hlater _
      · obtain ⟨w', hw', rfl⟩ := hmem
        rcases List.mem_cons.mp hw' with rfl | hw'
        · rw [replay, replay_of_not_mem fun w'' hw'' heq => hlater ⟨w'', hw'', heq⟩,
            Function.update_self]
          exact hws _ List.mem_cons_self rfl
        · exact absurd ⟨w', hw', rfl⟩ hlater

/-- What is written at a cell does not depend on what was there. -/
theorem replay_congr {ws : List (X × V)} {x : X} {μ μ' : X → V}
    (h : (∃ w ∈ ws, w.1 = x) ∨ μ x = μ' x) : replay ws μ x = replay ws μ' x := by
  induction ws generalizing μ μ' with
  | nil => exact h.resolve_left (by simp)
  | cons w ws ih =>
      refine ih ?_
      rcases eq_or_ne x w.1 with rfl | hne
      · exact .inr (by rw [Function.update_self, Function.update_self])
      · rw [Function.update_of_ne hne, Function.update_of_ne hne]
        refine h.imp_left ?_
        rintro ⟨w', hw', rfl⟩
        exact ⟨w', (List.mem_cons.mp hw').resolve_left (fun heq => hne (heq ▸ rfl)), rfl⟩

/-- Writes that agree with a memory at the cells they write, where it differs nowhere
    else. -/
theorem replay_eq {ws : List (X × V)} {μ μ' : X → V} (hws : ∀ w ∈ ws, μ' w.1 = w.2)
    (hrest : ∀ x, (∀ w ∈ ws, w.1 ≠ x) → μ' x = μ x) : replay ws μ = μ' := by
  induction ws generalizing μ with
  | nil => exact funext fun x => (hrest x (by simp)).symm
  | cons w ws ih =>
      refine ih (fun w' hw' => hws w' (List.mem_cons_of_mem w hw')) fun x hx => ?_
      rcases eq_or_ne x w.1 with rfl | hne
      · rw [Function.update_self]
        exact hws w (List.mem_cons_self ..)
      · rw [Function.update_of_ne hne]
        refine hrest x fun w' hw' => ?_
        rcases List.mem_cons.mp hw' with rfl | hw'
        · exact hne.symm
        · exact hx w' hw'

end Replay

-- ============================================================================
-- One thread up to a barrier
-- ============================================================================

section Performs

variable [DecidableEq X]

/-- From `μ` the thread gets to `q`.  It reads cells of `C` only and makes the writes `ws`. -/
inductive Performs (C : Set X) : (X → V) → Program (Access X V) V R → List (X × V) →
    Program (Access X V) V R → Prop where
  | here {μ : X → V} {p : Program (Access X V) V R} : Performs C μ p [] p
  | read {μ : X → V} {x : X} {k : V → Program (Access X V) V R} {ws : List (X × V)}
      {q : Program (Access X V) V R} :
      x ∈ C → Performs C μ (k (μ x)) ws q → Performs C μ (.act (.read x) k) ws q
  | write {μ : X → V} {x : X} {v : V} {k : V → Program (Access X V) V R} {ws : List (X × V)}
      {q : Program (Access X V) V R} :
      Performs C (Function.update μ x v) (k v) ws q →
        Performs C μ (.act (.write x v) k) ((x, v) :: ws) q

namespace Performs

variable {C : Set X} {μ μ' : X → V} {p : Program (Access X V) V R} {ws ws' : List (X × V)}

theorem load {x : X} (hx : x ∈ C) : Performs C μ (load x) [] (.ret (μ x)) := .read hx .here

theorem store (x : X) (v : V) : Performs C μ (store x v) [(x, v)] (.ret ()) := .write .here

theorem load_bind {x : X} (hx : x ∈ C) {f : V → Program (Access X V) V R'}
    {q : Program (Access X V) V R'} (h : Performs C μ (f (μ x)) ws q) :
    Performs C μ (Kernels.load x >>= f) ws q := .read hx h

theorem store_bind {x : X} {v : V} {f : Unit → Program (Access X V) V R'}
    {q : Program (Access X V) V R'} (h : Performs C (Function.update μ x v) (f ()) ws q) :
    Performs C μ (Kernels.store x v >>= f) ((x, v) :: ws) q := .write h

theorem bind {r : R} {f : R → Program (Access X V) V R'} {q : Program (Access X V) V R'}
    (h : Performs C μ p ws (.ret r)) (hf : Performs C (replay ws μ) (f r) ws' q) :
    Performs C μ (p >>= f) (ws ++ ws') q := by
  generalize hret : Program.ret r = p' at h
  induction h with
  | here =>
      subst hret
      exact hf
  | read hx _ ih => exact .read hx (ih hf hret)
  | write _ ih => exact .write (ih hf hret)

/-- A thread that only reads goes on from the same memory. -/
theorem bind_read {r : R} {f : R → Program (Access X V) V R'} {q : Program (Access X V) V R'}
    (h : Performs C μ p [] (.ret r)) (hf : Performs C μ (f r) ws q) :
    Performs C μ (p >>= f) ws q := bind h hf

theorem bind_here {r : R} {f : R → Program (Access X V) V R'} (h : Performs C μ p ws (.ret r)) :
    Performs C μ (p >>= f) ws (f r) := by
  have hbind := h.bind (f := f) .here
  rwa [List.append_nil] at hbind

/-- Up to a barrier in the first part of a program. -/
theorem bind_sync {k : Program (Access X V) V R} (f : R → Program (Access X V) V R')
    (h : Performs C μ p ws (.sync k)) : Performs C μ (p >>= f) ws (.sync (k >>= f)) := by
  generalize hsync : Program.sync k = p' at h
  induction h with
  | here =>
      subst hsync
      exact .here
  | read hx _ ih => exact .read hx (ih hsync)
  | write _ ih => exact .write (ih hsync)

/-- The values of other cells do not matter. -/
theorem congr {q : Program (Access X V) V R} (h : Performs C μ p ws q)
    (hμ : ∀ x ∈ C, μ' x = μ x) : Performs C μ' p ws q := by
  induction h generalizing μ' with
  | here => exact .here
  | read hx _ ih => exact .read hx (hμ _ hx ▸ ih hμ)
  | @write μ y v _ _ _ _ ih =>
      refine .write (ih fun x hx => ?_)
      rcases eq_or_ne x y with rfl | hne
      · rw [Function.update_self, Function.update_self]
      · rw [Function.update_of_ne hne, Function.update_of_ne hne, hμ x hx]

theorem mono {C' : Set X} {q : Program (Access X V) V R} (h : Performs C μ p ws q)
    (hC : ∀ x ∈ C, x ∈ C') : Performs C' μ p ws q := by
  induction h with
  | here => exact .here
  | read hx _ ih => exact .read (hC _ hx) ih
  | write _ ih => exact .write ih

end Performs

/-- The accesses behind it, in every memory that agrees with `μ` on the cells read. -/
theorem Performs.follows {C : Set X} {μ : X → V} {p q : Program (Access X V) V Unit}
    {ws : List (X × V)} (h : Performs C μ p ws q) :
    ∃ es : List (Access X V × V), Follows p es q ∧
      (∀ e ∈ es, (∃ x ∈ C, e.1 = .read x) ∨ ∃ w ∈ ws, e.1 = .write w.1 w.2) ∧
        ∀ (b : B) (i : T), (actsOf b i es).filterMap Label.written = ws ∧
          ∀ μ', (∀ x ∈ C, μ' x = μ x) → Replays Access.exec (actsOf b i es) μ' (replay ws μ') := by
  induction h with
  | here => exact ⟨[], .nil, by simp, fun b i => ⟨rfl, fun μ' _ => rfl⟩⟩
  | @read μ x k ws q hx _ ih =>
      obtain ⟨es, hfollows, hes, hreplays⟩ := ih
      refine ⟨(.read x, μ x) :: es, .act hfollows, ?_, fun b i => ⟨?_, fun μ' hμ => ?_⟩⟩
      · exact List.forall_mem_cons.mpr ⟨.inl ⟨x, hx, rfl⟩, hes⟩
      · exact (hreplays b i).1
      · exact ⟨hμ x hx, (hreplays b i).2 μ' hμ⟩
  | @write μ x v k ws q _ ih =>
      obtain ⟨es, hfollows, hes, hreplays⟩ := ih
      refine ⟨(.write x v, v) :: es, .act hfollows, ?_, fun b i => ⟨?_, fun μ' hμ => ?_⟩⟩
      · refine List.forall_mem_cons.mpr ⟨.inr ⟨(x, v), by simp, rfl⟩, fun e he => ?_⟩
        refine (hes e he).imp_right ?_
        rintro ⟨w, hw, heq⟩
        exact ⟨w, List.mem_cons_of_mem _ hw, heq⟩
      · exact congrArg ((x, v) :: ·) (hreplays b i).1
      · refine ⟨rfl, (hreplays b i).2 _ fun y hy => ?_⟩
        rcases eq_or_ne y x with rfl | hne
        · simp [Access.exec]
        · simp [Access.exec, hne, hμ y hy]

end Performs

end PassionProjects.Kernels
