/-
  PassionProjects.Lib.Layers

  Stacks of partial maps that are read from the top: the first layer that
  mentions a key answers for it.

  A stack is `Ordered` by a rank when a higher layer never holds an older entry
  for a key than a lower one, and two entries of the same rank are the same
  entry.  In an ordered stack the first answer is the one of highest rank, and
  collapsing any top part of the stack into one layer keeps it ordered.
-/

import Mathlib.Data.List.Pairwise
import Mathlib.Order.Basic
import Mathlib.Order.Lattice

namespace PassionProjects.Layers

/-- A layer: what it holds for each key. -/
abbrev Layer (κ ε : Type) := κ → Option ε

variable {κ ε ρ : Type}

/-- The answer of a stack of layers, topmost first. -/
def firstHit (layers : List (Layer κ ε)) (k : κ) : Option ε := layers.findSome? fun l => l k

@[simp] theorem firstHit_nil (k : κ) : firstHit ([] : List (Layer κ ε)) k = none := rfl

theorem firstHit_cons (l : Layer κ ε) (layers : List (Layer κ ε)) (k : κ) :
    firstHit (l :: layers) k = (l k).or (firstHit layers k) := by
  simp only [firstHit, List.findSome?_cons]
  cases l k <;> rfl

theorem firstHit_append (xs ys : List (Layer κ ε)) (k : κ) :
    firstHit (xs ++ ys) k = (firstHit xs k).or (firstHit ys k) := by
  simp only [firstHit, List.findSome?_append]

/-- A part of the stack can be replaced by one layer that answers alike. -/
theorem firstHit_collapse {l : Layer κ ε} {xs : List (Layer κ ε)} (ys : List (Layer κ ε))
    (h : ∀ k, l k = firstHit xs k) : firstHit (l :: ys) = firstHit (xs ++ ys) := by
  funext k
  rw [firstHit_cons, firstHit_append, h k]

/-- Layers below a full answer do not matter. -/
theorem firstHit_covered {xs ys : List (Layer κ ε)}
    (h : ∀ l ∈ ys, ∀ k, l k ≠ none → firstHit xs k ≠ none) (zs : List (Layer κ ε)) :
    firstHit (xs ++ (ys ++ zs)) = firstHit (xs ++ zs) := by
  funext k
  rw [firstHit_append, firstHit_append, firstHit_append]
  cases hx : firstHit xs k with
  | some e => rfl
  | none =>
      have hys : firstHit ys k = none := by
        rw [firstHit, List.findSome?_eq_none_iff]
        intro l hl
        by_contra hne
        exact h l hl k hne hx
      rw [hys]
      rfl

theorem firstHit_mem {layers : List (Layer κ ε)} {k : κ} {e : ε} (h : firstHit layers k = some e) :
    ∃ l ∈ layers, l k = some e := List.exists_of_findSome?_eq_some h

/-- Whatever any layer holds for a key, the stack answers something. -/
theorem firstHit_ne_none {layers : List (Layer κ ε)} {l : Layer κ ε} {k : κ} (hl : l ∈ layers)
    (h : l k ≠ none) : firstHit layers k ≠ none := by
  rw [firstHit]
  intro hnone
  exact h (List.findSome?_eq_none_iff.mp hnone l hl)

-- ============================================================================
-- Ordered stacks
-- ============================================================================

variable [LinearOrder ρ] (rank : ε → ρ)

/-- The entry `a` of a higher layer may stand above the entry `b` of a lower one. -/
def Above (a b : ε) : Prop := rank b ≤ rank a ∧ (rank a = rank b → a = b)

/-- For every key that two layers hold, the higher one holds the newer entry, or
    they hold the same entry. -/
def Ordered (layers : List (Layer κ ε)) : Prop :=
  layers.Pairwise fun upper lower => ∀ k a b, upper k = some a → lower k = some b → Above rank a b

variable {rank}

theorem Ordered.cons_iff {l : Layer κ ε} {layers : List (Layer κ ε)} :
    Ordered rank (l :: layers) ↔
      (∀ l' ∈ layers, ∀ k a b, l k = some a → l' k = some b → Above rank a b) ∧
        Ordered rank layers := List.pairwise_cons

/-- The first answer of an ordered stack stands above every entry of every layer. -/
theorem Ordered.firstHit_above {layers : List (Layer κ ε)} (h : Ordered rank layers) {k : κ} {e : ε}
    (he : firstHit layers k = some e) {l : Layer κ ε} (hl : l ∈ layers) {b : ε}
    (hb : l k = some b) : Above rank e b := by
  induction layers with
  | nil => exact absurd hl (List.not_mem_nil)
  | cons top layers ih =>
      obtain ⟨htop, hrest⟩ := Ordered.cons_iff.mp h
      rw [firstHit_cons] at he
      cases htk : top k with
      | some a =>
          rw [htk] at he
          obtain rfl : a = e := by simpa using he
          rcases List.mem_cons.mp hl with rfl | hl
          · rw [htk] at hb
            obtain rfl := Option.some.inj hb
            exact ⟨le_refl _, fun _ => rfl⟩
          · exact htop l hl k _ _ htk hb
      | none =>
          rw [htk] at he
          rcases List.mem_cons.mp hl with rfl | hl
          · rw [htk] at hb
            exact absurd hb (by simp)
          · exact ih hrest (by simpa using he) hl

/-- In an ordered stack, reading the first layer that mentions a key is reading
    the entry of highest rank. -/
theorem Ordered.firstHit_eq_some_iff {layers : List (Layer κ ε)} (h : Ordered rank layers) (k : κ)
    (e : ε) : firstHit layers k = some e ↔
      (∃ l ∈ layers, l k = some e) ∧ ∀ l ∈ layers, ∀ b, l k = some b → rank b ≤ rank e := by
  constructor
  · intro he
    exact ⟨firstHit_mem he, fun l hl b hb => (h.firstHit_above he hl hb).1⟩
  · rintro ⟨⟨l, hl, hle⟩, hmax⟩
    cases hf : firstHit layers k with
    | none => exact absurd hf (firstHit_ne_none hl (by rw [hle]; simp))
    | some e' =>
        obtain ⟨l', hl', he'⟩ := firstHit_mem hf
        have habove := h.firstHit_above hf hl hle
        exact congrArg some (habove.2 (le_antisymm (hmax l' hl' e' he') habove.1))

/-- Collapsing the top of an ordered stack into one layer keeps it ordered; the
    layers that stay may overlap the collapsed part. -/
theorem Ordered.collapse {l : Layer κ ε} {xs ys : List (Layer κ ε)}
    (h : Ordered rank xs) (hys : List.IsSuffix ys xs)
    (hl : ∀ k e, l k = some e → firstHit xs k = some e) : Ordered rank (l :: ys) := by
  refine Ordered.cons_iff.mpr ⟨fun l' hl' k a b ha hb => ?_, List.Pairwise.sublist hys.sublist h⟩
  exact h.firstHit_above (hl k a ha) (hys.subset hl') hb

/-- A newer entry than all others may be put into the top layer. -/
theorem Ordered.insert [DecidableEq κ] {top : Layer κ ε} {layers : List (Layer κ ε)}
    (h : Ordered rank (top :: layers)) {k : κ} {e : ε}
    (hnew : ∀ l ∈ layers, ∀ b, l k = some b → rank b < rank e) :
    Ordered rank ((fun k' => if k' = k then some e else top k') :: layers) := by
  obtain ⟨htop, hrest⟩ := Ordered.cons_iff.mp h
  refine Ordered.cons_iff.mpr ⟨fun l hl k' a b ha hb => ?_, hrest⟩
  by_cases hk : k' = k
  · subst hk
    rw [if_pos rfl] at ha
    obtain rfl := Option.some.inj ha
    have hlt := hnew l hl b hb
    exact ⟨le_of_lt hlt, fun heq => absurd heq (ne_of_gt hlt)⟩
  · rw [if_neg hk] at ha
    exact htop l hl k' a b ha hb

/-- An empty layer on top changes nothing. -/
theorem Ordered.cons_empty {layers : List (Layer κ ε)} (h : Ordered rank layers) :
    Ordered rank ((fun _ => none) :: layers) :=
  Ordered.cons_iff.mpr ⟨fun _ _ _ _ _ ha => absurd ha (by simp), h⟩

end PassionProjects.Layers
