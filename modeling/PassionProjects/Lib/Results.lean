/-
  PassionProjects.Lib.Results

  Computations that return a value or an error: what a sequence of them comes from, and
  loops over a list in which every turn may fail.

  The 32-bit integers of C; and reads of a buffer and size arithmetic that have a result
  only where the machine gives them a meaning: an element or a slice lies inside the
  buffer, a sum fits in 64 bits, a difference is not negative, a loop gets less input each
  turn.
-/

import Mathlib.Algebra.Order.Ring.Nat
import Mathlib.Data.Int.Init
import Mathlib.Data.List.Basic
import Mathlib.Data.List.Induction

namespace PassionProjects.Results

section

variable {ε ε' α β : Type} {x : Except ε α} {wrap : ε → ε'}

theorem bind_eq_ok {f : α → Except ε β} {b : β} :
    (x >>= f) = .ok b ↔ ∃ a, x = .ok a ∧ f a = .ok b := by
  cases x with
  | error err =>
      constructor
      · intro h
        cases h
      · rintro ⟨_, ⟨⟩, _⟩
  | ok a =>
      constructor
      · intro h
        exact ⟨a, rfl, h⟩
      · rintro ⟨_, ⟨⟩, h⟩
        exact h

theorem mapError_eq_ok {a : α} : x.mapError wrap = .ok a ↔ x = .ok a := by
  cases x <;> simp [Except.mapError]

/-- What a result after a wrapped error comes from. -/
theorem bind_mapError_eq_ok {f : α → Except ε' β} {b : β} :
    (x.mapError wrap >>= f) = .ok b ↔ ∃ a, x = .ok a ∧ f a = .ok b := by
  simp only [bind_eq_ok, mapError_eq_ok]

end

theorem mapM_ok {ε α β : Type} {f : α → Except ε β} {g : α → β} {xs : List α}
    (h : ∀ x ∈ xs, f x = .ok (g x)) : xs.mapM f = .ok (xs.map g) := by
  induction xs with
  | nil => rfl
  | cons x xs ih =>
      rw [List.mapM_cons, h x List.mem_cons_self, ih fun y hy => h y (List.mem_cons_of_mem x hy)]
      rfl

variable {ε α β : Type} {f : β → α → Except ε β} {I : List α → β → Prop}

theorem foldlM_concat (xs : List α) (x : α) (b : β) :
    (xs ++ [x]).foldlM f b = xs.foldlM f b >>= fun b => f b x := by
  rw [List.foldlM_append]
  exact bind_congr fun b => by rw [List.foldlM_cons]; exact bind_pure _

/-- A loop returns when each of its turns does, with what they keep. -/
theorem foldlM_ok (xs : List α) {b : β} (hinit : I [] b)
    (hstep : ∀ done x b, done ++ [x] <+: xs → I done b →
      ∃ b', f b x = .ok b' ∧ I (done ++ [x]) b') :
    ∃ b', xs.foldlM f b = .ok b' ∧ I xs b' := by
  induction xs using List.reverseRecOn with
  | nil => exact ⟨b, rfl, hinit⟩
  | append_singleton xs x ih =>
      obtain ⟨b₁, hb₁, hI⟩ := ih fun done y b hgrown =>
        hstep done y b (hgrown.trans (List.prefix_append xs [x]))
      obtain ⟨b₂, hb₂, hI₂⟩ := hstep xs x b₁ (List.prefix_refl _) hI
      exact ⟨b₂, by rw [foldlM_concat]; exact bind_eq_ok.mpr ⟨b₁, hb₁, hb₂⟩, hI₂⟩

/-- What the turns of a loop keep, when it returned. -/
theorem of_foldlM_ok {xs : List α} {b b' : β} (h : xs.foldlM f b = .ok b') (hinit : I [] b)
    (hstep : ∀ done x b b', I done b → f b x = .ok b' → I (done ++ [x]) b') : I xs b' := by
  induction xs using List.reverseRecOn generalizing b' with
  | nil => exact Except.ok.inj h ▸ hinit
  | append_singleton xs x ih =>
      rw [foldlM_concat] at h
      obtain ⟨b₁, hb₁, hx⟩ := bind_eq_ok.mp h
      exact hstep xs x b₁ b' (ih hb₁) hx

/-- A loop that follows another, turn by turn, returns if that one does. -/
theorem foldlM_follows {γ : Type} {g : γ → α → Except ε γ} {R : β → γ → Prop} {xs : List α}
    {b b' : β} {c : γ} (h : xs.foldlM f b = .ok b') (hinit : R b c)
    (hstep : ∀ x b b' c, R b c → f b x = .ok b' → ∃ c', g c x = .ok c' ∧ R b' c') :
    ∃ c', xs.foldlM g c = .ok c' ∧ R b' c' := by
  induction xs generalizing b c with
  | nil => exact ⟨c, rfl, Except.ok.inj h ▸ hinit⟩
  | cons x xs ih =>
      rw [List.foldlM_cons] at h ⊢
      obtain ⟨b₁, hb₁, hrest⟩ := bind_eq_ok.mp h
      obtain ⟨c₁, hc₁, hR⟩ := hstep x b b₁ c hinit hb₁
      obtain ⟨c', hc', hR'⟩ := ih hrest hR
      exact ⟨c', bind_eq_ok.mpr ⟨c₁, hc₁, hc'⟩, hR'⟩

end PassionProjects.Results

namespace PassionProjects.CInt

/-- The value of an expression of type `int`. -/
def int (x : Int) : Int := x.bmod (2 ^ 32)

/-- What an integer becomes as an `unsigned`. -/
def unsigned (x : Int) : Nat := (x % 2 ^ 32).toNat

theorem int_of_lt {x : Int} (hneg : -2 ^ 31 ≤ x) (hlt : x < 2 ^ 31) : int x = x :=
  Int.bmod_eq_of_le (by omega) (by omega)

theorem unsigned_of_lt {n : Nat} (h : n < 2 ^ 32) : unsigned n = n := by
  rw [unsigned, Int.emod_eq_of_lt (by omega) (by omega)]
  rfl

end PassionProjects.CInt

namespace PassionProjects.Checked

variable {α : Type}

/-- The `len` elements from `offset` on. -/
def slice (buf : List α) (offset len : Nat) : Option (List α) :=
  if offset + len ≤ buf.length then some ((buf.drop offset).take len) else none

/-- What is left without the first `n` elements. -/
def removePrefix (buf : List α) (n : Nat) : Option (List α) :=
  if n ≤ buf.length then some (buf.drop n) else none

/-- A sum of two sizes. -/
def add (a b : Nat) : Option Nat := if a + b < 2 ^ 64 then some (a + b) else none

/-- A difference of two sizes. -/
def sub (a b : Nat) : Option Nat := if b ≤ a then some (a - b) else none

/-- The input of the next turn of a loop. -/
def shrink (input rest : List α) : Option (List α) :=
  if rest.length < input.length then some rest else none

theorem slice_eq {buf : List α} {offset len : Nat} (h : offset + len ≤ buf.length) :
    slice buf offset len = some ((buf.drop offset).take len) := if_pos h

theorem removePrefix_eq {buf : List α} {n : Nat} (h : n ≤ buf.length) :
    removePrefix buf n = some (buf.drop n) := if_pos h

theorem add_eq {a b : Nat} (h : a + b < 2 ^ 64) : add a b = some (a + b) := if_pos h

theorem sub_eq {a b : Nat} (h : b ≤ a) : sub a b = some (a - b) := if_pos h

theorem shrink_eq {input rest : List α} (h : rest.length < input.length) :
    shrink input rest = some rest := if_pos h

end PassionProjects.Checked
