/-
  PassionProjects.Lib.Lines

  The lines of a text: what stands between its newlines, with no line behind the last
  newline. A text that does not end with a newline has an unfinished last line, and what
  is appended to it goes on with that line.  Lists cut into chunks of one size, and the
  streak of one value that a list ends with.
-/

import Mathlib.Data.List.Basic
import Mathlib.Data.List.Infix

namespace PassionProjects.Lines

variable {α : Type} [DecidableEq α]

/-- The lines of a text, without their newlines. -/
def lines (newline : α) : List α → List (List α)
  | [] => []
  | x :: text =>
      if x = newline then [] :: lines newline text
      else match lines newline text with
        | [] => [[x]]
        | line :: rest => (x :: line) :: rest

/-- No unfinished line. -/
def Ended (newline : α) (text : List α) : Prop := ∀ x ∈ text.getLast?, x = newline

instance (newline : α) (text : List α) : Decidable (Ended newline text) :=
  inferInstanceAs (Decidable (∀ x ∈ text.getLast?, x = newline))

variable {newline x : α} {line text rest : List α}

@[simp] theorem lines_nil : lines newline [] = [] := rfl

@[simp] theorem lines_newline_cons :
    lines newline (newline :: text) = [] :: lines newline text := by
  simp [lines]

theorem lines_eq_nil : lines newline text = [] ↔ text = [] := by
  cases text with
  | nil => simp
  | cons x text =>
      rw [lines]
      split
      · simp
      · split <;> simp

/-- A symbol that is no newline stands first in the first line. -/
theorem lines_cons_of_ne {first : List α} {later : List (List α)} (hx : x ≠ newline)
    (h : lines newline text = first :: later) :
    lines newline (x :: text) = (x :: first) :: later := by
  rw [lines, if_neg hx, h]

/-- A line ends at its newline. -/
theorem lines_append_newline (h : newline ∉ line) (text : List α) :
    lines newline (line ++ newline :: text) = line :: lines newline text := by
  induction line with
  | nil => exact lines_newline_cons
  | cons x line ih =>
      have hx : x ≠ newline := fun heq => h (heq ▸ List.mem_cons_self ..)
      have hline : newline ∉ line := fun hmem => h (List.mem_cons_of_mem _ hmem)
      exact lines_cons_of_ne hx (ih hline)

/-- A text without newlines is one unfinished line. -/
theorem lines_of_not_mem (h : newline ∉ line) (hne : line ≠ []) :
    lines newline line = [line] := by
  induction line with
  | nil => exact absurd rfl hne
  | cons x line ih =>
      have hx : x ≠ newline := fun heq => h (heq ▸ List.mem_cons_self ..)
      have hline : newline ∉ line := fun hmem => h (List.mem_cons_of_mem _ hmem)
      cases line with
      | nil => simp [lines, hx]
      | cons y line => exact lines_cons_of_ne hx (ih hline (by simp))

/-- Behind finished lines a text has its own lines. -/
theorem lines_append (h : Ended newline text) (rest : List α) :
    lines newline (text ++ rest) = lines newline text ++ lines newline rest := by
  induction text with
  | nil => rfl
  | cons x text ih =>
      cases text with
      | nil =>
          obtain rfl : x = newline := h x rfl
          simp
      | cons y text =>
          have hrest := ih fun z hz => h z (by rwa [List.getLast?_cons_cons])
          rw [List.cons_append]
          by_cases hx : x = newline
          · rw [hx, lines_newline_cons, lines_newline_cons, hrest, List.cons_append]
          · cases hlines : lines newline (y :: text) with
            | nil => exact absurd (lines_eq_nil.mp hlines) (by simp)
            | cons first later =>
                rw [hlines] at hrest
                rw [lines_cons_of_ne hx hlines]
                exact lines_cons_of_ne hx hrest

end PassionProjects.Lines

namespace PassionProjects

variable {α β γ : Type}

def chunks (size : Nat) : List α → List (List α)
  | [] => []
  | x :: xs => (x :: xs.take (size - 1)) :: chunks size (xs.drop (size - 1))
termination_by l => l.length
decreasing_by
  rw [List.length_drop, List.length_cons]
  omega

/-- The chunks are the list. -/
theorem flatten_chunks (size : Nat) (l : List α) : (chunks size l).flatten = l := by
  fun_induction chunks size l with
  | case1 => rfl
  | case2 x xs ih => rw [List.flatten_cons, ih, List.cons_append, List.take_append_drop]

theorem mem_of_mem_chunks {size : Nat} {l chunk : List α} {a : α} (hchunk : chunk ∈ chunks size l)
    (ha : a ∈ chunk) : a ∈ l := by
  rw [← flatten_chunks size l]
  exact List.mem_flatten_of_mem hchunk ha

theorem chunks_ne_nil {size : Nat} {l : List α} (hl : l ≠ []) : chunks size l ≠ [] := by
  cases l with
  | nil => exact absurd rfl hl
  | cons x xs =>
      unfold chunks
      exact List.cons_ne_nil _ _

/-- Two lists of rows of the same lengths, put together row by row. -/
theorem zipWith_flatten (f : α → β → γ) {xs : List (List α)} {ys : List (List β)}
    (h : List.Forall₂ (fun x y => x.length = y.length) xs ys) :
    List.zipWith f xs.flatten ys.flatten = (List.zipWith (List.zipWith f) xs ys).flatten := by
  induction h with
  | nil => rfl
  | cons hrow _ ih =>
      rw [List.flatten_cons, List.flatten_cons, List.zipWith_append hrow, ih,
        List.zipWith_cons_cons,
        List.flatten_cons]

end PassionProjects

namespace PassionProjects.Streak

variable {α : Type} [DecidableEq α]

/-- How many times in a row `a` stands at the end of a list. -/
def streak (a : α) (xs : List α) : Nat := (xs.reverse.takeWhile (· = a)).length

@[simp] theorem streak_nil (a : α) : streak a [] = 0 := rfl

/-- One more value lengthens its own streak and ends every other. -/
theorem streak_concat (a b : α) (xs : List α) :
    streak a (xs ++ [b]) = if b = a then streak a xs + 1 else 0 := by
  unfold streak
  rw [List.reverse_append]
  by_cases hb : b = a
  · simp [hb]
  · simp [hb]

theorem replicate_prefix_iff (a : α) (n : Nat) (xs : List α) :
    List.replicate n a <+: xs ↔ n ≤ (xs.takeWhile (· = a)).length := by
  induction xs generalizing n with
  | nil => simp
  | cons x xs ih =>
      cases n with
      | zero => simp
      | succ n =>
          rw [List.replicate_succ, List.cons_prefix_cons, ih]
          by_cases hx : x = a
          · simp [hx]
          · simp [hx, Ne.symm hx]

/-- A streak is the longest run that a list ends with. -/
theorem le_streak_iff {a : α} {n : Nat} {xs : List α} :
    n ≤ streak a xs ↔ List.replicate n a <:+ xs := by
  rw [streak, ← replicate_prefix_iff, ← List.reverse_prefix, List.reverse_replicate]

end PassionProjects.Streak
