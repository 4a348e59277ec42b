/-
  PassionProjects.Lib.Terminator

  The first occurrence of a two-symbol terminator in a list, such as the CRLF that
  ends a line, and how it moves when the list is cut in two.

  The terminator is searched in a tail of the list while the head is kept aside:
  then its first symbol may be the last of the head and its second the first of
  the tail, and that is the only occurrence that a search of each part would miss.
-/

import Mathlib.Data.List.Basic

namespace PassionProjects.Terminator

variable {α : Type} [DecidableEq α]

/-- Where the first `a`, `b` in a row begins. -/
def find (a b : α) : List α → Option Nat
  | x :: y :: rest => if x = a ∧ y = b then some 0 else (find a b (y :: rest)).map (· + 1)
  | _ => none

variable {a b x : α} {s t : List α} {i : Nat}

@[simp] theorem find_nil : find a b [] = none := rfl

@[simp] theorem find_singleton : find a b [x] = none := rfl

/-- The list around the first terminator. -/
theorem find_eq_some (h : find a b s = some i) :
    s = s.take i ++ a :: b :: s.drop (i + 2) ∧ i + 2 ≤ s.length := by
  induction s generalizing i with
  | nil => exact absurd h (by simp)
  | cons x rest ih =>
      cases rest with
      | nil => exact absurd h (by simp)
      | cons y rest =>
          rw [find] at h
          split at h
          · obtain ⟨rfl, rfl⟩ := ‹x = a ∧ y = b›
            obtain rfl := Option.some.inj h
            exact ⟨rfl, by simp⟩
          · obtain ⟨j, hj, rfl⟩ := Option.map_eq_some_iff.mp h
            obtain ⟨heq, hle⟩ := ih hj
            refine ⟨?_, by rw [List.length_cons]; omega⟩
            rw [List.take_succ_cons, List.cons_append, List.drop_succ_cons, ← heq]

theorem find_length (h : find a b s = some i) : i + 2 ≤ s.length := (find_eq_some h).2

/-- What follows does not move the first terminator. -/
theorem find_append_of_some (h : find a b s = some i) (t : List α) :
    find a b (s ++ t) = some i := by
  induction s generalizing i with
  | nil => exact absurd h (by simp)
  | cons x rest ih =>
      cases rest with
      | nil => exact absurd h (by simp)
      | cons y rest =>
          rw [find] at h
          rw [List.cons_append, List.cons_append, find]
          split at h
          · rw [if_pos ‹_›]
            exact h
          · obtain ⟨j, hj, rfl⟩ := Option.map_eq_some_iff.mp h
            rw [if_neg ‹_›, ← List.cons_append, ih hj]
            rfl

theorem find_none_of_append (h : find a b (s ++ t) = none) : find a b s = none := by
  cases hs : find a b s with
  | none => rfl
  | some i =>
      rw [find_append_of_some hs t] at h
      exact absurd h (by simp)

/-- A terminator across the cut, when there is none before it. -/
theorem find_append_of_none (h : find a b s = none) (t : List α) :
    find a b (s ++ t) =
      if s.getLast? = some a ∧ t.head? = some b then some (s.length - 1)
      else (find a b t).map (· + s.length) := by
  induction s with
  | nil => simp
  | cons x rest ih =>
      cases rest with
      | nil =>
          cases t with
          | nil => simp
          | cons y rest =>
              simp only [List.cons_append, List.nil_append, find, List.getLast?_singleton,
                List.head?_cons, Option.some.injEq, List.length_singleton, Nat.sub_self]
      | cons y rest =>
          rw [find] at h
          split at h
          · exact absurd h (by simp)
          · have hrest : find a b (y :: rest) = none := by simpa using h
            rw [List.cons_append, List.cons_append, find, if_neg ‹_›, ← List.cons_append,
              ih hrest, List.getLast?_cons_cons]
            split
            · simp
            · cases find a b t with
              | none => rfl
              | some j =>
                  simp only [Option.map_some, List.length_cons]
                  congr 1

/-- What comes after the first terminator does not matter to it. -/
theorem find_take_add_two (h : find a b s = some i) : find a b (s.take (i + 2)) = some i := by
  cases hs : find a b (s.take (i + 2)) with
  | some j =>
      have happ := find_append_of_some hs (s.drop (i + 2))
      rw [List.take_append_drop, h] at happ
      exact happ.symm
  | none =>
      have hle := find_length h
      obtain ⟨heq, -⟩ := find_eq_some h
      have htake : s.take (i + 2) = s.take i ++ [a, b] := by
        conv_lhs => rw [heq]
        rw [List.take_append, List.length_take, Nat.min_eq_left (by omega),
          show i + 2 - i = 2 by omega, List.take_of_length_le (by rw [List.length_take]; omega)]
        rfl
      have hnone : find a b (s.take i) = none := by
        rw [htake] at hs
        exact find_none_of_append hs
      rw [htake, find_append_of_none hnone] at hs
      have hlast : find a b [a, b] = some 0 := by simp [find]
      rw [hlast] at hs
      split at hs
      · exact absurd hs (by simp)
      · exact absurd hs (by simp)

/-- Before the end of the first terminator there is no terminator. -/
theorem length_lt_of_find_append (hs : find a b s = none) (h : find a b (s ++ t) = some i) :
    s.length < i + 2 := by
  rw [find_append_of_none hs] at h
  split at h
  · have heq := Option.some.inj h
    omega
  · obtain ⟨j, -, rfl⟩ := Option.map_eq_some_iff.mp h
    omega

/-- Before the first terminator there is none, even with its first symbol. -/
theorem find_take (h : find a b s = some i) : find a b (s.take (i + 1)) = none := by
  induction s generalizing i with
  | nil => exact absurd h (by simp)
  | cons x rest ih =>
      cases rest with
      | nil => exact absurd h (by simp)
      | cons y rest =>
          rw [find] at h
          split at h
          · obtain rfl := Option.some.inj h
            rfl
          · obtain ⟨j, hj, rfl⟩ := Option.map_eq_some_iff.mp h
            have htail := ih hj
            rw [List.take_succ_cons] at htail ⊢
            rw [List.take_succ_cons, find, if_neg ‹_›, htail]
            rfl

/-- The first terminator after a part without its first symbol. -/
theorem find_of_not_mem (h : a ∉ s) (t : List α) : find a b (s ++ a :: b :: t) = some s.length := by
  induction s with
  | nil => rw [List.nil_append, find, if_pos ⟨rfl, rfl⟩, List.length_nil]
  | cons x rest ih =>
      obtain ⟨hx, hrest⟩ := not_or.mp (fun hmem => h (List.mem_cons.mpr hmem))
      have htail := ih hrest
      rcases hcons : rest ++ a :: b :: t with - | ⟨y, more⟩
      · exact absurd hcons (by simp)
      · rw [hcons] at htail
        rw [List.cons_append, hcons, find, if_neg fun hxy => hx hxy.1.symm, htail]
        rfl

/-- No terminator is found where there is none. -/
theorem find_eq_none_iff : find a b s = none ↔ ¬ [a, b] <:+: s := by
  constructor
  · rintro h ⟨before, after, rfl⟩
    have hhead : find a b (before ++ [a, b]) = none := find_none_of_append h
    rw [find_append_of_none (find_none_of_append hhead)] at hhead
    split at hhead
    · exact absurd hhead (by simp)
    · simp [find] at hhead
  · intro h
    cases hfind : find a b s with
    | none => rfl
    | some i =>
        exact absurd ⟨s.take i, s.drop (i + 2), by simpa using (find_eq_some hfind).1.symm⟩ h

/-- The terminator behind a part that has none. -/
theorem find_line (hab : a ≠ b) (h : ¬ [a, b] <:+: s) (t : List α) :
    find a b (s ++ a :: b :: t) = some s.length := by
  have hzero : find a b (a :: b :: t) = some 0 := by rw [find, if_pos ⟨rfl, rfl⟩]
  rw [find_append_of_none (find_eq_none_iff.mpr h), if_neg, hzero]
  · simp
  · exact fun hsplit => hab (Option.some.inj hsplit.2)

end PassionProjects.Terminator
