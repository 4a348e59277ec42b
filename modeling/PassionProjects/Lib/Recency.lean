/-
  PassionProjects.Lib.Recency

  Keyed values with the most recently used in front.

  `touch` puts a value in front under its key and `promote` moves the one that is
  there; forgetting is a filter on the keys.  A prefix of such a list stays a prefix
  when both lists take the same use, so that a store which only ever drops from the
  back holds the most recently used values.
-/

import Mathlib.Data.List.Nodup

namespace PassionProjects.Recency

variable {κ β : Type} [DecidableEq κ] {k k' : κ} {b : β} {l u : List (κ × β)}

/-- The value under a key. -/
def value (k : κ) (l : List (κ × β)) : Option β := (l.find? (·.1 = k)).map Prod.snd

/-- A value used now. -/
def touch (k : κ) (b : β) (l : List (κ × β)) : List (κ × β) := (k, b) :: l.filter (·.1 ≠ k)

/-- The value under a key is used now. -/
def promote (k : κ) (l : List (κ × β)) : List (κ × β) :=
  match value k l with
  | some b => touch k b l
  | none => l

theorem value_cons (e : κ × β) (l : List (κ × β)) :
    value k (e :: l) = if e.1 = k then some e.2 else value k l := by
  by_cases hkey : e.1 = k
  · simp [value, hkey]
  · simp [value, hkey]

theorem value_eq_some_mem (h : value k l = some b) : (k, b) ∈ l := by
  induction l with
  | nil => exact absurd h (by simp [value])
  | cons e rest ih =>
      rw [value_cons] at h
      split at h
      · obtain rfl := Option.some.inj h
        obtain rfl := ‹e.1 = k›
        exact List.mem_cons_self
      · exact List.mem_cons_of_mem _ (ih h)

theorem value_eq_none (h : value k l = none) : ∀ e ∈ l, e.1 ≠ k := by
  intro e he hkey
  rw [value, Option.map_eq_none_iff, List.find?_eq_none] at h
  exact h e he (by simpa using hkey)

/-- With distinct keys the value under a key is the one that is there. -/
theorem value_of_mem (hnodup : (l.map Prod.fst).Nodup) (h : (k, b) ∈ l) : value k l = some b := by
  cases hvalue : value k l with
  | none => exact absurd rfl (value_eq_none hvalue _ h)
  | some b' =>
      have hsame := List.inj_on_of_nodup_map hnodup (value_eq_some_mem hvalue) h rfl
      rw [(Prod.mk.inj hsame).2]

/-- Forgetting by key. -/
theorem value_filter (p : κ → Bool) (l : List (κ × β)) :
    value k (l.filter fun e => p e.1) = if p k then value k l else none := by
  induction l with
  | nil => simp [value]
  | cons e rest ih =>
      rw [List.filter_cons]
      by_cases hkey : e.1 = k
      · subst hkey
        cases hp : p e.1 with
        | true => rw [if_pos rfl, value_cons, if_pos rfl, if_pos rfl, value_cons, if_pos rfl]
        | false =>
            rw [hp] at ih
            rw [if_neg Bool.false_ne_true, if_neg Bool.false_ne_true, ih,
              if_neg Bool.false_ne_true]
      · have hskip : value k (e :: rest) = value k rest := by rw [value_cons, if_neg hkey]
        rw [hskip, ← ih]
        split
        · rw [value_cons, if_neg hkey]
        · rfl

theorem value_touch : value k' (touch k b l) = if k = k' then some b else value k' l := by
  rw [touch, value_cons]
  by_cases hkey : k = k'
  · rw [if_pos hkey, if_pos hkey]
  · rw [if_neg hkey, if_neg hkey, value_filter (fun key => decide (key ≠ k)), if_pos]
    simpa using Ne.symm hkey

/-- Using a value again does not change it. -/
theorem value_promote : value k' (promote k l) = value k' l := by
  unfold promote
  cases hvalue : value k l with
  | none => rfl
  | some b =>
      dsimp only
      rw [value_touch]
      split
      · rw [← hvalue, ‹k = k'›]
      · rfl

-- ============================================================================
-- A store that drops from the back
-- ============================================================================

theorem prefix_touch (h : l <+: u) : touch k b l <+: touch k b u :=
  (List.prefix_cons_inj _).mpr (h.filter _)

/-- What the store has, the whole list has. -/
theorem value_of_prefix (h : l <+: u) (hvalue : value k l = some b) : value k u = some b := by
  obtain ⟨back, rfl⟩ := h
  rw [value, Option.map_eq_some_iff] at hvalue ⊢
  obtain ⟨e, he, hb⟩ := hvalue
  exact ⟨e, by rw [List.find?_append, he, Option.some_or], hb⟩

theorem prefix_promote (h : l <+: u) (hvalue : value k l = some b) :
    promote k l <+: promote k u := by
  unfold promote
  rw [hvalue, value_of_prefix h hvalue]
  exact prefix_touch h

end PassionProjects.Recency
