/-
  PassionProjects.Lib.Sorted

  Insertion sort by a total, transitive relation is stable, so it goes past filters and past a
  list that comes after all of another; and what a sorted list has below a bound is the
  beginning of it.

  Binary search for the first element of a partitioned sequence that a predicate rejects, as
  `std::lower_bound` does it, and the two-level search it is used for: a sorted sequence cut
  into segments, where the last key of each segment says whether the segment can hold a key.
-/

import Mathlib.Data.List.Basic
import Mathlib.Data.List.Sort

namespace PassionProjects.StableSort

open List

variable {α : Type} {r : α → α → Prop} {a : α} {l l' s : List α} {p : α → Bool}

/-- Where `p` holds of everything before what it holds of, it holds of the beginning of a
    sorted list. -/
theorem takeWhile_eq_filter (hs : s.Pairwise r) (hdown : ∀ a b, r a b → p b = true → p a = true) :
    s.takeWhile p = s.filter p := by
  induction s with
  | nil => rfl
  | cons a s ih =>
      rw [pairwise_cons] at hs
      cases hp : p a with
      | true => rw [takeWhile_cons_of_pos hp, filter_cons_of_pos hp, ih hs.2]
      | false =>
          rw [takeWhile_cons_of_neg (by simp [hp]), filter_cons_of_neg (by simp [hp]), eq_comm,
            filter_eq_nil_iff]
          intro b hb hpb
          rw [hdown a b (hs.1 b hb) hpb] at hp
          exact Bool.noConfusion hp

variable [DecidableRel r]

theorem orderedInsert_append (h : ∀ b ∈ l', r a b) :
    (l ++ l').orderedInsert r a = l.orderedInsert r a ++ l' := by
  induction l with
  | nil =>
      cases l' with
      | nil => rfl
      | cons b l' => exact orderedInsert_cons_of_le r l' (h b mem_cons_self)
  | cons b l ih =>
      by_cases hab : r a b
      · rw [cons_append, orderedInsert_cons_of_le r _ hab, orderedInsert_cons_of_le r _ hab]
        rfl
      · rw [cons_append, orderedInsert_of_not_le r _ hab, orderedInsert_of_not_le r _ hab, ih]
        rfl

/-- A list that comes after all of another is sorted behind it. -/
theorem insertionSort_append (h : ∀ a ∈ l, ∀ b ∈ l', r a b) :
    (l ++ l').insertionSort r = l.insertionSort r ++ l'.insertionSort r := by
  induction l with
  | nil => rfl
  | cons a l ih =>
      rw [cons_append, insertionSort_cons, insertionSort_cons,
        ih fun c hc => h c (mem_cons_of_mem a hc)]
      exact orderedInsert_append fun b hb => h a mem_cons_self b ((mem_insertionSort r).mp hb)

variable [IsTrans α r]

theorem filter_orderedInsert (hs : s.Pairwise r) :
    (s.orderedInsert r a).filter p =
      if p a then (s.filter p).orderedInsert r a else s.filter p := by
  induction s with
  | nil =>
      rw [orderedInsert_nil, filter_cons]
      rfl
  | cons b s ih =>
      rw [pairwise_cons] at hs
      by_cases hab : r a b
      · rw [orderedInsert_cons_of_le r s hab, filter_cons]
        split
        · -- everything after `b` comes after `a` as well
          cases hrest : (b :: s).filter p with
          | nil => rfl
          | cons c rest =>
              have hc : c ∈ b :: s := mem_of_mem_filter (p := p) (hrest ▸ mem_cons_self)
              have hac : r a c := by
                rcases mem_cons.mp hc with rfl | hc
                · exact hab
                · exact Trans.trans hab (hs.1 c hc)
              rw [orderedInsert_cons_of_le r rest hac]
        · rfl
      · rw [orderedInsert_of_not_le r s hab, filter_cons, ih hs.2, filter_cons]
        cases p b <;> cases p a
        · rfl
        · rfl
        · rfl
        · exact (orderedInsert_of_not_le r _ hab).symm

/-- Sorting and filtering commute. -/
theorem filter_insertionSort [Std.Total r] :
    (l.insertionSort r).filter p = (l.filter p).insertionSort r := by
  induction l with
  | nil => rfl
  | cons a l ih =>
      rw [insertionSort_cons, filter_orderedInsert (pairwise_insertionSort r l), ih, filter_cons]
      split <;> rfl

/-- What the relation does not tell apart stays in the order `q` that it had. -/
theorem pairwise_stable [Std.Total r] {q : α → α → Prop} (hl : l.Pairwise q) :
    (l.insertionSort r).Pairwise fun a b => r a b ∧ (r b a → q a b) := by
  induction l with
  | nil => exact Pairwise.nil
  | cons a l ih =>
      rw [pairwise_cons] at hl
      have hbefore : ∀ b ∈ l.insertionSort r, q a b := fun b hb =>
        hl.1 b ((mem_insertionSort r).mp hb)
      have hsorted := ih hl.2
      rw [insertionSort_cons]
      generalize l.insertionSort r = s at hbefore hsorted
      induction s with
      | nil => exact pairwise_singleton _ a
      | cons b s ih =>
          rw [pairwise_cons] at hsorted
          by_cases hab : r a b
          · rw [orderedInsert_cons_of_le r s hab, pairwise_cons]
            refine ⟨forall_mem_cons.mpr ⟨⟨hab, fun _ => hbefore b mem_cons_self⟩, fun c hc => ?_⟩,
              pairwise_cons.mpr hsorted⟩
            exact ⟨Trans.trans hab (hsorted.1 c hc).1, fun _ => hbefore c (mem_cons_of_mem b hc)⟩
          · have hba : r b a := (Std.Total.total a b).resolve_left hab
            rw [orderedInsert_of_not_le r s hab, pairwise_cons]
            refine ⟨fun c hc => ?_, ih (fun c hc => hbefore c (mem_cons_of_mem b hc)) hsorted.2⟩
            rcases (mem_orderedInsert r).mp hc with rfl | hc
            · exact ⟨hba, fun h => absurd h hab⟩
            · exact hsorted.1 c hc

end PassionProjects.StableSort

namespace PassionProjects.LowerBound

variable {α : Type}

/-- The search loop on the `len` elements from `first` on; the first argument
    bounds its turns, and every turn at least halves `len`. -/
def search (p : α → Bool) (xs : List α) : Nat → Nat → Nat → Nat
  | 0, first, _ => first
  | turns + 1, first, len =>
    if len = 0 then first
    else
      match xs[first + len / 2]? with
      | some x =>
        if p x then search p xs turns (first + len / 2 + 1) (len - len / 2 - 1)
        else search p xs turns first (len / 2)
      | none => first

/-- The position of the first element that `p` rejects. -/
def lowerBound (p : α → Bool) (xs : List α) : Nat := search p xs xs.length 0 xs.length

variable {p : α → Bool} {ys zs : List α}

/-- The window always contains the partition point. -/
theorem search_partition (hys : ∀ y ∈ ys, p y = true) (hzs : ∀ z ∈ zs, p z = false)
    {turns first len : Nat} (hturns : len ≤ turns) (hfirst : first ≤ ys.length)
    (hlast : ys.length ≤ first + len) (hlen : first + len ≤ (ys ++ zs).length) :
    search p (ys ++ zs) turns first len = ys.length := by
  induction turns generalizing first len with
  | zero =>
      show first = ys.length
      omega
  | succ turns ih =>
      unfold search
      by_cases hzero : len = 0
      · rw [if_pos hzero]
        omega
      · rw [if_neg hzero]
        have hmid : first + len / 2 < (ys ++ zs).length := by omega
        rw [List.getElem?_eq_getElem hmid]
        by_cases hleft : first + len / 2 < ys.length
        · have hp : p (ys ++ zs)[first + len / 2] = true := by
            rw [List.getElem_append_left hleft]
            exact hys _ (List.getElem_mem hleft)
          simp only [hp, if_true]
          exact ih (by omega) (by omega) (by omega) (by omega)
        · have hp : p (ys ++ zs)[first + len / 2] = false := by
            rw [List.getElem_append_right (Nat.not_lt.mp hleft)]
            exact hzs _ (List.getElem_mem _)
          simp only [hp, Bool.false_eq_true, if_false]
          exact ih (by omega) hfirst (by omega) (by omega)

/-- On a sequence that `p` partitions, the search finds the partition point. -/
theorem lowerBound_append (hys : ∀ y ∈ ys, p y = true) (hzs : ∀ z ∈ zs, p z = false) :
    lowerBound p (ys ++ zs) = ys.length :=
  search_partition hys hzs (Nat.le_refl _) (Nat.zero_le _) (by simp) (by simp)

/-- On a sequence that `p` partitions, the element found is the first that `p`
    rejects. -/
theorem getElem?_lowerBound {xs : List α} (h : xs.Pairwise fun a b => p b = true → p a = true) :
    xs[lowerBound p xs]? = xs.find? fun x => !p x := by
  obtain ⟨ys, zs, rfl, hys, hzs⟩ : ∃ ys zs, xs = ys ++ zs ∧ (∀ y ∈ ys, p y = true) ∧
      ∀ z ∈ zs, p z = false := by
    induction xs with
    | nil => exact ⟨[], [], rfl, by simp, by simp⟩
    | cons x xs ih =>
        obtain ⟨hx, hxs⟩ := List.pairwise_cons.mp h
        obtain ⟨ys, zs, rfl, hys, hzs⟩ := ih hxs
        cases hpx : p x with
        | true =>
            refine ⟨x :: ys, zs, rfl, fun y hy => ?_, hzs⟩
            rcases List.mem_cons.mp hy with rfl | hy
            · exact hpx
            · exact hys y hy
        | false =>
            refine ⟨[], x :: (ys ++ zs), rfl, by simp, fun z hz => ?_⟩
            rcases List.mem_cons.mp hz with rfl | hz
            · exact hpx
            · exact Bool.eq_false_iff.mpr fun hpz => absurd (hx z hz hpz) (by simp [hpx])
  have hnone : ys.find? (fun x => !p x) = none := by
    rw [List.find?_eq_none]
    intro y hy
    simp [hys y hy]
  rw [lowerBound_append hys hzs, List.getElem?_append_right (Nat.le_refl _), Nat.sub_self,
    List.find?_append, hnone, Option.none_or]
  cases zs with
  | nil => rfl
  | cons z zs => simp [hzs z List.mem_cons_self]

-- ============================================================================
-- Segments of a sorted sequence
-- ============================================================================

variable {κ : Type} [BEq κ] [LawfulBEq κ] {key : α → κ}

/-- In a sorted sequence no key comes after a later one. -/
theorem find?_eq_none_of_lt (lt : κ → κ → Prop) (hirrefl : ∀ k, ¬ lt k k) {xs : List α} {k : κ}
    (h : ∀ x ∈ xs, lt (key x) k ∨ lt k (key x)) : xs.find? (fun x => key x == k) = none := by
  rw [List.find?_eq_none]
  intro x hx heq
  have heq : key x = k := by simpa using heq
  rcases h x hx with hlt | hlt
  · rw [heq] at hlt
    exact hirrefl k hlt
  · rw [heq] at hlt
    exact hirrefl k hlt

/-- A key can only be in the first segment whose last key is not before it. -/
theorem find?_segments (lt : κ → κ → Prop) (hirrefl : ∀ k, ¬ lt k k)
    (htrans : ∀ a b c, lt a b → lt b c → lt a c)
    {before : List α → Bool} {k : κ}
    (hbefore : ∀ s x, s.getLast? = some x → (before s = true ↔ lt (key x) k))
    {segments : List (List α)} (hne : ∀ s ∈ segments, s ≠ [])
    (hsorted : segments.flatten.Pairwise fun a b => lt (key a) (key b)) :
    segments.flatten.find? (fun x => key x == k) =
      (segments.find? fun s => !before s).bind fun s => s.find? fun x => key x == k := by
  induction segments with
  | nil => rfl
  | cons s segments ih =>
      rw [List.flatten_cons] at hsorted ⊢
      obtain ⟨hs, hrest, hcross⟩ := List.pairwise_append.mp hsorted
      have ih := ih (fun s' hs' => hne s' (List.mem_cons_of_mem s hs')) hrest
      obtain ⟨init, x, rfl⟩ : ∃ init x, s = init ++ [x] :=
        ⟨_, _, (List.dropLast_concat_getLast (hne s List.mem_cons_self)).symm⟩
      have hlast := hbefore (init ++ [x]) x (List.getLast?_concat)
      rw [List.find?_append, List.find?_cons]
      cases hb : before (init ++ [x]) with
      | true =>
          have hxk : lt (key x) k := hlast.mp hb
          have hnone : (init ++ [x]).find? (fun a => key a == k) = none := by
            refine find?_eq_none_of_lt lt hirrefl fun a ha => Or.inl ?_
            rcases List.mem_append.mp ha with ha | ha
            · exact htrans _ _ _ ((List.pairwise_append.mp hs).2.2 a ha x (by simp)) hxk
            · rw [List.mem_singleton.mp ha]
              exact hxk
          rw [hnone, Option.none_or, ih]
          rfl
      | false =>
          have hxk : ¬ lt (key x) k := fun hlt => by simp [hlast.mpr hlt] at hb
          have hnone : segments.flatten.find? (fun a => key a == k) = none := by
            rw [List.find?_eq_none]
            intro a ha heq
            have heq : key a = k := by simpa using heq
            exact hxk (heq ▸ hcross x (by simp) a ha)
          rw [hnone, Option.or_none]
          rfl

end PassionProjects.LowerBound
