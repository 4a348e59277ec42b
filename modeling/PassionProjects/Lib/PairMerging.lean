/-
  PassionProjects.Lib.PairMerging

  Words in which pairs of neighbouring symbols are merged into one symbol, by a list of
  rules that is applied from first to last.

  A rule is swept over the whole word at once, from the left. When no rule merges into a
  symbol that an earlier rule reads, the word comes out the same if single pairs are
  merged instead, always the leftmost pair of the earliest rule that has one.
-/

import Mathlib.Data.List.Basic
import Mathlib.Data.List.Infix

namespace PassionProjects.PairMerging

/-- A pair of symbols and the one that it is merged into. -/
abbrev Rule (α : Type) := (α × α) × α

variable {α β : Type}

/-- The pairs of neighbours in a word. -/
def pairs (word : List α) : List (α × α) := word.zip word.tail

variable {x y : α} {word rest pre post : List α}

@[simp] theorem pairs_nil : pairs ([] : List α) = [] := rfl

@[simp] theorem pairs_singleton : pairs [x] = [] := rfl

@[simp] theorem pairs_cons_cons : pairs (x :: y :: rest) = (x, y) :: pairs (y :: rest) := rfl

/-- A symbol ends the pairs before it and begins those behind it. -/
theorem pairs_append (pre : List α) (x : α) (post : List α) :
    pairs (pre ++ x :: post) = pairs (pre ++ [x]) ++ pairs (x :: post) := by
  induction pre with
  | nil => rfl
  | cons y pre ih =>
      cases pre with
      | nil => rfl
      | cons z pre =>
          rw [List.cons_append, List.cons_append] at ih ⊢
          rw [pairs_cons_cons, ih]
          rfl

theorem length_pairs (word : List α) : (pairs word).length = word.length - 1 := by
  simp [pairs]

theorem pairs_eq_nil_of_length (h : word.length ≤ 1) : pairs word = [] :=
  List.eq_nil_of_length_eq_zero (by rw [length_pairs]; omega)

theorem mem_of_mem_pairs {p : α × α} (h : p ∈ pairs word) : p.1 ∈ word ∧ p.2 ∈ word :=
  ⟨(List.of_mem_zip h).1, List.mem_of_mem_tail (List.of_mem_zip h).2⟩

/-- Where a pair stands in a word. -/
theorem split_of_getElem?_pairs {p : α × α} {i : Nat} (h : (pairs word)[i]? = some p) :
    word = word.take i ++ p.1 :: p.2 :: word.drop (i + 2) := by
  induction word generalizing i with
  | nil => simp at h
  | cons x word ih =>
      cases word with
      | nil => simp at h
      | cons y word =>
          cases i with
          | zero =>
              obtain rfl : (x, y) = p := by simpa using h
              rfl
          | succ i =>
              have hword := ih (i := i) (by simpa using h)
              rw [List.take_succ_cons, List.drop_succ_cons, List.cons_append, ← hword]

/-- The pairs before a pair. -/
theorem pairs_take_of_getElem? {p : α × α} {i : Nat} (h : (pairs word)[i]? = some p) :
    pairs (word.take i ++ [p.1]) = (pairs word).take i := by
  have hi : i < word.length - 1 := length_pairs word ▸ (List.getElem?_eq_some_iff.mp h).1
  have hlength : (pairs (word.take i ++ [p.1])).length = i := by
    rw [length_pairs, List.length_append, List.length_take, List.length_singleton]
    omega
  have hpairs := pairs_append (word.take i) p.1 (p.2 :: word.drop (i + 2))
  rw [← split_of_getElem?_pairs h] at hpairs
  rw [hpairs, List.take_left' hlength]

variable [DecidableEq α]

/-- Every occurrence of the pair of a rule merged, from the left. -/
def sweep (r : Rule α) : List α → List α
  | x :: y :: rest =>
      if x = r.1.1 ∧ y = r.1.2 then r.2 :: sweep r rest else x :: sweep r (y :: rest)
  | [x] => [x]
  | [] => []

/-- All rules, one after the other. -/
def replay (rules : List (Rule α)) (word : List α) : List α :=
  rules.foldl (fun word r => sweep r word) word

variable {r : Rule α} {rules before after : List (Rule α)} {p : α × α}

@[simp] theorem sweep_nil : sweep r [] = [] := rfl

@[simp] theorem sweep_singleton : sweep r [x] = [x] := rfl

theorem sweep_pair : sweep r (r.1.1 :: r.1.2 :: rest) = r.2 :: sweep r rest := by
  simp [sweep]

theorem sweep_cons_of_ne (h : (x, y) ≠ r.1) :
    sweep r (x :: y :: rest) = x :: sweep r (y :: rest) := by
  rw [sweep, if_neg fun heq => h (Prod.ext heq.1 heq.2)]

@[simp] theorem replay_nil : replay [] word = word := rfl

@[simp] theorem replay_cons : replay (r :: rules) word = replay rules (sweep r word) := rfl

theorem replay_append :
    replay (before ++ after) word = replay after (replay before word) :=
  List.foldl_append

-- ============================================================================
-- What a sweep does
-- ============================================================================

theorem length_sweep_le (r : Rule α) (word : List α) : (sweep r word).length ≤ word.length := by
  fun_induction sweep r word with
  | case1 x y rest _ ih => simp only [List.length_cons]; omega
  | case2 x y rest _ ih => simp only [List.length_cons] at ih ⊢; omega
  | case3 => rfl
  | case4 => rfl

theorem length_replay_le (rules : List (Rule α)) (word : List α) :
    (replay rules word).length ≤ word.length := by
  induction rules generalizing word with
  | nil => rfl
  | cons r rules ih => exact (ih _).trans (length_sweep_le r word)

/-- The symbols of a swept word were there before, or are what the rule merges into. -/
theorem mem_of_mem_sweep (h : x ∈ sweep r word) : x ∈ word ∨ x = r.2 := by
  fun_induction sweep r word with
  | case1 a b rest _ ih =>
      rcases List.mem_cons.mp h with rfl | h
      · exact Or.inr rfl
      · exact (ih h).imp_left fun h => List.mem_cons_of_mem _ (List.mem_cons_of_mem _ h)
  | case2 a b rest _ ih =>
      rcases List.mem_cons.mp h with rfl | h
      · exact Or.inl (List.mem_cons_self ..)
      · exact (ih h).imp_left (List.mem_cons_of_mem _)
  | case3 => exact Or.inl h
  | case4 => exact Or.inl h

theorem mem_of_mem_replay (h : x ∈ replay rules word) : x ∈ word ∨ ∃ r ∈ rules, x = r.2 := by
  induction rules generalizing word with
  | nil => exact Or.inl h
  | cons r rules ih =>
      rcases ih h with hsweep | ⟨s, hs, hx⟩
      · exact (mem_of_mem_sweep hsweep).imp_right fun hx => ⟨r, List.mem_cons_self .., hx⟩
      · exact Or.inr ⟨s, List.mem_cons_of_mem _ hs, hx⟩

/-- A swept word begins as it did, or with what the rule merges into. -/
theorem head?_sweep (r : Rule α) (x : α) (word : List α) :
    (sweep r (x :: word)).head? = some x ∨ (sweep r (x :: word)).head? = some r.2 := by
  cases word with
  | nil => exact Or.inl rfl
  | cons y rest =>
      rw [sweep]
      split
      · exact Or.inr rfl
      · exact Or.inl rfl

/-- The pairs of a swept word are new, or were there before and are not the rule's. -/
theorem mem_pairs_sweep (h : p ∈ pairs (sweep r word)) :
    p.1 = r.2 ∨ p.2 = r.2 ∨ p ∈ pairs word ∧ p ≠ r.1 := by
  fun_induction sweep r word with
  | case1 a b rest hpair ih =>
      cases hrest : sweep r rest with
      | nil => simp [hrest] at h
      | cons c rest' =>
          rw [hrest, pairs_cons_cons, ← hrest] at h
          rcases List.mem_cons.mp h with rfl | h
          · exact Or.inl rfl
          · refine (ih h).imp_right (Or.imp_right (And.imp_left fun hmem => ?_))
            cases rest with
            | nil => simp at hmem
            | cons d rest => exact List.mem_cons_of_mem _ (List.mem_cons_of_mem _ hmem)
  | case2 a b rest hpair ih =>
      cases hrest : sweep r (b :: rest) with
      | nil => simp [hrest] at h
      | cons c rest' =>
          rw [hrest, pairs_cons_cons, ← hrest] at h
          rcases List.mem_cons.mp h with rfl | h
          · have hhead := head?_sweep r b rest
            rw [hrest] at hhead
            rcases hhead with hb | hmerged
            · obtain rfl : c = b := Option.some.inj hb
              refine Or.inr (Or.inr ⟨List.mem_cons_self .., fun heq => hpair ?_⟩)
              exact ⟨congrArg Prod.fst heq, congrArg Prod.snd heq⟩
            · exact Or.inr (Or.inl (Option.some.inj hmerged))
          · exact (ih h).imp_right (Or.imp_right (And.imp_left (List.mem_cons_of_mem _)))
  | case3 => simp at h
  | case4 => simp at h

/-- A rule whose pair does not occur changes nothing. -/
theorem sweep_of_not_mem (h : r.1 ∉ pairs word) : sweep r word = word := by
  fun_induction sweep r word with
  | case1 a b rest hpair ih =>
      have hr : r.1 = (a, b) := Prod.ext hpair.1.symm hpair.2.symm
      exact absurd (hr ▸ List.mem_cons_self ..) h
  | case2 a b rest hpair ih =>
      rw [ih fun hmem => h (List.mem_cons_of_mem _ hmem)]
  | case3 => rfl
  | case4 => rfl

theorem replay_of_not_mem (h : ∀ r ∈ rules, r.1 ∉ pairs word) : replay rules word = word := by
  induction rules with
  | nil => rfl
  | cons r rules ih =>
      rw [replay_cons, sweep_of_not_mem (h r (List.mem_cons_self ..))]
      exact ih fun s hs => h s (List.mem_cons_of_mem _ hs)

-- ============================================================================
-- What symbols stand for
-- ============================================================================

/-- Merging keeps what the word stands for, if the merged symbol stands for its pair. -/
theorem flatMap_sweep {expand : α → List β}
    (h : expand r.2 = expand r.1.1 ++ expand r.1.2) (word : List α) :
    (sweep r word).flatMap expand = word.flatMap expand := by
  fun_induction sweep r word with
  | case1 a b rest hpair ih =>
      rw [List.flatMap_cons, List.flatMap_cons, List.flatMap_cons, ih, h, hpair.1, hpair.2,
        List.append_assoc]
  | case2 a b rest hpair ih =>
      rw [List.flatMap_cons, ih, List.flatMap_cons (x := a)]
  | case3 => rfl
  | case4 => rfl

theorem flatMap_replay {expand : α → List β}
    (h : ∀ r ∈ rules, expand r.2 = expand r.1.1 ++ expand r.1.2) (word : List α) :
    (replay rules word).flatMap expand = word.flatMap expand := by
  induction rules generalizing word with
  | nil => rfl
  | cons r rules ih =>
      rw [replay_cons, ih fun s hs => h s (List.mem_cons_of_mem _ hs),
        flatMap_sweep (h r (List.mem_cons_self ..))]

/-- A rule that merges into a symbol of its own can be undone. -/
theorem sweep_inj {word' : List α} (hleft : r.2 ≠ r.1.1) (hright : r.2 ≠ r.1.2)
    (hword : r.2 ∉ word) (hword' : r.2 ∉ word') (h : sweep r word = sweep r word') :
    word = word' := by
  let undo (x : α) : List α := if x = r.2 then [r.1.1, r.1.2] else [x]
  have hundo : undo r.2 = undo r.1.1 ++ undo r.1.2 := by
    simp only [undo, if_pos, if_neg hleft.symm, if_neg hright.symm, List.singleton_append]
  have hkeep (word : List α) (hword : r.2 ∉ word) : (sweep r word).flatMap undo = word := by
    rw [flatMap_sweep hundo]
    induction word with
    | nil => rfl
    | cons x word ih =>
        rw [List.mem_cons, not_or] at hword
        rw [List.flatMap_cons, ih hword.2]
        simp only [undo, if_neg (Ne.symm hword.1), List.singleton_append]
  rw [← hkeep word hword, h, hkeep word' hword']

-- ============================================================================
-- One pair at a time
-- ============================================================================

/-- The rules are read in layers: no rule merges into a symbol that its own pair or an
    earlier one has, and no pair has two rules. -/
structure Layered (rules : List (Rule α)) : Prop where
  own : ∀ r ∈ rules, r.2 ≠ r.1.1 ∧ r.2 ≠ r.1.2
  later : rules.Pairwise fun r s => s.1 ≠ r.1 ∧ s.2 ≠ r.1.1 ∧ s.2 ≠ r.1.2

/-- A rule is swept through its leftmost pair. -/
theorem sweep_leftmost (h : r.1 ∉ pairs (pre ++ [r.1.1])) (post : List α) :
    sweep r (pre ++ r.1.1 :: r.1.2 :: post) = pre ++ r.2 :: sweep r post := by
  induction pre with
  | nil => exact sweep_pair
  | cons x pre ih =>
      cases pre with
      | nil =>
          have hmem : (x, r.1.1) ∈ pairs ([x] ++ [r.1.1]) := List.mem_cons_self ..
          have hne : (x, r.1.1) ≠ r.1 := fun heq => h (by rwa [heq] at hmem)
          rw [List.cons_append, List.nil_append, sweep_cons_of_ne hne, sweep_pair]
          rfl
      | cons y pre =>
          have hne : (x, y) ≠ r.1 := fun heq => h (heq ▸ List.mem_cons_self ..)
          have hrest := ih fun hmem => h (List.mem_cons_of_mem _ hmem)
          rw [List.cons_append, List.cons_append, sweep_cons_of_ne hne]
          exact congrArg (x :: ·) hrest

/-- A rule is swept past what it has merged already. -/
theorem sweep_merged (h : r.1 ∉ pairs (pre ++ [r.1.1])) (hleft : r.2 ≠ r.1.1)
    (hright : r.2 ≠ r.1.2) (post : List α) :
    sweep r (pre ++ r.2 :: post) = pre ++ r.2 :: sweep r post := by
  have hhead : sweep r (r.2 :: post) = r.2 :: sweep r post := by
    cases post with
    | nil => rfl
    | cons y post => exact sweep_cons_of_ne fun heq => hleft (congrArg Prod.fst heq)
  induction pre with
  | nil => exact hhead
  | cons x pre ih =>
      cases pre with
      | nil =>
          have hne : (x, r.2) ≠ r.1 := fun heq => hright (congrArg Prod.snd heq)
          rw [List.cons_append, List.nil_append, sweep_cons_of_ne hne, hhead]
          rfl
      | cons y pre =>
          have hne : (x, y) ≠ r.1 := fun heq => h (heq ▸ List.mem_cons_self ..)
          have hrest := ih fun hmem => h (List.mem_cons_of_mem _ hmem)
          rw [List.cons_append, List.cons_append, sweep_cons_of_ne hne]
          exact congrArg (x :: ·) hrest

omit [DecidableEq α] in
/-- The pairs of a word in which one pair was merged are new, or were there before. -/
theorem mem_pairs_merged {a b c : α} (h : p ∈ pairs (pre ++ c :: post)) :
    p.1 = c ∨ p.2 = c ∨ p ∈ pairs (pre ++ a :: b :: post) := by
  rw [pairs_append] at h
  rw [pairs_append, pairs_cons_cons]
  rcases List.mem_append.mp h with hpre | hpost
  · rcases List.eq_nil_or_concat pre with rfl | ⟨pre, x, rfl⟩
    · simp at hpre
    · rw [List.concat_eq_append, List.append_assoc, List.singleton_append,
        pairs_append] at hpre ⊢
      rcases List.mem_append.mp hpre with hpre | hlast
      · exact Or.inr (Or.inr (List.mem_append_left _ (List.mem_append_left _ hpre)))
      · obtain rfl : p = (x, c) := by simpa using hlast
        exact Or.inr (Or.inl rfl)
  · cases post with
    | nil => simp at hpost
    | cons y post =>
        rcases List.mem_cons.mp hpost with rfl | hpost
        · exact Or.inl rfl
        · exact Or.inr (Or.inr (List.mem_append_right _
            (List.mem_cons_of_mem _ (List.mem_cons_of_mem _ hpost))))

/-- Merging the leftmost pair of the earliest rule that has one does not change what the
    rules make of a word. -/
theorem replay_merge (hlayered : Layered (before ++ r :: after))
    (hbefore : ∀ s ∈ before, s.1 ∉ pairs (pre ++ r.1.1 :: r.1.2 :: post))
    (hleftmost : r.1 ∉ pairs (pre ++ [r.1.1])) :
    replay (before ++ r :: after) (pre ++ r.1.1 :: r.1.2 :: post) =
      replay (before ++ r :: after) (pre ++ r.2 :: post) := by
  obtain ⟨hleft, hright⟩ := hlayered.own r (by simp)
  have hmerged : ∀ s ∈ before, s.1 ∉ pairs (pre ++ r.2 :: post) := by
    intro s hs hmem
    obtain ⟨-, hs1, hs2⟩ := (List.pairwise_append.mp hlayered.later).2.2 s hs r (by simp)
    rcases mem_pairs_merged hmem with h1 | h2 | hold
    · exact hs1 h1.symm
    · exact hs2 h2.symm
    · exact hbefore s hs hold
  rw [replay_append, replay_append, replay_of_not_mem hbefore, replay_of_not_mem hmerged,
    replay_cons, replay_cons, sweep_leftmost hleftmost,
    sweep_merged hleftmost hleft hright]

end PassionProjects.PairMerging
