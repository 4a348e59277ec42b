/-
  PassionProjects.Lib.Dict

  Dictionaries that remember in which order their keys were put in: a key that is set
  again keeps its place, a new one goes to the end.
-/

import Mathlib.Data.List.Basic
import Mathlib.Data.List.Induction
import Mathlib.Data.List.Nodup
import Mathlib.Data.List.Perm.Basic

namespace PassionProjects

/-- An insertion-ordered dictionary: no key occurs twice. -/
structure Dict (κ ν : Type) where
  entries : List (κ × ν) := []
  nodup : (entries.map Prod.fst).Nodup := by exact List.nodup_nil

namespace Dict

variable {κ ν μ : Type} {d d' : Dict κ ν} {k k' : κ} {v v' : ν} {f : ν → μ}

instance : EmptyCollection (Dict κ ν) := ⟨{}⟩

/-- The keys in the order of the entries. -/
def keys (d : Dict κ ν) : List κ := d.entries.map Prod.fst

/-- The values in the order of the entries. -/
def values (d : Dict κ ν) : List ν := d.entries.map Prod.snd

/-- The same keys with other values. -/
def mapVal (f : ν → μ) (d : Dict κ ν) : Dict κ μ where
  entries := d.entries.map fun e => (e.1, f e.2)
  nodup := by
    rw [List.map_map]
    exact d.nodup

/-- The entries of a kind. -/
def filter (p : κ × ν → Bool) (d : Dict κ ν) : Dict κ ν where
  entries := d.entries.filter p
  nodup := d.nodup.sublist (List.filter_sublist.map _)

theorem ext (h : d.entries = d'.entries) : d = d' := by
  cases d
  cases d'
  cases h
  rfl

theorem keys_mapVal : (d.mapVal f).keys = d.keys := by
  simp [keys, mapVal]

theorem values_mapVal : (d.mapVal f).values = d.values.map f := by
  simp [values, mapVal]

theorem fst_ne_of_split {pre post : List (κ × ν)} {e : κ × ν}
    (hsplit : d.entries = pre ++ (k, v) :: post) (he : e ∈ pre ∨ e ∈ post) : e.1 ≠ k := by
  have hnodup := d.nodup
  rw [hsplit, List.map_append, List.map_cons, List.nodup_middle, List.nodup_cons,
    ← List.map_append] at hnodup
  have hmem : e.1 ∈ (pre ++ post).map Prod.fst := List.mem_map_of_mem (List.mem_append.mpr he)
  exact fun heq => hnodup.1 (heq ▸ hmem)

variable [DecidableEq κ]

/-- `d[k]`, where there is one. -/
def get? (d : Dict κ ν) (k : κ) : Option ν :=
  (d.entries.find? fun e => e.1 = k).map Prod.snd

/-- An entry written over where its key stands, or added at the end. -/
def setEntry (k : κ) (v : ν) : List (κ × ν) → List (κ × ν)
  | [] => [(k, v)]
  | e :: es => if e.1 = k then (k, v) :: es else e :: setEntry k v es

theorem setEntry_keys (es : List (κ × ν)) :
    (setEntry k v es).map Prod.fst = es.map Prod.fst ∨
      k ∉ es.map Prod.fst ∧ (setEntry k v es).map Prod.fst = es.map Prod.fst ++ [k] := by
  induction es with
  | nil => exact Or.inr ⟨List.not_mem_nil, rfl⟩
  | cons e es ih =>
      rw [setEntry]
      split
      · next heq => exact Or.inl (by simp [heq])
      · next hne =>
        rcases ih with hkeys | ⟨hk, hkeys⟩
        · exact Or.inl (by simp [hkeys])
        · refine Or.inr ⟨fun hmem => ?_, by simp [hkeys]⟩
          rcases List.mem_cons.mp hmem with heq | hmem
          · exact hne heq.symm
          · exact hk hmem

/-- `d[k] = v` -/
def set (d : Dict κ ν) (k : κ) (v : ν) : Dict κ ν where
  entries := setEntry k v d.entries
  nodup := by
    rcases setEntry_keys (k := k) (v := v) d.entries with hkeys | ⟨hk, hkeys⟩
    · rw [hkeys]
      exact d.nodup
    · rw [hkeys]
      exact List.nodup_append.mpr ⟨d.nodup, List.nodup_singleton k, fun a ha b hb => by
        rw [List.mem_singleton.mp hb]
        exact fun heq => hk (heq ▸ ha)⟩

/-- `del d[k]` -/
def erase (d : Dict κ ν) (k : κ) : Dict κ ν where
  entries := d.entries.filter fun e => e.1 ≠ k
  nodup := d.nodup.sublist (List.filter_sublist.map _)

-- ============================================================================
-- Where an entry stands
-- ============================================================================

theorem get?_eq_none : d.get? k = none ↔ k ∉ d.keys := by
  simp only [get?, keys, Option.map_eq_none_iff, List.find?_eq_none, List.mem_map, not_exists,
    not_and, decide_eq_true_eq]

theorem mem_of_get? (h : d.get? k = some v) : (k, v) ∈ d.entries := by
  obtain ⟨e, hfind, rfl⟩ := Option.map_eq_some_iff.mp h
  have hkey : e.1 = k := by simpa using List.find?_some hfind
  exact hkey ▸ List.mem_of_find?_eq_some hfind

theorem get?_of_mem (h : (k, v) ∈ d.entries) : d.get? k = some v := by
  cases hget : d.get? k with
  | none => exact absurd (List.mem_map_of_mem h) (get?_eq_none.mp hget)
  | some v' =>
      have hmem := mem_of_get? hget
      have := List.inj_on_of_nodup_map d.nodup h hmem rfl
      rw [Prod.mk.injEq] at this
      rw [this.2]

theorem get?_eq_some : d.get? k = some v ↔ (k, v) ∈ d.entries := ⟨mem_of_get?, get?_of_mem⟩

theorem mem_keys : k ∈ d.keys ↔ ∃ v, d.get? k = some v := by
  simp [keys, get?_eq_some]

theorem mem_keys_of_get? (h : d.get? k = some v) : k ∈ d.keys := mem_keys.mpr ⟨v, h⟩

/-- Setting a key again changes its entry alone. -/
theorem entries_set_split {pre post : List (κ × ν)} (hsplit : d.entries = pre ++ (k, v) :: post)
    (v' : ν) : (d.set k v').entries = pre ++ (k, v') :: post := by
  have hpre : ∀ e ∈ pre, e.1 ≠ k := fun e he => fst_ne_of_split hsplit (Or.inl he)
  show setEntry k v' d.entries = _
  rw [hsplit]
  clear hsplit
  induction pre with
  | nil => simp [setEntry]
  | cons e pre ih =>
      have hrest := ih fun e he => hpre e (List.mem_cons_of_mem _ he)
      rw [List.cons_append, setEntry, if_neg (hpre e List.mem_cons_self), hrest, List.cons_append]

/-- Erasing a key takes its entry out. -/
theorem entries_erase_split {pre post : List (κ × ν)} (hsplit : d.entries = pre ++ (k, v) :: post) :
    (d.erase k).entries = pre ++ post := by
  have hpre : ∀ e ∈ pre, e.1 ≠ k := fun e he => fst_ne_of_split hsplit (Or.inl he)
  have hpost : ∀ e ∈ post, e.1 ≠ k := fun e he => fst_ne_of_split hsplit (Or.inr he)
  show d.entries.filter _ = _
  rw [hsplit, List.filter_append, List.filter_cons_of_neg (by simp)]
  congr 1
  · exact List.filter_eq_self.mpr fun e he => by simpa using hpre e he
  · exact List.filter_eq_self.mpr fun e he => by simpa using hpost e he

/-- An entry splits the others into those before and those after it; setting its key
    changes it alone, erasing its key takes it out. -/
theorem exists_split (h : d.get? k = some v) :
    ∃ pre post, d.entries = pre ++ (k, v) :: post ∧
      (∀ v', (d.set k v').entries = pre ++ (k, v') :: post) ∧
      (d.erase k).entries = pre ++ post := by
  obtain ⟨pre, post, hsplit⟩ := List.append_of_mem (mem_of_get? h)
  exact ⟨pre, post, hsplit, entries_set_split hsplit, entries_erase_split hsplit⟩

theorem entries_set_new (h : d.get? k = none) : (d.set k v).entries = d.entries ++ [(k, v)] := by
  have hk := get?_eq_none.mp h
  show setEntry k v d.entries = _
  unfold keys at hk
  generalize d.entries = es at hk
  induction es with
  | nil => rfl
  | cons e es ih =>
      rw [List.map_cons, List.mem_cons, not_or] at hk
      rw [setEntry, if_neg fun heq => hk.1 heq.symm, ih hk.2, List.cons_append]

/-- Setting what is there already changes nothing. -/
theorem set_self (h : d.get? k = some v) : d.set k v = d := by
  obtain ⟨pre, post, hsplit, hset, -⟩ := exists_split h
  exact ext ((hset v).trans hsplit.symm)

/-- Leaving out the keys of the entries of a kind leaves out these entries. -/
theorem filter_not_mem_keys (p : κ × ν → Bool) :
    d.entries.filter (fun e => e.1 ∉ (d.entries.filter p).map Prod.fst) =
      (d.filter fun e => !p e).entries := by
  refine List.filter_congr fun e he => ?_
  have hiff : e.1 ∈ (d.entries.filter p).map Prod.fst ↔ p e = true := by
    refine ⟨fun hmem => ?_, fun hp => List.mem_map_of_mem (List.mem_filter.mpr ⟨he, hp⟩)⟩
    obtain ⟨e', he', hkey⟩ := List.mem_map.mp hmem
    obtain ⟨he', hp⟩ := List.mem_filter.mp he'
    rwa [← List.inj_on_of_nodup_map d.nodup he' he hkey]
  cases hp : p e with
  | true => exact decide_eq_false (not_not.mpr (hiff.mpr hp))
  | false => exact decide_eq_true fun hmem => absurd (hp.symm.trans (hiff.mp hmem)) (by simp)

-- ============================================================================
-- Reading after a change
-- ============================================================================

theorem mem_entries_set : (k', v') ∈ (d.set k v).entries ↔
    (k', v') = (k, v) ∨ k' ≠ k ∧ (k', v') ∈ d.entries := by
  cases hget : d.get? k with
  | none =>
      have hk := get?_eq_none.mp hget
      rw [entries_set_new hget, List.mem_append, List.mem_singleton]
      refine ⟨fun h => h.symm.imp_right fun hmem => ⟨fun heq => hk ?_, hmem⟩,
        fun h => h.symm.imp_left And.right⟩
      exact heq ▸ List.mem_map_of_mem hmem
  | some w =>
      obtain ⟨pre, post, hsplit, hset, -⟩ := exists_split hget
      have hother : (k', v') ∈ pre ∨ (k', v') ∈ post → k' ≠ k := fst_ne_of_split hsplit
      rw [hset, hsplit]
      simp only [List.mem_append, List.mem_cons]
      constructor
      · rintro (hmem | heq | hmem)
        · exact Or.inr ⟨hother (Or.inl hmem), Or.inl hmem⟩
        · exact Or.inl heq
        · exact Or.inr ⟨hother (Or.inr hmem), Or.inr (Or.inr hmem)⟩
      · rintro (heq | ⟨hne, hmem | heq | hmem⟩)
        · exact Or.inr (Or.inl heq)
        · exact Or.inl hmem
        · exact absurd (congrArg Prod.fst heq) hne
        · exact Or.inr (Or.inr hmem)

theorem get?_set : (d.set k v).get? k' = if k' = k then some v else d.get? k' := by
  refine Option.ext fun w => ?_
  rw [get?_eq_some, mem_entries_set]
  split
  · next heq => simp [heq, eq_comm]
  · next hne => simp [hne, get?_eq_some]

@[simp] theorem get?_set_self : (d.set k v).get? k = some v := by
  rw [get?_set, if_pos rfl]

theorem get?_set_ne (h : k' ≠ k) : (d.set k v).get? k' = d.get? k' := by
  rw [get?_set, if_neg h]

theorem get?_erase : (d.erase k).get? k' = if k' = k then none else d.get? k' := by
  refine Option.ext fun w => ?_
  rw [get?_eq_some]
  split
  · next heq => simp [erase, heq]
  · next hne => simp [erase, hne, get?_eq_some]

theorem get?_erase_ne (h : k' ≠ k) : (d.erase k).get? k' = d.get? k' := by
  rw [get?_erase, if_neg h]

theorem keys_set_of_get? (h : d.get? k = some v) (v' : ν) : (d.set k v').keys = d.keys := by
  obtain ⟨pre, post, hsplit, hset, -⟩ := exists_split h
  rw [keys, keys, hset, hsplit, List.map_append, List.map_append, List.map_cons, List.map_cons]

theorem keys_set_new (h : d.get? k = none) : (d.set k v).keys = d.keys ++ [k] := by
  rw [keys, entries_set_new h, List.map_append]
  rfl

theorem keys_erase : (d.erase k).keys = d.keys.filter (· ≠ k) := by
  rw [keys, keys, List.filter_map]
  rfl

/-- What is taken out and what is left. -/
theorem entries_perm (h : d.get? k = some v) : d.entries.Perm ((k, v) :: (d.erase k).entries) := by
  obtain ⟨pre, post, hsplit, -, herase⟩ := exists_split h
  rw [hsplit, herase]
  exact List.perm_middle

theorem erase_of_none (h : d.get? k = none) : d.erase k = d := by
  refine ext (List.filter_eq_self.mpr fun e he => ?_)
  have hne : e.1 ≠ k := fun heq => get?_eq_none.mp h (heq ▸ List.mem_map_of_mem he)
  simpa using hne

theorem erase_set : (d.set k v).erase k = d.erase k := by
  refine ext ?_
  show (setEntry k v d.entries).filter _ = d.entries.filter _
  generalize d.entries = es
  induction es with
  | nil => simp [setEntry]
  | cons e es ih =>
      rw [setEntry]
      split
      · next heq => simp [heq]
      · next hne => rw [List.filter_cons, List.filter_cons, ih]

theorem values_perm (h : d.get? k = some v) : d.values.Perm (v :: (d.erase k).values) :=
  (entries_perm h).map Prod.snd

theorem values_set_perm : (d.set k v).values.Perm (v :: (d.erase k).values) :=
  erase_set (d := d) (v := v) ▸ values_perm get?_set_self

theorem values_set_new (h : d.get? k = none) : (d.set k v).values = d.values ++ [v] := by
  rw [values, entries_set_new h, List.map_append]
  rfl

-- ============================================================================
-- Changing every value
-- ============================================================================

/-- The values in the order of the keys. -/
theorem values_eq_map_keys (v₀ : ν) : d.values = d.keys.map fun k => (d.get? k).getD v₀ := by
  unfold values keys
  rw [List.map_map]
  refine List.map_congr_left fun e he => ?_
  rw [Function.comp_apply, get?_of_mem he, Option.getD_some]

theorem get?_mapVal : (d.mapVal f).get? k = (d.get? k).map f := by
  refine Option.ext fun w => ?_
  rw [get?_eq_some]
  simp [mapVal, get?_eq_some]

theorem mapVal_set : (d.set k v).mapVal f = (d.mapVal f).set k (f v) := by
  refine ext ?_
  show (setEntry k v d.entries).map _ = setEntry k (f v) (d.entries.map _)
  generalize d.entries = es
  induction es with
  | nil => rfl
  | cons e es ih =>
      rw [setEntry, List.map_cons, setEntry]
      split
      · rfl
      · rw [List.map_cons, ih]

theorem mapVal_erase : (d.erase k).mapVal f = (d.mapVal f).erase k := by
  refine ext ?_
  show (d.entries.filter _).map _ = (d.entries.map _).filter _
  rw [List.filter_map]
  rfl

/-- Writing over a value that looks the same under `f`. -/
theorem mapVal_set_same (h : d.get? k = some v) (hf : f v' = f v) :
    (d.set k v').mapVal f = d.mapVal f := by
  rw [mapVal_set, hf, set_self]
  rw [get?_mapVal, h]
  rfl

-- ============================================================================
-- Dictionaries of pairs
-- ============================================================================

/-- `{k: v for k, v in pairs}`: of two pairs with one key the later one stays. -/
def ofPairs (es : List (κ × ν)) : Dict κ ν := es.foldl (fun d e => d.set e.1 e.2) ∅

theorem ofPairs_concat (es : List (κ × ν)) (e : κ × ν) :
    ofPairs (es ++ [e]) = (ofPairs es).set e.1 e.2 := by
  rw [ofPairs, List.foldl_append]
  rfl

theorem mem_of_get?_ofPairs {es : List (κ × ν)} (h : (ofPairs es).get? k = some v) :
    (k, v) ∈ es := by
  induction es using List.reverseRecOn with
  | nil => cases h
  | append_singleton es e ih =>
      rw [ofPairs_concat, get?_set] at h
      split at h
      · next heq =>
        obtain rfl : e.2 = v := Option.some.inj h
        exact List.mem_append_right _ (heq ▸ List.mem_singleton_self _)
      · exact List.mem_append_left _ (ih h)

theorem mem_keys_set : k' ∈ (d.set k v).keys ↔ k' = k ∨ k' ∈ d.keys := by
  rw [mem_keys, mem_keys]
  simp only [get?_set]
  split
  · next heq => simp [heq]
  · next hne => simp [hne]

theorem mem_keys_ofPairs {es : List (κ × ν)} : k ∈ (ofPairs es).keys ↔ k ∈ es.map Prod.fst := by
  induction es using List.reverseRecOn with
  | nil => exact Iff.rfl
  | append_singleton es e ih =>
      rw [ofPairs_concat, mem_keys_set, ih, List.map_append, List.mem_append, or_comm]
      exact or_congr_right List.mem_singleton.symm

/-- The only value of a key is read. -/
theorem get?_ofPairs {es : List (κ × ν)} (hmem : (k, v) ∈ es)
    (honly : ∀ v', (k, v') ∈ es → v' = v) : (ofPairs es).get? k = some v := by
  obtain ⟨v', hv'⟩ := mem_keys.mp (mem_keys_ofPairs.mpr (List.mem_map_of_mem hmem))
  rw [hv', honly v' (mem_of_get?_ofPairs hv')]

-- ============================================================================
-- Counters
-- ============================================================================

/-- `d[k] += n` -/
def add (d : Dict κ Nat) (k : κ) (n : Nat) : Dict κ Nat := d.set k ((d.get? k).getD 0 + n)

/-- The counter that a list of keys, each with what it counts for, adds up to. -/
def tally (es : List (κ × Nat)) : Dict κ Nat := es.foldl (fun d e => d.add e.1 e.2) ∅

theorem tally_concat (es : List (κ × Nat)) (e : κ × Nat) :
    tally (es ++ [e]) = (tally es).add e.1 e.2 := by
  rw [tally, List.foldl_append]
  rfl

theorem mem_keys_tally {es : List (κ × Nat)} : k ∈ (tally es).keys ↔ k ∈ es.map Prod.fst := by
  induction es using List.reverseRecOn with
  | nil => exact Iff.rfl
  | append_singleton es e ih =>
      rw [tally_concat, add, mem_keys_set, ih, List.map_append, List.mem_append, or_comm]
      exact or_congr_right List.mem_singleton.symm

/-- Keys that are counted once keep their order. -/
theorem entries_tally {es : List (κ × Nat)} (h : (es.map Prod.fst).Nodup) :
    (tally es).entries = es := by
  induction es using List.reverseRecOn with
  | nil => rfl
  | append_singleton es e ih =>
      rw [List.map_append, List.nodup_append] at h
      obtain ⟨hes, -, hdisjoint⟩ := h
      have hnone : (tally es).get? e.1 = none := get?_eq_none.mpr fun hmem =>
        hdisjoint _ (mem_keys_tally.mp hmem) _ (List.mem_singleton_self _) rfl
      rw [tally_concat, add, entries_set_new hnone, ih hes, hnone]
      simp

end Dict

end PassionProjects
