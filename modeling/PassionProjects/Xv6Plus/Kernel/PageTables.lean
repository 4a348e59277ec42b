/-
  PassionProjects.Xv6Plus.Kernel.PageTables

  A page table seen as a map from pages to entries, and what the functions of `kernel/vm.c`
  do to this map.
-/

import PassionProjects.Xv6Plus.Kernel.Vm

namespace PassionProjects.Xv6Plus

open Raising Raising.Prog

variable {pagetable : PageTable} {va va' : BitVec 64} {s : Kernel}

-- ============================================================================
-- Addresses
-- ============================================================================

theorem getLsbD_pgrounddown (va : BitVec 64) (i : Nat) :
    (pgrounddown va).getLsbD i = (va.getLsbD i && decide (12 ≤ i)) := by
  have hmask : ∀ j : Fin 64, (~~~(PGSIZE - 1)).getLsbD j.val = decide (12 ≤ j.val) := by decide
  unfold pgrounddown
  rw [BitVec.getLsbD_and]
  by_cases hi : i < 64
  · rw [hmask ⟨i, hi⟩]
  · rw [BitVec.getLsbD_of_ge va i (by omega), Bool.false_and, Bool.false_and]

/-- The page of an address is that of its page's first address. -/
theorem px_pgrounddown (level : Nat) (va : BitVec 64) :
    px level (pgrounddown va) = px level va := by
  apply BitVec.eq_of_getLsbD_eq
  intro i hi
  unfold px
  rw [BitVec.getLsbD_extractLsb', BitVec.getLsbD_extractLsb', getLsbD_pgrounddown]
  simp only [decide_eq_true (show 12 ≤ 12 + 9 * level + i by omega), Bool.and_true]

/-- Where there is no table, it is as if there were one that says nothing. -/
theorem pteAt_eq_getD (pagetable : PageTable) (va : BitVec 64) : pteAt pagetable va =
    (((pagetable (px 2 va)).getD fun _ => none) (px 1 va)).getD (fun _ => .zero) (px 0 va) := by
  unfold pteAt
  cases pagetable (px 2 va) with
  | none => rfl
  | some table1 =>
      dsimp only [Option.getD_some]
      cases table1 (px 1 va) with
      | none => rfl
      | some table0 => rfl

theorem pteAt_pgrounddown : pteAt pagetable (pgrounddown va) = pteAt pagetable va := by
  unfold pteAt
  rw [px_pgrounddown, px_pgrounddown, px_pgrounddown]

theorem toNat_pgrounddown (va : BitVec 64) : (pgrounddown va).toNat = va.toNat / 4096 * 4096 := by
  have hshift : pgrounddown va = (va >>> 12) <<< 12 := by
    apply BitVec.eq_of_getLsbD_eq
    intro i hi
    rw [getLsbD_pgrounddown, BitVec.getLsbD_shiftLeft, BitVec.getLsbD_ushiftRight]
    by_cases hlow : i < 12
    · simp [hlow]
    · have hadd : 12 + (i - 12) = i := by omega
      simp [hlow, hadd, hi]
      omega
  have hlt := va.isLt
  rw [hshift, BitVec.toNat_shiftLeft, BitVec.toNat_ushiftRight, Nat.shiftLeft_eq,
    Nat.shiftRight_eq_div_pow]
  exact Nat.mod_eq_of_lt (by omega)

theorem pgrounddown_lt_maxva : pgrounddown va < MAXVA ↔ va < MAXVA := by
  have hmax : MAXVA.toNat = 4096 * 67108864 := by decide
  rw [BitVec.lt_def, BitVec.lt_def, toNat_pgrounddown, hmax]
  omega

theorem pgrounddown_aligned (va : BitVec 64) : pgrounddown va % PGSIZE = 0 := by
  apply BitVec.eq_of_toNat_eq
  rw [BitVec.toNat_umod, toNat_pgrounddown]
  exact Nat.mul_mod_left _ _

/-- Addresses with the same path through the tables. -/
def SamePage (va va' : BitVec 64) : Prop :=
  px 2 va = px 2 va' ∧ px 1 va = px 1 va' ∧ px 0 va = px 0 va'

instance : Decidable (SamePage va va') := inferInstanceAs (Decidable (_ ∧ _ ∧ _))

-- ============================================================================
-- Walks
-- ============================================================================

/-- The tables on the way to an entry are there. -/
def Present (pagetable : PageTable) (va : BitVec 64) : Prop :=
  ∃ table1 table0, pagetable (px 2 va) = some table1 ∧ table1 (px 1 va) = some table0

theorem pteAt_present {table1 : Table1} {table0 : Table0} (h1 : pagetable (px 2 va) = some table1)
    (h0 : table1 (px 1 va) = some table0) : pteAt pagetable va = table0 (px 0 va) := by
  unfold pteAt
  rw [h1]
  dsimp only
  rw [h0]

theorem pteAt_setPte (h : Present pagetable va) (pte : Pte) :
    pteAt (setPte pagetable va pte) va' = if SamePage va va' then pte else pteAt pagetable va' := by
  obtain ⟨table1, table0, htable1, htable0⟩ := h
  have hset : setPte pagetable va pte = Function.update pagetable (px 2 va)
      (some (Function.update table1 (px 1 va) (some (Function.update table0 (px 0 va) pte)))) := by
    unfold setPte
    rw [htable1]
    dsimp only
    rw [htable0]
  rw [hset]
  by_cases h2 : px 2 va' = px 2 va
  · have hone : Function.update pagetable (px 2 va) (some (Function.update table1 (px 1 va)
        (some (Function.update table0 (px 0 va) pte)))) (px 2 va') =
        some (Function.update table1 (px 1 va) (some (Function.update table0 (px 0 va) pte))) := by
      rw [h2, Function.update_self]
    by_cases h1 : px 1 va' = px 1 va
    · have hzero : Function.update table1 (px 1 va) (some (Function.update table0 (px 0 va) pte))
          (px 1 va') = some (Function.update table0 (px 0 va) pte) := by
        rw [h1, Function.update_self]
      rw [pteAt_present hone hzero, pteAt_present (h2 ▸ htable1) (h1 ▸ htable0)]
      by_cases h0 : px 0 va' = px 0 va
      · rw [h0, Function.update_self, if_pos ⟨h2.symm, h1.symm, h0.symm⟩]
      · rw [Function.update_of_ne h0, if_neg fun h => h0 h.2.2.symm]
    · rw [if_neg fun h => h1 h.2.1.symm]
      unfold pteAt
      rw [hone, h2, htable1]
      dsimp only
      rw [Function.update_of_ne h1]
  · rw [if_neg fun h => h2 h.1.symm]
    unfold pteAt
    rw [Function.update_of_ne h2]

theorem walk_panics (h : MAXVA ≤ va) (alloc : Bool) :
    walk pagetable va alloc s = (.error "walk", s) := by
  have hcheck : ¬ va < MAXVA := BitVec.not_lt.mpr h
  unfold walk
  rw [check, if_neg hcheck]
  rfl

theorem descend_some {T : Type} {table : BitVec 9 → Option T} {index : BitVec 9} {next : T}
    (h : table index = some next) (empty : T) (alloc : Bool) :
    descend table index empty alloc s = (.ok (some (next, table)), s) := by
  unfold descend
  rw [h]
  rfl

theorem descend_none {T : Type} {table : BitVec 9 → Option T} {index : BitVec 9}
    (h : table index = none) (empty : T) : descend table index empty false s = (.ok none, s) := by
  unfold descend
  rw [h]
  rfl

theorem kalloc_none (h : s.freePages = 0) : kalloc s = (.ok false, s) := if_pos h

theorem kalloc_some (h : s.freePages ≠ 0) :
    kalloc s = (.ok true, { s with freePages := s.freePages - 1 }) := if_neg h

/-- Other free pages. -/
def Kernel.withFree (s : Kernel) (n : Nat) : Kernel := { s with freePages := n }

/-- How many pages it takes to have a table. -/
def pagesFor {T : Type} : Option T → Nat
  | none => 1
  | some _ => 0

/-- A new table says what no table said, where there is a page for it. -/
theorem descend_alloc {T : Type} (table : BitVec 9 → Option T) (index : BitVec 9) (empty : T) :
    (descend table index empty true s = (.ok none, s) ∧ s.freePages < pagesFor (table index)) ∨
      ∃ table' n,
        descend table index empty true s =
          (.ok (some ((table index).getD empty, table')), s.withFree n) ∧
        s.freePages = pagesFor (table index) + n ∧
        table' index = some ((table index).getD empty) ∧
        ∀ i, (table' i).getD empty = (table i).getD empty := by
  cases h : table index with
  | some next =>
      exact .inr ⟨table, s.freePages, descend_some h empty true, (Nat.zero_add _).symm, h,
        fun _ => rfl⟩
  | none =>
      unfold descend
      rw [h]
      show (kalloc >>= fun found => if found then _ else _) s = _ ∧ _ ∨ ∃ table' n,
        (kalloc >>= fun found => if found then _ else _) s = _ ∧ _
      by_cases hfree : s.freePages = 0
      · rw [bind_ok (kalloc_none hfree)]
        exact .inl ⟨rfl, by rw [hfree]; exact Nat.zero_lt_one⟩
      · rw [bind_ok (kalloc_some hfree)]
        have hpages : s.freePages = 1 + (s.freePages - 1) := by omega
        refine .inr ⟨Function.update table index (some empty), s.freePages - 1, rfl, hpages,
          Function.update_self .., fun i => ?_⟩
        by_cases hi : i = index
        · rw [hi, Function.update_self, h]
          rfl
        · rw [Function.update_of_ne hi]

/-- Looking an entry up changes nothing. -/
theorem walk_lookup (pagetable : PageTable) (h : va < MAXVA) : ∃ found pagetable',
    walk pagetable va false s = (.ok (found, pagetable'), s) ∧
      (found = false → pteAt pagetable va = .zero) := by
  unfold walk
  rw [check, if_pos h]
  show ∃ found pagetable', (descend pagetable (px 2 va) (fun _ => none) false >>= _) s = _ ∧ _
  cases h2 : pagetable (px 2 va) with
  | none =>
      rw [bind_ok (descend_none h2 _)]
      refine ⟨false, pagetable, rfl, fun _ => ?_⟩
      unfold pteAt
      rw [h2]
  | some table1 =>
      rw [bind_ok (descend_some h2 _ false)]
      show ∃ found pagetable', (descend table1 (px 1 va) (fun _ => .zero) false >>= _) s = _ ∧ _
      cases h1 : table1 (px 1 va) with
      | none =>
          rw [bind_ok (descend_none h1 _)]
          refine ⟨false, pagetable, rfl, fun _ => ?_⟩
          unfold pteAt
          rw [h2]
          dsimp only
          rw [h1]
      | some table0 =>
          rw [bind_ok (descend_some h1 _ false)]
          exact ⟨true, _, rfl, fun h => absurd h (by decide)⟩

/-- How many pages it takes to have the tables on the way to an entry. -/
def missingTables (pagetable : PageTable) (va : BitVec 64) : Nat :=
  pagesFor (pagetable (px 2 va)) +
    pagesFor (((pagetable (px 2 va)).getD fun _ => none) (px 1 va))

/-- With new tables on the way no entry changes; without memory for them there is no entry to
store into. -/
theorem walk_alloc (pagetable : PageTable) (h : va < MAXVA) : ∃ found pagetable' n,
    walk pagetable va true s = (.ok (found, pagetable'), s.withFree n) ∧
      (∀ va', pteAt pagetable' va' = pteAt pagetable va') ∧
      (found = true → Present pagetable' va) ∧
      (found = true ↔ missingTables pagetable va ≤ s.freePages) := by
  unfold walk missingTables
  rw [check, if_pos h]
  show ∃ found pagetable' n, (descend pagetable (px 2 va) (fun _ => none) true >>= _) s = _ ∧ _
  obtain ⟨hfull, hpages⟩ | ⟨pagetable1, n, hdescend, hpages, htable1, hsame⟩ :=
    descend_alloc (s := s) pagetable (px 2 va) (fun _ => none)
  · rw [bind_ok hfull]
    refine ⟨false, pagetable, s.freePages, rfl, fun _ => rfl, fun h => absurd h (by decide), ?_⟩
    exact iff_of_false (by decide) (by omega)
  rw [bind_ok hdescend]
  generalize (pagetable (px 2 va)).getD (fun _ => none) = table1 at htable1 ⊢
  have hsame1 : ∀ va', pteAt pagetable1 va' = pteAt pagetable va' := fun va' => by
    rw [pteAt_eq_getD, pteAt_eq_getD, hsame]
  show ∃ found pagetable' n',
    (descend table1 (px 1 va) (fun _ => .zero) true >>= _) (s.withFree n) = (_, s.withFree n') ∧ _
  obtain ⟨hfull, hpages'⟩ | ⟨table1', n', hdescend', hpages', htable0, hsame'⟩ :=
    descend_alloc (s := s.withFree n) table1 (px 1 va) (fun _ => Pte.zero)
  · rw [bind_ok hfull]
    have hfew : n < pagesFor (table1 (px 1 va)) := hpages'
    refine ⟨false, pagetable1, n, rfl, hsame1, fun h => absurd h (by decide), ?_⟩
    exact iff_of_false (by decide) (by omega)
  rw [bind_ok hdescend']
  have henough : n = pagesFor (table1 (px 1 va)) + n' := hpages'
  refine ⟨true, _, n', rfl, fun va' => ?_,
    fun _ => ⟨table1', _, Function.update_self .., htable0⟩, iff_of_true rfl (by omega)⟩
  rw [← hsame1 va', pteAt_eq_getD, pteAt_eq_getD]
  by_cases h2 : px 2 va' = px 2 va
  · rw [h2, Function.update_self, htable1]
    dsimp only [Option.getD_some]
    rw [hsame']
  · rw [Function.update_of_ne h2]

theorem ismapped_eq (h : va < MAXVA) :
    ismapped pagetable va s = (.ok (pteAt pagetable va).valid, s) := by
  obtain ⟨found, pagetable', hwalk, hnone⟩ := walk_lookup pagetable (s := s) h
  unfold ismapped
  rw [bind_ok hwalk]
  cases found with
  | true => rfl
  | false =>
      rw [hnone rfl]
      rfl

/-- What `vm_permission_violation` finds, at any address. -/
def violates (pagetable : PageTable) (va : BitVec 64) (read : Bool) : Bool :=
  decide (va < MAXVA) && (pteAt pagetable va).valid &&
    decide ((pteAt pagetable va).flags &&& (if read then PTE_R else PTE_W) = 0)

theorem vmPermissionViolation_eq (pagetable : PageTable) (va : BitVec 64) (read : Bool) :
    vmPermissionViolation pagetable va read s = (.ok (violates pagetable va read), s) := by
  unfold vmPermissionViolation violates
  dsimp only
  split
  · rename_i h
    have hout : ¬ va < MAXVA := fun hlt =>
      absurd (pgrounddown_lt_maxva.mpr hlt) (BitVec.not_lt.mpr h)
    rw [decide_eq_false hout]
    rfl
  · rename_i h
    have hin : va < MAXVA := pgrounddown_lt_maxva.mp (BitVec.not_le.mp h)
    obtain ⟨found, pagetable', hwalk, hnone⟩ :=
      walk_lookup pagetable (s := s) (pgrounddown_lt_maxva.mpr hin)
    rw [bind_ok hwalk, decide_eq_true hin, Bool.true_and]
    rw [pteAt_pgrounddown] at hnone ⊢
    cases found with
    | false =>
        rw [hnone rfl]
        rfl
    | true =>
        cases hvalid : (pteAt pagetable va).valid with
        | false => rfl
        | true => rfl

-- ============================================================================
-- Permissions
-- ============================================================================

/-- The permission that a load or a store needs. -/
def neededPerm (read : Bool) : BitVec 10 := if read then PTE_R else PTE_W

/-- There is a valid entry for `va`. -/
def Mapped (pagetable : PageTable) (va : BitVec 64) : Prop :=
  va < MAXVA ∧ (pteAt pagetable va).valid = true

instance (pagetable : PageTable) (va : BitVec 64) : Decidable (Mapped pagetable va) :=
  inferInstanceAs (Decidable (_ ∧ _))

/-- The entry of `va` lets a user program load from it, or store to it. -/
def UserMay (pagetable : PageTable) (va : BitVec 64) (read : Bool) : Prop :=
  Mapped pagetable va ∧ (pteAt pagetable va).flags &&& PTE_U ≠ 0 ∧
    (pteAt pagetable va).flags &&& neededPerm read ≠ 0

instance (pagetable : PageTable) (va : BitVec 64) (read : Bool) :
    Decidable (UserMay pagetable va read) :=
  inferInstanceAs (Decidable (_ ∧ _ ∧ _))

-- ============================================================================
-- Mappings
-- ============================================================================

/-- `va` has the entry `pte`, and the other pages have the entries they had. -/
def Maps (pagetable pagetable' : PageTable) (va : BitVec 64) (pte : Pte) : Prop :=
  ∀ va', pteAt pagetable' va' = if SamePage va va' then pte else pteAt pagetable va'

/-- `mappages` maps the page, or there is no memory for a table and no entry changes. -/
theorem mappages_spec (pagetable : PageTable) (haligned : va % PGSIZE = 0) (hva : va < MAXVA)
    (hfree : (pteAt pagetable va).valid = false) (page : Page) (perm : BitVec 10) :
    ∃ pagetable' n,
      (mappages pagetable va page perm s = (.ok (0, pagetable'), s.withFree n) ∧
        Maps pagetable pagetable' va ⟨perm ||| PTE_V, page⟩ ∧
        missingTables pagetable va ≤ s.freePages) ∨
      (mappages pagetable va page perm s = (.ok (-1, pagetable'), s.withFree n) ∧
        (∀ va', pteAt pagetable' va' = pteAt pagetable va') ∧
        s.freePages < missingTables pagetable va) := by
  obtain ⟨found, pagetable', n, hwalk, hsame, hpresent, hfound⟩ :=
    walk_alloc pagetable (s := s) hva
  have hmap : mappages pagetable va page perm s =
      (if found then do
          check ((pteAt pagetable' va).valid = false) "mappages: remap"
          pure (0, setPte pagetable' va ⟨perm ||| PTE_V, page⟩)
        else
          pure (-1, pagetable') : K (Int × PageTable)) (s.withFree n) := by
    unfold mappages
    rw [check, if_pos haligned]
    show (walk pagetable va true >>= _) s = _
    rw [bind_ok hwalk]
  rw [hmap]
  cases found with
  | false =>
      exact ⟨pagetable', n, .inr ⟨rfl, hsame, Nat.lt_of_not_le (mt hfound.mpr Bool.false_ne_true)⟩⟩
  | true =>
      rw [if_pos rfl, check, if_pos (by rw [hsame, hfree])]
      refine ⟨_, n, .inl ⟨rfl, fun va' => ?_, hfound.mp rfl⟩⟩
      rw [pteAt_setPte (hpresent rfl), hsame]

end PassionProjects.Xv6Plus
