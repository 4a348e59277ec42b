/-
  PassionProjects.Xv6Plus.Kernel.CopyOut

  Copying from the kernel to a user program (`copyout` in `kernel/vm.c`).
-/

import Mathlib.Algebra.Order.Ring.Nat
import PassionProjects.Xv6Plus.Kernel.PageFaults

namespace PassionProjects.Xv6Plus

open Raising Raising.Prog

variable {pagetable pagetable' : PageTable} {va va' : BitVec 64} {s : Kernel}

/-- The byte that the tables have at `va`. -/
def byteAt (pagetable : PageTable) (va : BitVec 64) : BitVec 8 :=
  (pteAt pagetable va).page (va.setWidth 12)

/-- `page` with `bytes` from `offset` on. -/
def Page.write (page : Page) (offset : Nat) (bytes : List (BitVec 8)) : Page := fun i =>
  if offset ≤ i.toNat then bytes[i.toNat - offset]?.getD (page i) else page i

/-- Whether there is a page at `va0`, which `vmfault` may have to map. -/
def touchPage (va0 : BitVec 64) : K Bool := do
  match ← walkaddr (← Prog.read).pagetable va0 with
  | some _ => pure true
  | none => vmfault (← Prog.read).pagetable va0 false

/-- The loop of `copyout`: the address and the bytes that are left.  Every turn but the last
copies a byte. -/
def copyoutLoop : Nat → BitVec 64 → List (BitVec 8) → K Int
  | 0, _, _ => pure 0
  | turns + 1, dstva, src =>
      if src = [] then
        pure 0
      else
        let va0 := pgrounddown dstva
        if MAXVA ≤ va0 then
          pure (-1)
        else do
          if ← touchPage va0 then do
            let pagetable := (← Prog.read).pagetable
            let pte := pteAt pagetable va0
            if pte.flags &&& PTE_W = 0 then
              pure (-1)
            else do
              let offset := (dstva - va0).toNat
              let n := min (4096 - offset) src.length
              modify fun s =>
                { s with
                  pagetable :=
                    setPte pagetable va0 { pte with page := pte.page.write offset (src.take n) } }
              copyoutLoop turns (va0 + PGSIZE) (src.drop n)
          else
            pure (-1)

/-- `copyout` to the process that runs. -/
def copyout (dstva : BitVec 64) (src : List (BitVec 8)) : K Int :=
  copyoutLoop (src.length + 1) dstva src

-- ============================================================================
-- Pages of addresses
-- ============================================================================

theorem toNat_px (level : Nat) (va : BitVec 64) :
    (px level va).toNat = va.toNat / 2 ^ (12 + 9 * level) % 512 := by
  unfold px
  rw [BitVec.extractLsb'_toNat, Nat.shiftRight_eq_div_pow]

theorem toNat_maxva : MAXVA.toNat = 2 ^ 38 := by decide

/-- Below `MAXVA` the path through the tables tells pages apart. -/
theorem samePage_iff (hva : va < MAXVA) (hva' : va' < MAXVA) :
    SamePage va va' ↔ va.toNat / 4096 = va'.toNat / 4096 := by
  rw [BitVec.lt_def, toNat_maxva] at hva hva'
  unfold SamePage
  rw [← BitVec.toNat_inj, ← BitVec.toNat_inj, ← BitVec.toNat_inj, toNat_px, toNat_px, toNat_px,
    toNat_px, toNat_px, toNat_px]
  simp only [Nat.reduceMul, Nat.reduceAdd, Nat.reducePow] at hva hva' ⊢
  omega

theorem pteAt_congr (h : SamePage va va') : pteAt pagetable va = pteAt pagetable va' := by
  unfold pteAt
  rw [h.1, h.2.1, h.2.2]

theorem toNat_offset (va : BitVec 64) : (va - pgrounddown va).toNat = va.toNat % 4096 := by
  have hle : pgrounddown va ≤ va := by
    rw [BitVec.le_def, toNat_pgrounddown]
    exact Nat.div_mul_le_self _ _
  rw [BitVec.toNat_sub_of_le hle, toNat_pgrounddown]
  omega

theorem toNat_nextPage (hva : va < MAXVA) :
    (pgrounddown va + PGSIZE).toNat = va.toNat + (4096 - va.toNat % 4096) := by
  rw [BitVec.lt_def, toNat_maxva] at hva
  rw [BitVec.toNat_add, toNat_pgrounddown, show PGSIZE.toNat = 4096 from rfl, Nat.mod_eq_of_lt]
  · omega
  · omega

theorem zero_invalid : ¬ Pte.zero.valid = true := by decide

theorem present_of_valid (h : (pteAt pagetable va).valid = true) : Present pagetable va := by
  unfold pteAt at h
  cases h2 : pagetable (px 2 va) with
  | none =>
      rw [h2] at h
      exact absurd h zero_invalid
  | some table1 =>
      rw [h2] at h
      dsimp only at h
      cases h1 : table1 (px 1 va) with
      | none =>
          rw [h1] at h
          exact absurd h zero_invalid
      | some table0 => exact ⟨table1, table0, h2, h1⟩

theorem walkaddr_eq (hva : va < MAXVA) (hvalid : (pteAt pagetable va).valid = true)
    (huser : (pteAt pagetable va).flags &&& PTE_U ≠ 0) :
    walkaddr pagetable va s = (.ok (some (pteAt pagetable va).page), s) := by
  obtain ⟨found, pagetable', hwalk, hnone⟩ := walk_lookup pagetable (s := s) hva
  have hfound : found = true := by
    cases found with
    | true => rfl
    | false =>
        rw [hnone rfl] at hvalid
        exact absurd hvalid zero_invalid
  unfold walkaddr
  rw [if_neg (BitVec.not_le.mpr hva), bind_ok hwalk, hfound]
  dsimp only
  rw [if_neg]
  · rfl
  · rw [hvalid]
    simpa using huser

-- ============================================================================
-- What is copied
-- ============================================================================

/-- `src` came to stand at `dst`, and no other byte and no permission changed. -/
structure Wrote (pagetable pagetable' : PageTable) (dst : Nat) (src : List (BitVec 8)) : Prop where
  flags : ∀ va, (pteAt pagetable' va).flags = (pteAt pagetable va).flags
  bytes : ∀ va < MAXVA, byteAt pagetable' va =
    if dst ≤ va.toNat then src[va.toNat - dst]?.getD (byteAt pagetable va)
    else byteAt pagetable va

theorem Wrote.nil (dst : Nat) : Wrote pagetable pagetable dst [] where
  flags _ := rfl
  bytes va _ := by
    rw [List.getElem?_nil, Option.getD_none, ite_self]

/-- A part of the bytes and then the others. -/
theorem Wrote.append {pagetable'' : PageTable} {dst n : Nat} {src : List (BitVec 8)}
    (h : Wrote pagetable pagetable' dst (src.take n))
    (h' : Wrote pagetable' pagetable'' (dst + n) (src.drop n)) :
    Wrote pagetable pagetable'' dst src where
  flags va := (h'.flags va).trans (h.flags va)
  bytes va hva := by
    rw [h'.bytes va hva, h.bytes va hva, List.getElem?_drop, List.getElem?_take]
    by_cases hdst : dst ≤ va.toNat
    · rw [if_pos hdst, if_pos hdst]
      by_cases hfirst : va.toNat - dst < n
      · rw [if_neg (by omega), if_pos hfirst]
      · have hrest : n + (va.toNat - (dst + n)) = va.toNat - dst := by omega
        rw [if_pos (by omega), if_neg hfirst, hrest]
        rfl
    · rw [if_neg hdst, if_neg hdst, if_neg (by omega)]

/-- Bytes that end with the page. -/
theorem wrote_page (hva : va < MAXVA) (hvalid : (pteAt pagetable va).valid = true)
    (src : List (BitVec 8)) (hsrc : src.length ≤ 4096 - va.toNat % 4096) :
    Wrote pagetable
      (setPte pagetable (pgrounddown va)
        { pteAt pagetable (pgrounddown va) with
          page := (pteAt pagetable (pgrounddown va)).page.write (va.toNat % 4096) src })
      va.toNat src := by
  have hpresent : Present pagetable (pgrounddown va) :=
    present_of_valid (by rw [pteAt_pgrounddown]; exact hvalid)
  have hpage := pgrounddown_lt_maxva.mpr hva
  constructor
  · intro va'
    rw [pteAt_setPte hpresent]
    by_cases hsame : SamePage (pgrounddown va) va'
    · rw [if_pos hsame, pteAt_congr hsame]
    · rw [if_neg hsame]
  · intro va' hva'
    unfold byteAt
    rw [pteAt_setPte hpresent]
    by_cases hsame : SamePage (pgrounddown va) va'
    · have hdiv := (samePage_iff hpage hva').mp hsame
      rw [toNat_pgrounddown, Nat.mul_div_cancel _ (by decide)] at hdiv
      rw [if_pos hsame, pteAt_congr hsame]
      dsimp only [Page.write]
      rw [BitVec.toNat_setWidth, show 2 ^ 12 = 4096 from rfl]
      by_cases hdst : va.toNat ≤ va'.toNat
      · have hoffset : va'.toNat % 4096 - va.toNat % 4096 = va'.toNat - va.toNat := by omega
        rw [if_pos hdst, if_pos (by omega), hoffset]
      · rw [if_neg hdst, if_neg (by omega)]
    · rw [if_neg hsame]
      have hdiv : va.toNat / 4096 ≠ va'.toNat / 4096 := fun h => hsame <| by
        rw [samePage_iff hpage hva', toNat_pgrounddown, Nat.mul_div_cancel _ (by decide)]
        exact h
      by_cases hdst : va.toNat ≤ va'.toNat
      · rw [if_pos hdst, List.getElem?_eq_none (by omega)]
        rfl
      · rw [if_neg hdst]

/-- A user program may store to the `len` bytes at `dst`. -/
def Writable (pagetable : PageTable) (dst : BitVec 64) (len : Nat) : Prop :=
  ∀ i < len, UserMay pagetable (dst + BitVec.ofNat 64 i) false

theorem UserMay.congr {read : Bool} (h : UserMay pagetable va read)
    (hflags : (pteAt pagetable' va).flags = (pteAt pagetable va).flags) :
    UserMay pagetable' va read := by
  unfold UserMay Mapped Pte.valid at h ⊢
  rw [hflags]
  exact h

theorem Wrote.nil_at {dst dst' : Nat} (h : Wrote pagetable pagetable' dst []) :
    Wrote pagetable pagetable' dst' [] where
  flags := h.flags
  bytes va hva := by
    rw [h.bytes va hva, List.getElem?_nil, Option.getD_none, List.getElem?_nil, Option.getD_none,
      ite_self, ite_self]

/-- One turn of the loop, where the program may store. -/
theorem copyoutLoop_turn (turns : Nat) {dstva : BitVec 64} {src : List (BitVec 8)} (hsrc : src ≠ [])
    (h : UserMay s.pagetable dstva false) :
    ∃ pagetable', Wrote s.pagetable pagetable' dstva.toNat
        (src.take (min (4096 - dstva.toNat % 4096) src.length)) ∧
      copyoutLoop (turns + 1) dstva src s =
        copyoutLoop turns (pgrounddown dstva + PGSIZE)
          (src.drop (min (4096 - dstva.toNat % 4096) src.length))
          { s with pagetable := pagetable' } := by
  obtain ⟨⟨hva, hvalid⟩, huser, hwrite⟩ := h
  have hpage := pgrounddown_lt_maxva.mpr hva
  have hwrote := wrote_page hva hvalid (src.take (min (4096 - dstva.toNat % 4096) src.length))
    (by rw [List.length_take]; omega)
  have htouch : touchPage (pgrounddown dstva) s = (.ok true, s) := by
    have hwalk := walkaddr_eq (s := s) hpage (by rw [pteAt_pgrounddown]; exact hvalid)
      (by rw [pteAt_pgrounddown]; exact huser)
    exact bind_ok hwalk
  have hflag : ¬ (pteAt s.pagetable (pgrounddown dstva)).flags &&& PTE_W = 0 := by
    rw [pteAt_pgrounddown]
    exact hwrite
  refine ⟨_, hwrote, ?_⟩
  rw [copyoutLoop, if_neg hsrc]
  dsimp only
  rw [if_neg (BitVec.not_le.mpr hpage), bind_ok htouch, if_pos rfl]
  show (if (pteAt s.pagetable (pgrounddown dstva)).flags &&& PTE_W = 0 then _ else _ : K Int) s = _
  rw [if_neg hflag, toNat_offset]
  rfl

/-- Where a program may store to all of them, the bytes are copied. -/
theorem copyoutLoop_spec : ∀ (turns : Nat) (dstva : BitVec 64) (src : List (BitVec 8)) (s : Kernel),
    src.length < turns → Writable s.pagetable dstva src.length →
      ∃ pagetable', copyoutLoop turns dstva src s = (.ok 0, { s with pagetable := pagetable' }) ∧
        Wrote s.pagetable pagetable' dstva.toNat src
  | 0, _, _, _, hturns, _ => absurd hturns (Nat.not_lt_zero _)
  | turns + 1, dstva, src, s, hturns, hwritable => by
      by_cases hsrc : src = []
      · rw [copyoutLoop, if_pos hsrc, hsrc]
        exact ⟨s.pagetable, rfl, .nil _⟩
      have hlen : 0 < src.length := List.length_pos_iff.mpr hsrc
      have hmay : UserMay s.pagetable dstva false := by
        have hfirst := hwritable 0 hlen
        rw [BitVec.add_zero] at hfirst
        exact hfirst
      obtain ⟨pagetable', hwrote, hturn⟩ := copyoutLoop_turn turns hsrc hmay
      have hnext := toNat_nextPage hmay.1.1
      generalize hn : min (4096 - dstva.toNat % 4096) src.length = n at hwrote hturn
      rw [hturn]
      by_cases hlast : src.length ≤ 4096 - dstva.toNat % 4096
      · have hdrop : src.drop n = [] := List.drop_eq_nil_of_le (by omega)
        rw [hdrop] at hturn ⊢
        obtain ⟨pagetable'', hrun, hrest⟩ := copyoutLoop_spec turns
          (pgrounddown dstva + PGSIZE) [] { s with pagetable := pagetable' }
          (by rw [List.length_nil]; omega) (fun i hi => absurd hi (Nat.not_lt_zero i))
        refine ⟨pagetable'', hrun, hwrote.append ?_⟩
        rw [hdrop]
        exact hrest.nil_at
      · have hva := BitVec.lt_def.mp hmay.1.1
        rw [toNat_maxva] at hva
        have hpage : pgrounddown dstva + PGSIZE = dstva + BitVec.ofNat 64 n := by
          apply BitVec.eq_of_toNat_eq
          rw [hnext, BitVec.toNat_add, BitVec.toNat_ofNat,
            Nat.mod_eq_of_lt (show n < 2 ^ 64 by omega),
            Nat.mod_eq_of_lt (show dstva.toNat + n < 2 ^ 64 by omega)]
          omega
        have hafter : Writable pagetable' (pgrounddown dstva + PGSIZE) (src.drop n).length := by
          intro i hi
          rw [List.length_drop] at hi
          rw [hpage, BitVec.add_assoc, ← BitVec.ofNat_add]
          exact (hwritable (n + i) (by omega)).congr (hwrote.flags _)
        obtain ⟨pagetable'', hrun, hrest⟩ := copyoutLoop_spec turns
          (pgrounddown dstva + PGSIZE) (src.drop n) { s with pagetable := pagetable' }
          (by rw [List.length_drop]; omega) hafter
        refine ⟨pagetable'', hrun, hwrote.append ?_⟩
        rw [hnext, show 4096 - dstva.toNat % 4096 = n by omega] at hrest
        exact hrest

theorem copyout_spec (dstva : BitVec 64) (src : List (BitVec 8))
    (h : Writable s.pagetable dstva src.length) :
    ∃ pagetable', copyout dstva src s = (.ok 0, { s with pagetable := pagetable' }) ∧
      Wrote s.pagetable pagetable' dstva.toNat src :=
  copyoutLoop_spec (src.length + 1) dstva src s (Nat.lt_succ_self _) h

/-- The bytes that the program then has. -/
theorem Wrote.byteAt {dst : BitVec 64} {src : List (BitVec 8)}
    (h : Wrote pagetable pagetable' dst.toNat src) {i : Nat} (hi : i < src.length)
    (hva : dst + BitVec.ofNat 64 i < MAXVA) (hlen : dst.toNat + i < 2 ^ 64) :
    byteAt pagetable' (dst + BitVec.ofNat 64 i) = src[i] := by
  have hat : (dst + BitVec.ofNat 64 i).toNat = dst.toNat + i := by
    rw [BitVec.toNat_add, BitVec.toNat_ofNat, Nat.mod_eq_of_lt (show i < 2 ^ 64 by omega),
      Nat.mod_eq_of_lt hlen]
  rw [h.bytes _ hva, hat, if_pos (Nat.le_add_right _ _), Nat.add_sub_cancel_left,
    List.getElem?_eq_getElem hi]
  rfl

end PassionProjects.Xv6Plus
