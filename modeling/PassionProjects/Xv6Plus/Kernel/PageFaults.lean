/-
  PassionProjects.Xv6Plus.Kernel.PageFaults

  What `usertrap` does with the page faults of a user program, and what it counts.
-/

import PassionProjects.Xv6Plus.Kernel.UserMemory

namespace PassionProjects.Xv6Plus

open Raising Raising.Prog

variable {s : Kernel} {va : BitVec 64} {read kkilled : Bool} {scause : Nat}

/-- The entry of `va` would allow the access, were it not for the kernel only. -/
def KernelOnly (pagetable : PageTable) (va : BitVec 64) (read : Bool) : Prop :=
  Mapped pagetable va ∧ (pteAt pagetable va).flags &&& PTE_U = 0 ∧
    (pteAt pagetable va).flags &&& neededPerm read ≠ 0

instance (pagetable : PageTable) (va : BitVec 64) (read : Bool) :
    Decidable (KernelOnly pagetable va read) :=
  inferInstanceAs (Decidable (_ ∧ _ ∧ _))

/-- A zeroed page came to be mapped at `va`, and is all that was counted. -/
def PagedIn (s s' : Kernel) (va : BitVec 64) : Prop :=
  (pteAt s.pagetable va).valid = false ∧
    Maps s.pagetable s'.pagetable va ⟨PTE_W ||| PTE_U ||| PTE_R ||| PTE_V, zeroPage⟩ ∧
    s'.proc =
      s.proc.set s.current { s.myproc with pagefaults := s.myproc.pagefaults + 1 } s.current_lt

/-- No page came to be mapped, one failure is all that was counted, and the process is marked. -/
def Refused (s s' : Kernel) : Prop :=
  (∀ va, pteAt s'.pagetable va = pteAt s.pagetable va) ∧
    s'.proc = s.proc.set s.current
      { s.myproc with
        pagefaultsFailed := s.myproc.pagefaultsFailed + 1
        killed := 1 } s.current_lt

/-- A fault is served and the process goes on, or it is refused and the process killed, with the
diagnostic for pages that are mapped where the page is. -/
def FaultHandled (s : Kernel) (scause : Nat) (va : BitVec 64) (kkilled : Bool) : Prop :=
  (vmPermissionViolation s.pagetable va (scause = 13) s).1 = .ok (decide
      (Mapped s.pagetable va ∧ ¬ UserMay s.pagetable va (scause = 13))) ∧
    ∃ outcome s', usertrapPageFault scause va kkilled s = (.ok outcome, s') ∧
      (outcome = ⟨none, true⟩ ∧ PagedIn s s' va ∨
        outcome = ⟨some (decide
          (Mapped s.pagetable va ∧ ¬ UserMay s.pagetable va (scause = 13))), false⟩ ∧
          Refused s s')

/-- The process has the page, nothing is mapped there, and there is memory for it and for the
tables on the way. -/
def Servable (s : Kernel) (va : BitVec 64) : Prop :=
  va < s.myproc.sz ∧ (pteAt s.pagetable va).valid = false ∧
    missingTables s.pagetable va < s.freePages

/-- The process is marked when `usertrap` asks, whether the fault is served or not. -/
def Marked (s : Kernel) (kkilled : Bool) : Prop := s.myproc.killed ≠ 0 ∨ kkilled = true

-- ============================================================================
-- `vmfault`
-- ============================================================================

/-- The fields of the process that runs are those of `p`. -/
def Kernel.setMyproc (s : Kernel) (p : Proc) : Kernel :=
  { s with proc := s.proc.set s.current p s.current_lt }

theorem setMyproc_myproc (s : Kernel) (p : Proc) : (s.setMyproc p).myproc = p := by
  unfold Kernel.setMyproc Kernel.myproc
  rw [Fin.getElem_fin, Vector.getElem_set_self]

theorem setMyproc_setMyproc (s : Kernel) (p p' : Proc) :
    (s.setMyproc p).setMyproc p' = s.setMyproc p' := by
  unfold Kernel.setMyproc
  rw [Vector.set_set]

/-- One more failure. -/
def Kernel.failed (s : Kernel) : Kernel :=
  s.setMyproc { s.myproc with pagefaultsFailed := s.myproc.pagefaultsFailed + 1 }

/-- `vmfault` failed: the entries are as they were, and the failure is counted. -/
def Unserved (s s' : Kernel) : Prop :=
  ∃ pagetable n, s' = { s.failed with pagetable := pagetable, freePages := n } ∧
    ∀ va, pteAt pagetable va = pteAt s.pagetable va

theorem unserved_failed : Unserved s s.failed := ⟨s.pagetable, s.freePages, rfl, fun _ => rfl⟩

theorem missingTables_pgrounddown (pagetable : PageTable) (va : BitVec 64) :
    missingTables pagetable (pgrounddown va) = missingTables pagetable va := by
  unfold missingTables
  rw [px_pgrounddown, px_pgrounddown]

theorem samePage_pgrounddown {va' : BitVec 64} :
    SamePage (pgrounddown va) va' ↔ SamePage va va' := by
  unfold SamePage
  rw [px_pgrounddown, px_pgrounddown, px_pgrounddown]

theorem maps_pgrounddown {pagetable pagetable' : PageTable} {pte : Pte}
    (h : Maps pagetable pagetable' (pgrounddown va) pte) : Maps pagetable pagetable' va pte := by
  intro va'
  rw [h va']
  by_cases hpage : SamePage va va'
  · rw [if_pos hpage, if_pos (samePage_pgrounddown.mpr hpage)]
  · rw [if_neg hpage, if_neg fun h => hpage (samePage_pgrounddown.mp h)]

theorem violates_pgrounddown (pagetable : PageTable) (va : BitVec 64) (read : Bool) :
    violates pagetable (pgrounddown va) read = violates pagetable va read := by
  unfold violates
  rw [pteAt_pgrounddown, decide_eq_decide.mpr pgrounddown_lt_maxva]

theorem vmfault_out (h : s.myproc.sz ≤ va) :
    vmfault s.pagetable va read s = (.ok false, s.failed) := by
  unfold vmfault
  show (if s.myproc.sz ≤ va then _ else _ : K Bool) s = _
  rw [if_pos h]
  rfl

theorem vmfault_panics (h : va < s.myproc.sz) (hva : MAXVA ≤ va) :
    vmfault s.pagetable va read s = (.error "walk", s) := by
  have hpage : MAXVA ≤ pgrounddown va :=
    BitVec.not_lt.mp fun hlt => absurd (pgrounddown_lt_maxva.mp hlt) (BitVec.not_lt.mpr hva)
  have hmapped : ismapped s.pagetable (pgrounddown va) s = (.error "walk", s) :=
    bind_error (walk_panics hpage false)
  unfold vmfault
  show (if s.myproc.sz ≤ va then _ else _ : K Bool) s = _
  rw [if_neg (BitVec.not_le.mpr h)]
  exact bind_error hmapped

theorem vmfault_mapped (read : Bool) (h : va < s.myproc.sz) (hmapped : Mapped s.pagetable va) :
    vmfault s.pagetable va read s =
      (.ok false, if violates s.pagetable va read then s.failed else s) := by
  have hismapped : ismapped s.pagetable (pgrounddown va) s = (.ok true, s) := by
    rw [ismapped_eq (pgrounddown_lt_maxva.mpr hmapped.1), pteAt_pgrounddown, hmapped.2]
  unfold vmfault
  show (if s.myproc.sz ≤ va then _ else _ : K Bool) s = _
  rw [if_neg (BitVec.not_le.mpr h)]
  refine (bind_ok hismapped).trans ?_
  show (vmPermissionViolation s.pagetable (pgrounddown va) read >>= fun violation =>
    if violation then _ else _ : K Bool) s = _
  rw [bind_ok (vmPermissionViolation_eq _ _ read), violates_pgrounddown]
  cases violates s.pagetable va read with
  | true => rfl
  | false => rfl

/-- Without an entry the page is mapped where there is memory, for it and for the tables. -/
theorem vmfault_unmapped (read : Bool) (h : va < s.myproc.sz) (hva : va < MAXVA)
    (hfree : (pteAt s.pagetable va).valid = false) : ∃ s',
    (vmfault s.pagetable va read s = (.ok true, s') ∧ PagedIn s s' va ∧
      s'.myproc.killed = s.myproc.killed ∧ Servable s va) ∨
    (vmfault s.pagetable va read s = (.ok false, s') ∧ Unserved s s' ∧ ¬ Servable s va) := by
  have hpage : pgrounddown va < MAXVA := pgrounddown_lt_maxva.mpr hva
  have hismapped : ismapped s.pagetable (pgrounddown va) s = (.ok false, s) := by
    rw [ismapped_eq hpage, pteAt_pgrounddown, hfree]
  have hstart : vmfault s.pagetable va read s = (kalloc >>= mapFresh (pgrounddown va)) s := by
    unfold vmfault
    show (if s.myproc.sz ≤ va then _ else _ : K Bool) s = _
    rw [if_neg (BitVec.not_le.mpr h)]
    exact bind_ok hismapped
  rw [hstart]
  by_cases hmemory : s.freePages = 0
  · refine ⟨s.failed, .inr ⟨?_, unserved_failed, fun hserve => ?_⟩⟩
    · rw [bind_ok (kalloc_none hmemory)]
      rfl
    · exact absurd hserve.2.2 (by omega)
  rw [bind_ok (kalloc_some hmemory)]
  obtain ⟨pagetable', n, ⟨hmap, hmaps, hpages⟩ | ⟨hmap, hsame, hpages⟩⟩ :=
    mappages_spec s.pagetable (s := { s with freePages := s.freePages - 1 })
      (pgrounddown_aligned va) hpage (by rw [pteAt_pgrounddown, hfree]) zeroPage
      (PTE_W ||| PTE_U ||| PTE_R)
  · rw [missingTables_pgrounddown] at hpages
    have henough : missingTables s.pagetable va ≤ s.freePages - 1 := hpages
    have hkilled : (s.setMyproc
        { s.myproc with pagefaults := s.myproc.pagefaults + 1 }).myproc.killed =
          s.myproc.killed := by
      rw [setMyproc_myproc]
    exact ⟨_, .inl ⟨bind_ok hmap, ⟨hfree, maps_pgrounddown hmaps, rfl⟩, hkilled, h, hfree,
      by omega⟩⟩
  · rw [missingTables_pgrounddown] at hpages
    have hfew : s.freePages - 1 < missingTables s.pagetable va := hpages
    refine ⟨_, .inr ⟨bind_ok hmap, ⟨pagetable', n + 1, rfl, hsame⟩, fun hserve => ?_⟩⟩
    exact absurd hserve.2.2 (by omega)

-- ============================================================================
-- The trap
-- ============================================================================

theorem violates_iff {pagetable : PageTable} : violates pagetable va read = true ↔
    Mapped pagetable va ∧ (pteAt pagetable va).flags &&& neededPerm read = 0 := by
  unfold violates Mapped neededPerm
  rw [Bool.and_eq_true, Bool.and_eq_true, decide_eq_true_iff, decide_eq_true_iff]

/-- The diagnostic is right where the page is not one that only the kernel may use. -/
theorem violates_eq_iff {pagetable : PageTable} (hfault : ¬ UserMay pagetable va read) :
    violates pagetable va read = decide (Mapped pagetable va ∧ ¬ UserMay pagetable va read) ↔
      ¬ KernelOnly pagetable va read := by
  rw [Bool.eq_iff_iff, violates_iff, decide_eq_true_iff]
  constructor
  · intro heq hkernel
    exact hkernel.2.2 (heq.mpr ⟨hkernel.1, hfault⟩).2
  · intro hkernel
    constructor
    · intro h
      exact ⟨h.1, hfault⟩
    · intro h
      refine ⟨h.1, Decidable.byContradiction fun hneeded => ?_⟩
      by_cases huser : (pteAt pagetable va).flags &&& PTE_U = 0
      · exact hkernel ⟨h.1, huser, hneeded⟩
      · exact hfault ⟨h.1, huser, hneeded⟩

/-- The process that runs is marked. -/
def Kernel.marked (s : Kernel) : Kernel := s.setMyproc { s.myproc with killed := 1 }

instance (s : Kernel) (kkilled : Bool) : Decidable (Marked s kkilled) :=
  inferInstanceAs (Decidable (_ ∨ _))

/-- The process goes on if it is not marked. -/
theorem leaveTrap_eq (diagnostic : Option Bool) (kkilled : Bool) :
    leaveTrap diagnostic kkilled s =
      (.ok ⟨diagnostic, decide (¬ Marked s kkilled)⟩, if kkilled then s.marked else s) := by
  have hkilled : ∀ s : Kernel, killed s = (.ok (decide (s.myproc.killed ≠ 0)), s) := fun _ => rfl
  cases kkilled with
  | false =>
      refine (bind_ok (f := fun _ => _) rfl).trans ((bind_ok (hkilled s)).trans ?_)
      by_cases hzero : s.myproc.killed = 0
      · have hmark : ¬ Marked s false := not_or.mpr ⟨not_not.mpr hzero, Bool.false_ne_true⟩
        rw [decide_eq_false (not_not.mpr hzero), decide_eq_true hmark]
        rfl
      · have hmark : Marked s false := .inl hzero
        rw [decide_eq_true hzero, decide_eq_false (not_not.mpr hmark)]
        rfl
  | true =>
      have hmarked : s.marked.myproc.killed = 1 := congrArg Proc.killed (setMyproc_myproc s _)
      have hmark : Marked s true := .inr rfl
      refine (bind_ok (f := fun _ => _) rfl).trans ((bind_ok (hkilled s.marked)).trans ?_)
      rw [hmarked, decide_eq_false (not_not.mpr hmark)]
      rfl

theorem Unserved.refused {s' : Kernel} (h : Unserved s s') : Refused s s'.marked := by
  obtain ⟨pagetable, n, rfl, hsame⟩ := h
  refine ⟨hsame, ?_⟩
  have hfailed : s.failed.myproc =
      { s.myproc with pagefaultsFailed := s.myproc.pagefaultsFailed + 1 } := setMyproc_myproc s _
  have hmarked : s.failed.marked = s.setMyproc
      { s.myproc with
        pagefaultsFailed := s.myproc.pagefaultsFailed + 1
        killed := 1 } := by
    unfold Kernel.marked
    rw [hfailed]
    exact setMyproc_setMyproc s _ _
  exact congrArg Kernel.proc hmarked

theorem marked_marked (s : Kernel) : s.marked.marked = s.marked := by
  unfold Kernel.marked
  rw [setMyproc_setMyproc, setMyproc_myproc]

/-- After a fault that is not served the process is killed. -/
theorem usertrapPageFault_refused (scause : Nat) (kkilled : Bool) {s' : Kernel}
    (h : vmfault s.pagetable va (scause = 13) s = (.ok false, s')) :
    usertrapPageFault scause va kkilled s =
      (.ok ⟨some (violates s'.pagetable va (scause = 13)), false⟩, s'.marked) := by
  have hviolation := vmPermissionViolation_eq s'.pagetable va (decide (scause = 13)) (s := s')
  have hserve : servePageFault scause va s =
      (.ok (some (violates s'.pagetable va (scause = 13))), s'.marked) :=
    (bind_ok h).trans (bind_ok hviolation)
  have hkilled : s'.marked.myproc.killed = 1 := congrArg Proc.killed (setMyproc_myproc s' _)
  have hmark : Marked s'.marked kkilled := by
    left
    rw [hkilled]
    decide
  refine (bind_ok hserve).trans ?_
  rw [leaveTrap_eq, decide_eq_false (not_not.mpr hmark), marked_marked, ite_self]

/-- A fault that is served says nothing, and the process goes on if it is not marked. -/
theorem usertrapPageFault_served (scause : Nat) (kkilled : Bool) {s' : Kernel}
    (h : vmfault s.pagetable va (scause = 13) s = (.ok true, s'))
    (hkilled : s'.myproc.killed = s.myproc.killed) :
    usertrapPageFault scause va kkilled s = (.ok ⟨none, decide (¬ Marked s kkilled)⟩,
      if kkilled then s'.marked else s') := by
  have hserve : servePageFault scause va s = (.ok none, s') := bind_ok h
  have hmark : Marked s' kkilled ↔ Marked s kkilled := by
    unfold Marked
    rw [hkilled]
  refine (bind_ok hserve).trans ?_
  rw [leaveTrap_eq, decide_eq_decide.mpr (not_congr hmark)]

theorem usertrapPageFault_panics (h : va < s.myproc.sz) (hva : MAXVA ≤ va) :
    usertrapPageFault scause va kkilled s = (.error "walk", s) := by
  have hvmfault : vmfault s.pagetable va (scause = 13) s = (.error "walk", s) :=
    vmfault_panics h hva
  have hserve : servePageFault scause va s = (.error "walk", s) := by
    show (vmfault s.pagetable va (scause = 13) >>= _) s = _
    exact bind_error hvmfault
  exact bind_error hserve

theorem violates_congr {pagetable pagetable' : PageTable}
    (h : pteAt pagetable' va = pteAt pagetable va) :
    violates pagetable' va read = violates pagetable va read := by
  unfold violates
  rw [h]

/-- What the telemetry and the diagnostic say is right for the faults at addresses that have a
page table entry or lie beyond the process, not on a page that only the kernel may use, and not
served in a process that is marked. -/
theorem faultHandled_iff (hfault : ¬ UserMay s.pagetable va (scause = 13)) :
    FaultHandled s scause va kkilled ↔
      (va < MAXVA ∨ s.myproc.sz ≤ va) ∧ ¬ KernelOnly s.pagetable va (scause = 13) ∧
        ¬ (Marked s kkilled ∧ Servable s va) := by
  unfold FaultHandled
  rw [vmPermissionViolation_eq, Except.ok.injEq, violates_eq_iff hfault]
  constructor
  · rintro ⟨hkernel, outcome, s', hrun, hright⟩
    have haddress : va < MAXVA ∨ s.myproc.sz ≤ va := by
      by_contra hout
      rw [not_or] at hout
      rw [usertrapPageFault_panics (BitVec.not_le.mp hout.2) (BitVec.not_lt.mp hout.1)] at hrun
      exact nomatch hrun
    refine ⟨haddress, hkernel, fun ⟨hmark, hserve⟩ => ?_⟩
    have hva : va < MAXVA := haddress.resolve_right (BitVec.not_le.mpr hserve.1)
    obtain ⟨s₁, ⟨hvmfault, -, hkilled, -⟩ | ⟨-, -, hnot⟩⟩ :=
      vmfault_unmapped (scause = 13) hserve.1 hva hserve.2.1
    · rw [usertrapPageFault_served scause kkilled hvmfault hkilled,
        decide_eq_false (not_not.mpr hmark)] at hrun
      obtain ⟨hend, -⟩ := Prod.mk.inj hrun
      obtain rfl := Except.ok.inj hend
      rcases hright with ⟨hgoes, -⟩ | ⟨hkill, -⟩
      · exact absurd (congrArg FaultOutcome.goesOn hgoes) Bool.false_ne_true
      · exact absurd (congrArg FaultOutcome.diagnostic hkill).symm (Option.some_ne_none _)
    · exact hnot hserve
  rintro ⟨haddress, hkernel, hmark⟩
  refine ⟨hkernel, ?_⟩
  rw [← (violates_eq_iff hfault).mpr hkernel]
  by_cases hsz : s.myproc.sz ≤ va
  · exact ⟨_, _, usertrapPageFault_refused _ _ (vmfault_out hsz),
      .inr ⟨rfl, unserved_failed.refused⟩⟩
  have hin := BitVec.not_le.mp hsz
  have hva : va < MAXVA := haddress.resolve_right hsz
  cases hvalid : (pteAt s.pagetable va).valid with
  | true =>
      have hviolates : violates s.pagetable va (scause = 13) = true := by
        rw [(violates_eq_iff hfault).mpr hkernel, decide_eq_true ⟨⟨hva, hvalid⟩, hfault⟩]
      have hrun := vmfault_mapped (scause = 13) hin ⟨hva, hvalid⟩
      rw [hviolates, if_pos rfl] at hrun
      exact ⟨_, _, usertrapPageFault_refused _ _ hrun, .inr ⟨rfl, unserved_failed.refused⟩⟩
  | false =>
      obtain ⟨s', ⟨hrun, hpaged, hkilled, hserve⟩ | ⟨hrun, hunserved, -⟩⟩ :=
        vmfault_unmapped (scause = 13) hin hva hvalid
      · have hfree : ¬ Marked s kkilled := fun h => hmark ⟨h, hserve⟩
        have hkkill : ¬ kkilled = true := fun h => hfree (.inr h)
        have hend := usertrapPageFault_served scause kkilled hrun hkilled
        rw [decide_eq_true hfree, if_neg hkkill] at hend
        exact ⟨_, s', hend, .inl ⟨rfl, hpaged⟩⟩
      · refine ⟨_, _, usertrapPageFault_refused _ _ hrun, .inr ⟨?_, hunserved.refused⟩⟩
        obtain ⟨pagetable, n, rfl, hsame⟩ := hunserved
        rw [violates_congr (hsame va)]

-- ============================================================================
-- Processes that fault
-- ============================================================================

/-- A process by the name of `sh`. -/
def shell (sz : BitVec 64) : Proc where
  state := .running
  killed := 0
  pid := 2
  sz := sz
  name := ⟨#[115, 104, 0, 0, 0, 0, 0, 0, 0, 0, 0, 0, 0, 0, 0, 0], rfl⟩
  traceMask := 0
  runticks := 0
  waitticks := 0
  syscallCount := 0
  tickets := 10
  schedSelections := 0
  pagefaults := 0
  pagefaultsFailed := 0

/-- A kernel where `p` runs with `pagetable`. -/
def Kernel.running (pagetable : PageTable) (p : Proc) : Kernel where
  freePages := 100
  proc := Vector.replicate NPROC p
  current := ⟨0, by decide⟩
  pagetable := pagetable

theorem running_myproc (pagetable : PageTable) (p : Proc) :
    (Kernel.running pagetable p).myproc = p := by
  unfold Kernel.running Kernel.myproc
  rw [Fin.getElem_fin, Vector.getElem_replicate]

theorem running_sz (pagetable : PageTable) (sz : BitVec 64) :
    (Kernel.running pagetable (shell sz)).myproc.sz = sz := by
  rw [running_myproc]
  rfl

theorem sysSbrk_lazy {n : BitVec 32} (hn : ¬ n.toInt < 0)
    (hsz : ¬ s.myproc.sz + n.signExtend 64 < s.myproc.sz) : sysSbrk n 2 s =
      (.ok s.myproc.sz, { s with
        proc := s.proc.set s.current { s.myproc with sz := s.myproc.sz + n.signExtend 64 } }) := by
  unfold sysSbrk
  show (if (2 : BitVec 32) = SBRK_EAGER ∨ n.toInt < 0 then _ else if _ then _ else _ : K _) s = _
  rw [if_neg (not_or.mpr ⟨by decide, hn⟩), if_neg hsz]
  rfl

/-- Growing lazily has no bound but that of the type of sizes. -/
theorem Reachable.lazy {pagetable : PageTable} {sz : BitVec 64} (n : BitVec 32)
    (h : Reachable pagetable sz) (hn : ¬ n.toInt < 0) (hsz : ¬ sz + n.signExtend 64 < sz) :
    Reachable pagetable (sz + n.signExtend 64) := by
  obtain ⟨s, rfl, rfl⟩ : ∃ s : Kernel, s.pagetable = pagetable ∧ s.myproc.sz = sz :=
    ⟨.running pagetable (shell sz), rfl, running_sz pagetable sz⟩
  have hnext := h.sbrk (sysSbrk_lazy hn hsz)
  have hsz' : ({ s with
      proc := s.proc.set s.current { s.myproc with sz := s.myproc.sz + n.signExtend 64 } } :
        Kernel).myproc.sz = s.myproc.sz + n.signExtend 64 := by
    unfold Kernel.myproc
    rw [Fin.getElem_fin, Vector.getElem_set_self]
  rw [hsz'] at hnext
  exact hnext

theorem Reachable.lazily {pagetable : PageTable} (h : Reachable pagetable 12288) :
    ∀ {k : Nat}, k < 1024 → Reachable pagetable (BitVec.ofNat 64 (12288 + k * 2147483647))
  | 0, _ => h
  | k + 1, hk => by
      have hnext : BitVec.ofNat 64 (12288 + (k + 1) * 2147483647) =
          BitVec.ofNat 64 (12288 + k * 2147483647) + (2147483647 : BitVec 32).signExtend 64 := by
        rw [show 12288 + (k + 1) * 2147483647 = 12288 + k * 2147483647 + 2147483647 by omega,
          BitVec.ofNat_add]
        rfl
      rw [hnext]
      refine (h.lazily (by omega)).lazy _ (by decide) ?_
      rw [← hnext, BitVec.lt_def, BitVec.toNat_ofNat, BitVec.toNat_ofNat,
        Nat.mod_eq_of_lt (by omega), Nat.mod_eq_of_lt (by omega)]
      omega

/-- A program with a page of text: its guard page is the second one, its stack the third, and no
page follows. -/
theorem exec_text : ∃ pagetable, Reachable pagetable 12288 ∧
    (pteAt pagetable 4096).flags = 7 ∧ (pteAt pagetable 8192).flags = 23 ∧
      (pteAt pagetable 12288).flags = 0 := by
  have hexec : ((kexec zeroPage zeroPage [⟨true, 5, 0, 0, 4096, []⟩]
      (.running (fun _ => none) (shell 0))).1.toOption.bind id).any (fun p => decide (p.1 = 12288 ∧
        (pteAt p.2 4096).flags = 7 ∧ (pteAt p.2 8192).flags = 23 ∧
          (pteAt p.2 12288).flags = 0)) = true := by decide +kernel
  rcases hrun : kexec zeroPage zeroPage [⟨true, 5, 0, 0, 4096, []⟩]
      (.running (fun _ => none) (shell 0)) with
    ⟨_ | _ | ⟨sz, pagetable⟩, s'⟩
  · rw [hrun] at hexec
    exact absurd hexec Bool.false_ne_true
  · rw [hrun] at hexec
    exact absurd hexec Bool.false_ne_true
  · rw [hrun] at hexec
    obtain ⟨rfl, hflags⟩ := of_decide_eq_true hexec
    exact ⟨pagetable, .exec hrun, hflags⟩

/-- The process of `exec_text` after it grew lazily by two pages, marked or not. -/
theorem exec_lazy (mark : BitVec 32) : ∃ s : Kernel, Reachable s.pagetable s.myproc.sz ∧
    s.myproc.killed = mark ∧ ¬ Mapped s.pagetable 12288 ∧ Servable s 12288 := by
  obtain ⟨pagetable, hreachable, -, -, hflags⟩ := exec_text
  have hlazy : Reachable pagetable 20480 := hreachable.lazy 8192 (by decide) (by decide)
  have hinvalid : (pteAt pagetable 12288).valid = false := by
    unfold Pte.valid
    rw [hflags]
    decide
  have htables : missingTables pagetable 12288 < 100 := by
    have hpages : ∀ {T : Type} (table : Option T), pagesFor table ≤ 1 := by
      intro T table
      cases table with
      | none => exact Nat.le_refl 1
      | some _ => exact Nat.zero_le 1
    have h2 := hpages (pagetable (px 2 12288))
    have h1 := hpages (((pagetable (px 2 12288)).getD fun _ => none) (px 1 12288))
    unfold missingTables
    omega
  have hunmapped : ¬ Mapped pagetable 12288 := fun h =>
    Bool.false_ne_true (hinvalid.symm.trans h.2)
  obtain ⟨p, hsz, hkilled⟩ : ∃ p : Proc, p.sz = 20480 ∧ p.killed = mark :=
    ⟨{ shell 20480 with killed := mark }, rfl, rfl⟩
  have hp := running_myproc pagetable p
  refine ⟨.running pagetable p, ?_, ?_, hunmapped, ?_, hinvalid, htables⟩
  · rw [hp, hsz]
    exact hlazy
  · rw [hp, hkilled]
  · rw [hp, hsz]
    decide

/-- A load from the guard page kills the process, counts nothing and blames the address. -/
theorem guard_page_fault : ∃ s : Kernel, Reachable s.pagetable s.myproc.sz ∧
    ¬ UserMay s.pagetable 4096 true ∧
      usertrapPageFault 13 4096 false s = (.ok ⟨some false, false⟩, s.marked) ∧
        ¬ FaultHandled s 13 4096 false := by
  obtain ⟨pagetable, hreachable, hflags, -⟩ := exec_text
  have hkernel : KernelOnly pagetable 4096 true := by
    unfold KernelOnly Mapped Pte.valid
    rw [hflags]
    decide
  have hfault : ¬ UserMay pagetable 4096 true := fun h => h.2.1 hkernel.2.1
  have hviolates : violates pagetable 4096 true = false := by
    rw [← Bool.not_eq_true, violates_iff]
    exact fun h => hkernel.2.2 h.2
  obtain ⟨s, hpagetable, hsz⟩ : ∃ s : Kernel, s.pagetable = pagetable ∧ s.myproc.sz = 12288 :=
    ⟨.running pagetable (shell 12288), rfl, running_sz pagetable 12288⟩
  subst hpagetable
  have hvmfault : vmfault s.pagetable 4096 true s = (.ok false, s) := by
    rw [vmfault_mapped true (by rw [hsz]; decide) hkernel.1, hviolates]
    rfl
  refine ⟨s, ?_, hfault, ?_, fun h => ((faultHandled_iff hfault).mp h).2.1 hkernel⟩
  · rw [hsz]
    exact hreachable
  · rw [usertrapPageFault_refused 13 false hvmfault]
    exact congrArg (fun b => (Except.ok (FaultOutcome.mk (some b) false), s.marked)) hviolates

/-- A load beyond all page tables, in a process grown so far, makes the kernel panic. -/
theorem grown_fault_panics : ∃ s : Kernel, Reachable s.pagetable s.myproc.sz ∧
    ¬ UserMay s.pagetable MAXVA true ∧
      usertrapPageFault 13 MAXVA false s = (.error "walk", s) ∧
        ¬ FaultHandled s 13 MAXVA false := by
  obtain ⟨pagetable, hreachable, -⟩ := exec_text
  have hlazy := hreachable.lazily (show 129 < 1024 by decide)
  have hgrown : MAXVA < BitVec.ofNat 64 (12288 + 129 * 2147483647) := by decide
  generalize BitVec.ofNat 64 (12288 + 129 * 2147483647) = sz at hlazy hgrown
  have hfault : ¬ UserMay pagetable MAXVA true := fun h => absurd h.1.1 (by decide)
  obtain ⟨s, hpagetable, rfl⟩ : ∃ s : Kernel, s.pagetable = pagetable ∧ s.myproc.sz = sz :=
    ⟨.running pagetable (shell sz), rfl, running_sz pagetable sz⟩
  subst hpagetable
  refine ⟨s, hlazy, hfault, usertrapPageFault_panics hgrown (by decide), fun h => ?_⟩
  obtain ⟨hva, -⟩ := (faultHandled_iff hfault).mp h
  rcases hva with hva | hva
  · exact absurd hva (by decide)
  · exact absurd hgrown (BitVec.not_lt.mpr hva)

/-- A store that is served to a process that is marked: the page-in counts, and the process is
killed. -/
theorem marked_fault_counts : ∃ s s' : Kernel, Reachable s.pagetable s.myproc.sz ∧
    ¬ UserMay s.pagetable 12288 false ∧ s.myproc.killed = 1 ∧
      usertrapPageFault 15 12288 false s = (.ok ⟨none, false⟩, s') ∧ PagedIn s s' 12288 ∧
        ¬ FaultHandled s 15 12288 false := by
  obtain ⟨s, hreachable, hkilled, hunmapped, hserve⟩ := exec_lazy 1
  have hfault : ¬ UserMay s.pagetable 12288 false := fun h => hunmapped h.1
  have hmark : Marked s false := by
    left
    rw [hkilled]
    decide
  obtain ⟨s', ⟨hvmfault, hpaged, hsame, -⟩ | ⟨-, -, hnot⟩⟩ :=
    vmfault_unmapped false hserve.1 (by decide) hserve.2.1
  · have hrun := usertrapPageFault_served 15 false hvmfault hsame
    rw [decide_eq_false (not_not.mpr hmark)] at hrun
    exact ⟨s, s', hreachable, hfault, hkilled, hrun, hpaged,
      fun h => ((faultHandled_iff hfault).mp h).2.2 ⟨hmark, hserve⟩⟩
  · exact absurd hserve hnot

-- ============================================================================
-- The telemetry
-- ============================================================================

/-- In every reachable page table, for every load or store that faults: exactly one counter goes
up by one, the right one, the diagnostic is right and nothing panics, if and only if the address
has a place in page tables or lies beyond the process, its page is not one that only the kernel
may use with the permission that the access needs, and the fault is not one that is served to a
process that is marked. -/
theorem page_fault_telemetry (_hs : Reachable s.pagetable s.myproc.sz)
    (_hscause : scause = 13 ∨ scause = 15) (hfault : ¬ UserMay s.pagetable va (scause = 13)) :
    FaultHandled s scause va kkilled ↔
      (va < MAXVA ∨ s.myproc.sz ≤ va) ∧ ¬ KernelOnly s.pagetable va (scause = 13) ∧
        ¬ (Marked s kkilled ∧ Servable s va) :=
  faultHandled_iff hfault

/-- The first store to a page that the process grew by lazily. -/
theorem page_fault_telemetry_lazy : ∃ s : Kernel, Reachable s.pagetable s.myproc.sz ∧
    Servable s 12288 ∧ FaultHandled s 15 12288 false := by
  obtain ⟨s, hreachable, hkilled, hunmapped, hserve⟩ := exec_lazy 0
  refine ⟨s, hreachable, hserve, ?_⟩
  refine (page_fault_telemetry hreachable (.inr rfl) fun h => hunmapped h.1).mpr
    ⟨.inl (by decide), fun h => hunmapped h.1, fun h => ?_⟩
  rcases h.1 with hmark | hmark
  · exact hmark hkilled
  · exact absurd hmark Bool.false_ne_true

/-- A load from the guard page goes uncounted and is blamed on the address, a load beyond the
page tables panics, and a store that is served to a process that is marked counts as a page-in of
a process that is killed. -/
theorem page_fault_telemetry_fails :
    (∃ s : Kernel, Reachable s.pagetable s.myproc.sz ∧ ¬ UserMay s.pagetable 4096 true ∧
      usertrapPageFault 13 4096 false s = (.ok ⟨some false, false⟩, s.marked) ∧
        ¬ FaultHandled s 13 4096 false) ∧
    (∃ s : Kernel, Reachable s.pagetable s.myproc.sz ∧ ¬ UserMay s.pagetable MAXVA true ∧
      usertrapPageFault 13 MAXVA false s = (.error "walk", s) ∧
        ¬ FaultHandled s 13 MAXVA false) ∧
    ∃ s s' : Kernel, Reachable s.pagetable s.myproc.sz ∧ ¬ UserMay s.pagetable 12288 false ∧
      s.myproc.killed = 1 ∧
        usertrapPageFault 15 12288 false s = (.ok ⟨none, false⟩, s') ∧ PagedIn s s' 12288 ∧
          ¬ FaultHandled s 15 12288 false :=
  ⟨guard_page_fault, grown_fault_panics, marked_fault_counts⟩

end PassionProjects.Xv6Plus
