/-
  PassionProjects.Xv6Plus.Kernel.Vm

  User page tables (`kernel/vm.c`): three levels of tables, whose leaves hold the page that
  they point to.  What a physical address stands for is the page, and the free list is as
  long as there are free pages.
-/

import Mathlib.Logic.Function.Basic
import PassionProjects.Lib.Raising
import PassionProjects.Xv6Plus.Kernel.Lottery

namespace PassionProjects.Xv6Plus

open Raising Raising.Prog

def PGSIZE : BitVec 64 := 4096

def MAXVA : BitVec 64 := 1 <<< (9 + 9 + 9 + 12 - 1)

def TRAMPOLINE : BitVec 64 := MAXVA - PGSIZE

def TRAPFRAME : BitVec 64 := TRAMPOLINE - PGSIZE

def PTE_V : BitVec 10 := 1

def PTE_R : BitVec 10 := 1 <<< 1

def PTE_W : BitVec 10 := 1 <<< 2

def PTE_X : BitVec 10 := 1 <<< 3

def PTE_U : BitVec 10 := 1 <<< 4

def pgroundup (sz : BitVec 64) : BitVec 64 := (sz + PGSIZE - 1) &&& ~~~(PGSIZE - 1)

def pgrounddown (a : BitVec 64) : BitVec 64 := a &&& ~~~(PGSIZE - 1)

/-- `PX(level, va)` -/
def px (level : Nat) (va : BitVec 64) : BitVec 9 := va.extractLsb' (12 + 9 * level) 9

abbrev Page := BitVec 12 → BitVec 8

def zeroPage : Page := fun _ => 0

/-- A leaf entry: its flags, and the page at its address. -/
structure Pte where
  flags : BitVec 10
  page : Page

def Pte.zero : Pte := ⟨0, zeroPage⟩

abbrev Table0 := BitVec 9 → Pte

/-- Entries that are not valid have no table. -/
abbrev Table1 := BitVec 9 → Option Table0

abbrev PageTable := BitVec 9 → Option Table1

/-- The free pages, the process table, and which process runs with which page table. -/
structure Kernel where
  freePages : Nat
  proc : ProcTable
  current : Fin NPROC
  pagetable : PageTable

/-- Kernel code, which may panic. -/
abbrev K := Prog String Kernel

def Kernel.myproc (s : Kernel) : Proc := s.proc[s.current]

theorem Kernel.current_lt (s : Kernel) : s.current < NPROC := s.current.isLt

/-- Changes the fields of the process that runs. -/
def modifyProc (f : Proc → Proc) : K Unit :=
  modify fun s => { s with proc := s.proc.set s.current (f s.myproc) }

/-- `kalloc`: whether there was a page. -/
def kalloc : K Bool := fun s =>
  if s.freePages = 0 then (.ok false, s) else (.ok true, { s with freePages := s.freePages - 1 })

def kfree : K Unit := modify fun s => { s with freePages := s.freePages + 1 }

-- ============================================================================
-- Entries
-- ============================================================================

/-- One level of `walk`: the next table, which may be a new one, and this one. -/
def descend {T : Type} (table : BitVec 9 → Option T) (index : BitVec 9) (empty : T)
    (alloc : Bool) : K (Option (T × (BitVec 9 → Option T))) :=
  match table index with
  | some next => pure (some (next, table))
  | none =>
      if alloc then do
        if ← kalloc then
          pure (some (empty, Function.update table index (some empty)))
        else
          pure none
      else
        pure none

/-- `walk`: whether it found an entry, and the table, where it may have made new tables. -/
def walk (pagetable : PageTable) (va : BitVec 64) (alloc : Bool) : K (Bool × PageTable) := do
  check (va < MAXVA) "walk"
  match ← descend pagetable (px 2 va) (fun _ => none) alloc with
  | none => pure (false, pagetable)
  | some (table1, pagetable) =>
      match ← descend table1 (px 1 va) (fun _ => Pte.zero) alloc with
      | none => pure (false, pagetable)
      | some (_, table1) => pure (true, Function.update pagetable (px 2 va) (some table1))

/-- The entry that `walk` finds; without one it is as if it were zero. -/
def pteAt (pagetable : PageTable) (va : BitVec 64) : Pte :=
  match pagetable (px 2 va) with
  | none => .zero
  | some table1 =>
      match table1 (px 1 va) with
      | none => .zero
      | some table0 => table0 (px 0 va)

/-- Stores an entry that `walk` found. -/
def setPte (pagetable : PageTable) (va : BitVec 64) (pte : Pte) : PageTable :=
  match pagetable (px 2 va) with
  | none => pagetable
  | some table1 =>
      match table1 (px 1 va) with
      | none => pagetable
      | some table0 =>
          Function.update pagetable (px 2 va)
            (some (Function.update table1 (px 1 va) (some (Function.update table0 (px 0 va) pte))))

def Pte.valid (pte : Pte) : Bool := pte.flags &&& PTE_V ≠ 0

/-- `mappages` for one page: its result, and the table. -/
def mappages (pagetable : PageTable) (va : BitVec 64) (page : Page) (perm : BitVec 10) :
    K (Int × PageTable) := do
  check (va % PGSIZE = 0) "mappages: va not aligned"
  let (found, pagetable) ← walk pagetable va true
  if found then do
    check ((pteAt pagetable va).valid = false) "mappages: remap"
    pure (0, setPte pagetable va ⟨perm ||| PTE_V, page⟩)
  else
    pure (-1, pagetable)

def ismapped (pagetable : PageTable) (va : BitVec 64) : K Bool := do
  let (found, _) ← walk pagetable va false
  pure (found && (pteAt pagetable va).valid)

/-- `vm_permission_violation` -/
def vmPermissionViolation (pagetable : PageTable) (va : BitVec 64) (read : Bool) : K Bool := do
  let va := pgrounddown va
  if MAXVA ≤ va then
    pure false
  else
    let (found, _) ← walk pagetable va false
    if !found || (pteAt pagetable va).valid = false then
      pure false
    else
      let needed := if read then PTE_R else PTE_W
      pure (decide ((pteAt pagetable va).flags &&& needed = 0))

def countFailure : K Unit :=
  modifyProc fun p => { p with pagefaultsFailed := p.pagefaultsFailed + 1 }

/-- The end of `vmfault`, with a new page for `va` or without. -/
def mapFresh (va : BitVec 64) (page : Bool) : K Bool := do
  if page then do
    let (result, pagetable) ←
      mappages (← Prog.read).pagetable va zeroPage (PTE_W ||| PTE_U ||| PTE_R)
    modify fun s => { s with pagetable := pagetable }
    if result ≠ 0 then do
      kfree
      countFailure
      pure false
    else do
      modifyProc fun p => { p with pagefaults := p.pagefaults + 1 }
      pure true
  else do
    countFailure
    pure false

/-- `vmfault`: whether it returns an address. -/
def vmfault (pagetable : PageTable) (va : BitVec 64) (read : Bool) : K Bool := do
  let p := (← Prog.read).myproc
  if p.sz ≤ va then do
    countFailure
    pure false
  else do
    let va := pgrounddown va
    if ← ismapped pagetable va then do
      if ← vmPermissionViolation pagetable va read then do
        countFailure
        pure false
      else
        pure false
    else do
      mapFresh va (← kalloc)

-- ============================================================================
-- The trap
-- ============================================================================

/-- How `usertrap` leaves a page fault: what it says of one that is not served, that it is a
permission violation or not, and whether the process goes back to user space. -/
structure FaultOutcome where
  diagnostic : Option Bool
  goesOn : Bool
  deriving DecidableEq

def setkilled : K Unit := modifyProc fun p => { p with killed := 1 }

def killed : K Bool := do
  pure (decide ((← Prog.read).myproc.killed ≠ 0))

/-- The branch of `usertrap` for page faults, with `scause` 13 for a load: the diagnostic. -/
def servePageFault (scause : Nat) (stval : BitVec 64) : K (Option Bool) := do
  let isload := decide (scause = 13)
  if ← vmfault (← Prog.read).pagetable stval isload then
    pure none
  else do
    let violation ← vmPermissionViolation (← Prog.read).pagetable stval isload
    setkilled
    pure (some violation)

/-- The end of `usertrap`.  `kkilled` says whether another hart's `kkill` came before it. -/
def leaveTrap (diagnostic : Option Bool) (kkilled : Bool) : K FaultOutcome := do
  (if kkilled then setkilled else pure ())
  if ← killed then
    -- `kexit(-1)`, which does not return
    pure { diagnostic, goesOn := false }
  else
    pure { diagnostic, goesOn := true }

/-- `usertrap` with a page fault. -/
def usertrapPageFault (scause : Nat) (stval : BitVec 64) (kkilled : Bool) : K FaultOutcome := do
  leaveTrap (← servePageFault scause stval) kkilled

end PassionProjects.Xv6Plus
