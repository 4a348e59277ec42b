/-
  PassionProjects.Xv6Plus.Kernel.UserMemory

  How a process comes by its memory: `kexec` (`kernel/exec.c`), `kfork` (`kernel/proc.c`) and
  `sys_sbrk` (`kernel/sysproc.c`), and the page tables that these lead to.
-/

import PassionProjects.Xv6Plus.Kernel.PageTables

namespace PassionProjects.Xv6Plus

open Raising Raising.Prog

def USERSTACK : BitVec 64 := 1

def SBRK_EAGER : BitVec 32 := 1

/-- The page that a user may reach at `va`. -/
def walkaddr (pagetable : PageTable) (va : BitVec 64) : K (Option Page) := do
  if MAXVA ≤ va then
    pure none
  else
    let (found, _) ← walk pagetable va false
    let pte := pteAt pagetable va
    if !found || pte.valid = false || pte.flags &&& PTE_U = 0 then
      pure none
    else
      pure (some pte.page)

-- ============================================================================
-- Ranges of pages
-- ============================================================================

/-- The loop of `uvmunmap` from `a` to `stop`. -/
def unmapLoop (stop : BitVec 64) (doFree : Bool) : Nat → BitVec 64 → PageTable → K PageTable
  | 0, _, pagetable => pure pagetable
  | turns + 1, a, pagetable =>
      if a < stop then do
        let (found, _) ← walk pagetable a false
        if found && (pteAt pagetable a).valid then do
          let _ ← if doFree then kfree else pure ()
          unmapLoop stop doFree turns (a + PGSIZE) (setPte pagetable a .zero)
        else
          unmapLoop stop doFree turns (a + PGSIZE) pagetable
      else
        pure pagetable

def uvmunmap (pagetable : PageTable) (va npages : BitVec 64) (doFree : Bool) : K PageTable := do
  check (va % PGSIZE = 0) "uvmunmap: not aligned"
  unmapLoop (va + npages * PGSIZE) doFree ((npages * PGSIZE).toNat / 4096) va pagetable

def uvmdealloc (pagetable : PageTable) (oldsz newsz : BitVec 64) : K (BitVec 64 × PageTable) := do
  if oldsz ≤ newsz then
    pure (oldsz, pagetable)
  else if pgroundup newsz < pgroundup oldsz then do
    -- the number of pages is an `int`
    let npages := ((pgroundup oldsz - pgroundup newsz) / PGSIZE).setWidth 32
    let pagetable ← uvmunmap pagetable (pgroundup newsz) (npages.signExtend 64) true
    pure (newsz, pagetable)
  else
    pure (newsz, pagetable)

/-- The loop of `uvmalloc` from `a`. -/
def allocLoop (oldsz newsz : BitVec 64) (xperm : BitVec 10) :
    Nat → BitVec 64 → PageTable → K (BitVec 64 × PageTable)
  | 0, _, pagetable => pure (newsz, pagetable)
  | turns + 1, a, pagetable =>
      if a < newsz then do
        if ← kalloc then do
          let (result, pagetable) ← mappages pagetable a zeroPage (PTE_R ||| PTE_U ||| xperm)
          if result ≠ 0 then do
            kfree
            let (_, pagetable) ← uvmdealloc pagetable a oldsz
            pure (0, pagetable)
          else
            allocLoop oldsz newsz xperm turns (a + PGSIZE) pagetable
        else do
          let (_, pagetable) ← uvmdealloc pagetable a oldsz
          pure (0, pagetable)
      else
        pure (newsz, pagetable)

/-- `uvmalloc`: the new size, or 0.  Every turn of its loop but the last takes a page. -/
def uvmalloc (pagetable : PageTable) (oldsz newsz : BitVec 64) (xperm : BitVec 10) :
    K (BitVec 64 × PageTable) := do
  if newsz < oldsz then
    pure (oldsz, pagetable)
  else
    let turns := (← Prog.read).freePages + 1
    allocLoop (pgroundup oldsz) newsz xperm turns (pgroundup oldsz) pagetable

/-- The loop of `uvmcopy` from `i`. -/
def copyLoop (old : PageTable) (sz : BitVec 64) : Nat → BitVec 64 → PageTable → K (Int × PageTable)
  | 0, _, new => pure (0, new)
  | turns + 1, i, new =>
      if i < sz then do
        let (found, _) ← walk old i false
        if found && (pteAt old i).valid then do
          if ← kalloc then do
            let (result, new) ← mappages new i (pteAt old i).page (pteAt old i).flags
            if result ≠ 0 then do
              kfree
              let new ← uvmunmap new 0 (i / PGSIZE) true
              pure (-1, new)
            else
              copyLoop old sz turns (i + PGSIZE) new
          else do
            let new ← uvmunmap new 0 (i / PGSIZE) true
            pure (-1, new)
        else
          copyLoop old sz turns (i + PGSIZE) new
      else
        pure (0, new)

def uvmcopy (old new : PageTable) (sz : BitVec 64) : K (Int × PageTable) :=
  copyLoop old sz (sz.toNat / 4096 + 1) 0 new

def uvmclear (pagetable : PageTable) (va : BitVec 64) : K PageTable := do
  let (found, _) ← walk pagetable va false
  check (found = true) "uvmclear"
  let pte := pteAt pagetable va
  pure (setPte pagetable va { pte with flags := pte.flags &&& ~~~PTE_U })

-- ============================================================================
-- Processes
-- ============================================================================

/-- `proc_pagetable`, with what is in the trampoline and the trapframe. -/
def procPagetable (trampoline trapframe : Page) : K (Option PageTable) := do
  if ← kalloc then do
    let (result, pagetable) ← mappages (fun _ => none) TRAMPOLINE trampoline (PTE_R ||| PTE_X)
    if result < 0 then
      pure none
    else do
      let (result, pagetable) ← mappages pagetable TRAPFRAME trapframe (PTE_R ||| PTE_W)
      if result < 0 then pure none else pure (some pagetable)
  else
    pure none

def flags2perm (flags : BitVec 32) : BitVec 10 :=
  (if flags &&& 1 ≠ 0 then PTE_X else 0) ||| (if flags &&& 2 ≠ 0 then PTE_W else 0)

/-- `struct proghdr`, and the bytes of the file from its offset on. -/
structure Proghdr where
  load : Bool
  flags : BitVec 32
  vaddr : BitVec 64
  filesz : BitVec 64
  memsz : BitVec 64
  bytes : List (BitVec 8)

/-- `page` with `bytes` at its start. -/
def Page.load (page : Page) (bytes : List (BitVec 8)) : Page := fun offset =>
  bytes.getD offset.toNat (page offset)

/-- The loop of `loadseg`: `va` and the bytes that are left, `sz` of them. -/
def loadLoop : Nat → BitVec 64 → Nat → List (BitVec 8) → PageTable → K (Int × PageTable)
  | 0, _, _, _, pagetable => pure (0, pagetable)
  | turns + 1, va, sz, bytes, pagetable =>
      if 0 < sz then do
        match ← walkaddr pagetable va with
        | none => raise "loadseg: address should exist"
        | some page =>
            let n := min sz 4096
            let pagetable :=
              setPte pagetable va { pteAt pagetable va with page := page.load (bytes.take n) }
            if bytes.length < n then
              pure (-1, pagetable)
            else
              loadLoop turns (va + PGSIZE) (sz - n) (bytes.drop n) pagetable
      else
        pure (0, pagetable)

/-- `loadseg`, with its size a `uint`. -/
def loadseg (pagetable : PageTable) (ph : Proghdr) : K (Int × PageTable) :=
  let sz := (ph.filesz.setWidth 32).toNat
  loadLoop (sz / 4096 + 1) ph.vaddr sz ph.bytes pagetable

/-- `kexec`, the program's segments. -/
def loadProgram : List Proghdr → BitVec 64 → PageTable → K (Option (BitVec 64 × PageTable))
  | [], sz, pagetable => pure (some (sz, pagetable))
  | ph :: phs, sz, pagetable =>
      if ph.load = false then
        loadProgram phs sz pagetable
      else if ph.memsz < ph.filesz ∨ ph.vaddr + ph.memsz < ph.vaddr ∨ ph.vaddr % PGSIZE ≠ 0 then
        pure none
      else do
        let (sz1, pagetable) ← uvmalloc pagetable sz (ph.vaddr + ph.memsz) (flags2perm ph.flags)
        if sz1 = 0 then
          pure none
        else do
          let (result, pagetable) ← loadseg pagetable ph
          if result < 0 then pure none else loadProgram phs sz1 pagetable

/-- `kexec`: the page table and the size that it commits to, before the arguments are on the
stack. -/
def kexec (trampoline trapframe : Page) (phs : List Proghdr) :
    K (Option (BitVec 64 × PageTable)) := do
  match ← procPagetable trampoline trapframe with
  | none => pure none
  | some pagetable =>
      match ← loadProgram phs 0 pagetable with
      | none => pure none
      | some (sz, pagetable) =>
          let sz := pgroundup sz
          let (sz1, pagetable) ← uvmalloc pagetable sz (sz + (USERSTACK + 1) * PGSIZE) PTE_W
          if sz1 = 0 then
            pure none
          else do
            let pagetable ← uvmclear pagetable (sz1 - (USERSTACK + 1) * PGSIZE)
            pure (some (sz1, pagetable))

/-- `kfork`: the page table of the child. -/
def kfork (trampoline trapframe : Page) : K (Option PageTable) := do
  match ← procPagetable trampoline trapframe with
  | none => pure none
  | some new =>
      let s ← Prog.read
      let (result, new) ← uvmcopy s.pagetable new s.myproc.sz
      if result < 0 then pure none else pure (some new)

def growproc (n : BitVec 32) : K Int := do
  let s ← Prog.read
  let sz := s.myproc.sz
  if 0 < n.toInt then do
    let (sz, pagetable) ← uvmalloc s.pagetable sz (sz + n.signExtend 64) PTE_W
    modify fun s => { s with pagetable := pagetable }
    if sz = 0 then
      pure (-1)
    else do
      modifyProc fun p => { p with sz := sz }
      pure 0
  else if n.toInt < 0 then do
    let (sz, pagetable) ← uvmdealloc s.pagetable sz (sz + n.signExtend 64)
    modify fun s => { s with pagetable := pagetable }
    modifyProc fun p => { p with sz := sz }
    pure 0
  else
    pure 0

def sysSbrk (n t : BitVec 32) : K (BitVec 64) := do
  let addr := (← Prog.read).myproc.sz
  if t = SBRK_EAGER ∨ n.toInt < 0 then do
    let result ← growproc n
    if result < 0 then pure (-1) else pure addr
  else if addr + n.signExtend 64 < addr then
    pure (-1)
  else do
    modifyProc fun p => { p with sz := p.sz + n.signExtend 64 }
    pure addr

-- ============================================================================
-- Reachable page tables
-- ============================================================================

/-- The page tables and sizes that a process may have.  Between two of these steps other
processes run, with the memory and the process table that they leave. -/
inductive Reachable : PageTable → BitVec 64 → Prop where
  | exec {s s' : Kernel} {trampoline trapframe : Page} {phs : List Proghdr} {sz : BitVec 64}
      {pagetable : PageTable}
      (h : kexec trampoline trapframe phs s = (.ok (some (sz, pagetable)), s')) :
      Reachable pagetable sz
  | fork {s s' : Kernel} {trampoline trapframe : Page} {pagetable : PageTable}
      (hs : Reachable s.pagetable s.myproc.sz)
      (h : kfork trampoline trapframe s = (.ok (some pagetable), s')) :
      Reachable pagetable s.myproc.sz
  | sbrk {s s' : Kernel} {n t : BitVec 32} {result : BitVec 64}
      (hs : Reachable s.pagetable s.myproc.sz) (h : sysSbrk n t s = (.ok result, s')) :
      Reachable s'.pagetable s'.myproc.sz
  | fault {s s' : Kernel} {va : BitVec 64} {read result : Bool}
      (hs : Reachable s.pagetable s.myproc.sz)
      (h : vmfault s.pagetable va read s = (.ok result, s')) :
      Reachable s'.pagetable s'.myproc.sz
  /-- A store to the page of `va`, such as that of `kexec`'s arguments. -/
  | store {pagetable : PageTable} {sz va : BitVec 64} {page : Page} (hs : Reachable pagetable sz) :
      Reachable (setPte pagetable va { pteAt pagetable va with page := page }) sz

end PassionProjects.Xv6Plus
