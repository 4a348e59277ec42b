/-
  PassionProjects.Xv6Plus.Kernel.Xvstat

  The system call `xvstat` (`kernel/sysproc.c`, `kernel/proc.c`), which copies a struct on the
  kernel stack to the user, and what is left of the stack in that struct.
-/

import PassionProjects.Xv6Plus.Kernel.CopyOut

namespace PassionProjects.Xv6Plus

open Raising Raising.Prog

def XV_NAMESZ : Nat := 16

/-- `struct xv_pstat`.  Its layout has no padding, so that whatever was on the stack is a value. -/
structure XvPstat where
  pid : BitVec 32
  state : BitVec 32
  sz : BitVec 64
  runticks : BitVec 64
  waitticks : BitVec 64
  syscalls : BitVec 64
  name : Vector (BitVec 8) XV_NAMESZ
  tickets : BitVec 64
  selections : BitVec 64
  pagefaults : BitVec 64
  pagefaultsFailed : BitVec 64

/-- The bytes of a little-endian number. -/
def bytesOf {w : Nat} (len : Nat) (x : BitVec w) : List (BitVec 8) :=
  (List.range len).map fun i => x.extractLsb' (8 * i) 8

/-- The struct in memory. -/
def XvPstat.bytes (st : XvPstat) : List (BitVec 8) :=
  bytesOf 4 st.pid ++ bytesOf 4 st.state ++ bytesOf 8 st.sz ++ bytesOf 8 st.runticks ++
    bytesOf 8 st.waitticks ++ bytesOf 8 st.syscalls ++ st.name.toList ++ bytesOf 8 st.tickets ++
    bytesOf 8 st.selections ++ bytesOf 8 st.pagefaults ++ bytesOf 8 st.pagefaultsFailed

/-- The loop of `safestrcpy` and the byte after it: `n` bytes may follow, and what is in `s` and in
`t` from here on. -/
def safestrcpyLoop : Nat → List (BitVec 8) → List (BitVec 8) → List (BitVec 8)
  | 0, s, _ => s.set 0 0
  | _ + 1, [], _ => []
  | _ + 1, _ :: s, [] => 0 :: s
  | n + 1, _ :: s, c :: t => c :: if c = 0 then s.set 0 0 else safestrcpyLoop n s t

/-- `safestrcpy`: what is then in `s`. -/
def safestrcpy (s t : List (BitVec 8)) (n : Nat) : List (BitVec 8) :=
  if n = 0 then s else safestrcpyLoop (n - 1) s t

theorem length_safestrcpyLoop : ∀ (n : Nat) (s t : List (BitVec 8)),
    (safestrcpyLoop n s t).length = s.length
  | 0, _, _ => List.length_set
  | _ + 1, [], _ => rfl
  | _ + 1, _ :: _, [] => rfl
  | n + 1, _ :: s, c :: t => by
      rw [safestrcpyLoop, List.length_cons, List.length_cons]
      by_cases hc : c = 0
      · rw [if_pos hc, List.length_set]
      · rw [if_neg hc, length_safestrcpyLoop n s t]

theorem length_safestrcpy (s t : List (BitVec 8)) (n : Nat) :
    (safestrcpy s t n).length = s.length := by
  unfold safestrcpy
  by_cases hn : n = 0
  · rw [if_pos hn]
  · rw [if_neg hn, length_safestrcpyLoop]

/-- What `procstat` stores in the struct at `out` of the entry `p`. -/
def snapshot (p : Proc) (out : XvPstat) : XvPstat :=
  { out with
    pid := p.pid
    state := p.state.value
    sz := p.sz
    runticks := p.runticks
    waitticks := p.waitticks
    syscalls := p.syscallCount
    name := ⟨⟨safestrcpy out.name.toList p.name.toList XV_NAMESZ⟩, by
      rw [List.size_toArray, length_safestrcpy, Vector.length_toList]⟩
    tickets := p.tickets.signExtend 64
    selections := p.schedSelections
    pagefaults := p.pagefaults
    pagefaultsFailed := p.pagefaultsFailed }

/-- `procstat`: the struct at `out` then, if it returns 0. -/
def procstat (idx : Int) (out : XvPstat) : K (Option XvPstat) := do
  if h : 0 ≤ idx ∧ idx < NPROC then
    let p := (← Prog.read).proc.get ⟨idx.toNat, (Int.toNat_lt h.1).mpr h.2⟩
    pure (some (snapshot p out))
  else
    pure none

/-- `sys_xvstat`, with what the kernel stack has where `st` comes to lie. -/
def sysXvstat (idx : Int) (addr : BitVec 64) (stack : XvPstat) : K Int := do
  match ← procstat idx stack with
  | none => pure (-1)
  | some st =>
      if (← copyout addr st.bytes) < 0 then pure (-1) else pure 0

-- ============================================================================
-- What is left of the stack
-- ============================================================================

/-- Without an end of the string before the last two bytes, every byte is written. -/
theorem safestrcpyLoop_determined : ∀ {n : Nat} {s s' t : List (BitVec 8)},
    s.length = n + 1 → s'.length = n + 1 → n ≤ t.length → (∀ c ∈ t.take (n - 1), c ≠ 0) →
      safestrcpyLoop n s t = safestrcpyLoop n s' t
  | 0, [_], [_], _, _, _, _, _ => rfl
  | n + 1, _ :: s, _ :: s', c :: t, hs, hs', ht, hzero => by
      rw [safestrcpyLoop, safestrcpyLoop]
      rw [List.length_cons, Nat.add_right_cancel_iff] at hs hs'
      rw [List.length_cons, Nat.add_le_add_iff_right] at ht
      cases n with
      | zero =>
          obtain ⟨a, rfl⟩ := List.length_eq_one_iff.mp hs
          obtain ⟨b, rfl⟩ := List.length_eq_one_iff.mp hs'
          rfl
      | succ n =>
          rw [Nat.add_sub_cancel, List.take_succ_cons] at hzero
          have hc := hzero c List.mem_cons_self
          rw [if_neg hc, if_neg hc, safestrcpyLoop_determined hs hs' ht]
          exact fun d hd => hzero d (List.mem_cons_of_mem c hd)

/-- After the end of the string only one byte more is written. -/
theorem safestrcpyLoop_last : ∀ {n : Nat} {s t : List (BitVec 8)}, s.length = n + 1 →
    n ≤ t.length → (∃ c ∈ t.take (n - 1), c = 0) → (safestrcpyLoop n s t)[n]? = s[n]?
  | 0, _, _, _, _, ⟨c, hc, _⟩ => absurd hc List.not_mem_nil
  | n + 1, _ :: s, c :: t, hs, ht, hzero => by
      rw [safestrcpyLoop, List.getElem?_cons_succ, List.getElem?_cons_succ]
      rw [List.length_cons, Nat.add_right_cancel_iff] at hs
      rw [List.length_cons, Nat.add_le_add_iff_right] at ht
      obtain ⟨d, hd, hzero⟩ := hzero
      cases n with
      | zero => exact absurd hd List.not_mem_nil
      | succ n =>
          by_cases hc : c = 0
          · rw [if_pos hc, List.getElem?_set_ne (Nat.succ_ne_zero n).symm]
          · rw [if_neg hc, safestrcpyLoop_last hs ht]
            rw [Nat.add_sub_cancel, List.take_succ_cons] at hd
            rcases List.mem_cons.mp hd with rfl | hd
            · exact absurd hzero hc
            · exact ⟨d, hd, hzero⟩

theorem length_bytesOf {w : Nat} (len : Nat) (x : BitVec w) : (bytesOf len x).length = len := by
  unfold bytesOf
  rw [List.length_map, List.length_range]

theorem XvPstat.length_bytes (st : XvPstat) : st.bytes.length = 88 := by
  unfold XvPstat.bytes
  simp only [List.length_append, length_bytesOf, Vector.length_toList]
  rfl

/-- Where the last byte of the name is. -/
theorem XvPstat.bytes_last (st : XvPstat) : st.bytes[55]? = st.name.toList[15]? := by
  unfold XvPstat.bytes
  simp only [List.append_assoc, List.getElem?_append, length_bytesOf, Vector.length_toList]
  rfl

variable {s : Kernel} {idx : Int} {addr : BitVec 64}

/-- The entry that `procstat` looks at. -/
def entryAt (s : Kernel) (idx : Int) : Option Proc := if 0 ≤ idx then s.proc[idx.toNat]? else none

theorem procstat_eq (idx : Int) (out : XvPstat) :
    procstat idx out s = (.ok ((entryAt s idx).map (snapshot · out)), s) := by
  unfold procstat entryAt
  by_cases hidx : 0 ≤ idx ∧ idx < NPROC
  · rw [dif_pos hidx, if_pos hidx.1, Vector.getElem?_eq_getElem ((Int.toNat_lt hidx.1).mpr hidx.2)]
    rfl
  · rw [dif_neg hidx]
    by_cases hneg : 0 ≤ idx
    · rw [if_pos hneg, Vector.getElem?_eq_none (by omega)]
      rfl
    · rw [if_neg hneg]
      rfl

theorem sysXvstat_none (h : entryAt s idx = none) (stack : XvPstat) :
    sysXvstat idx addr stack s = (.ok (-1), s) := by
  have hprocstat := procstat_eq idx stack (s := s)
  rw [h] at hprocstat
  exact bind_ok hprocstat

theorem sysXvstat_some {p : Proc} (h : entryAt s idx = some p) (stack : XvPstat) :
    sysXvstat idx addr stack s =
      (copyout addr (snapshot p stack).bytes >>= fun result =>
        if result < 0 then pure (-1) else pure 0 : K Int) s := by
  have hprocstat := procstat_eq idx stack (s := s)
  rw [h] at hprocstat
  exact bind_ok hprocstat

/-- What the program has at the last byte of the name is what `safestrcpy` left there. -/
theorem sysXvstat_last {p : Proc} (h : entryAt s idx = some p)
    (haddr : Writable s.pagetable addr 88) (stack : XvPstat) :
    some (byteAt (sysXvstat idx addr stack s).2.pagetable (addr + 55)) =
      (safestrcpy stack.name.toList p.name.toList XV_NAMESZ)[15]? := by
  have hlength := (snapshot p stack).length_bytes
  obtain ⟨pagetable', hrun, hwrote⟩ :=
    copyout_spec addr (snapshot p stack).bytes (by rw [hlength]; exact haddr)
  have hleft : (sysXvstat idx addr stack s).2.pagetable = pagetable' := by
    rw [sysXvstat_some h, bind_ok hrun]
    rfl
  have hfirst := (haddr 0 (by decide)).1.1
  rw [BitVec.add_zero, BitVec.lt_def, toNat_maxva] at hfirst
  have hbyte := hwrote.byteAt (show 55 < _ by rw [hlength]; decide) (haddr 55 (by decide)).1.1
    (by omega)
  rw [hleft]
  exact (congrArg some hbyte).trans
    ((List.getElem?_eq_getElem _).symm.trans (snapshot p stack).bytes_last)

/-- The stack page of a process. -/
theorem stack_writable {pagetable : PageTable} (h : (pteAt pagetable 8192).flags = 23) :
    Writable pagetable 8192 88 := by
  intro i hi
  have hpage : (8192 : BitVec 64).toNat = 8192 := rfl
  have hat : (8192 + BitVec.ofNat 64 i).toNat = 8192 + i := by
    rw [BitVec.toNat_add, BitVec.toNat_ofNat, Nat.mod_eq_of_lt (show i < 2 ^ 64 by omega)]
    exact Nat.mod_eq_of_lt (by omega)
  have hva : 8192 + BitVec.ofNat 64 i < MAXVA := by
    rw [BitVec.lt_def, hat, toNat_maxva]
    omega
  have hsame : SamePage 8192 (8192 + BitVec.ofNat 64 i) := by
    rw [samePage_iff (by decide) hva, hat, hpage]
    exact (Nat.div_eq_of_lt_le (by omega) (by omega)).symm
  have hentry : pteAt pagetable 8192 = pteAt pagetable _ := pteAt_congr hsame
  unfold UserMay Mapped Pte.valid
  rw [← hentry, h]
  exact ⟨⟨hva, by decide⟩, by decide⟩

/-- A stack with nothing but `b` where the name will be. -/
def stackOf (b : BitVec 8) : XvPstat := ⟨0, 0, 0, 0, 0, 0, Vector.replicate XV_NAMESZ b, 0, 0, 0, 0⟩

/-- The last byte of a name that ends early is that of the stack. -/
theorem sysXvstat_leaks {p : Proc} (h : entryAt s idx = some p)
    (haddr : Writable s.pagetable addr 88) (hname : ∃ c ∈ p.name.toList.take 14, c = 0) :
    sysXvstat idx addr (stackOf 0) s ≠ sysXvstat idx addr (stackOf 1) s := by
  have hlast : ∀ b, some (byteAt (sysXvstat idx addr (stackOf b) s).2.pagetable (addr + 55)) =
      some b := fun b => by
    rw [sysXvstat_last h haddr]
    refine (safestrcpyLoop_last (n := 15) ?_ ?_ hname).trans ?_
    · rw [Vector.length_toList]
      rfl
    · rw [Vector.length_toList]
      decide
    · rfl
  intro hsame
  have hzero := hlast 0
  rw [hsame, hlast 1] at hzero
  exact absurd hzero (by decide)

/-- Whatever the kernel stack had, the call returns the same and leaves the same memory, if and
only if no entry is looked at or the name there does not end before its last two bytes. -/
theorem xvstat_leaks_nothing (haddr : Writable s.pagetable addr 88) :
    (∀ stack stack', sysXvstat idx addr stack s = sysXvstat idx addr stack' s) ↔
      ∀ p, entryAt s idx = some p → ∀ c ∈ p.name.toList.take 14, c ≠ 0 := by
  constructor
  · intro hsame p hp c hc hzero
    exact sysXvstat_leaks hp haddr ⟨c, hc, hzero⟩ (hsame _ _)
  · intro hname stack stack'
    cases hp : entryAt s idx with
    | none => rw [sysXvstat_none hp, sysXvstat_none hp]
    | some p =>
        have hcopied : safestrcpy stack.name.toList p.name.toList XV_NAMESZ =
            safestrcpy stack'.name.toList p.name.toList XV_NAMESZ :=
          safestrcpyLoop_determined (n := 15) Vector.length_toList Vector.length_toList
            (by rw [Vector.length_toList]; decide) (hname p hp)
        have hsnapshot : snapshot p stack = snapshot p stack' := by
          unfold snapshot
          simp only [hcopied]
        rw [sysXvstat_some hp, sysXvstat_some hp, hsnapshot]

/-- A process whose name has 15 letters. -/
theorem xvstat_leaks_nothing_long : ∃ s : Kernel, Writable s.pagetable 8192 88 ∧
    entryAt s 3 ≠ none ∧
      ∀ stack stack', sysXvstat 3 8192 stack s = sysXvstat 3 8192 stack' s := by
  obtain ⟨pagetable, -, -, hflags, -⟩ := exec_text
  have haddr := stack_writable hflags
  let p : Proc := { shell 12288 with name := (Vector.replicate 15 97).push 0 }
  have hentry : entryAt (.running pagetable p) 3 = some p := rfl
  refine ⟨.running pagetable p, haddr, by rw [hentry]; exact nofun, ?_⟩
  refine (xvstat_leaks_nothing haddr).mpr fun q hq c hc => ?_
  rw [hentry] at hq
  obtain rfl := Option.some.inj hq
  revert c
  decide

/-- A process by the name of `sh`. -/
theorem xvstat_leaks : ∃ s : Kernel, Reachable s.pagetable s.myproc.sz ∧
    Writable s.pagetable 8192 88 ∧ entryAt s 3 = some (shell 12288) ∧
      ∃ stack stack', sysXvstat 3 8192 stack s ≠ sysXvstat 3 8192 stack' s := by
  obtain ⟨pagetable, hreachable, -, hflags, -⟩ := exec_text
  have haddr := stack_writable hflags
  have hentry : entryAt (.running pagetable (shell 12288)) 3 = some (shell 12288) := rfl
  refine ⟨.running pagetable (shell 12288), ?_, haddr, hentry, stackOf 0, stackOf 1, ?_⟩
  · rw [running_sz]
    exact hreachable
  · exact sysXvstat_leaks hentry haddr ⟨0, by decide, rfl⟩

end PassionProjects.Xv6Plus
