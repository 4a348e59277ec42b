/-
  PassionProjects.Xv6Plus.Kernel.Lottery

  The process table (`kernel/proc.h`), and the lottery draw (`kernel/proc.c`) for a table that
  does not change during it.
-/

import Mathlib.Data.List.Basic
import PassionProjects.Lib.XorLinear

namespace PassionProjects.Xv6Plus

def NPROC : Nat := 64

/-- `enum procstate` -/
inductive ProcState where
  | unused
  | used
  | sleeping
  | runnable
  | running
  | zombie
  deriving DecidableEq

/-- The value of the enumerator. -/
def ProcState.value : ProcState → BitVec 32
  | .unused => 0
  | .used => 1
  | .sleeping => 2
  | .runnable => 3
  | .running => 4
  | .zombie => 5

/-- `struct proc`, the fields that are kept for a process and not for its kernel thread. -/
structure Proc where
  state : ProcState
  killed : BitVec 32
  pid : BitVec 32
  sz : BitVec 64
  name : Vector (BitVec 8) 16
  traceMask : BitVec 32
  runticks : BitVec 64
  waitticks : BitVec 64
  syscallCount : BitVec 64
  tickets : BitVec 32
  schedSelections : BitVec 64
  pagefaults : BitVec 64
  pagefaultsFailed : BitVec 64

abbrev ProcTable := Vector Proc NPROC

def SCHED_RNG_SEED : BitVec 32 := 2463534242

def SCHED_MAX_TICKETS : Int := 100000

/-- `lottery_rand`, which stores what it returns. -/
def lotteryRand (rngState : BitVec 32) : BitVec 32 :=
  let rngState := rngState ^^^ (rngState <<< 13)
  let rngState := rngState ^^^ (rngState >>> 17)
  rngState ^^^ (rngState <<< 5)

/-- `runnable_ticket_total` -/
def runnableTicketTotal (proc : ProcTable) : BitVec 64 :=
  proc.toList.foldl (fun total p =>
    if p.state = .runnable then total + p.tickets.signExtend 64 else total) 0

/-- `run_selected`, up to the switch. -/
def runSelected (p : Proc) : Proc :=
  { p with state := .running, schedSelections := p.schedSelections + 1 }

/-- The walk of `draw_and_run` from a slot on: the slot whose process is run. -/
def walkTable (winner : BitVec 64) : List Proc → BitVec 64 → Nat → Option Nat
  | [], _, _ => none
  | p :: rest, cum, slot =>
      if p.state = .runnable then
        let cum := cum + p.tickets.signExtend 64
        if winner < cum then some slot else walkTable winner rest cum (slot + 1)
      else
        walkTable winner rest cum (slot + 1)

/-- `draw_and_run`: the slot that is run, the table and the state of the generator. -/
def drawAndRun (proc : ProcTable) (rngState : BitVec 32) (total : BitVec 64) :
    Option Nat × ProcTable × BitVec 32 :=
  let rngState := lotteryRand rngState
  let winner := rngState.zeroExtend 64 % total
  match walkTable winner proc.toList 0 0 with
  | none => (none, proc, rngState)
  | some slot =>
      (some slot, proc.mapIdx fun i p => if i = slot then runSelected p else p, rngState)

/-- `sched_settickets` on the current process -/
def schedSettickets (p : Proc) (n : BitVec 32) : Int × Proc :=
  if n.toInt < 0 ∨ SCHED_MAX_TICKETS < n.toInt then
    (-1, p)
  else
    (0, { p with tickets := n })

/-- What `sched_settickets` accepts. -/
def TicketsInRange (p : Proc) : Prop := 0 ≤ p.tickets.toInt ∧ p.tickets.toInt ≤ SCHED_MAX_TICKETS

theorem schedSettickets_inRange {p : Proc} (h : TicketsInRange p) (n : BitVec 32) :
    TicketsInRange (schedSettickets p n).2 := by
  unfold schedSettickets
  split
  · exact h
  · rename_i hn
    obtain ⟨hmin, hmax⟩ := not_or.mp hn
    exact ⟨Int.not_lt.mp hmin, Int.not_lt.mp hmax⟩

-- ============================================================================
-- The walk
-- ============================================================================

/-- The tickets that a process has in a draw. -/
def share (p : Proc) : Nat := if p.state = .runnable then p.tickets.toInt.toNat else 0

/-- The tickets of the first slots. -/
def sharesBefore (procs : List Proc) (slot : Nat) : Nat := ((procs.take slot).map share).sum

theorem tickets_toNat {p : Proc} (h : TicketsInRange p) :
    (p.tickets.signExtend 64).toNat = p.tickets.toInt.toNat := by
  have hmsb : p.tickets.msb = false := by
    rw [BitVec.msb_eq_false_iff_two_mul_lt]
    have hnonneg := h.1
    rw [BitVec.toInt_eq_toNat_cond] at hnonneg
    split at hnonneg <;> omega
  rw [BitVec.signExtend_eq_setWidth_of_msb_false hmsb, BitVec.toInt_eq_toNat_of_msb hmsb,
    BitVec.toNat_setWidth, Int.toNat_natCast]
  exact Nat.mod_eq_of_lt (p.tickets.isLt.trans (by decide))

theorem share_le {p : Proc} (h : TicketsInRange p) : share p ≤ 100000 := by
  have hmax : p.tickets.toInt ≤ 100000 := h.2
  unfold share
  split <;> omega

theorem shares_le {procs : List Proc} (h : ∀ p ∈ procs, TicketsInRange p) :
    (procs.map share).sum ≤ procs.length * 100000 := by
  induction procs with
  | nil => exact Nat.zero_le _
  | cons p procs ih =>
      have hp := share_le (h p List.mem_cons_self)
      have hrest := ih fun q hq => h q (List.mem_cons_of_mem p hq)
      rw [List.map_cons, List.sum_cons, List.length_cons]
      omega

theorem sharesBefore_succ {procs : List Proc} {slot : Nat} {p : Proc} (h : procs[slot]? = some p) :
    sharesBefore procs (slot + 1) = sharesBefore procs slot + share p := by
  unfold sharesBefore
  rw [List.take_add_one, h, List.map_append, List.sum_append]
  rfl

theorem sharesBefore_mono (procs : List Proc) {slot slot' : Nat} (h : slot ≤ slot') :
    sharesBefore procs slot ≤ sharesBefore procs slot' := by
  obtain ⟨more, rfl⟩ := Nat.exists_eq_add_of_le h
  unfold sharesBefore
  rw [List.take_add, List.map_append, List.sum_append]
  exact Nat.le_add_right _ _

/-- The sum over the table is exact. -/
theorem foldl_total {procs : List Proc} (h : ∀ p ∈ procs, TicketsInRange p) {total : BitVec 64}
    (hfit : total.toNat + (procs.map share).sum < 2 ^ 64) :
    (procs.foldl (fun total p =>
      if p.state = .runnable then total + p.tickets.signExtend 64 else total) total).toNat =
        total.toNat + (procs.map share).sum := by
  induction procs generalizing total with
  | nil => rfl
  | cons p procs ih =>
      rw [List.map_cons, List.sum_cons] at hfit ⊢
      have hp := h p List.mem_cons_self
      have hstep : (if p.state = .runnable then total + p.tickets.signExtend 64
          else total).toNat = total.toNat + share p := by
        unfold share at hfit ⊢
        split
        · rename_i hrun
          rw [if_pos hrun] at hfit
          rw [BitVec.toNat_add, tickets_toNat hp]
          exact Nat.mod_eq_of_lt (by omega)
        · rfl
      rw [List.foldl_cons, ih (fun q hq => h q (List.mem_cons_of_mem p hq)) (by omega), hstep,
        Nat.add_assoc]

/-- The walk stops in the slot whose tickets the winner is among. -/
theorem walkTable_some {procs : List Proc} (h : ∀ p ∈ procs, TicketsInRange p)
    (winner cum : BitVec 64) (hfit : cum.toNat + (procs.map share).sum < 2 ^ 64)
    (hcum : cum.toNat ≤ winner.toNat) (hwin : winner.toNat < cum.toNat + (procs.map share).sum)
    (slot : Nat) :
    ∃ k < procs.length, walkTable winner procs cum slot = some (slot + k) ∧
      cum.toNat + sharesBefore procs k ≤ winner.toNat ∧
        winner.toNat < cum.toNat + sharesBefore procs (k + 1) := by
  induction procs generalizing cum slot with
  | nil => exact absurd hwin (Nat.not_lt.mpr hcum)
  | cons p procs ih =>
      rw [List.map_cons, List.sum_cons] at hfit hwin
      have hp := h p List.mem_cons_self
      -- the winner is further on
      have hrest : ∀ cum' : BitVec 64, cum'.toNat = cum.toNat + share p →
          cum'.toNat ≤ winner.toNat → ∃ k < procs.length + 1,
            walkTable winner procs cum' (slot + 1) = some (slot + k) ∧
              cum.toNat + sharesBefore (p :: procs) k ≤ winner.toNat ∧
                winner.toNat < cum.toNat + sharesBefore (p :: procs) (k + 1) := by
        intro cum' hcum' hle
        obtain ⟨k, hk, hwalk, hfrom, hto⟩ :=
          ih (fun q hq => h q (List.mem_cons_of_mem p hq)) cum' (by omega) hle (by omega) (slot + 1)
        have hbefore : ∀ n, sharesBefore (p :: procs) (n + 1) = share p + sharesBefore procs n :=
          fun n => by unfold sharesBefore; rw [List.take_succ_cons, List.map_cons, List.sum_cons]
        refine ⟨k + 1, Nat.succ_lt_succ hk, ?_, ?_, ?_⟩
        · rw [hwalk]
          exact congrArg some (by omega)
        · rw [hbefore]
          omega
        · rw [hbefore]
          omega
      unfold walkTable
      by_cases hrun : p.state = .runnable
      · have hshare : share p = p.tickets.toInt.toNat := if_pos hrun
        have hadd : (cum + p.tickets.signExtend 64).toNat = cum.toNat + share p := by
          rw [BitVec.toNat_add, tickets_toNat hp, ← hshare]
          exact Nat.mod_eq_of_lt (by omega)
        rw [if_pos hrun]
        dsimp only
        split
        · rename_i hlt
          have hlt' : winner.toNat < cum.toNat + share p := hadd ▸ BitVec.lt_def.mp hlt
          refine ⟨0, Nat.succ_pos _, rfl, by simpa [sharesBefore] using hcum, ?_⟩
          simpa [sharesBefore] using hlt'
        · rename_i hge
          exact hrest _ hadd (BitVec.le_def.mp (BitVec.not_lt.mp hge))
      · have hshare : share p = 0 := if_neg hrun
        rw [if_neg hrun]
        exact hrest cum (by omega) hcum

/-- The values of `winner` with which a slot is run. -/
def winners (proc : ProcTable) (slot : Nat) : Finset Nat :=
  (Finset.range (runnableTicketTotal proc).toNat).filter fun winner =>
    walkTable (.ofNat 64 winner) proc.toList 0 0 = some slot

section Table

variable {proc : ProcTable} (h : ∀ p ∈ proc.toList, TicketsInRange p)
include h

/-- No sum of tickets is near the end of 32 bits. -/
theorem total_lt : (proc.toList.map share).sum < 2 ^ 32 := by
  have hle := shares_le h
  rw [Vector.length_toList] at hle
  exact hle.trans_lt (by decide)

theorem runnableTicketTotal_toNat :
    (runnableTicketTotal proc).toNat = (proc.toList.map share).sum := by
  have hlt := total_lt h
  refine (foldl_total h ?_).trans (Nat.zero_add _)
  rw [show (0 : BitVec 64).toNat = 0 from rfl]
  omega

/-- The slot that a winner below the total belongs to. -/
theorem walkTable_iff (winner : BitVec 64) (hwin : winner.toNat < (proc.toList.map share).sum)
    (slot : Nat) : walkTable winner proc.toList 0 0 = some slot ↔
      slot < NPROC ∧ sharesBefore proc.toList slot ≤ winner.toNat ∧
        winner.toNat < sharesBefore proc.toList (slot + 1) := by
  have hlt := total_lt h
  obtain ⟨k, hk, hwalk, hfrom, hto⟩ := walkTable_some h winner 0
    (by rw [show (0 : BitVec 64).toNat = 0 from rfl]; omega) (Nat.zero_le _)
    (by rw [show (0 : BitVec 64).toNat = 0 from rfl]; omega) 0
  rw [show (0 : BitVec 64).toNat = 0 from rfl, Nat.zero_add] at hfrom hto
  rw [Nat.zero_add] at hwalk
  rw [Vector.length_toList] at hk
  rw [hwalk, Option.some_inj]
  constructor
  · rintro rfl
    exact ⟨hk, hfrom, hto⟩
  · rintro ⟨-, hfrom', hto'⟩
    by_contra hne
    rcases Nat.lt_or_gt_of_ne hne with hlt | hgt
    · have hmono := sharesBefore_mono proc.toList (show k + 1 ≤ slot from hlt)
      omega
    · have hmono := sharesBefore_mono proc.toList (show slot + 1 ≤ k from hgt)
      omega

theorem mem_winners {slot winner : Nat} (hslot : slot < NPROC) :
    winner ∈ winners proc slot ↔ sharesBefore proc.toList slot ≤ winner ∧
      winner < sharesBefore proc.toList (slot + 1) := by
  have hlt := total_lt h
  have hall : sharesBefore proc.toList (slot + 1) ≤ (proc.toList.map share).sum := by
    have hmono := sharesBefore_mono proc.toList (Nat.succ_le_of_lt hslot)
    have hlen : proc.toList.take NPROC = proc.toList :=
      List.take_of_length_le (Nat.le_of_eq proc.length_toList)
    rwa [sharesBefore, sharesBefore, hlen] at hmono
  have hword : ∀ n < (proc.toList.map share).sum, (BitVec.ofNat 64 n).toNat = n := fun n hn => by
    rw [BitVec.toNat_ofNat]
    exact Nat.mod_eq_of_lt (by omega)
  unfold winners
  rw [Finset.mem_filter, Finset.mem_range, runnableTicketTotal_toNat h]
  constructor
  · rintro ⟨hwin, hwalk⟩
    have hiff := (walkTable_iff h (.ofNat 64 winner)
      (by rwa [hword _ hwin]) slot).mp hwalk
    rw [hword _ hwin] at hiff
    exact hiff.2
  · rintro ⟨hfrom, hto⟩
    have hwin : winner < (proc.toList.map share).sum := hto.trans_le hall
    refine ⟨hwin, (walkTable_iff h (.ofNat 64 winner) (by rwa [hword _ hwin]) slot).mpr ?_⟩
    rw [hword _ hwin]
    exact ⟨hslot, hfrom, hto⟩

/-- Of the values that the winner can have, each process has as many as it has tickets. -/
theorem card_winners {slot : Nat} (hslot : slot < NPROC) :
    (winners proc slot).card = share proc[slot] := by
  have hinterval : winners proc slot =
      Finset.Ico (sharesBefore proc.toList slot) (sharesBefore proc.toList (slot + 1)) :=
    Finset.ext fun winner => (mem_winners h hslot).trans Finset.mem_Ico.symm
  have hget : proc.toList[slot]? = some proc[slot] := by
    rw [List.getElem?_eq_getElem (by rwa [Vector.length_toList]), Vector.getElem_toList]
  rw [hinterval, Nat.card_Ico, sharesBefore_succ hget, Nat.add_sub_cancel_left]

end Table

end PassionProjects.Xv6Plus
