/-
  PassionProjects.Xv6Plus.Kernel.LotteryPeriod

  The generator of the lottery goes through all words but zero, so that over a period each
  process is drawn in proportion to its tickets.
-/

import Mathlib.Algebra.Order.BigOperators.Group.Finset
import Mathlib.Data.Int.CardIntervalMod
import Mathlib.Tactic.NormNum.Prime
import PassionProjects.Xv6Plus.Kernel.Lottery

namespace PassionProjects.Xv6Plus

open XorLinear

theorem lotteryRand_linear : Linear lotteryRand := by
  have hleft : ∀ n : Nat, Linear fun x : BitVec 32 => x <<< n :=
    fun n => ⟨fun a b => BitVec.shiftLeft_xor_distrib a b n⟩
  have hright : ∀ n : Nat, Linear fun x : BitVec 32 => x >>> n :=
    fun n => ⟨fun a b => BitVec.ushiftRight_xor_distrib a b n⟩
  constructor
  intro a b
  have hfirst := (hleft 13).add_self.xor a b
  have hsecond := (hright 17).add_self.xor
  have hthird := (hleft 5).add_self.xor
  unfold lotteryRand
  rw [hfirst]
  dsimp only
  rw [hsecond, hthird]

/-- How many words are not zero. -/
def period : Nat := 2 ^ 32 - 1

/-- What `x ^ 32` is modulo the characteristic polynomial of the generator. -/
def feedback : Nat := 0x3ec241

theorem seed_feedback :
    lotteryRand^[32] SCHED_RNG_SEED = combine lotteryRand SCHED_RNG_SEED 32 feedback := by
  decide +kernel

theorem iterate_seed {n : Nat} (hn : n < 2 ^ 32) : lotteryRand^[n] SCHED_RNG_SEED =
    combine lotteryRand SCHED_RNG_SEED 32 (powX 32 feedback 32 n) :=
  (lotteryRand_linear.iterate_eq (by decide) seed_feedback (by decide) hn).2

theorem seed_back : lotteryRand^[period] SCHED_RNG_SEED = SCHED_RNG_SEED := by
  rw [iterate_seed (by decide)]
  decide +kernel

theorem prime_dvd_period {q : Nat} (hq : q.Prime) (h : q ∣ period) :
    q = 3 ∨ q = 5 ∨ q = 17 ∨ q = 257 ∨ q = 65537 := by
  have hfactors : period = 3 * (5 * (17 * (257 * 65537))) := by decide
  rw [hfactors] at h
  have hprime : ∀ {p : Nat}, p.Prime → q ∣ p → q = p := fun hp =>
    (Nat.prime_dvd_prime_iff_eq hq hp).mp
  rcases hq.dvd_mul.mp h with h | h
  · exact .inl (hprime (by norm_num) h)
  rcases hq.dvd_mul.mp h with h | h
  · exact .inr (.inl (hprime (by norm_num) h))
  rcases hq.dvd_mul.mp h with h | h
  · exact .inr (.inr (.inl (hprime (by norm_num) h)))
  rcases hq.dvd_mul.mp h with h | h
  · exact .inr (.inr (.inr (.inl (hprime (by norm_num) h))))
  · exact .inr (.inr (.inr (.inr (hprime (by norm_num) h))))

theorem seed_not_back {q : Nat} (hq : q.Prime) (h : q ∣ period) :
    lotteryRand^[period / q] SCHED_RNG_SEED ≠ SCHED_RNG_SEED := by
  rw [iterate_seed ((Nat.div_le_self _ _).trans_lt (by decide))]
  rcases prime_dvd_period hq h with rfl | rfl | rfl | rfl | rfl <;> decide +kernel

/-- The seed comes back after all words but zero, and not before. -/
theorem minimalPeriod_seed : Function.minimalPeriod lotteryRand SCHED_RNG_SEED = period :=
  minimalPeriod_eq seed_back fun _ => seed_not_back

/-- Zero leads to zero only. -/
theorem iterate_seed_ne_zero (n : Nat) : lotteryRand^[n] SCHED_RNG_SEED ≠ 0 := by
  intro hzero
  have hstay : ∀ m, lotteryRand^[m] (0 : BitVec 32) = 0 := fun m =>
    Function.iterate_fixed lotteryRand_linear.zero m
  have hround : lotteryRand^[n * period] SCHED_RNG_SEED = SCHED_RNG_SEED :=
    Function.IsPeriodicPt.const_mul seed_back n
  have hlater : lotteryRand^[n * period] SCHED_RNG_SEED = 0 := by
    have hsplit : n * period = (n * period - n) + n := by
      have hle : n * 1 ≤ n * period := Nat.mul_le_mul_left n (by decide)
      omega
    rw [hsplit, Function.iterate_add_apply, hzero, hstay]
  exact absurd (hround.symm.trans hlater) (by decide)

/-- What is needed of a state for the words of its period. -/
structure Cycles (r : BitVec 32) : Prop where
  period_eq : Function.minimalPeriod lotteryRand r = period
  ne_zero : ∀ n, lotteryRand^[n] r ≠ 0

theorem Cycles.injOn {r : BitVec 32} (h : Cycles r) :
    Set.InjOn (fun n => (lotteryRand^[n] r).toNat) (Finset.range period) := by
  intro m hm n hn heq
  have hinj := Function.iterate_injOn_Iio_minimalPeriod (f := lotteryRand) (x := r)
  rw [h.period_eq] at hinj
  exact hinj (Finset.mem_range.mp hm) (Finset.mem_range.mp hn) (BitVec.eq_of_toNat_eq heq)

theorem mem_words {r : BitVec 32} (hr : r ≠ 0) : r.toNat ∈ Finset.Ioc 0 period := by
  have hlt := r.isLt
  rw [Finset.mem_Ioc]
  refine ⟨Nat.pos_of_ne_zero fun h => hr (BitVec.eq_of_toNat_eq h), ?_⟩
  unfold period
  omega

/-- The words of one period are the numbers from one on. -/
theorem Cycles.image {r : BitVec 32} (h : Cycles r) :
    (Finset.range period).image (fun n => (lotteryRand^[n] r).toNat) = Finset.Ioc 0 period := by
  refine Finset.eq_of_subset_of_card_le ?_ ?_
  · intro x hx
    obtain ⟨n, -, rfl⟩ := Finset.mem_image.mp hx
    exact mem_words (h.ne_zero n)
  · rw [Finset.card_image_of_injOn h.injOn, Finset.card_range, Nat.card_Ioc, Nat.sub_zero]

theorem Cycles.exists_iterate {r x : BitVec 32} (h : Cycles r) (hx : x ≠ 0) :
    ∃ n < period, lotteryRand^[n] r = x := by
  have hmem := mem_words hx
  rw [← h.image] at hmem
  obtain ⟨n, hn, heq⟩ := Finset.mem_image.mp hmem
  exact ⟨n, Finset.mem_range.mp hn, BitVec.eq_of_toNat_eq heq⟩

theorem cycles_seed : Cycles SCHED_RNG_SEED := ⟨minimalPeriod_seed, iterate_seed_ne_zero⟩

/-- It does not matter where the period begins. -/
theorem cycles_of_ne_zero {r : BitVec 32} (hr : r ≠ 0) : Cycles r := by
  obtain ⟨m, -, rfl⟩ := cycles_seed.exists_iterate hr
  refine ⟨?_, fun n => ?_⟩
  · rw [Function.minimalPeriod_apply_iterate, minimalPeriod_seed]
    exact Function.minimalPeriod_pos_iff_mem_periodicPts.mp (minimalPeriod_seed ▸ by decide)
  · rw [← Function.iterate_add_apply]
    exact iterate_seed_ne_zero _

/-- Each word comes once in the draws of a period. -/
theorem existsUnique_draw {r x : BitVec 32} (hr : r ≠ 0) (hx : x ≠ 0) :
    ∃! n, n < period ∧ lotteryRand^[n + 1] r = x := by
  have hcycles := cycles_of_ne_zero ((cycles_of_ne_zero hr).ne_zero 1)
  obtain ⟨n, hn, heq⟩ := hcycles.exists_iterate hx
  refine ⟨n, ⟨hn, heq⟩, fun m ⟨hm, hmeq⟩ => ?_⟩
  exact hcycles.injOn (Finset.mem_coe.mpr (Finset.mem_range.mpr hm))
    (Finset.mem_coe.mpr (Finset.mem_range.mpr hn)) (congrArg BitVec.toNat (hmeq.trans heq.symm))

/-- What holds of the draws of a period holds of as many words. -/
theorem card_draws {r : BitVec 32} (hr : r ≠ 0) (P : Nat → Prop) [DecidablePred P] :
    ((Finset.range period).filter fun n => P (lotteryRand^[n + 1] r).toNat).card =
      ((Finset.Ioc 0 period).filter P).card := by
  have hcycles := cycles_of_ne_zero ((cycles_of_ne_zero hr).ne_zero 1)
  rw [← hcycles.image, Finset.filter_image, Finset.card_image_of_injOn]
  · rfl
  · exact hcycles.injOn.mono (Finset.coe_subset.mpr (Finset.filter_subset _ _))

-- ============================================================================
-- Residues
-- ============================================================================

/-- How many numbers up to `n` have a residue. -/
theorem card_residue (n : Nat) {m w : Nat} (hw : w < m) :
    n / m ≤ ((Finset.Ioc 0 n).filter fun r => r % m = w).card ∧
      ((Finset.Ioc 0 n).filter fun r => r % m = w).card ≤ (n + m - 1) / m := by
  have hm : 0 < m := Nat.zero_lt_of_lt hw
  -- counted from zero, the residue is that of the number before
  have hshift : ((Finset.Ioc 0 n).filter fun r => r % m = w) =
      ((Finset.range n).filter (· ≡ w + m - 1 [MOD m])).image (· + 1) := by
    ext r
    simp only [Finset.mem_filter, Finset.mem_Ioc, Finset.mem_image, Finset.mem_range]
    constructor
    · rintro ⟨⟨hpos, hle⟩, hmod⟩
      refine ⟨r - 1, ⟨by omega, ?_⟩, by omega⟩
      refine Nat.ModEq.add_right_cancel' 1 ?_
      have hr : r - 1 + 1 = r := by omega
      have hwm : w + m - 1 + 1 = w + m := by omega
      rw [hr, hwm]
      have hrw : r ≡ w [MOD m] := hmod.trans (Nat.mod_eq_of_lt hw).symm
      exact hrw.trans Nat.add_modEq_right.symm
    · rintro ⟨k, ⟨hk, hmod⟩, rfl⟩
      refine ⟨⟨k.succ_pos, hk⟩, ?_⟩
      have hwm : w + m - 1 + 1 = w + m := by omega
      have h := hmod.add_right 1
      rw [hwm] at h
      have hkw : k + 1 ≡ w [MOD m] := h.trans Nat.add_modEq_right
      exact Eq.trans hkw (Nat.mod_eq_of_lt hw)
  rw [hshift, Finset.card_image_of_injective _ (add_left_injective 1),
    ← Nat.count_eq_card_filter_range, Nat.count_modEq_card _ hm]
  have hdiv := Nat.div_add_mod n m
  have hmod := Nat.mod_lt n hm
  constructor
  · exact Nat.le_add_right _ _
  · rw [Nat.le_div_iff_mul_le hm]
    split
    · rw [Nat.add_mul, Nat.one_mul, Nat.mul_comm]
      omega
    · rw [Nat.add_zero, Nat.mul_comm]
      omega

-- ============================================================================
-- The lottery
-- ============================================================================

/-- The slot is that of the word drawn modulo the total. -/
theorem drawAndRun_slot (proc : ProcTable) (r : BitVec 32) (total : BitVec 64) :
    (drawAndRun proc r total).1 =
      walkTable (.ofNat 64 ((lotteryRand r).toNat % total.toNat)) proc.toList 0 0 := by
  have hwinner : (lotteryRand r).zeroExtend 64 % total =
      .ofNat 64 ((lotteryRand r).toNat % total.toNat) := by
    apply BitVec.eq_of_toNat_eq
    have hlt := (lotteryRand r).isLt
    have hle := Nat.mod_le (lotteryRand r).toNat total.toNat
    have hwide : ((lotteryRand r).zeroExtend 64).toNat = (lotteryRand r).toNat :=
      BitVec.toNat_setWidth_of_le (by decide)
    rw [BitVec.toNat_umod, hwide, BitVec.toNat_ofNat]
    exact (Nat.mod_eq_of_lt (by omega)).symm
  unfold drawAndRun
  dsimp only
  rw [hwinner]
  split
  · rename_i h
    exact h.symm
  · rename_i h
    exact h.symm

/-- How often a period draws a slot. -/
def timesDrawn (proc : ProcTable) (rngState : BitVec 32) (slot : Nat) : Nat :=
  ((Finset.range period).filter fun n =>
    (drawAndRun proc (lotteryRand^[n] rngState) (runnableTicketTotal proc)).1 = some slot).card

section Table

variable {proc : ProcTable} (h : ∀ p ∈ proc.toList, TicketsInRange p)
  (htotal : 0 < (runnableTicketTotal proc).toNat)
include h htotal

theorem drawAndRun_some (r : BitVec 32) :
    ∃ slot < NPROC, (drawAndRun proc r (runnableTicketTotal proc)).1 = some slot := by
  have hlt := total_lt h
  have hsum := runnableTicketTotal_toNat h
  have hwin : (lotteryRand r).toNat % (runnableTicketTotal proc).toNat <
      (proc.toList.map share).sum := hsum ▸ Nat.mod_lt _ htotal
  have hword : (BitVec.ofNat 64 ((lotteryRand r).toNat % (runnableTicketTotal proc).toNat)).toNat =
      (lotteryRand r).toNat % (runnableTicketTotal proc).toNat := by
    rw [BitVec.toNat_ofNat]
    exact Nat.mod_eq_of_lt (by omega)
  rw [drawAndRun_slot]
  obtain ⟨k, hk, hwalk, -⟩ := walkTable_some h
    (.ofNat 64 ((lotteryRand r).toNat % (runnableTicketTotal proc).toNat)) 0
    (by rw [show (0 : BitVec 64).toNat = 0 from rfl]; omega) (Nat.zero_le _)
    (by rw [show (0 : BitVec 64).toNat = 0 from rfl, Nat.zero_add, hword]; exact hwin) 0
  rw [Vector.length_toList] at hk
  exact ⟨k, hk, hwalk.trans (congrArg some (Nat.zero_add k))⟩

/-- Over a period the draws are as even as whole numbers allow. -/
theorem timesDrawn_bounds {r : BitVec 32} (hr : r ≠ 0) {slot : Nat} (hslot : slot < NPROC) :
    share proc[slot] * (period / (runnableTicketTotal proc).toNat) ≤ timesDrawn proc r slot ∧
      timesDrawn proc r slot ≤ share proc[slot] *
        ((period + (runnableTicketTotal proc).toNat - 1) / (runnableTicketTotal proc).toNat) := by
  let total := (runnableTicketTotal proc).toNat
  have hdrawn : timesDrawn proc r slot =
      ((Finset.Ioc 0 period).filter fun x => x % total ∈ winners proc slot).card := by
    rw [← card_draws hr]
    unfold timesDrawn
    refine congrArg Finset.card (Finset.filter_congr fun n _ => ?_)
    rw [drawAndRun_slot, ← Function.iterate_succ_apply' lotteryRand]
    unfold winners
    rw [Finset.mem_filter, Finset.mem_range]
    exact (and_iff_right (Nat.mod_lt _ htotal)).symm
  have hfibers := Finset.card_eq_sum_card_fiberwise
    (s := (Finset.Ioc 0 period).filter fun x => x % total ∈ winners proc slot)
    (t := winners proc slot) (f := fun x => x % total)
    fun x hx => (Finset.mem_filter.mp hx).2
  have hfiber : ∀ w ∈ winners proc slot,
      (((Finset.Ioc 0 period).filter fun x => x % total ∈ winners proc slot).filter
        fun x => x % total = w) = (Finset.Ioc 0 period).filter fun x => x % total = w := by
    intro w hw
    rw [Finset.filter_filter]
    exact Finset.filter_congr fun x _ => and_iff_right_of_imp fun hx => hx ▸ hw
  have hbounds : ∀ w ∈ winners proc slot, period / total ≤
      ((Finset.Ioc 0 period).filter fun x => x % total = w).card ∧
        ((Finset.Ioc 0 period).filter fun x => x % total = w).card ≤
          (period + total - 1) / total := fun w hw =>
    card_residue period (Finset.mem_range.mp (Finset.mem_filter.mp hw).1)
  rw [hdrawn, hfibers, Finset.sum_congr rfl fun w hw => congrArg Finset.card (hfiber w hw),
    ← card_winners h hslot]
  exact ⟨Finset.card_nsmul_le_sum _ _ _ fun w hw => (hbounds w hw).1,
    Finset.sum_le_card_nsmul _ _ _ fun w hw => (hbounds w hw).2⟩

end Table

/-- The lottery is proportional to tickets. -/
theorem lottery_proportional :
    (∀ proc : ProcTable, (∀ p ∈ proc.toList, TicketsInRange p) →
      (runnableTicketTotal proc).toNat = (proc.toList.map share).sum ∧
      (runnableTicketTotal proc).toNat < 2 ^ 32 ∧
      (0 < (runnableTicketTotal proc).toNat →
        (∀ r, ∃ slot < NPROC, (drawAndRun proc r (runnableTicketTotal proc)).1 = some slot) ∧
        ∀ (slot : Nat) (hslot : slot < NPROC), (winners proc slot).card = share proc[slot] ∧
          ∀ r, r ≠ 0 →
            share proc[slot] * (period / (runnableTicketTotal proc).toNat) ≤
                timesDrawn proc r slot ∧
              timesDrawn proc r slot ≤ share proc[slot] *
                ((period + (runnableTicketTotal proc).toNat - 1) /
                  (runnableTicketTotal proc).toNat))) ∧
    (∀ n, lotteryRand^[n] SCHED_RNG_SEED ≠ 0) ∧
    ∀ x, x ≠ 0 → ∃! n, n < period ∧ lotteryRand^[n + 1] SCHED_RNG_SEED = x := by
  refine ⟨fun proc h => ?_, iterate_seed_ne_zero, fun x => existsUnique_draw (by decide)⟩
  have hsum := runnableTicketTotal_toNat h
  refine ⟨hsum, hsum ▸ total_lt h, fun htotal => ⟨drawAndRun_some h htotal, fun slot hslot =>
    ⟨card_winners h hslot, fun r hr => timesDrawn_bounds h htotal hr hslot⟩⟩⟩

/-- A table with the tickets 10 and 30, and a process that does not run with 60. -/
def threeTickets : ProcTable := Vector.ofFn fun i =>
  { state := if i.val < 2 then .runnable else .sleeping
    killed := 0
    pid := i.val
    sz := 0
    name := Vector.replicate 16 0
    traceMask := 0
    runticks := 0
    waitticks := 0
    syscallCount := 0
    tickets := match i.val with
      | 0 => 10
      | 1 => 30
      | 2 => 60
      | _ => 0
    schedSelections := 0
    pagefaults := 0
    pagefaultsFailed := 0 }

theorem lottery_proportional_three :
    (winners threeTickets 0).card = 10 ∧ (winners threeTickets 1).card = 30 ∧
      (winners threeTickets 2).card = 0 ∧
      10 * (period / 40) ≤ timesDrawn threeTickets SCHED_RNG_SEED 0 ∧
      timesDrawn threeTickets SCHED_RNG_SEED 0 ≤ 10 * ((period + 39) / 40) := by
  have htotal : (runnableTicketTotal threeTickets).toNat = 40 := by decide +kernel
  have hrange : ∀ p ∈ threeTickets.toList, TicketsInRange p := by
    unfold TicketsInRange
    decide +kernel
  obtain ⟨-, -, hdraws⟩ := lottery_proportional.1 threeTickets hrange
  obtain ⟨-, hslots⟩ := hdraws (htotal ▸ by decide)
  obtain ⟨hzero, hperiod⟩ := hslots 0 (by decide)
  have hbounds := hperiod SCHED_RNG_SEED (by decide)
  rw [htotal] at hbounds
  exact ⟨hzero, (hslots 1 (by decide)).1, (hslots 2 (by decide)).1, hbounds⟩

end PassionProjects.Xv6Plus
