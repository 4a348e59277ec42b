/-
  PassionProjects.Xv6Plus.Kernel.Scheduling

  Under every interleaving a process is on one hart at most, a hart comes to runnable
  processes only, and no call of the lottery comes back with nothing while a process stays
  runnable.

  A call is told from what happened since it began: how often it drew and missed, and whether
  it selected.  Each place of `schedule_lottery` says what has happened so far.
-/

import PassionProjects.Xv6Plus.Kernel.Views

namespace PassionProjects.Xv6Plus

open Transition

variable {H : Type} [DecidableEq H]

-- ============================================================================
-- Calls
-- ============================================================================

/-- What a call of the policy has done so far. -/
structure Call where
  policy : Int
  /-- `runnable_ticket_total` returned 0. -/
  drewNothing : Bool
  misses : Nat
  selections : Nat

def Event.hart : Event H → Option H
  | .called h _ | .totalled h _ | .missed h | .selected h _ _ => some h
  | _ => none

/-- What an event of a hart does to its call. -/
def Call.after (call : Call) : Event H → Call
  | .called _ policy => ⟨policy, false, 0, 0⟩
  | .totalled _ total => { call with drewNothing := call.drewNothing || total = 0 }
  | .missed _ => { call with misses := call.misses + 1 }
  | .selected _ _ _ => { call with selections := call.selections + 1 }
  | _ => call

/-- The last call of a hart. -/
def lastCall (h : H) (log : List (Event H)) : Call :=
  log.foldr (fun e call => if e.hart = some h then call.after e else call) ⟨SCHED_RR, false, 0, 0⟩

/-- What has happened in a call when the hart gets to a place. -/
def CallOk : Hart → Call → Prop
  | .scheduler, _ => True
  | .ticketTotal attempt _ _, call =>
      call = ⟨SCHED_LOTTERY, false, attempt, 0⟩ ∧ attempt < SCHED_LOTTERY_MAX_ATTEMPTS
  | .draw attempt total, call =>
      call = ⟨SCHED_LOTTERY, false, attempt, 0⟩ ∧ attempt < SCHED_LOTTERY_MAX_ATTEMPTS ∧ total ≠ 0
  | .walk attempt _ cum winner, call =>
      call = ⟨SCHED_LOTTERY, false, attempt, 0⟩ ∧ attempt < SCHED_LOTTERY_MAX_ATTEMPTS ∧
      ¬ winner < cum
  | .pickFirst _, call =>
      call.policy = SCHED_LOTTERY ∧ call.selections = 0 ∧
        (call.drewNothing ∨ call.misses = SCHED_LOTTERY_MAX_ATTEMPTS)
  | .roundrobin _ found, call => call.policy ≠ SCHED_LOTTERY ∧ (found ↔ 0 < call.selections)
  | .run _ .lottery, call => call.policy = SCHED_LOTTERY ∧ call.selections = 1
  | .run _ (.roundrobin _), call => call.policy ≠ SCHED_LOTTERY ∧ 0 < call.selections
  | .returned found, call =>
      (found ↔ 0 < call.selections) ∧ (call.policy = SCHED_LOTTERY → call.selections ≤ 1)

/-- Where a hart goes on when its process gives it up. -/
def Back.hart : Back → Hart
  | .lottery => .returned true
  | .roundrobin slot => .roundrobin slot true

/-- While a slot stays runnable a call does not go past it. -/
def Awake (q : SlotId) : Hart → Prop
  | .pickFirst slot => slot ≤ q.val
  | .roundrobin slot found => found ∨ slot ≤ q.val
  | .returned found => found
  | _ => True

variable {k k' : Machine H} {h h' : H} {s : SlotId} {e : Event H} {log : List (Event H)}

theorem lastCall_cons (he : e.hart = some h) :
    lastCall h (e :: log) = (lastCall h log).after e := by
  rw [lastCall, List.foldr_cons, if_pos he, ← lastCall]

theorem lastCall_cons_of_ne (he : e.hart ≠ some h) : lastCall h (e :: log) = lastCall h log := by
  rw [lastCall, List.foldr_cons, if_neg he, ← lastCall]

/-- What a process does is of no call. -/
theorem lastCall_append {es : List (Event H)} (hes : ∀ e ∈ es, e.hart = none) :
    lastCall h (es ++ log) = lastCall h log := by
  induction es with
  | nil => rfl
  | cons e es ih =>
      obtain ⟨he, hes⟩ := List.forall_mem_cons.mp hes
      have hne : e.hart ≠ some h := by rw [he]; exact Option.some_ne_none h |>.symm
      rw [List.cons_append, lastCall_cons_of_ne hne, ih hes]

-- ============================================================================
-- Places
-- ============================================================================

namespace Machine

/-- Each hart is where its call has come to. -/
def Places (k : Machine H) : Prop := ∀ h, CallOk (k.harts h) (lastCall h k.log)

/-- A step of one hart, with an event of its own or none. -/
structure Moves (k k' : Machine H) (h : H) (x : Hart) : Prop where
  harts : k'.harts = Function.update k.harts h x
  others : ∀ h', h' ≠ h → lastCall h' k'.log = lastCall h' k.log

theorem Moves.places {x : Hart} (hmoves : Moves k k' h x) (hk : k.Places)
    (hx : CallOk x (lastCall h k'.log)) : k'.Places := by
  intro h'
  rw [hmoves.harts]
  by_cases hh : h' = h
  · rw [hh, Function.update_self]
    exact hx
  · rw [Function.update_of_ne hh, hmoves.others h' hh]
    exact hk h'

theorem moves_setHart (x : Hart) : Moves k (k.setHart h x) h x := ⟨rfl, fun _ _ => rfl⟩

theorem moves_note {x : Hart} (he : e.hart = some h) : Moves k ((k.setHart h x).note e) h x :=
  ⟨rfl, fun _ hne =>
    lastCall_cons_of_ne (by rw [he]; exact fun heq => hne (Option.some.inj heq).symm)⟩

theorem select_log (back : Back) : ∃ es : List (Event H), (∀ e ∈ es, e.hart = none) ∧
    (k.select h s back).log = es ++ .selected h s (k.slots s).proc.tickets :: k.log := by
  unfold select
  dsimp only
  split
  · exact ⟨[.waited s _], by simp [Event.hart], rfl⟩
  · exact ⟨[], by simp, rfl⟩

theorem select_harts (back : Back) :
    (k.select h s back).harts = Function.update k.harts h (.run s back) := by
  unfold select
  dsimp only
  split <;> rfl

theorem moves_select (back : Back) : Moves k (k.select h s back) h (.run s back) := by
  obtain ⟨es, hes, hlog⟩ := select_log (k := k) (h := h) (s := s) back
  refine ⟨select_harts back, fun h' hne => ?_⟩
  rw [hlog, lastCall_append hes, lastCall_cons_of_ne]
  exact fun heq => hne (Option.some.inj heq).symm

theorem lastCall_select (back : Back) : lastCall h (k.select h s back).log =
    { lastCall h k.log with selections := (lastCall h k.log).selections + 1 } := by
  obtain ⟨es, hes, hlog⟩ := select_log (k := k) (h := h) (s := s) back
  rw [hlog, lastCall_append hes, lastCall_cons rfl]
  rfl

theorem Places.look {x : Hart} (hk : k.Places) (hx : CallOk x (lastCall h k.log)) :
    (k.setHart h x).Places :=
  (moves_setHart x).places hk hx

theorem Places.note {x : Hart} (hk : k.Places) (he : e.hart = some h)
    (hx : CallOk x ((lastCall h k.log).after e)) : ((k.setHart h x).note e).Places := by
  apply (moves_note he).places hk
  rw [show ((k.setHart h x).note e).log = e :: k.log from rfl, lastCall_cons he]
  exact hx

theorem Places.select {back : Back} (hk : k.Places)
    (hx : CallOk (.run s back) ((lastCall h k.log).after (.selected h s 0))) :
    (k.select h s back).Places := by
  apply (moves_select back).places hk
  rw [lastCall_select]
  exact hx

theorem scheduleStep_places (hk : k.Places) (hstep : k.scheduleStep h = some k') : k'.Places := by
  have hh := hk h
  revert hstep
  fun_cases scheduleStep k h <;> rintro ⟨⟩
  case case1 =>
      apply hk.note rfl
      split
      · rename_i hlottery
        exact ⟨by rw [Call.after, hlottery], by decide⟩
      · rename_i hother
        exact ⟨hother, by simp [Call.after]⟩
  case case2 hhart _ _ _ | case3 hhart _ _ =>
      rw [hhart] at hh
      exact hk.look hh
  case case4 attempt slot total hhart _ =>
      rw [hhart] at hh
      obtain ⟨hcall, hattempt⟩ := hh
      apply hk.note rfl
      rw [hcall]
      split
      · rename_i hzero
        exact ⟨rfl, rfl, .inl (by simp [Call.after, hzero])⟩
      · rename_i hne
        exact ⟨by simpa [Call.after] using hne, hattempt, hne⟩
  case case5 hhart _ =>
      rw [hhart] at hh
      obtain ⟨hcall, hattempt, -⟩ := hh
      exact hk.look ⟨hcall, hattempt, BitVec.not_lt_zero⟩
  case case6 hhart _ _ _ _ _ =>
      rw [hhart] at hh
      obtain ⟨hcall, -⟩ := hh
      apply hk.select
      rw [hcall]
      exact ⟨rfl, rfl⟩
  case case7 hhart _ _ _ _ hlt =>
      rw [hhart] at hh
      exact hk.look ⟨hh.1, hh.2.1, hlt⟩
  case case8 hhart _ _ =>
      rw [hhart] at hh
      exact hk.look hh
  case case9 hhart _ =>
      rw [hhart] at hh
      obtain ⟨hcall, hattempt, -⟩ := hh
      apply hk.note rfl
      rw [hcall]
      split
      · rename_i hmore
        exact ⟨rfl, hmore⟩
      · rename_i hlast
        exact ⟨rfl, rfl, .inr (Nat.le_antisymm hattempt (Nat.not_lt.mp hlast))⟩
  case case10 hhart _ _ _ =>
      rw [hhart] at hh
      obtain ⟨hlottery, hnone, -⟩ := hh
      apply hk.select
      exact ⟨hlottery, by rw [Call.after, hnone]⟩
  case case11 hhart _ _ =>
      rw [hhart] at hh
      exact hk.look hh
  case case12 hhart _ =>
      rw [hhart] at hh
      obtain ⟨hlottery, hnone, -⟩ := hh
      exact hk.look ⟨by simp [hnone], fun _ => by omega⟩
  case case13 hhart _ _ _ =>
      rw [hhart] at hh
      apply hk.select
      exact ⟨hh.1, Nat.succ_pos _⟩
  case case14 hhart _ _ =>
      rw [hhart] at hh
      exact hk.look hh
  case case15 hhart _ =>
      rw [hhart] at hh
      exact hk.look ⟨hh.2, fun hlottery => absurd hlottery hh.1⟩
  case case16 => exact hk.look trivial

/-- A step that is of no call: a hart may come back from its process. -/
structure Resumes (k k' : Machine H) (h : H) (back : Back) : Prop where
  harts : k'.harts = k.harts ∨ k'.harts = Function.update k.harts h (back.hart)
  log : ∃ es : List (Event H), (∀ e ∈ es, e.hart = none) ∧ k'.log = es ++ k.log

theorem resumes_of_log {back : Back} (hharts : k'.harts = k.harts) (hlog : k'.log = k.log) :
    Resumes k k' h back :=
  ⟨.inl hharts, [], by simp, hlog⟩

theorem resumes_of_note {back : Back} (hharts : k'.harts = k.harts) (he : e.hart = none)
    (hlog : k'.log = e :: k.log) : Resumes k k' h back :=
  ⟨.inl hharts, [e], by simp [he], hlog⟩

theorem resumes_sched {k₁ : Machine H} {back : Back} (hharts : k₁.harts = k.harts)
    (hlog : k₁.log = k.log) : Resumes k (k₁.sched h back) h back := by
  refine ⟨.inr ?_, [], by simp, ?_⟩
  · cases back <;> exact congrArg (Function.update · h _) hharts
  · cases back <;> exact hlog

theorem goStep_resumes {back : Back} {outcome : AllocOutcome}
    (hstep : k.goStep h s back outcome = some k') : Resumes k k' h back := by
  revert hstep
  fun_cases goStep k h s back outcome <;> rintro ⟨⟩
  case case2 =>
      unfold forkAt
      dsimp only
      split
      · exact resumes_of_note rfl rfl rfl
      · exact resumes_of_note rfl rfl rfl
  case case7 | case9 => exact resumes_sched rfl rfl
  all_goals exact resumes_of_log rfl rfl

theorem processStep_resumes {back : Back} {op : Op} (hstep : k.processStep h s back op = some k') :
    Resumes k k' h back := by
  revert hstep
  fun_cases processStep k h s back op
  case case1 => exact goStep_resumes
  all_goals rintro ⟨⟩
  case case3 => exact resumes_sched rfl rfl
  case case4 => exact resumes_of_note rfl (by split <;> rfl) rfl
  case case8 => exact resumes_of_note rfl (by split <;> rfl) rfl
  case case9 => exact resumes_of_log (by split <;> rfl) (by split <;> rfl)
  case case2 | case6 | case7 | case15 => exact resumes_of_note rfl rfl rfl
  all_goals exact resumes_of_log rfl rfl

/-- What a step is for the calls of the harts. -/
theorem step_cases {a : Action H} (hstep : k.step a = some k') :
    (∃ h, k.scheduleStep h = some k') ∨
      (∃ h s back, k.harts h = .run s back ∧ Resumes k k' h back) ∨
        (k'.harts = k.harts ∧ k'.log = k.log) := by
  revert hstep
  fun_cases step k a
  case case1 h => exact fun hstep => .inl ⟨h, hstep⟩
  case case2 h op s back hhart =>
      exact fun hstep => .inr (.inl ⟨h, s, back, hhart, processStep_resumes hstep⟩)
  all_goals rintro ⟨⟩
  all_goals exact .inr (.inr ⟨rfl, rfl⟩)

theorem Resumes.places {back : Back} (hresumes : Resumes k k' h back) (hk : k.Places)
    (hhart : k.harts h = .run s back) : k'.Places := by
  obtain ⟨hharts, es, hes, hlog⟩ := hresumes
  have hcall : ∀ h', lastCall h' k'.log = lastCall h' k.log := by
    intro h'
    rw [hlog, lastCall_append hes]
  obtain hsame | hback := hharts
  · intro h'
    rw [hsame, hcall]
    exact hk h'
  · apply Moves.places ⟨hback, fun h' _ => hcall h'⟩ hk
    rw [hcall]
    have hh := hk h
    rw [hhart] at hh
    cases back with
    | lottery =>
        obtain ⟨-, hone⟩ := hh
        exact ⟨by simp [hone], fun _ => Nat.le_of_eq hone⟩
    | roundrobin slot =>
        obtain ⟨hother, hpos⟩ := hh
        exact ⟨hother, by simp [hpos]⟩

theorem Reachable.places (h : k.Reachable) : k.Places := by
  apply Transition.Reached.invariant (I := Places) _ _ h
  · rintro k rfl h
    trivial
  · intro k a k' hk _ hstep
    obtain ⟨h, hstep⟩ | ⟨h, s, back, hhart, hresumes⟩ | ⟨hharts, hlog⟩ := step_cases hstep
    · exact scheduleStep_places hk hstep
    · exact hresumes.places hk hhart
    · intro h
      rw [hharts, hlog]
      exact hk h

-- ============================================================================
-- Calls that do not idle
-- ============================================================================

omit [DecidableEq H] in
theorem runnableAt_eq_none {q : SlotId} (hq : (k.slots q).proc.state = .runnable) {slot : Nat}
    (hslot : k.runnableAt slot = none) : slot ≠ q := by
  rintro rfl
  simp [runnableAt, hq] at hslot

theorem Moves.awake {q : SlotId} {x : Hart} (hmoves : Moves k k' h x) (hx : Awake q x) :
    Awake q (k'.harts h) := by
  rw [hmoves.harts, Function.update_self]
  exact hx

/-- The scan of a call does not pass a runnable slot by. -/
theorem scheduleStep_awake {q : SlotId} (hq : (k.slots q).proc.state = .runnable)
    (hk : Awake q (k.harts h)) (hstep : k.scheduleStep h = some k') : Awake q (k'.harts h) := by
  revert hstep
  fun_cases scheduleStep k h <;> rintro ⟨⟩
  case case1 =>
      apply (moves_note rfl).awake
      split
      · trivial
      · exact .inr (Nat.zero_le _)
  case case4 =>
      apply (moves_note rfl).awake
      split
      · exact Nat.zero_le _
      · trivial
  case case9 =>
      apply (moves_note rfl).awake
      split
      · trivial
      · exact Nat.zero_le _
  case case6 | case10 | case13 => exact (moves_select _).awake trivial
  case case11 slot hhart _ hslot =>
      rw [hhart] at hk
      exact (moves_setHart _).awake (Nat.lt_of_le_of_ne hk (runnableAt_eq_none hq hslot))
  case case12 slot hhart hend =>
      rw [hhart] at hk
      exact absurd (Nat.lt_of_le_of_lt hk q.isLt) hend
  case case14 slot found hhart _ hslot =>
      rw [hhart] at hk
      apply (moves_setHart _).awake
      obtain hfound | hle := hk
      · exact .inl hfound
      · exact .inr (Nat.lt_of_le_of_ne hle (runnableAt_eq_none hq hslot))
  case case15 slot found hhart hend =>
      rw [hhart] at hk
      exact (moves_setHart _).awake
        (hk.resolve_right fun hle => hend (Nat.lt_of_le_of_lt hle q.isLt))
  all_goals exact (moves_setHart _).awake trivial

theorem scheduleStep_others (hne : h' ≠ h) (hstep : k.scheduleStep h = some k') :
    k'.harts h' = k.harts h' := by
  revert hstep
  fun_cases scheduleStep k h <;> rintro ⟨⟩
  case case6 | case10 | case13 =>
      rw [(moves_select _).harts]
      exact Function.update_of_ne hne _ _
  all_goals exact Function.update_of_ne hne _ _

theorem step_awake {q : SlotId} {a : Action H} (hq : (k.slots q).proc.state = .runnable)
    (hk : Awake q (k.harts h)) (hstep : k.step a = some k') : Awake q (k'.harts h) := by
  obtain ⟨h', hstep⟩ | ⟨h', s, back, hhart, hresumes⟩ | ⟨hharts, -⟩ := step_cases hstep
  · by_cases hh : h = h'
    · exact hh ▸ scheduleStep_awake hq (hh ▸ hk) hstep
    · rw [scheduleStep_others hh hstep]
      exact hk
  · obtain hsame | hback := hresumes.harts
    · rw [hsame]
      exact hk
    · rw [hback, Function.update_apply]
      split
      · cases back with
        | lottery => rfl
        | roundrobin slot => exact .inl rfl
      · exact hk
  · rw [hharts]
    exact hk

/-- A hart comes to a runnable process only. -/
theorem step_enters {a : Action H} (hstep : k.step a = some k')
    (hnew : (k'.harts h).process = some s) (hold : (k.harts h).process ≠ some s) :
    (k.slots s).proc.state = .runnable := by
  have hmoves : ∀ {h' : H} {x : Hart}, Moves k k' h' x → x.process = some s := by
    intro h' x hmoves
    rw [hmoves.harts, Function.update_apply] at hnew
    split at hnew
    · exact hnew
    · exact absurd hnew hold
  have hidle : ∀ {h' : H} {x : Hart}, x.process = none → ¬ Moves k k' h' x := by
    intro h' x hx hm
    exact absurd ((hmoves hm).symm.trans hx) (by simp)
  obtain ⟨h', hstep⟩ | ⟨h', s', back, -, hresumes⟩ | ⟨hharts, -⟩ := step_cases hstep
  · revert hstep
    fun_cases scheduleStep k h' <;> rintro ⟨⟩
    case case6 hslot _ _ | case10 hslot | case13 hslot =>
        cases hmoves (moves_select _)
        exact (runnableAt_eq_some hslot).2
    case case1 | case4 | case9 => exact absurd (moves_note rfl) (hidle (by split <;> rfl))
    case case5 => exact absurd ⟨rfl, fun _ _ => rfl⟩ (hidle (x := .walk _ 0 0 _) rfl)
    all_goals exact absurd (moves_setHart _) (hidle rfl)
  · obtain hsame | hback := hresumes.harts
    · exact absurd (hsame ▸ hnew) hold
    · obtain ⟨es, hes, hlog⟩ := hresumes.log
      refine absurd (Moves.mk hback fun h _ => ?_) (hidle (by cases back <;> rfl))
      rw [hlog, lastCall_append hes]
  · exact absurd (hharts ▸ hnew) hold

-- ============================================================================
-- Processes without tickets
-- ============================================================================

/-- In a call of the lottery a process without tickets was selected only where there was
    nothing to draw from, or every draw had missed. -/
def Floor (log : List (Event H)) : Prop :=
  ∀ h s older, .selected h s 0 :: older <:+ log → (lastCall h older).policy = SCHED_LOTTERY →
    (lastCall h older).drewNothing ∨ (lastCall h older).misses = SCHED_LOTTERY_MAX_ATTEMPTS

theorem floor_cons (hlog : Floor log) (he : ∀ h s, e = .selected h s 0 →
    (lastCall h log).policy = SCHED_LOTTERY →
      (lastCall h log).drewNothing ∨ (lastCall h log).misses = SCHED_LOTTERY_MAX_ATTEMPTS) :
    Floor (e :: log) := by
  intro h s older hsuffix
  obtain heq | hsuffix := List.suffix_cons_iff.mp hsuffix
  · cases heq
    exact he h s rfl
  · exact hlog h s older hsuffix

theorem floor_append {es : List (Event H)} (hlog : Floor log) (hes : ∀ e ∈ es, e.hart = none) :
    Floor (es ++ log) := by
  induction es with
  | nil => exact hlog
  | cons e es ih =>
      obtain ⟨he, hes⟩ := List.forall_mem_cons.mp hes
      apply floor_cons (ih hes)
      rintro h s rfl
      cases he

theorem floor_select {back : Back} (hlog : Floor k.log)
    (hs : (k.slots s).proc.tickets = 0 → (lastCall h k.log).policy = SCHED_LOTTERY →
      (lastCall h k.log).drewNothing ∨ (lastCall h k.log).misses = SCHED_LOTTERY_MAX_ATTEMPTS) :
    Floor (k.select h s back).log := by
  obtain ⟨es, hes, heq⟩ := select_log (k := k) (h := h) (s := s) back
  rw [heq]
  apply floor_append _ hes
  apply floor_cons hlog
  rintro h' s' heq
  rw [Event.selected.injEq] at heq
  obtain ⟨rfl, rfl, hzero⟩ := heq
  exact hs hzero

theorem scheduleStep_floor (hk : k.Places) (hlog : Floor k.log)
    (hstep : k.scheduleStep h = some k') : Floor k'.log := by
  have hh := hk h
  revert hstep
  fun_cases scheduleStep k h <;> rintro ⟨⟩
  case case6 hhart _ s _ cum hlt =>
      rw [hhart] at hh
      apply floor_select hlog
      intro hzero
      have hcum : cum = _ + (k.slots s).proc.tickets.signExtend 64 := rfl
      have hextend : (0 : BitVec 32).signExtend 64 = 0#64 := by decide
      rw [hzero, hextend, BitVec.add_zero] at hcum
      exact absurd (hcum ▸ hlt) hh.2.2
  case case10 hhart _ _ _ =>
      rw [hhart] at hh
      exact floor_select hlog fun _ _ => hh.2.2
  case case13 hhart _ _ _ =>
      rw [hhart] at hh
      exact floor_select hlog fun _ hlottery => absurd hlottery hh.1
  case case1 | case4 | case9 => exact floor_cons hlog (by rintro _ _ ⟨⟩)
  all_goals exact hlog

theorem Reachable.floor (h : k.Reachable) : Floor k.log := by
  apply Transition.Reached.invariant_of (I := fun k => Floor k.log)
    (fun _ => Reachable.places) _ _ h
  · rintro k rfl h s older hsuffix
    have hmem := hsuffix.mem List.mem_cons_self
    simp [boot] at hmem
  · intro k a k' hk hlog _ hstep
    obtain ⟨h, hstep⟩ | ⟨h, s, back, -, hresumes⟩ | ⟨-, hsame⟩ := step_cases hstep
    · exact scheduleStep_floor hk hlog hstep
    · obtain ⟨es, hes, heq⟩ := hresumes.log
      exact heq ▸ floor_append hlog hes
    · exact hsame ▸ hlog

-- ============================================================================
-- What the scheduler keeps to
-- ============================================================================

/-- Of a kernel and of how it goes on. -/
structure Schedules (k : Machine H) : Prop where
  /-- A process that runs is on one hart. -/
  running : ∀ s, (k.slots s).proc.state = .running ↔ ∃! h, (k.harts h).process = some s
  /-- `run_selected` is for runnable processes. -/
  enters : ∀ a k' h s, k.step a = some k' → (k'.harts h).process = some s →
    (k.harts h).process ≠ some s → (k.slots s).proc.state = .runnable
  /-- There is something to divide by. -/
  modulus : ∀ h attempt total, k.harts h = .draw attempt total → total ≠ 0
  /-- A call of the lottery runs one process, or returns 0. -/
  lottery : ∀ h found, k.harts h = .returned found → (lastCall h k.log).policy = SCHED_LOTTERY →
    (lastCall h k.log).selections = if found then 1 else 0
  floor : Floor k.log
  /-- A call that begins here does not return 0 while some process stays runnable. -/
  awake : ∀ h q, k.harts h = .scheduler → ∀ k' found,
    Reached (· = k) step (fun k _ => (k.slots q).proc.state = .runnable) k' →
      k'.harts h = .returned found → found = true

theorem Reachable.schedules (hk : k.Reachable) : k.Schedules where
  running := by
    intro s
    have hok := hk.owners
    refine (hok.running s).trans ⟨?_, ?_⟩
    · rintro ⟨h, hs⟩
      exact ⟨h, hs, fun h' hs' => hok.once h' h s hs' hs⟩
    · rintro ⟨h, hs, -⟩
      exact ⟨h, hs⟩
  enters := fun a k' h s => step_enters
  modulus := by
    intro h attempt total hhart
    have hh := hk.places h
    rw [hhart] at hh
    exact hh.2.2
  lottery := by
    intro h found hhart hlottery
    have hh := hk.places h
    rw [hhart] at hh
    have hone := hh.2 hlottery
    cases found with
    | true => exact Nat.le_antisymm hone (hh.1.mp rfl)
    | false => simpa using hh.1
  floor := hk.floor
  awake := by
    intro h q hstart k' found hreached hhart
    have hawake : Awake q (k'.harts h) := by
      apply Reached.invariant (I := fun k => Awake q (k.harts h)) _ _ hreached
      · rintro k rfl
        rw [hstart]
        trivial
      · intro k a k' hawake hq hstep
        exact step_awake hq hawake hstep
    rw [hhart] at hawake
    exact hawake

theorem Reachable.of_isSome {actions : List (Action H)}
    (h : (runActions step (fun _ _ => True) actions (boot : Machine H)).isSome) :
    Reachable (Option.get _ h) := by
  have hboot : Reachable (boot : Machine H) := Reached.start rfl
  exact Reached.of_actions hboot (Option.some_get h).symm

/-- Two harts look for a process, and one finds it; the process asks for three tickets
    and turns to the lottery.  The hart looks at the rest of the table, and the call
    that it makes then draws the process again. -/
def lotteryRun : List (Action Bool) :=
  [.schedule false, .schedule true, .schedule false, .process false (.settickets 3),
    .process false (.setpolicy SCHED_LOTTERY), .process false .yield] ++
  List.replicate 133 (.schedule false) ++ [.process false .yield]

theorem Reachable.schedules_lotteryRun :
    ∃ h : (runActions step (fun _ _ => True) lotteryRun boot).isSome,
      (Option.get _ h).harts false = .returned true ∧
        (lastCall false (Option.get _ h).log).policy = SCHED_LOTTERY ∧
        Schedules (Option.get _ h) := by
  have h : (runActions step (fun _ _ => True) lotteryRun boot).isSome := by decide +kernel
  exact ⟨h, by decide +kernel +revert, by decide +kernel +revert, (Reachable.of_isSome h).schedules⟩

end Machine

end PassionProjects.Xv6Plus
