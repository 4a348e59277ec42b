/-
  PassionProjects.Xv6Plus.Kernel.Telemetry

  Telemetry belongs to one incarnation of a slot: the events since a process was given the
  slot.  What the kernel counts is how often they happened; what a process has set it keeps,
  and a child begins with what its parent had set.
-/

import PassionProjects.Xv6Plus.Kernel.Scheduling

namespace PassionProjects.Xv6Plus

open Transition

variable {H : Type} [DecidableEq H]

-- ============================================================================
-- Incarnations
-- ============================================================================

/-- The events of the process of a slot, the last one first, where it has one. -/
def incarnation (s : SlotId) : List (Event H) → Option (List (Event H))
  | [] => none
  | e :: log =>
      if e.turned = some s then
        if e = .freed s then none else some []
      else if e.charged = some s then
        (incarnation s log).map (e :: ·)
      else
        incarnation s log

/-- What a process has set, or its parent had set at the fork. -/
def setting {α : Type} (sets : Event H → Option α) (fresh : α) (s : SlotId) : List (Event H) → α
  | [] => fresh
  | e :: log =>
      match e with
      | .allocated c => if c = s then fresh else setting sets fresh s log
      | .forked p c => setting sets fresh (if c = s then p else s) log
      | e =>
          if e.charged = some s then (sets e).getD (setting sets fresh s log)
          else setting sets fresh s log

def Event.mask : Event H → Option (BitVec 32)
  | .traced _ mask => some mask
  | _ => none

def Event.tickets : Event H → Option (BitVec 32)
  | .ticketed _ n => some n
  | _ => none

def Event.duration : Event H → BitVec 32
  | .waited _ duration => duration
  | _ => 0

def Event.isSelected : Event H → Bool
  | .selected _ _ _ => true
  | _ => false

/-- The telemetry of a process that has done `es`, and has set a mask and tickets. -/
def tally (s : SlotId) (es : List (Event H)) (mask tickets : BitVec 32) : Telemetry where
  traceMask := mask
  runticks := BitVec.ofNat 64 (es.count (.ticked s))
  waitticks := es.foldr (fun e total => total + e.duration.zeroExtend 64) 0
  syscallCount := BitVec.ofNat 64 (es.count (.syscalled s))
  tickets := tickets
  schedSelections := BitVec.ofNat 64 (es.countP Event.isSelected)
  pagefaults := BitVec.ofNat 64 (es.count (.faulted s true))
  pagefaultsFailed := BitVec.ofNat 64 (es.count (.faulted s false))

/-- What the log says the telemetry of a slot is. -/
def told (log : List (Event H)) (s : SlotId) : Telemetry :=
  match incarnation s log with
  | none => .cleared
  | some es =>
      tally s es (setting Event.mask 0 s log) (setting Event.tickets SCHED_DEFAULT_TICKETS s log)

-- ============================================================================
-- One more event
-- ============================================================================

variable {s c p : SlotId} {e : Event H} {log es : List (Event H)} {mask tickets : BitVec 32}

omit [DecidableEq H] in
theorem turned_of_charged (he : e.charged = some s) : e.turned = none := by
  cases e <;> first | rfl | cases he

omit [DecidableEq H] in
/-- An event of another slot. -/
theorem setting_other {α : Type} {sets : Event H → Option α} {fresh : α}
    (hcharged : e.charged ≠ some s) (hturned : e.turned ≠ some s) :
    setting sets fresh s (e :: log) = setting sets fresh s log := by
  cases e with
  | allocated c => exact if_neg fun h => hturned (congrArg some h)
  | forked p c =>
      have hne : c ≠ s := fun h => hturned (congrArg some h)
      rw [setting, if_neg hne]
  | _ => simp only [setting, if_neg hcharged]

omit [DecidableEq H] in
theorem setting_charged {α : Type} {sets : Event H → Option α} {fresh : α}
    (hcharged : e.charged = some s) :
    setting sets fresh s (e :: log) = (sets e).getD (setting sets fresh s log) := by
  cases e with
  | allocated | forked => cases hcharged
  | _ => simp only [setting, if_pos hcharged]

theorem incarnation_other (hcharged : e.charged ≠ some s) (hturned : e.turned ≠ some s) :
    incarnation s (e :: log) = incarnation s log := by
  rw [incarnation, if_neg hturned, if_neg hcharged]

theorem incarnation_charged (hcharged : e.charged = some s) :
    incarnation s (e :: log) = (incarnation s log).map (e :: ·) := by
  rw [incarnation, turned_of_charged hcharged, if_neg (by simp), if_pos hcharged]

theorem told_other (hcharged : e.charged ≠ some s) (hturned : e.turned ≠ some s) :
    told (e :: log) s = told log s := by
  unfold told
  rw [incarnation_other hcharged hturned, setting_other hcharged hturned,
    setting_other hcharged hturned]

/-- An event of a process is counted, or sets what it sets. -/
theorem tally_after (hcharged : e.charged = some s) :
    (tally s es mask tickets).after e =
      tally s (e :: es) (e.mask.getD mask) (e.tickets.getD tickets) := by
  cases e with
  | faulted t mapped =>
      cases hcharged
      cases mapped <;> simp [tally, Telemetry.after, Event.mask, Event.tickets, Event.duration,
        Event.isSelected, BitVec.ofNat_add]
  | selected | syscalled | ticked | waited | traced | ticketed =>
      cases hcharged
      simp [tally, Telemetry.after, Event.mask, Event.tickets, Event.duration, Event.isSelected,
        List.countP_cons, BitVec.ofNat_add, BitVec.add_comm]
  | _ => cases hcharged

theorem told_charged (hcharged : e.charged = some s) (halive : incarnation s log ≠ none) :
    told (e :: log) s = (told log s).after e := by
  obtain ⟨es, hes⟩ := Option.ne_none_iff_exists'.mp halive
  simp only [told, incarnation_charged hcharged, hes, Option.map_some, setting_charged hcharged,
    tally_after hcharged]

theorem told_freed : told (.freed c :: log : List (Event H)) c = .cleared := by
  simp [told, incarnation, Event.turned]

theorem told_forked (hp : incarnation p log ≠ none) :
    told (.forked p c :: log : List (Event H)) c = (told log p).forked := by
  obtain ⟨es, hes⟩ := Option.ne_none_iff_exists'.mp hp
  simp [told, incarnation, Event.turned, hes, setting, tally, Telemetry.forked]

-- ============================================================================
-- The view agrees with the log
-- ============================================================================

/-- A slot is unused when it has no incarnation, and its telemetry is what the log tells. -/
structure Accounts (v : View H) : Prop where
  unused : ∀ s, v.state s = .unused ↔ incarnation s v.log = none
  telemetry : ∀ s, v.telemetry s = told v.log s

theorem Accounts.quiet {v : View H} (h : Accounts v) (hcharged : e.charged = none)
    (hturned : e.turned = none) : Accounts { v with log := e :: v.log } where
  unused := by
    intro s
    rw [incarnation_other (by simp [hcharged]) (by simp [hturned])]
    exact h.unused s
  telemetry := by
    intro s
    rw [told_other (by simp [hcharged]) (by simp [hturned])]
    exact h.telemetry s

theorem Accounts.charge {v : View H} (h : Accounts v) (hcharged : e.charged = some s)
    (halive : v.state s ≠ .unused) : Accounts (v.charge s e) where
  unused := by
    intro t
    apply (h.unused t).trans
    by_cases ht : t = s
    · rw [View.charge, ht, incarnation_charged hcharged, Option.map_eq_none_iff]
    · rw [View.charge, incarnation_other (by simp [hcharged, Ne.symm ht])
        (by simp [turned_of_charged hcharged])]
  telemetry := by
    intro t
    change Function.update v.telemetry s ((v.telemetry s).after e) t = told (e :: v.log) t
    by_cases ht : t = s
    · have hin : incarnation s v.log ≠ none := fun hnone => halive ((h.unused s).mpr hnone)
      rw [ht, Function.update_self, told_charged hcharged hin, h.telemetry]
    · rw [Function.update_of_ne ht, told_other (by simp [hcharged, Ne.symm ht])
        (by simp [turned_of_charged hcharged]), h.telemetry]

/-- A change of states that gives no slot to a process and takes none. -/
theorem Accounts.states {v v' : View H} (h : Accounts v) (hlog : v'.log = v.log)
    (htelemetry : v'.telemetry = v.telemetry)
    (hstate : ∀ s, v'.state s = .unused ↔ v.state s = .unused) : Accounts v' where
  unused := fun s => by rw [hstate, hlog, h.unused]
  telemetry := fun s => by rw [htelemetry, hlog, h.telemetry]

/-- A slot is given to a process or taken from one. -/
theorem Accounts.turn {v v' : View H} {t : Telemetry} (h : Accounts v) (hturned : e.turned = some c)
    (hcharged : e.charged = none) (hlog : v'.log = e :: v.log)
    (htelemetry : v'.telemetry = Function.update v.telemetry c t)
    (hc : (v'.state c = .unused ↔ incarnation c (e :: v.log) = none) ∧ t = told (e :: v.log) c)
    (hstate : ∀ s, s ≠ c → (v'.state s = .unused ↔ v.state s = .unused)) : Accounts v' where
  unused := by
    intro s
    by_cases hs : s = c
    · rw [hs, hlog]
      exact hc.1
    · rw [hstate s hs, hlog, incarnation_other (by simp [hcharged]) (by simp [hturned, Ne.symm hs]),
        h.unused]
  telemetry := by
    intro s
    by_cases hs : s = c
    · rw [hs, hlog, htelemetry, Function.update_self]
      exact hc.2
    · rw [hlog, htelemetry, Function.update_of_ne hs,
        told_other (by simp [hcharged]) (by simp [hturned, Ne.symm hs]), h.telemetry]

theorem update_unused {state : SlotId → ProcState} {x : ProcState} (hs : state s ≠ .unused)
    (hx : x ≠ .unused) (c : SlotId) :
    Function.update state s x c = .unused ↔ state c = .unused := by
  by_cases hc : c = s
  · rw [hc, Function.update_self]
    exact ⟨fun h => absurd h hx, fun h => absurd h hs⟩
  · rw [Function.update_of_ne hc]

theorem Accounts.effect {v v' : View H} (heffect : View.Effect v v') (hok : v.toOwners.Ok)
    (h : Accounts v) : Accounts v' := by
  cases heffect with
  | quiet hcharged hturned => exact h.quiet hcharged hturned
  | charge hcharged hrunning => exact h.charge hcharged (by rw [hrunning]; decide)
  | @select h' s hrunnable hidle =>
      have halive : v.state s ≠ .unused := by rw [hrunnable]; decide
      exact (h.charge rfl halive).states rfl rfl (update_unused halive (by decide))
  | @leave h' s x hon hx =>
      have hrunning : v.state s = .running := (hok.running s).mpr ⟨h', hon⟩
      have hx : x ≠ .unused := by
        obtain rfl | ⟨rfl | rfl, -⟩ := hx <;> decide
      exact h.states rfl rfl (update_unused (by rw [hrunning]; decide) hx)
  | @wake s hsleeping =>
      exact h.states rfl rfl (update_unused (by rw [hsleeping]; decide) (by decide))
  | @fork h' s c hon hchild hunused =>
      have hrunning : v.state s = .running := (hok.running s).mpr ⟨h', hon⟩
      have hin : incarnation s v.log ≠ none := by
        rw [Ne, ← h.unused s, hrunning]
        decide
      apply h.turn (e := .forked s c) rfl rfl rfl rfl
      · rw [told_forked hin, h.telemetry]
        exact ⟨by simp [incarnation, Event.turned], rfl⟩
      · intro t ht
        exact iff_of_eq (congrArg (· = _) (Function.update_of_ne ht _ _))
  | @refuse c hunused =>
      apply h.turn (e := .freed c) rfl rfl rfl rfl
      · exact ⟨by simp [incarnation, Event.turned, hunused], told_freed.symm⟩
      · exact fun t _ => Iff.rfl
  | @publish s c hchild =>
      have hused : v.state c = .used := (hok.used c).mpr ⟨s, hchild⟩
      exact h.states rfl rfl (update_unused (by rw [hused]; decide) (by decide))
  | @free c hzombie =>
      apply h.turn (e := .freed c) rfl rfl rfl rfl
      · exact ⟨by simp [incarnation, Event.turned], told_freed.symm⟩
      · intro t ht
        exact iff_of_eq (congrArg (· = _) (Function.update_of_ne ht _ _))

-- ============================================================================
-- Every reachable kernel
-- ============================================================================

namespace Machine

variable {k k' : Machine H}

theorem boot_accounts : Accounts (boot : Machine H).view where
  unused := by
    intro s
    rw [boot_state]
    by_cases hs : s = initproc
    · simp [hs, view, boot, incarnation, Event.turned]
    · simp [hs, view, boot, incarnation, Event.turned, Event.charged, Ne.symm hs]
  telemetry := by
    intro s
    by_cases hs : s = initproc
    · rw [hs]
      rfl
    · have hslot : (boot : Machine H).slots s = unusedSlot := by
        simp only [boot, Function.update_of_ne hs]
      change ((boot : Machine H).slots s).telemetry = told [.allocated initproc] s
      rw [hslot, told_other (by simp [Event.charged]) (by simp [Event.turned, Ne.symm hs])]
      rfl

theorem Reachable.accounts (h : k.Reachable) : Accounts k.view := by
  apply Transition.Reached.invariant_of (I := fun k => Accounts k.view)
    (fun _ => Reachable.owners) _ _ h
  · rintro k rfl
    exact boot_accounts
  · intro k a k' hok haccounts _ hstep
    have hboth := View.effects_keep (I := fun v => v.toOwners.Ok ∧ Accounts v)
      (fun v v' heffect hv => ⟨heffect.ok hv.1, hv.2.effect heffect hv.1⟩)
      (step_effects hok hstep) ⟨hok, haccounts⟩
    exact hboth.2

/-- The telemetry of a slot is that of its present process. -/
theorem Reachable.incarnation_telemetry (h : k.Reachable) (s : SlotId) :
    ((k.slots s).proc.state = .unused → (k.slots s).telemetry = .cleared) ∧
      ((k.slots s).proc.state ≠ .unused → ∃ es, incarnation s k.log = some es ∧
        (k.slots s).telemetry = tally s es (setting Event.mask 0 s k.log)
          (setting Event.tickets SCHED_DEFAULT_TICKETS s k.log)) := by
  have haccounts := h.accounts
  have htold : (k.slots s).telemetry = told k.log s := haccounts.telemetry s
  constructor
  · intro hunused
    have hnone : incarnation s k.log = none := (haccounts.unused s).mp hunused
    rw [htold, told, hnone]
  · intro hused
    have halive : incarnation s k.log ≠ none := fun hnone => hused ((haccounts.unused s).mpr hnone)
    obtain ⟨es, hes⟩ := Option.ne_none_iff_exists'.mp halive
    exact ⟨es, hes, by rw [htold, told, hes]⟩

/-- A process sets its mask and its tickets, and forks. -/
def forking : List (Action Unit) :=
  [.schedule (), .schedule (), .process () .syscall, .process () (.trace 2),
    .process () (.settickets 30), .process () .fork, .process () (.go .copied),
    .process () (.go .copied), .process () (.go .copied), .process () (.go .copied), .tick,
    .process () .timer]

theorem Reachable.incarnation_telemetry_child :
    ∃ h : (runActions step (fun _ _ => True) forking boot).isSome,
      ∃ es, incarnation ⟨1, by decide⟩ (Option.get _ h).log = some es ∧
        ((Option.get _ h).slots ⟨1, by decide⟩).telemetry = tally ⟨1, by decide⟩ es 2 30 := by
  have h : (runActions step (fun _ _ => True) forking boot).isSome := by decide
  have hused : ((Option.get _ h).slots ⟨1, by decide⟩).proc.state ≠ .unused := by decide +revert
  obtain ⟨es, hes, htelemetry⟩ :=
    ((Reachable.of_isSome h).incarnation_telemetry ⟨1, by decide⟩).2 hused
  exact ⟨h, es, hes, htelemetry⟩

end Machine

end PassionProjects.Xv6Plus
