/-
  PassionProjects.Xv6Plus.Kernel.Views

  What some invariants look at in a kernel: who owns each slot (the hart that runs its process,
  or the parent that has not made it runnable yet), its telemetry, and what happened.  Every
  step of the kernel is a few effects on this view, under every interleaving.
-/

import Mathlib.Logic.Relation
import PassionProjects.Xv6Plus.Kernel.Sections

namespace PassionProjects.Xv6Plus

open Transition

variable {H : Type} [DecidableEq H]

-- ============================================================================
-- Owners
-- ============================================================================

/-- The process that a hart runs. -/
def Hart.process : Hart → Option SlotId
  | .run s _ => some s
  | _ => none

/-- The child that a process has allocated, and not yet made runnable. -/
def Code.child : Code → Option SlotId
  | .forkParent c | .forkRunnable c => some c
  | _ => none

@[ext]
structure Owners (H : Type) where
  state : SlotId → ProcState
  on : H → Option SlotId
  child : SlotId → Option SlotId

namespace Owners

variable {o o' : Owners H} {h : H} {s c : SlotId}

inductive Step : Owners H → Owners H → Prop where
  | select {o : Owners H} {h : H} {s : SlotId} : o.state s = .runnable → o.on h = none →
      Step o { o with
        state := Function.update o.state s .running
        on := Function.update o.on h (some s) }
  | leave {o : Owners H} {h : H} {s : SlotId} {x : ProcState} : o.on h = some s →
      x = .runnable ∨ ((x = .sleeping ∨ x = .zombie) ∧ o.child s = none) →
        Step o { o with state := Function.update o.state s x, on := Function.update o.on h none }
  | wake {o : Owners H} {s : SlotId} : o.state s = .sleeping →
      Step o { o with state := Function.update o.state s .runnable }
  | fork {o : Owners H} {h : H} {s c : SlotId} : o.on h = some s → o.child s = none →
      o.state c = .unused → Step o { o with
        state := Function.update o.state c .used, child := Function.update o.child s (some c) }
  | publish {o : Owners H} {s c : SlotId} : o.child s = some c → Step o { o with
      state := Function.update o.state c .runnable, child := Function.update o.child s none }
  | free {o : Owners H} {c : SlotId} : o.state c = .zombie →
      Step o { o with state := Function.update o.state c .unused }

/-- A running process is on one hart, and a slot that is only used has one parent, which is in
    `kfork`. -/
structure Ok (o : Owners H) : Prop where
  running : ∀ s, o.state s = .running ↔ ∃ h, o.on h = some s
  once : ∀ h h' s, o.on h = some s → o.on h' = some s → h = h'
  used : ∀ c, o.state c = .used ↔ ∃ p, o.child p = some c
  one_parent : ∀ p p' c, o.child p = some c → o.child p' = some c → p = p'
  forking : ∀ p c, o.child p = some c → o.state p = .running ∨ o.state p = .runnable

theorem Step.ok (hstep : Step o o') (h : o.Ok) : o'.Ok := by
  obtain ⟨hrunning, honce, hused, hparent, hforking⟩ := h
  cases hstep with
  | @select h' s hrunnable hidle =>
      constructor <;> simp only [Function.update_apply] <;> grind
  | @leave h' s x hon hx =>
      constructor <;> simp only [Function.update_apply] <;> grind
  | @wake s hsleeping =>
      constructor <;> simp only [Function.update_apply] <;> grind
  | @fork h' s c hon hchild hunused =>
      constructor <;> simp only [Function.update_apply] <;> grind
  | @publish s c hchild =>
      have hnew : o.state c = .used := (hused c).mpr ⟨s, hchild⟩
      have hidle : ∀ h, o.on h ≠ some c := fun h hon => by
        have := (hrunning c).mpr ⟨h, hon⟩
        exact absurd (hnew.symm.trans this) (by decide)
      constructor <;> simp only [Function.update_apply] <;> grind
  | @free c hzombie =>
      constructor <;> simp only [Function.update_apply] <;> grind

end Owners

-- ============================================================================
-- The view of a kernel
-- ============================================================================

/-- What the kernel counts for a process, and what the process has set. -/
structure Telemetry where
  traceMask : BitVec 32
  runticks : BitVec 64
  waitticks : BitVec 64
  syscallCount : BitVec 64
  tickets : BitVec 32
  schedSelections : BitVec 64
  pagefaults : BitVec 64
  pagefaultsFailed : BitVec 64

def Slot.telemetry (p : Slot) : Telemetry where
  traceMask := p.proc.traceMask
  runticks := p.proc.runticks
  waitticks := p.proc.waitticks
  syscallCount := p.proc.syscallCount
  tickets := p.proc.tickets
  schedSelections := p.proc.schedSelections
  pagefaults := p.proc.pagefaults
  pagefaultsFailed := p.proc.pagefaultsFailed

namespace Telemetry

/-- That of an unused slot. -/
def cleared : Telemetry := ⟨0, 0, 0, 0, 0, 0, 0, 0⟩

/-- That of a child at `kfork`. -/
def forked (t : Telemetry) : Telemetry := ⟨t.traceMask, 0, 0, 0, t.tickets, 0, 0, 0⟩

/-- What an event does to the telemetry of the slot it is about. -/
def after (t : Telemetry) : Event H → Telemetry
  | .selected _ _ _ => { t with schedSelections := t.schedSelections + 1 }
  | .syscalled _ => { t with syscallCount := t.syscallCount + 1 }
  | .ticked _ => { t with runticks := t.runticks + 1 }
  | .waited _ duration => { t with waitticks := t.waitticks + duration.zeroExtend 64 }
  | .faulted _ true => { t with pagefaults := t.pagefaults + 1 }
  | .faulted _ false => { t with pagefaultsFailed := t.pagefaultsFailed + 1 }
  | .traced _ mask => { t with traceMask := mask }
  | .ticketed _ n => { t with tickets := n }
  | _ => t

end Telemetry

/-- The slot in whose telemetry an event shows. -/
def Event.charged : Event H → Option SlotId
  | .selected _ s _ | .syscalled s | .ticked s | .waited s _ | .faulted s _ | .traced s _
  | .ticketed s _ => some s
  | _ => none

/-- The slot that an event gives to a process, or takes from one. -/
def Event.turned : Event H → Option SlotId
  | .allocated s | .forked _ s | .freed s => some s
  | _ => none

@[ext]
structure View (H : Type) extends Owners H where
  telemetry : SlotId → Telemetry
  log : List (Event H)

namespace View

/-- An event in the telemetry of a slot. -/
def charge (v : View H) (s : SlotId) (e : Event H) : View H :=
  { v with
    telemetry := Function.update v.telemetry s ((v.telemetry s).after e)
    log := e :: v.log }

/-- `run_selected` -/
def select (v : View H) (h : H) (s : SlotId) : View H :=
  { v.charge s (.selected h s (v.telemetry s).tickets) with
    state := Function.update v.state s .running
    on := Function.update v.on h (some s) }

inductive Effect : View H → View H → Prop where
  | quiet {v : View H} {e : Event H} : e.charged = none → e.turned = none →
      Effect v { v with log := e :: v.log }
  | charge {v : View H} {s : SlotId} {e : Event H} : e.charged = some s → v.state s = .running →
      Effect v (v.charge s e)
  | select {v : View H} {h : H} {s : SlotId} : v.state s = .runnable → v.on h = none →
      Effect v (v.select h s)
  | leave {v : View H} {h : H} {s : SlotId} {x : ProcState} : v.on h = some s →
      x = .runnable ∨ ((x = .sleeping ∨ x = .zombie) ∧ v.child s = none) →
        Effect v { v with
          state := Function.update v.state s x, on := Function.update v.on h none }
  | wake {v : View H} {s : SlotId} : v.state s = .sleeping →
      Effect v { v with state := Function.update v.state s .runnable }
  | fork {v : View H} {h : H} {s c : SlotId} : v.on h = some s → v.child s = none →
      v.state c = .unused → Effect v { v with
        state := Function.update v.state c .used
        child := Function.update v.child s (some c)
        telemetry := Function.update v.telemetry c (v.telemetry s).forked
        log := .forked s c :: v.log }
  | refuse {v : View H} {c : SlotId} : v.state c = .unused → Effect v { v with
      telemetry := Function.update v.telemetry c .cleared, log := .freed c :: v.log }
  | publish {v : View H} {s c : SlotId} : v.child s = some c → Effect v { v with
      state := Function.update v.state c .runnable, child := Function.update v.child s none }
  | free {v : View H} {c : SlotId} : v.state c = .zombie → Effect v { v with
      state := Function.update v.state c .unused
      telemetry := Function.update v.telemetry c .cleared
      log := .freed c :: v.log }

/-- An effect is a step of the owners, or leaves them alone. -/
theorem Effect.owners {v v' : View H} (h : Effect v v') :
    v'.toOwners = v.toOwners ∨ Owners.Step v.toOwners v'.toOwners := by
  cases h with
  | quiet | charge | refuse => exact .inl rfl
  | select hrunnable hidle => exact .inr (.select hrunnable hidle)
  | leave hon hx => exact .inr (.leave hon hx)
  | wake hsleeping => exact .inr (.wake hsleeping)
  | fork hon hchild hunused => exact .inr (.fork hon hchild hunused)
  | publish hchild => exact .inr (.publish hchild)
  | free hzombie => exact .inr (.free hzombie)

theorem Effect.ok {v v' : View H} (h : Effect v v') (hok : v.toOwners.Ok) : v'.toOwners.Ok := by
  obtain hsame | hstep := h.owners
  · exact hsame ▸ hok
  · exact hstep.ok hok

/-- What every effect keeps, a few of them keep. -/
theorem effects_keep {I : View H → Prop} (hkeep : ∀ v v', Effect v v' → I v → I v')
    {v v' : View H} (h : Relation.ReflTransGen Effect v v') (hv : I v) : I v' := by
  induction h with
  | refl => exact hv
  | tail _ heffect ih => exact hkeep _ _ heffect ih

end View

namespace Machine

variable {k k' : Machine H} {h : H} {s : SlotId}

def owners (k : Machine H) : Owners H where
  state := fun s => (k.slots s).proc.state
  on := fun h => (k.harts h).process
  child := fun s => (k.code s).child

def view (k : Machine H) : View H where
  toOwners := k.owners
  telemetry := fun s => (k.slots s).telemetry
  log := k.log

omit [DecidableEq H] in
theorem view_setSlot (s : SlotId) (p : Slot) : (k.setSlot s p).view = { k.view with
    state := Function.update k.view.state s p.proc.state
    telemetry := Function.update k.view.telemetry s p.telemetry } :=
  View.ext (Function.comp_update (fun p : Slot => p.proc.state) k.slots s p) rfl rfl
    (Function.comp_update Slot.telemetry k.slots s p) rfl

omit [DecidableEq H] in
theorem view_setCode (s : SlotId) (c : Code) : (k.setCode s c).view = { k.view with
    child := Function.update k.view.child s c.child } :=
  View.ext rfl rfl (Function.comp_update Code.child k.code s c) rfl rfl

theorem view_setHart (h : H) (x : Hart) : (k.setHart h x).view = { k.view with
    on := Function.update k.view.on h x.process } :=
  View.ext rfl (Function.comp_update Hart.process k.harts h x) rfl rfl rfl

omit [DecidableEq H] in
theorem view_note (e : Event H) : (k.note e).view = { k.view with log := e :: k.view.log } := rfl

omit [DecidableEq H] in
/-- A section that changes nothing of the view of its slot. -/
theorem view_setSlot_self {p : Slot} (hstate : p.proc.state = (k.slots s).proc.state)
    (htelemetry : p.telemetry = (k.slots s).telemetry) : (k.setSlot s p).view = k.view := by
  rw [view_setSlot, hstate, htelemetry]
  exact View.ext (Function.update_eq_self ..) rfl rfl (Function.update_eq_self ..) rfl

omit [DecidableEq H] in
theorem view_setCode_self {c : Code} (hchild : c.child = (k.code s).child) :
    (k.setCode s c).view = k.view := by
  rw [view_setCode, hchild]
  exact View.ext rfl rfl (Function.update_eq_self ..) rfl rfl

theorem view_setHart_self {x : Hart} (hprocess : x.process = (k.harts h).process) :
    (k.setHart h x).view = k.view := by
  rw [view_setHart, hprocess]
  exact View.ext rfl (Function.update_eq_self ..) rfl rfl rfl

omit [DecidableEq H] in
theorem setSlot_setSlot (s : SlotId) (p q : Slot) :
    (k.setSlot s p).setSlot s q = k.setSlot s q := by
  simp only [setSlot, Function.update_idem]

omit [DecidableEq H] in
/-- A section that changes the telemetry of its slot, and the event that says how. -/
theorem view_charge {p : Slot} {e : Event H} (hstate : p.proc.state = (k.slots s).proc.state)
    (htelemetry : p.telemetry = (k.slots s).telemetry.after e) :
    ((k.setSlot s p).note e).view = k.view.charge s e := by
  rw [view_note, view_setSlot, hstate, htelemetry]
  exact View.ext (Function.update_eq_self ..) rfl rfl rfl rfl

/-- The first part of `select`. -/
theorem view_runSelected (x : Back) : (((k.setHart h (.run s x)).note
    (.selected h s ((k.slots s).withProc runSelected).proc.tickets)).setSlot s
      ((k.slots s).withProc runSelected)).view =
      k.view.select h s := by
  rw [view_setSlot, view_note, view_setHart]
  rfl

open Relation

/-- A step of a hart in its scheduler that selects nothing. -/
theorem effects_of_idle {x : Hart} (hidle : (k.harts h).process = none) (hx : x.process = none) :
    ReflTransGen View.Effect k.view (k.setHart h x).view := by
  rw [view_setHart_self (hx.trans hidle.symm)]

/-- The same with an event. -/
theorem effects_of_idle_note {x : Hart} {e : Event H} (hidle : (k.harts h).process = none)
    (hx : x.process = none) (hcharged : e.charged = none) (hturned : e.turned = none) :
    ReflTransGen View.Effect k.view ((k.setHart h x).note e).view := by
  rw [view_note, view_setHart_self (hx.trans hidle.symm)]
  exact .single (.quiet hcharged hturned)

theorem select_effects {back : Back} (hrunnable : (k.slots s).proc.state = .runnable)
    (hidle : (k.harts h).process = none) :
    ReflTransGen View.Effect k.view (k.select h s back).view := by
  have hselect : View.Effect k.view (k.view.select h s) := .select hrunnable hidle
  unfold select
  dsimp only
  split
  · rename_i sleepStart hcode
    apply ReflTransGen.tail (.single hselect)
    rw [← setSlot_setSlot s ((k.slots s).withProc runSelected), view_note,
      view_setCode_self (hcode ▸ rfl), ← view_note, view_charge (e := .waited s _)]
    · rw [view_runSelected]
      exact .charge rfl (Function.update_self ..)
    all_goals simp only [setSlot, Function.update_self]
    · rfl
    · rfl
  · rw [← view_runSelected] at hselect
    exact .single hselect

omit [DecidableEq H] in
theorem runnableAt_eq_some {slot : Nat} (hslot : k.runnableAt slot = some s) :
    s.val = slot ∧ (k.slots s).proc.state = .runnable := by
  unfold runnableAt at hslot
  split at hslot
  · split at hslot
    · cases hslot
      exact ⟨rfl, ‹_›⟩
    · exact absurd hslot (by simp)
  · exact absurd hslot (by simp)

theorem scheduleStep_effects (hstep : k.scheduleStep h = some k') :
    ReflTransGen View.Effect k.view k'.view := by
  revert hstep
  fun_cases scheduleStep k h <;> rintro ⟨⟩
  case case1 hhart =>
      exact effects_of_idle_note (by rw [hhart]; rfl) (by split <;> rfl) rfl rfl
  case case4 hhart _ =>
      exact effects_of_idle_note (by rw [hhart]; rfl) (by split <;> rfl) rfl rfl
  case case9 hhart _ =>
      exact effects_of_idle_note (by rw [hhart]; rfl) (by split <;> rfl) rfl rfl
  case case6 hhart _ _ hslot _ _ | case10 hhart _ _ hslot | case13 hhart _ _ hslot =>
      exact select_effects (runnableAt_eq_some hslot).2 (by rw [hhart]; rfl)
  all_goals exact effects_of_idle (by simp [Hart.process, *]) rfl

theorem view_sched (back : Back) :
    (k.sched h back).view = { k.view with on := Function.update k.view.on h none } := by
  cases back <;> exact view_setHart ..

/-- A process that gives up its hart: what it does to its slot leaves the telemetry alone. -/
theorem leave_effects {k₁ : Machine H} {p : Slot} {back : Back} (hon : (k.harts h).process = some s)
    (hview : k₁.view = (k.setSlot s p).view) (htelemetry : p.telemetry = (k.slots s).telemetry)
    (hstate : p.proc.state = .runnable ∨
      ((p.proc.state = .sleeping ∨ p.proc.state = .zombie) ∧ (k.code s).child = none)) :
    ReflTransGen View.Effect k.view (k₁.sched h back).view := by
  rw [view_sched, hview, view_setSlot, htelemetry]
  convert ReflTransGen.single (View.Effect.leave (v := k.view) hon hstate) using 1
  exact View.ext rfl rfl rfl (Function.update_eq_self ..) rfl

theorem forkAt_effects {np : SlotId} {outcome : AllocOutcome}
    (hon : (k.harts h).process = some s) (hchild : (k.code s).child = none)
    (hunused : (k.slots np).proc.state = .unused) :
    ReflTransGen View.Effect k.view (k.forkAt s np outcome).view := by
  unfold forkAt
  dsimp only
  split
  · rw [view_note, view_setCode, view_setSlot]
    exact .single (.fork (v := k.view) hon hchild hunused)
  · have hready : ∀ k₁ : Machine H, k₁.code = k.code → (k₁.setCode s .ready).view = k₁.view := by
      intro k₁ hcode
      exact view_setCode_self (by rw [hcode, hchild]; rfl)
    rw [view_note, hready, view_setSlot]
    · convert ReflTransGen.single (View.Effect.refuse (v := k.view) hunused) using 1
      exact View.ext (Function.update_eq_self_iff.mpr hunused.symm) rfl rfl rfl rfl
    · rfl

theorem goStep_effects {back : Back} {outcome : AllocOutcome} (hon : (k.harts h).process = some s)
    (hstep : k.goStep h s back outcome = some k') : ReflTransGen View.Effect k.view k'.view := by
  revert hstep
  fun_cases goStep k h s back outcome <;> rintro ⟨⟩
  case case2 hcode _ hunused => exact forkAt_effects hon (by rw [hcode]; rfl) hunused
  case case3 hcode _ _ | case4 hcode _ => rw [view_setCode_self (by rw [hcode]; rfl)]
  case case5 np hcode =>
      rw [view_setCode_self (by simp only [setSlot, hcode]; rfl),
        view_setSlot_self (p := { k.slots np with parent := some s }) rfl rfl]
  case case6 np hcode =>
      have hchild : (k.code s).child = some np := by rw [hcode]; rfl
      rw [view_setCode, view_setSlot]
      convert ReflTransGen.single (View.Effect.publish (v := k.view) hchild) using 1
      exact View.ext rfl rfl rfl (Function.update_eq_self ..) rfl
  case case7 hcode =>
      have hchild : (k.code s).child = none := by rw [hcode]; rfl
      exact leave_effects hon (view_setCode_self (k := k.setSlot s _) hchild.symm) rfl
        (.inr ⟨.inl rfl, hchild⟩)
  case case9 hcode =>
      have hchild : (k.code s).child = none := by rw [hcode]; rfl
      exact leave_effects hon (view_setCode_self (k := k.setSlot s _) hchild.symm) rfl
        (.inr ⟨.inr rfl, hchild⟩)

/-- A section of a process that shows in its telemetry. -/
theorem charge_effects {p : Slot} {e : Event H} (hrunning : (k.slots s).proc.state = .running)
    (hcharged : e.charged = some s) (hstate : p.proc.state = (k.slots s).proc.state)
    (htelemetry : p.telemetry = (k.slots s).telemetry.after e) :
    ReflTransGen View.Effect k.view ((k.setSlot s p).note e).view := by
  rw [view_charge hstate htelemetry]
  exact .single (.charge hcharged hrunning)

omit [DecidableEq H] in
theorem view_reparent (s : SlotId) : (k.reparent s).view = k.view := by
  have hproc : ∀ c, ((k.reparent s).slots c).proc = (k.slots c).proc := by
    intro c
    simp only [reparent]
    split <;> rfl
  have hstate : (k.reparent s).view.state = k.view.state :=
    funext fun c => congrArg Proc.state (hproc c)
  have htelemetry : (k.reparent s).view.telemetry = k.view.telemetry := by
    funext c
    simp only [view, Slot.telemetry, hproc]
  exact View.ext hstate rfl rfl htelemetry rfl

theorem fault_effects {outcome : VmfaultOutcome} (hrunning : (k.slots s).proc.state = .running) :
    ReflTransGen View.Effect k.view ((k.setSlot s ((k.slots s).vmfault outcome)).note
      (if outcome = .none then .quiet else .faulted s (outcome = .mapped))).view := by
  cases outcome with
  | failed | mapped => exact charge_effects hrunning rfl rfl rfl
  | none =>
      rw [view_note, view_setSlot_self (p := (k.slots s).vmfault .none) rfl rfl]
      exact .single (.quiet rfl rfl)

theorem settickets_effects {n : BitVec 32} (hrunning : (k.slots s).proc.state = .running) :
    ReflTransGen View.Effect k.view
      ((k.setSlot s { k.slots s with proc := (schedSettickets (k.slots s).proc n).2 }).note
        (if (schedSettickets (k.slots s).proc n).1 = 0 then .ticketed s n else .quiet)).view := by
  unfold schedSettickets
  split
  · rw [view_note, view_setSlot_self (p := { k.slots s with proc := (k.slots s).proc }) rfl rfl]
    exact .single (.quiet rfl rfl)
  · exact charge_effects hrunning rfl rfl rfl

theorem processStep_effects {back : Back} {op : Op} (hon : (k.harts h).process = some s)
    (hrunning : (k.slots s).proc.state = .running)
    (hstep : k.processStep h s back op = some k') : ReflTransGen View.Effect k.view k'.view := by
  revert hstep
  fun_cases processStep k h s back op
  case case1 => exact goStep_effects hon
  all_goals rintro ⟨⟩
  case case2 | case6 | case7 => exact charge_effects hrunning rfl rfl rfl
  case case3 => exact leave_effects hon rfl rfl (.inl rfl)
  case case4 => exact fault_effects hrunning
  case case8 n _ _ heq _ _ _ _ =>
      have hset := settickets_effects (n := n) hrunning
      rw [heq] at hset
      exact hset
  case case9 => split <;> rfl
  case case10 => rw [view_setSlot_self (p := (k.slots s).withProc _) rfl rfl]
  case case11 hready _ _ _ _ => rw [view_setCode_self (by rw [not_ne_iff.mp hready]; rfl)]
  case case12 hready _ _ _ _ _ => rw [view_setCode_self (by rw [not_ne_iff.mp hready]; rfl)]
  case case14 hready status _ _ _ _ _ =>
      have hchild : ((k.reparent s).code s).child = none := by
        simp only [reparent, not_ne_iff.mp hready]
        rfl
      rw [view_setCode_self (c := .exit status) hchild.symm, view_reparent]
  case case15 child _ hzombie _ _ _ _ =>
      rw [view_note, view_setSlot]
      exact .single (.free (v := k.view) hzombie.2.1)
  case case16 => rfl

/-- A sleeping process is woken, or nothing is. -/
theorem wake_effects {p : Slot} (htelemetry : p.telemetry = (k.slots s).telemetry)
    (hstate : p.proc.state = (k.slots s).proc.state ∨
      ((k.slots s).proc.state = .sleeping ∧ p.proc.state = .runnable)) :
    ReflTransGen View.Effect k.view (k.setSlot s p).view := by
  obtain hsame | ⟨hsleeping, hrunnable⟩ := hstate
  · rw [view_setSlot_self hsame htelemetry]
  · rw [view_setSlot, htelemetry, hrunnable]
    convert ReflTransGen.single (View.Effect.wake (v := k.view) hsleeping) using 1
    exact View.ext rfl rfl rfl (Function.update_eq_self ..) rfl

theorem wakeup_state (p : Slot) (chan : BitVec 64) :
    (p.wakeup chan).telemetry = p.telemetry ∧ ((p.wakeup chan).proc.state = p.proc.state ∨
      (p.proc.state = .sleeping ∧ (p.wakeup chan).proc.state = .runnable)) := by
  unfold Slot.wakeup
  split
  · rename_i hsleeping
    exact ⟨rfl, .inr ⟨hsleeping.1, rfl⟩⟩
  · exact ⟨rfl, .inl rfl⟩

theorem kkill_state (p : Slot) (pid : BitVec 32) :
    (p.kkill pid).telemetry = p.telemetry ∧ ((p.kkill pid).proc.state = p.proc.state ∨
      (p.proc.state = .sleeping ∧ (p.kkill pid).proc.state = .runnable)) := by
  unfold Slot.kkill
  split
  · dsimp only
    split
    · rename_i hsleeping
      exact ⟨rfl, .inr ⟨hsleeping, rfl⟩⟩
    · exact ⟨rfl, .inl rfl⟩
  · exact ⟨rfl, .inl rfl⟩

/-- Every step of the kernel is a few effects on its view. -/
theorem step_effects {a : Action H} (hok : k.owners.Ok) (hstep : k.step a = some k') :
    ReflTransGen View.Effect k.view k'.view := by
  revert hstep
  fun_cases step k a
  case case1 => exact scheduleStep_effects
  case case2 hhart =>
      have hon : k.owners.on _ = some _ := congrArg Hart.process hhart
      exact processStep_effects hon ((hok.running _).mpr ⟨_, hon⟩)
  all_goals rintro ⟨⟩
  case case4 chan s =>
      obtain ⟨htelemetry, hstate⟩ := wakeup_state (k.slots s) chan
      exact wake_effects htelemetry hstate
  case case5 pid s =>
      obtain ⟨htelemetry, hstate⟩ := kkill_state (k.slots s) pid
      exact wake_effects htelemetry hstate
  case case6 => exact .refl

omit [DecidableEq H] in
/-- At first the harts are in their schedulers, and one process can be run. -/
theorem boot_state (s : SlotId) :
    (boot : Machine H).view.state s = if s = initproc then .runnable else .unused := by
  simp only [view, owners, boot, Function.update_apply]
  split <;> rfl

omit [DecidableEq H] in
theorem boot_owners : (boot : Machine H).owners.Ok := by
  have hstate : ∀ s x, (boot : Machine H).owners.state s = x → x = .runnable ∨ x = .unused := by
    intro s x hx
    rw [← hx, show (boot : Machine H).owners.state s = _ from boot_state s]
    split
    · exact .inl rfl
    · exact .inr rfl
  have hchild : ∀ p c, (boot : Machine H).owners.child p ≠ some c := by
    intro p c h
    cases h
  have hon : ∀ h s, (boot : Machine H).owners.on h ≠ some s := by
    intro h s hs
    cases hs
  refine ⟨fun s => ⟨fun h => ?_, ?_⟩, ?_, fun c => ⟨fun h => ?_, ?_⟩, ?_, ?_⟩
  · obtain hx | hx := hstate s _ h <;> cases hx
  · rintro ⟨h, hs⟩
    exact absurd hs (hon h s)
  · intro h h' s hs
    exact absurd hs (hon h s)
  · obtain hx | hx := hstate c _ h <;> cases hx
  · rintro ⟨p, hp⟩
    exact absurd hp (hchild p c)
  · intro p p' c hp
    exact absurd hp (hchild p c)
  · intro p c hp
    exact absurd hp (hchild p c)

theorem Reachable.owners (h : k.Reachable) : k.owners.Ok := by
  apply Transition.Reached.invariant (I := fun k => k.owners.Ok) _ _ h
  · rintro k rfl
    exact boot_owners
  · intro k a k' hok _ hstep
    exact View.effects_keep (I := fun v => v.toOwners.Ok) (fun v v' => View.Effect.ok)
      (step_effects hok hstep) hok

end Machine

end PassionProjects.Xv6Plus
