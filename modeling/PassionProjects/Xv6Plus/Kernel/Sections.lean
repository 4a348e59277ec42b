/-
  PassionProjects.Xv6Plus.Kernel.Sections

  The process table while several harts run (`kernel/proc.c`, `kernel/trap.c`,
  `kernel/syscall.c`, `kernel/vm.c`).  A step is what a hart does between taking a lock and
  releasing it, or one access of a process to what only itself changes.

  A hart is in its scheduler, or it runs a process.  What a process has begun in the kernel
  stays with the process when it gives up the hart.  Nobody waits for `wait_lock` here: what
  its holder does under other locks may come between the steps of anyone else.
-/

import PassionProjects.Lib.Transition
import PassionProjects.Xv6Plus.Kernel.Lottery

namespace PassionProjects.Xv6Plus

abbrev SlotId := Fin NPROC

/-- `struct proc` -/
structure Slot where
  proc : Proc
  chan : BitVec 64
  xstate : BitVec 32
  parent : Option SlotId

def SCHED_RR : Int := 0

def SCHED_LOTTERY : Int := 1

def SCHED_DEFAULT_TICKETS : BitVec 32 := 10

def SCHED_LOTTERY_MAX_ATTEMPTS : Nat := 4

/-- What a process is about to do in the kernel. -/
inductive Code where
  /-- To go on in user space, or to begin something. -/
  | ready
  /-- `allocproc`, before it looks at a slot. -/
  | allocproc (slot : Nat)
  /-- `kfork`, before it sets the parent of the child. -/
  | forkParent (child : SlotId)
  /-- `kfork`, before it makes the child runnable. -/
  | forkRunnable (child : SlotId)
  /-- `sleep`, before it takes the lock. -/
  | sleep (chan : BitVec 64) (sleepStart : BitVec 32)
  /-- `sleep`, behind `sched`. -/
  | asleep (sleepStart : BitVec 32)
  /-- `kexit`, before it takes the lock. -/
  | exit (status : BitVec 32)
  deriving DecidableEq

/-- Where the scheduler goes on when a process comes back to it. -/
inductive Back where
  | lottery
  | roundrobin (slot : Nat)
  deriving DecidableEq

/-- What a hart is about to do. -/
inductive Hart where
  /-- `scheduler`, at the head of its loop. -/
  | scheduler
  /-- `runnable_ticket_total`, before it looks at a slot. -/
  | ticketTotal (attempt slot : Nat) (total : BitVec 64)
  /-- `draw_and_run`, before the draw. -/
  | draw (attempt : Nat) (total : BitVec 64)
  /-- `draw_and_run`, before it looks at a slot. -/
  | walk (attempt slot : Nat) (cum winner : BitVec 64)
  /-- `pick_first_runnable`, before it looks at a slot. -/
  | pickFirst (slot : Nat)
  /-- `schedule_roundrobin`, before it looks at a slot. -/
  | roundrobin (slot : Nat) (found : Bool)
  /-- In the process of a slot. -/
  | run (slot : SlotId) (back : Back)
  /-- `scheduler`, behind the call of the policy. -/
  | returned (found : Bool)
  deriving DecidableEq

/-- What the steps of a run did. -/
inductive Event (H : Type) where
  | called (h : H) (policy : Int)
  | totalled (h : H) (total : BitVec 64)
  | missed (h : H)
  | selected (h : H) (slot : SlotId) (tickets : BitVec 32)
  | allocated (slot : SlotId)
  | forked (parent child : SlotId)
  | freed (slot : SlotId)
  | syscalled (slot : SlotId)
  | ticked (slot : SlotId)
  | waited (slot : SlotId) (duration : BitVec 32)
  | faulted (slot : SlotId) (mapped : Bool)
  | traced (slot : SlotId) (mask : BitVec 32)
  | ticketed (slot : SlotId) (n : BitVec 32)
  | quiet
  deriving DecidableEq

/-- The kernel, and what happened, the last event first. -/
structure Machine (H : Type) where
  slots : SlotId → Slot
  code : SlotId → Code
  harts : H → Hart
  rngState : BitVec 32
  schedPolicy : Int
  nextpid : BitVec 32
  ticks : BitVec 32
  log : List (Event H)

-- ============================================================================
-- Sections of a slot
-- ============================================================================

namespace Slot

def withProc (p : Slot) (f : Proc → Proc) : Slot := { p with proc := f p.proc }

def withState (p : Slot) (state : ProcState) : Slot := p.withProc fun proc => { proc with state }

/-- `allocproc`, once it has found the slot. -/
def allocproc (p : Slot) (pid : BitVec 32) : Slot := p.withProc fun proc =>
  { proc with
    pid := pid
    state := .used
    traceMask := 0
    runticks := 0
    waitticks := 0
    syscallCount := 0
    tickets := SCHED_DEFAULT_TICKETS
    schedSelections := 0
    pagefaults := 0
    pagefaultsFailed := 0 }

/-- `freeproc` -/
def freeproc (p : Slot) : Slot where
  proc :=
    { sz := 0
      pid := 0
      name := p.proc.name.set 0 0
      killed := 0
      state := .unused
      traceMask := 0
      runticks := 0
      waitticks := 0
      syscallCount := 0
      tickets := 0
      schedSelections := 0
      pagefaults := 0
      pagefaultsFailed := 0 }
  chan := 0
  xstate := 0
  parent := none

/-- What `kfork` copies into the child. -/
def inherit (np p : Slot) : Slot := np.withProc fun proc =>
  { proc with
    sz := p.proc.sz
    name := p.proc.name
    traceMask := p.proc.traceMask
    tickets := p.proc.tickets }

/-- `sleep`, with the lock. -/
def sleep (p : Slot) (chan : BitVec 64) : Slot := { p.withState .sleeping with chan }

/-- `sleep`, behind `sched`. -/
def wakeTidy (p : Slot) (duration : BitVec 32) : Slot :=
  { p.withProc fun proc => { proc with waitticks := proc.waitticks + duration.zeroExtend 64 } with
    chan := 0 }

/-- `wakeup`, at a slot. -/
def wakeup (p : Slot) (chan : BitVec 64) : Slot :=
  if p.proc.state = .sleeping ∧ p.chan = chan then p.withState .runnable else p

/-- `kkill`, at a slot. -/
def kkill (p : Slot) (pid : BitVec 32) : Slot :=
  if p.proc.pid = pid then
    let p := p.withProc fun proc => { proc with killed := 1 }
    if p.proc.state = .sleeping then p.withState .runnable else p
  else
    p

/-- `kexit`, with the lock. -/
def zombie (p : Slot) (status : BitVec 32) : Slot := { p.withState .zombie with xstate := status }

end Slot

/-- What comes of the allocations of `allocproc` and of `uvmcopy`. -/
inductive AllocOutcome where
  | noTrapframe
  | noPagetable
  | noCopy
  | copied
  deriving DecidableEq

/-- What `vmfault` comes to. -/
inductive VmfaultOutcome where
  | failed
  | mapped
  | none
  deriving DecidableEq

/-- The counters of `vmfault`. -/
def Slot.vmfault (p : Slot) : VmfaultOutcome → Slot
  | .failed => p.withProc fun proc => { proc with pagefaultsFailed := proc.pagefaultsFailed + 1 }
  | .mapped => p.withProc fun proc => { proc with pagefaults := proc.pagefaults + 1 }
  | .none => p

-- ============================================================================
-- Steps
-- ============================================================================

/-- What the process of a hart does next, where it has a choice. -/
inductive Op where
  /-- The next section of what it has begun. -/
  | go (outcome : AllocOutcome)
  | syscall
  | trace (mask : BitVec 32)
  | settickets (n : BitVec 32)
  | setpolicy (policy : Int)
  | fault (outcome : VmfaultOutcome)
  /-- `growproc`, `kexec`, and lazy `sbrk` -/
  | resize (sz : BitVec 64) (name : Vector (BitVec 8) 16)
  | fork
  | sleep (chan : BitVec 64)
  | exit (status : BitVec 32)
  /-- `kwait`, at a slot: a zombie is freed where its status could be copied. -/
  | wait (child : SlotId) (copied : Bool)
  /-- `clockintr` -/
  | timer
  | yield

inductive Action (H : Type) where
  | schedule (h : H)
  | process (h : H) (op : Op)
  | wakeup (chan : BitVec 64) (slot : SlotId)
  | kill (pid : BitVec 32) (slot : SlotId)
  | tick

theorem NPROC_pos : 0 < NPROC := by decide

def initproc : SlotId := ⟨0, NPROC_pos⟩

namespace Machine

variable {H : Type} [DecidableEq H]

def setSlot (k : Machine H) (s : SlotId) (p : Slot) : Machine H :=
  { k with slots := Function.update k.slots s p }

def setCode (k : Machine H) (s : SlotId) (c : Code) : Machine H :=
  { k with code := Function.update k.code s c }

def setHart (k : Machine H) (h : H) (x : Hart) : Machine H :=
  { k with harts := Function.update k.harts h x }

def note (k : Machine H) (e : Event H) : Machine H := { k with log := e :: k.log }

/-- The process of the slot, if there is one that can be run. -/
def runnableAt (k : Machine H) (slot : Nat) : Option SlotId :=
  if h : slot < NPROC then
    if (k.slots ⟨slot, h⟩).proc.state = .runnable then some ⟨slot, h⟩ else none
  else
    none

/-- `run_selected`, and what the process does before it releases its lock. -/
def select (k : Machine H) (h : H) (s : SlotId) (back : Back) : Machine H :=
  let p := (k.slots s).withProc runSelected
  let k := (k.setHart h (.run s back)).note (.selected h s p.proc.tickets)
  match k.code s with
  | .asleep sleepStart =>
      ((k.setSlot s (p.wakeTidy (k.ticks - sleepStart))).setCode s .ready).note
        (.waited s (k.ticks - sleepStart))
  | _ => k.setSlot s p

/-- A hart in its scheduler. -/
def scheduleStep (k : Machine H) (h : H) : Option (Machine H) :=
  match k.harts h with
  | .scheduler =>
      some ((k.setHart h (if k.schedPolicy = SCHED_LOTTERY then .ticketTotal 0 0 0
        else .roundrobin 0 false)).note (.called h k.schedPolicy))
  | .ticketTotal attempt slot total =>
      if slot < NPROC then
        match k.runnableAt slot with
        | some s => some (k.setHart h (.ticketTotal attempt (slot + 1)
            (total + (k.slots s).proc.tickets.signExtend 64)))
        | none => some (k.setHart h (.ticketTotal attempt (slot + 1) total))
      else
        some ((k.setHart h (if total = 0 then .pickFirst 0 else .draw attempt total)).note
          (.totalled h total))
  | .draw attempt total =>
      let rngState := lotteryRand k.rngState
      some ({ k with rngState }.setHart h (.walk attempt 0 0 (rngState.zeroExtend 64 % total)))
  | .walk attempt slot cum winner =>
      if slot < NPROC then
        match k.runnableAt slot with
        | some s =>
            let cum := cum + (k.slots s).proc.tickets.signExtend 64
            if winner < cum then some (k.select h s .lottery)
            else some (k.setHart h (.walk attempt (slot + 1) cum winner))
        | none => some (k.setHart h (.walk attempt (slot + 1) cum winner))
      else
        some ((k.setHart h (if attempt + 1 < SCHED_LOTTERY_MAX_ATTEMPTS
          then .ticketTotal (attempt + 1) 0 0 else .pickFirst 0)).note (.missed h))
  | .pickFirst slot =>
      if slot < NPROC then
        match k.runnableAt slot with
        | some s => some (k.select h s .lottery)
        | none => some (k.setHart h (.pickFirst (slot + 1)))
      else
        some (k.setHart h (.returned false))
  | .roundrobin slot found =>
      if slot < NPROC then
        match k.runnableAt slot with
        | some s => some (k.select h s (.roundrobin (slot + 1)))
        | none => some (k.setHart h (.roundrobin (slot + 1) found))
      else
        some (k.setHart h (.returned found))
  | .returned _ => some (k.setHart h .scheduler)
  | .run _ _ => none

/-- `sched`: the hart goes on in its scheduler. -/
def sched (k : Machine H) (h : H) : Back → Machine H
  | .lottery => k.setHart h (.returned true)
  | .roundrobin slot => k.setHart h (.roundrobin slot true)

/-- `allocproc` in `kfork`, at an unused slot, up to the release of its lock. -/
def forkAt (k : Machine H) (s np : SlotId) (outcome : AllocOutcome) : Machine H :=
  let p := (k.slots np).allocproc k.nextpid
  let k := { k with nextpid := k.nextpid + 1 }
  match outcome with
  | .copied =>
      ((k.setSlot np (p.inherit (k.slots s))).setCode s (.forkParent np)).note (.forked s np)
  | _ => ((k.setSlot np p.freeproc).setCode s .ready).note (.freed np)

/-- `reparent` -/
def reparent (k : Machine H) (s : SlotId) : Machine H :=
  { k with slots := fun c =>
      if (k.slots c).parent = some s then { k.slots c with parent := some initproc }
      else k.slots c }

/-- The next section of what the process of a hart has begun. -/
def goStep (k : Machine H) (h : H) (s : SlotId) (back : Back) (outcome : AllocOutcome) :
    Option (Machine H) :=
  match k.code s with
  | .ready => none
  | .allocproc slot =>
      if hslot : slot < NPROC then
        if (k.slots ⟨slot, hslot⟩).proc.state = .unused then some (k.forkAt s ⟨slot, hslot⟩ outcome)
        else some (k.setCode s (.allocproc (slot + 1)))
      else
        some (k.setCode s .ready)
  | .forkParent np =>
      some ((k.setSlot np { k.slots np with parent := some s }).setCode s (.forkRunnable np))
  | .forkRunnable np => some ((k.setSlot np ((k.slots np).withState .runnable)).setCode s .ready)
  | .sleep chan sleepStart =>
      some (((k.setSlot s ((k.slots s).sleep chan)).setCode s (.asleep sleepStart)).sched h back)
  | .asleep _ => none
  | .exit status => some (((k.setSlot s ((k.slots s).zombie status)).setCode s .ready).sched h back)

/-- The process of slot `s`, on hart `h`. -/
def processStep (k : Machine H) (h : H) (s : SlotId) (back : Back) : Op → Option (Machine H)
  | .go outcome => k.goStep h s back outcome
  | .timer =>
      some ((k.setSlot s ((k.slots s).withProc fun p => { p with runticks := p.runticks + 1 })).note
        (.ticked s))
  | .yield => some ((k.setSlot s ((k.slots s).withState .runnable)).sched h back)
  | .fault outcome =>
      some ((k.setSlot s ((k.slots s).vmfault outcome)).note
        (if outcome = .none then .quiet else .faulted s (outcome = .mapped)))
  | op =>
      if k.code s ≠ .ready then none
      else match op with
        | .syscall =>
            some ((k.setSlot s ((k.slots s).withProc fun p =>
              { p with syscallCount := p.syscallCount + 1 })).note (.syscalled s))
        | .trace mask =>
            some ((k.setSlot s ((k.slots s).withProc fun p => { p with traceMask := mask })).note
              (.traced s mask))
        | .settickets n =>
            let (status, p) := schedSettickets (k.slots s).proc n
            some ((k.setSlot s { k.slots s with proc := p }).note
              (if status = 0 then .ticketed s n else .quiet))
        | .setpolicy policy =>
            some (if policy ≠ SCHED_RR ∧ policy ≠ SCHED_LOTTERY then k
              else { k with schedPolicy := policy })
        | .resize sz name =>
            some (k.setSlot s ((k.slots s).withProc fun p => { p with sz, name }))
        | .fork => some (k.setCode s (.allocproc 0))
        | .sleep chan => some (k.setCode s (.sleep chan k.ticks))
        | .exit status =>
            if s = initproc then none else some ((k.reparent s).setCode s (.exit status))
        | .wait child copied =>
            if (k.slots child).parent = some s ∧ (k.slots child).proc.state = .zombie ∧ copied then
              some ((k.setSlot child (k.slots child).freeproc).note (.freed child))
            else
              some k
        | _ => none

def step (k : Machine H) : Action H → Option (Machine H)
  | .schedule h => k.scheduleStep h
  | .process h op =>
      match k.harts h with
      | .run s back => k.processStep h s back op
      | _ => none
  | .wakeup chan s => some (k.setSlot s ((k.slots s).wakeup chan))
  | .kill pid s => some (k.setSlot s ((k.slots s).kkill pid))
  | .tick => some { k with ticks := k.ticks + 1 }

/-- A slot as `procinit` leaves it. -/
def unusedSlot : Slot where
  proc :=
    { state := .unused
      killed := 0
      pid := 0
      sz := 0
      name := Vector.replicate 16 0
      traceMask := 0
      runticks := 0
      waitticks := 0
      syscallCount := 0
      tickets := 0
      schedSelections := 0
      pagefaults := 0
      pagefaultsFailed := 0 }
  chan := 0
  xstate := 0
  parent := none

/-- The kernel when the harts come to their schedulers: `procinit` and `userinit` are done. -/
def boot : Machine H where
  slots := Function.update (fun _ => unusedSlot) initproc
    ((unusedSlot.allocproc 1).withState .runnable)
  code := fun _ => .ready
  harts := fun _ => .scheduler
  rngState := SCHED_RNG_SEED
  schedPolicy := SCHED_RR
  nextpid := 2
  ticks := 0
  log := [.allocated initproc]

/-- Some interleaving of the harts gets there. -/
def Reachable (k : Machine H) : Prop :=
  Transition.Reached (· = boot) step (fun _ _ => True) k

end Machine

end PassionProjects.Xv6Plus
