/-
  PassionProjects.MiniPaged.Simulation.Engines

  The four engine classes, and runs of them: a new engine, a trace loaded into it, and any
  number of steps.  None of it raises.
-/

import PassionProjects.Lib.Results
import PassionProjects.MiniPaged.Kv.ContiguousEngine
import PassionProjects.MiniPaged.Scheduler.Step
import PassionProjects.MiniPaged.Scheduler.Runs

namespace PassionProjects.MiniPaged

open Raising Raising.Prog

/-- The engine classes, with what their constructors take beside the clock and the length
    of a tick. -/
inductive EngineClass where
  | simulation
  | contiguous (capacityTokens : Int)
  | paged (numBlocks blockSize : Int)
  | scheduler (numBlocks blockSize tokenBudget : Int)

namespace EngineClass

/-- What a class adds to the fields of `SimulationEngine`. -/
abbrev Own : EngineClass → Type
  | simulation => Unit
  | contiguous _ => ContiguousMemoryModel
  | paged _ _ => PagedKVManager
  | scheduler _ _ _ => SchedulerState

/-- The operations a class overrides or inherits. -/
def hooks : (c : EngineClass) → Hooks c.Own
  | simulation => SimulationEngine.hooks
  | contiguous _ => ContiguousKVEngine.hooks
  | paged _ _ => PagedKVEngine.hooks
  | scheduler _ _ _ => SchedulerEngine.hooks

/-- A new engine of a class, with a clock that starts at `start`. -/
def new (start decodeTick : ℚ) : (c : EngineClass) → Except PyError (Engine c.Own)
  | simulation => do
      let base ← SimulationEngine.new start decodeTick
      pure { base with own := () }
  | contiguous capacityTokens => ContiguousKVEngine.new capacityTokens start decodeTick
  | paged numBlocks blockSize => PagedKVEngine.new numBlocks blockSize start decodeTick
  | scheduler numBlocks blockSize tokenBudget =>
      SchedulerEngine.new numBlocks blockSize tokenBudget start decodeTick

end EngineClass

variable {κ : Type}

/-- A run: a trace is loaded, and `n` steps are taken. -/
def Engine.run (h : Hooks κ) (specs : List TraceRequestSpec) (n : Nat) : Py (Engine κ) Unit := do
  let _ ← Engine.loadTrace specs
  Engine.steps h n

theorem TraceRequestSpec.single_promptLen_pos : 1 ≤ 2 := by decide

/-- A request for one token that arrives at a time. -/
def TraceRequestSpec.single (arrivalTime : ℚ) (h : 0 ≤ arrivalTime) : TraceRequestSpec where
  promptLen := 2
  maxNewTokens := 1
  targetOutputLen := 1
  arrivalTime := arrivalTime
  promptLen_pos := single_promptLen_pos
  maxNewTokens_pos := Nat.one_pos
  targetOutputLen_pos := Nat.one_pos
  targetOutputLen_le := Nat.one_pos
  arrivalTime_nonneg := h

-- ============================================================================
-- New engines
-- ============================================================================

/-- What a new engine starts from. -/
theorem SimulationEngine.new_ok {start decodeTick : ℚ} {b : SimulationEngine}
    (h : SimulationEngine.new start decodeTick = .ok b) :
    b = { now := start, decodeTick } ∧ 0 < decodeTick := by
  unfold SimulationEngine.new clockStart at h
  by_cases hstart : start < 0
  · rw [if_pos hstart] at h
    nomatch h
  by_cases htick : decodeTick ≤ 0
  · simp only [if_neg hstart, if_pos htick] at h
    nomatch h
  simp only [if_neg hstart, if_neg htick] at h
  cases h
  exact ⟨rfl, not_le.mp htick⟩

theorem PagedKVManager.new_ok {numBlocks blockSize : Int} {mgr : PagedKVManager}
    (h : PagedKVManager.new numBlocks blockSize = .ok mgr) : mgr.Holds ∅ := by
  obtain ⟨pool, hpool, h⟩ := Results.bind_eq_ok.mp h
  cases h
  have hrange : 1 ≤ numBlocks ∧ 1 ≤ blockSize := by
    unfold BlockPool.new at hpool
    by_cases hblocks : numBlocks < 1
    · rw [if_pos hblocks] at hpool
      nomatch hpool
    by_cases hsize : blockSize < 1
    · rw [if_neg hblocks, if_pos hsize] at hpool
      nomatch hpool
    omega
  obtain ⟨pool', hpool', hpart, -, -⟩ := BlockPool.partitioned_new hrange.1 hrange.2
  obtain rfl : pool = pool' := Except.ok.inj (hpool.symm.trans hpool')
  have hsize := hrange.2
  exact {
    size := by show 1 ≤ blockSize.toNat; omega
    tables := rfl
    used := rfl
    partition := hpart }

/-- Every class keeps an invariant of its own, and a new engine has it. -/
theorem EngineClass.new_ok (c : EngineClass) {start decodeTick : ℚ} {e : Engine c.Own}
    (h : c.new start decodeTick = .ok e) :
    (∃ J, c.hooks.Lawful J ∧ J e.own ∅) ∧ e.toSimulationEngine = { now := start, decodeTick } ∧
      0 < decodeTick := by
  cases c with
  | simulation =>
      obtain ⟨base, hbase, h⟩ := Results.bind_eq_ok.mp h
      obtain ⟨rfl, htick⟩ := SimulationEngine.new_ok hbase
      cases h
      exact ⟨⟨_, SimulationEngine.lawful, trivial⟩, rfl, htick⟩
  | contiguous capacityTokens =>
      obtain ⟨base, hbase, h⟩ := Results.bind_eq_ok.mp h
      obtain ⟨memory, hmemory, h⟩ := Results.bind_eq_ok.mp h
      obtain ⟨rfl, htick⟩ := SimulationEngine.new_ok hbase
      cases h
      refine ⟨⟨_, ContiguousKVEngine.lawful, ?_⟩, rfl, htick⟩
      unfold ContiguousMemoryModel.new at hmemory
      split at hmemory
      · nomatch hmemory
      · cases hmemory
        rfl
  | paged numBlocks blockSize =>
      obtain ⟨base, hbase, h⟩ := Results.bind_eq_ok.mp h
      obtain ⟨mgr, hmgr, h⟩ := Results.bind_eq_ok.mp h
      obtain ⟨rfl, htick⟩ := SimulationEngine.new_ok hbase
      cases h
      exact ⟨⟨_, PagedKVEngine.lawful, PagedKVManager.new_ok hmgr⟩, rfl, htick⟩
  | scheduler numBlocks blockSize tokenBudget =>
      obtain ⟨p, hp⟩ := parameters_of_new h
      obtain ⟨e', he', -, hbacked, hbudget⟩ := new_spec p
      obtain rfl : e = e' := Except.ok.inj (hp.symm.trans he')
      have hbooked : Booked p.toLimits e.own ∅ := ⟨hbacked, hbudget, Nat.zero_le _⟩
      obtain ⟨base, hbase, h⟩ := Results.bind_eq_ok.mp h
      obtain ⟨mgr, -, h⟩ := Results.bind_eq_ok.mp h
      split at h
      · nomatch h
      · obtain ⟨ledger, -, h⟩ := Results.bind_eq_ok.mp h
        obtain ⟨rfl, htick⟩ := SimulationEngine.new_ok hbase
        cases h
        exact ⟨⟨_, SchedulerEngine.lawful p.toLimits, hbooked⟩, rfl, htick⟩

-- ============================================================================
-- Runs
-- ============================================================================

/-- What holds of an engine between steps. -/
structure Ready (h : Hooks κ) (e : Engine κ) : Prop where
  lawful : ∃ J, h.Lawful J ∧ Kept J e
  busy : Busy e.toSimulationEngine
  tick : 0 < e.decodeTick

variable {h : Hooks κ} {e : Engine κ}

theorem Ready.orderly (hready : Ready h e) : Orderly e.toSimulationEngine := by
  obtain ⟨J, -, hkept⟩ := hready.lawful
  exact hkept.orderly

/-- A step of an engine that is ready. -/
theorem Ready.step (hready : Ready h e) :
    (Engine.step h).Returns (fun _ e' => Ready h e' ∧
      Ticked e.toSimulationEngine e'.toSimulationEngine) e := by
  obtain ⟨J, hlawful, hkept⟩ := hready.lawful
  refine Returns.mono (Engine.step_ticked hlawful hkept hready.busy hready.tick.le)
    fun _ e' ⟨hkept', hbusy', hticked⟩ => ⟨⟨⟨J, hlawful, hkept'⟩, hbusy', ?_⟩, hticked⟩
  rw [(hticked.clock hkept.orderly).2]
  exact hready.tick

/-- Any number of steps raises nothing, and keeps what every tick keeps. -/
theorem Ready.steps {I : Nat → SimulationEngine → Prop} (n : Nat) {k : Nat} (hready : Ready h e)
    (hI : I k e.toSimulationEngine)
    (htick : ∀ j b b', Orderly b → 0 < b.decodeTick → I j b → Ticked b b' → I (j + 1) b') :
    (Engine.steps h n).Returns
      (fun _ e' => Ready h e' ∧ I (k + n) e'.toSimulationEngine) e := by
  induction n generalizing e k with
  | zero => exact wp_pure.mpr ⟨hready, hI⟩
  | succ n ih =>
      refine wp_bind (Returns.mono hready.step fun _ e₁ ⟨hready₁, hticked⟩ => ?_)
      have hrest := ih hready₁ (htick k _ _ hready.orderly hready.tick hI hticked)
      rwa [Nat.add_assoc, Nat.add_comm 1 n] at hrest

/-- A trace loaded into a new engine. -/
theorem load_ready {J : κ → Dict RequestId SequenceState → Prop} (specs : List TraceRequestSpec)
    {start decodeTick : ℚ} (hlawful : h.Lawful J) (hown : J e.own ∅)
    (hbase : e.toSimulationEngine = { now := start, decodeTick }) (htick : 0 < decodeTick) :
    (Engine.loadTrace specs).Returns (fun _ e' => Ready h e' ∧
      LoadedWith start decodeTick specs e'.toSimulationEngine) e := by
  refine Returns.mono (loadTrace_loaded specs hbase) fun _ e' ⟨hloaded, hown'⟩ => ⟨?_, hloaded⟩
  obtain ⟨idCounter, specById, waiting, hsame⟩ := hloaded.same
  refine ⟨⟨J, hlawful, hloaded.orderly, ?_⟩, ?_, ?_⟩
  · rw [hsame, hown']
    exact hown
  · rw [hsame]
    exact fun id seq hseq => nomatch hseq
  · rw [hsame]
    exact htick

/-- What holds when a trace is loaded and is kept by every tick holds after every run of any
    engine, and no run raises. -/
theorem run_invariant {c : EngineClass} {start decodeTick : ℚ} {engine : Engine c.Own}
    (hnew : c.new start decodeTick = .ok engine) (specs : List TraceRequestSpec) (n : Nat)
    {I : Nat → SimulationEngine → Prop}
    (hload : ∀ b, LoadedWith start decodeTick specs b → I 0 b)
    (htick : ∀ j b b', Orderly b → 0 < b.decodeTick → I j b → Ticked b b' → I (j + 1) b') :
    (Engine.run c.hooks specs n).Returns
      (fun _ e => Ready c.hooks e ∧ I n e.toSimulationEngine) engine := by
  obtain ⟨⟨J, hlawful, hown⟩, hbase, hpos⟩ := c.new_ok hnew
  refine wp_bind (Returns.mono (load_ready specs hlawful hown hbase hpos)
    fun _ e ⟨hready, hloaded⟩ => ?_)
  have hsteps := hready.steps n (hload _ hloaded) htick
  rwa [Nat.zero_add] at hsteps

end PassionProjects.MiniPaged
