/-
  PassionProjects.MiniPaged.Simulation.Loading

  A trace loaded into an engine: its requests are numbered from the counter of the engine
  on, and wait.
-/

import Std.Data.String.ToNat
import PassionProjects.MiniPaged.Simulation.Moves

namespace PassionProjects.MiniPaged

open Raising Raising.Prog

/-- A request in the line, with its specification. -/
abbrev Queued := Request × TraceRequestSpec

/-- The id of the `n`-th request that is loaded. -/
def requestIdOf (n : Nat) : RequestId := s!"req-{n}"

theorem requestIdOf_injective : Function.Injective requestIdOf := by
  intro m n h
  simp only [requestIdOf, toString] at h
  exact Nat.repr_injective ((String.append_right_inj _).mp h)

/-- The request that a specification becomes. -/
def TraceRequestSpec.request (spec : TraceRequestSpec) (id : RequestId) : Request where
  requestId := id
  promptTokenIds := List.range spec.promptLen
  maxNewTokens := spec.maxNewTokens
  arrivalTime := spec.arrivalTime

/-- The requests of a trace whose first one has number `n`. -/
def queuedFrom (n : Nat) : List TraceRequestSpec → List Queued
  | [] => []
  | spec :: specs => (spec.request (requestIdOf n), spec) :: queuedFrom (n + 1) specs

variable {specs : List TraceRequestSpec} {n : Nat}

theorem request_new (spec : TraceRequestSpec) (id : RequestId) :
    Request.new id (List.range spec.promptLen) spec.maxNewTokens spec.arrivalTime =
      .ok (spec.request id) := by
  have hprompt : ¬ List.range spec.promptLen = [] := by
    rw [List.range_eq_nil]
    exact Nat.ne_of_gt spec.promptLen_pos
  rw [Request.new, if_neg hprompt, if_neg (Nat.not_lt.mpr spec.maxNewTokens_pos),
    if_neg (not_lt.mpr spec.arrivalTime_nonneg)]
  rfl

theorem request_asked (spec : TraceRequestSpec) (id : RequestId) :
    Asked id spec (spec.request id) where
  id := rfl
  promptLen := List.length_range
  maxNewTokens := rfl
  arrivalTime := rfl

/-- The ids of a trace are those from its first number on. -/
theorem queuedFrom_id {x : Queued} (hx : x ∈ queuedFrom n specs) :
    ∃ m, n ≤ m ∧ x = (x.2.request (requestIdOf m), x.2) := by
  induction specs generalizing n with
  | nil => exact absurd hx List.not_mem_nil
  | cons spec specs ih =>
      rcases List.mem_cons.mp hx with rfl | hx
      · exact ⟨n, Nat.le_refl n, rfl⟩
      · obtain ⟨m, hm, heq⟩ := ih hx
        exact ⟨m, by omega, heq⟩

/-- No id from the counter on is in use. -/
def Fresh (e : SimulationEngine) : Prop :=
  ∀ m, e.idCounter ≤ m → e.specById.get? (requestIdOf m) = none ∧
    e.waiting.get? (requestIdOf m) = none

/-- `load_trace` appends the requests of the trace. -/
theorem loadTrace_spec {κ : Type} {e : Engine κ} (hfresh : Fresh e.toSimulationEngine) :
    (Engine.loadTrace specs).Returns (fun _ e' => ∃ specById waiting,
      specById.entries = e.specById.entries ++
        (queuedFrom e.idCounter specs).map (fun x => (x.1.requestId, x.2)) ∧
      waiting.entries = e.waiting.entries ++
        (queuedFrom e.idCounter specs).map (fun x => (x.1.requestId, x.1)) ∧
      e' = { e with idCounter := e.idCounter + specs.length, specById, waiting }) e := by
  induction specs generalizing e with
  | nil =>
      exact ⟨e.specById, e.waiting, (List.append_nil _).symm, (List.append_nil _).symm, rfl⟩
  | cons spec specs ih =>
      obtain ⟨hspec, hwaiting⟩ := hfresh e.idCounter (Nat.le_refl _)
      refine wp_bind (wp_bind (wp_bind (wp_read.mpr (wp_bind (wp_modify.mpr (wp_pure.mpr ?_))))))
      refine wp_bind (wp_ofExcept (request_new spec _) (wp_bind (wp_modify.mpr (wp_pure.mpr ?_))))
      have hnext : Fresh { e.toSimulationEngine with
          idCounter := e.idCounter + 1
          specById := e.specById.set (requestIdOf e.idCounter) spec
          waiting := e.waiting.set (requestIdOf e.idCounter)
            (spec.request (requestIdOf e.idCounter)) } := by
        intro m hm
        have hne : requestIdOf m ≠ requestIdOf e.idCounter := fun heq => by
          have := requestIdOf_injective heq
          have hm : e.idCounter + 1 ≤ m := hm
          omega
        obtain ⟨hspec, hwaiting⟩ := hfresh m (Nat.le_of_succ_le hm)
        exact ⟨(Dict.get?_set_ne hne).trans hspec, (Dict.get?_set_ne hne).trans hwaiting⟩
      have hrest := ih (e := { e with
        idCounter := e.idCounter + 1
        specById := e.specById.set (requestIdOf e.idCounter) spec
        waiting := e.waiting.set (requestIdOf e.idCounter)
          (spec.request (requestIdOf e.idCounter)) }) hnext
      refine wp_bind (Returns.mono hrest fun requests e' ⟨specById, waiting, hs, hw, he'⟩ => ?_)
      refine wp_pure.mpr ⟨specById, waiting, ?_, ?_, ?_⟩
      · rw [hs, Dict.entries_set_new hspec, List.append_assoc]
        rfl
      · rw [hw, Dict.entries_set_new hwaiting, List.append_assoc]
        rfl
      · rw [he', List.length_cons, Nat.add_comm specs.length 1, ← Nat.add_assoc]

/-- An engine that has loaded a trace and taken no step. -/
structure LoadedWith (start decodeTick : ℚ) (specs : List TraceRequestSpec)
    (b : SimulationEngine) : Prop where
  same : ∃ idCounter specById waiting,
    b = { now := start, decodeTick, idCounter, specById, waiting }
  specById : b.specById.entries = (queuedFrom 1 specs).map fun x => (x.1.requestId, x.2)
  waiting : b.waiting.entries = (queuedFrom 1 specs).map fun x => (x.1.requestId, x.1)

theorem loadTrace_loaded {κ : Type} {e : Engine κ} (specs : List TraceRequestSpec)
    {start decodeTick : ℚ} (hbase : e.toSimulationEngine = { now := start, decodeTick }) :
    (Engine.loadTrace specs).Returns (fun _ e' =>
      LoadedWith start decodeTick specs e'.toSimulationEngine ∧ e'.own = e.own) e := by
  have hfresh : Fresh e.toSimulationEngine := by
    rw [hbase]
    exact fun m _ => ⟨rfl, rfl⟩
  refine Returns.mono (loadTrace_spec hfresh) fun _ e' ⟨specById, waiting, hs, hw, he'⟩ => ?_
  rw [hbase] at hs hw
  rw [he', hbase]
  exact ⟨⟨⟨_, _, _, rfl⟩, hs, hw⟩, rfl⟩

variable {start decodeTick : ℚ} {b : SimulationEngine}

theorem LoadedWith.spec (h : LoadedWith start decodeTick specs b) {x : Queued}
    (hx : x ∈ queuedFrom 1 specs) : b.specById.get? x.1.requestId = some x.2 :=
  Dict.get?_of_mem (by rw [h.specById]; exact List.mem_map_of_mem hx)

/-- A loaded trace waits under its ids. -/
theorem LoadedWith.orderly (h : LoadedWith start decodeTick specs b) : Orderly b where
  waiting id r hr := by
    have hr := Dict.mem_of_get? hr
    rw [h.waiting] at hr
    obtain ⟨x, hx, heq⟩ := List.mem_map.mp hr
    obtain ⟨rfl, rfl⟩ := Prod.mk.inj heq
    obtain ⟨m, -, hasked⟩ := queuedFrom_id hx
    refine ⟨x.2, h.spec hx, ?_⟩
    rw [hasked]
    exact ⟨request_asked _ _, rfl⟩
  running id seq hseq := by
    obtain ⟨_, _, _, hsame⟩ := h.same
    rw [hsame] at hseq
    nomatch hseq
  apart id r _ := by
    obtain ⟨_, _, _, hsame⟩ := h.same
    rw [hsame]
    rfl

end PassionProjects.MiniPaged
