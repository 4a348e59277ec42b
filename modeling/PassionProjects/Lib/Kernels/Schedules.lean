/-
  PassionProjects.Lib.Kernels.Schedules

  Programs of the threads of a block, and a grid of blocks of threads under every schedule.
  A thread acts on a state that it shares with other threads, waits at a barrier until every
  thread of its block does, or has ended.

  At each step some thread performs its next operation, or a block all of whose threads wait
  at the barrier goes on.  Where the operations of different threads between two barriers,
  and those of different blocks, do not depend on each other, every schedule does what the
  threads do one after another.
-/

import Mathlib.Data.Fintype.EquivFin
import Mathlib.Data.List.Basic
import Mathlib.Data.List.Perm.Basic

namespace PassionProjects.Kernels

section Programs

/-- A thread that ends with an `R`.  An operation is answered with a `V`. -/
inductive Program (Op V R : Type) where
  | ret (r : R)
  | act (o : Op) (k : V → Program Op V R)
  | sync (k : Program Op V R)

namespace Program

variable {Op V R R' : Type}

def bind : Program Op V R → (R → Program Op V R') → Program Op V R'
  | .ret r, f => f r
  | .act o k, f => .act o fun v => (k v).bind f
  | .sync k, f => .sync (k.bind f)

instance : Monad (Program Op V) where
  pure := .ret
  bind := .bind

@[simp] theorem ret_bind (r : R) (f : R → Program Op V R') : (ret r >>= f) = f r := rfl

@[simp] theorem act_bind (o : Op) (k : V → Program Op V R) (f : R → Program Op V R') :
    (act o k >>= f) = act o fun v => k v >>= f := rfl

@[simp] theorem sync_bind (k : Program Op V R) (f : R → Program Op V R') :
    (sync k >>= f) = sync (k >>= f) := rfl

@[simp] theorem bind_ret (p : Program Op V R) : p >>= ret = p := by
  induction p with
  | ret r => rfl
  | act o k ih => exact congrArg (act o) (funext ih)
  | sync k ih => exact congrArg sync ih

theorem bind_bind {R'' : Type} (p : Program Op V R) (f : R → Program Op V R')
    (g : R' → Program Op V R'') : p >>= f >>= g = p >>= fun r => f r >>= g := by
  induction p with
  | ret r => rfl
  | act o k ih => exact congrArg (act o) (funext ih)
  | sync k ih => exact congrArg sync ih

instance : LawfulMonad (Program Op V) :=
  LawfulMonad.mk' _ (fun p => bind_ret p) (fun _ _ => rfl) bind_bind

/-- One operation, and its answer. -/
def perform (o : Op) : Program Op V V := act o ret

/-- Waits for the other threads of the block. -/
def barrier : Program Op V Unit := sync (ret ())

@[simp] theorem perform_bind (o : Op) (f : V → Program Op V R) :
    (perform o >>= f) = act o f := rfl

@[simp] theorem barrier_bind (f : Unit → Program Op V R) : (barrier >>= f) = sync (f ()) := rfl

-- ============================================================================
-- What one thread does by itself
-- ============================================================================

/-- `p` gets to `q` with these operations, each with the answer it got. -/
inductive Follows : Program Op V R → List (Op × V) → Program Op V R → Prop where
  | nil {p : Program Op V R} : Follows p [] p
  | act {o : Op} {k : V → Program Op V R} {v : V} {es : List (Op × V)} {q : Program Op V R} :
      Follows (k v) es q → Follows (.act o k) ((o, v) :: es) q

theorem Follows.ret_eq {r : R} {es : List (Op × V)} {q : Program Op V R}
    (h : Follows (.ret r) es q) : es = [] ∧ q = .ret r := by
  cases h
  exact ⟨rfl, rfl⟩

theorem Follows.sync_eq {k : Program Op V R} {es : List (Op × V)} {q : Program Op V R}
    (h : Follows (.sync k) es q) : es = [] ∧ q = .sync k := by
  cases h
  exact ⟨rfl, rfl⟩

end Program

end Programs

section Schedules

open Program

variable {B T Op V S : Type}

structure Config (B T Op V S : Type) where
  state : S
  threads : B → T → Program Op V Unit

/-- What happened at one step. -/
inductive Label (B T Op V : Type) where
  | act (b : B) (i : T) (o : Op) (v : V)
  | release (b : B)

section Steps

variable [DecidableEq B] [DecidableEq T] (exec : Op → S → V × S)

inductive Step : Config B T Op V S → Label B T Op V → Config B T Op V S → Prop where
  | act {c : Config B T Op V S} {b : B} {i : T} {o : Op} {k : V → Program Op V Unit} :
      c.threads b i = .act o k →
        Step c (.act b i o (exec o c.state).1)
          ⟨(exec o c.state).2, Function.update c.threads b
            (Function.update (c.threads b) i (k (exec o c.state).1))⟩
  | release {c : Config B T Op V S} {b : B} {k : T → Program Op V Unit} :
      (∀ i, c.threads b i = .sync (k i)) →
        Step c (.release b) ⟨c.state, Function.update c.threads b k⟩

/-- The steps taken, in their order. -/
inductive Run (c : Config B T Op V S) : List (Label B T Op V) → Config B T Op V S → Prop where
  | start : Run c [] c
  | step {c' c'' : Config B T Op V S} {tr : List (Label B T Op V)} {l : Label B T Op V} :
      Run c tr c' → Step exec c' l c'' → Run c (tr ++ [l]) c''

def Config.Finished (c : Config B T Op V S) : Prop :=
  ∀ b i, c.threads b i = .ret ()

end Steps

-- ============================================================================
-- Operations that do not depend on each other
-- ============================================================================

/-- Neither the answers nor the state tell in which order the two were performed. -/
def Commute (exec : Op → S → V × S) (o o' : Op) : Prop :=
  ∀ s, (exec o (exec o' s).2).1 = (exec o s).1 ∧ (exec o' (exec o s).2).1 = (exec o' s).1 ∧
    (exec o' (exec o s).2).2 = (exec o (exec o' s).2).2

/-- The state goes from `s` to `s'` with the answers that the labels give. -/
def Replays (exec : Op → S → V × S) : List (Label B T Op V) → S → S → Prop
  | [], s, s' => s = s'
  | .act _ _ o v :: ls, s, s' => (exec o s).1 = v ∧ Replays exec ls (exec o s).2 s'
  | .release _ :: ls, s, s' => Replays exec ls s s'

variable {exec : Op → S → V × S}

theorem replays_append {ls ls' : List (Label B T Op V)} {s s' : S} :
    Replays exec (ls ++ ls') s s' ↔ ∃ s₁, Replays exec ls s s₁ ∧ Replays exec ls' s₁ s' := by
  induction ls generalizing s with
  | nil => simp [Replays]
  | cons l ls ih =>
      cases l with
      | act b i o v => simp [Replays, ih, and_assoc]
      | release b => simp [Replays, ih]

/-- An operation is performed first where it commutes with what stands before it. -/
theorem replays_first {ls ls' : List (Label B T Op V)} {b : B} {i : T} {o : Op} {v : V} {s s' : S}
    (hls : ∀ b' i' o' v', .act b' i' o' v' ∈ ls → Commute exec o o')
    (h : Replays exec (ls ++ .act b i o v :: ls') s s') :
    (exec o s).1 = v ∧ Replays exec (ls ++ ls') (exec o s).2 s' := by
  induction ls generalizing s with
  | nil => exact h
  | cons l ls ih =>
      have htail := fun b' i' o' v' hmem => hls b' i' o' v' (List.mem_cons_of_mem l hmem)
      cases l with
      | act b' i' o' v' =>
          obtain ⟨hanswer, hrest⟩ := h
          obtain ⟨hfirst, hsecond, hstate⟩ := hls b' i' o' v' (by simp) s
          obtain ⟨hv, hgo⟩ := ih htail hrest
          rw [hfirst] at hv
          exact ⟨hv, hsecond.trans hanswer, hstate ▸ hgo⟩
      | release b' => exact ih htail h

-- ============================================================================
-- The threads one after another
-- ============================================================================

/-- The operations of each thread up to the next barrier. -/
abbrev Phase (T Op V : Type) := T → List (Op × V)

/-- The threads of a block do this between the barriers, and end. -/
inductive Phases : (T → Program Op V Unit) → List (Phase T Op V) → Prop where
  | last {ps : T → Program Op V Unit} {es : Phase T Op V} :
      (∀ i, Follows (ps i) (es i) (.ret ())) → Phases ps [es]
  | next {ps k : T → Program Op V Unit} {es : Phase T Op V} {rest : List (Phase T Op V)} :
      (∀ i, Follows (ps i) (es i) (.sync (k i))) → Phases k rest → Phases ps (es :: rest)

def actsOf (b : B) (i : T) (es : List (Op × V)) : List (Label B T Op V) :=
  es.map fun e => .act b i e.1 e.2

section Serial

variable [Fintype T]

/-- One thread after another. -/
noncomputable def phaseLabels (b : B) (es : Phase T Op V) : List (Label B T Op V) :=
  Finset.univ.toList.flatMap fun i => actsOf b i (es i)

noncomputable def laterLabels (b : B) : List (Phase T Op V) → List (Label B T Op V)
  | [] => []
  | es :: rest => .release b :: (phaseLabels b es ++ laterLabels b rest)

/-- One phase after another. -/
noncomputable def blockLabels (b : B) : List (Phase T Op V) → List (Label B T Op V)
  | [] => []
  | es :: rest => phaseLabels b es ++ laterLabels b rest

/-- One block after another. -/
noncomputable def serial [Fintype B] (plan : B → List (Phase T Op V)) : List (Label B T Op V) :=
  Finset.univ.toList.flatMap fun b => blockLabels b (plan b)

theorem act_mem_phaseLabels {b b' : B} {i : T} {o : Op} {v : V} {es : Phase T Op V} :
    .act b' i o v ∈ phaseLabels b es ↔ b' = b ∧ (o, v) ∈ es i := by
  simp only [phaseLabels, actsOf, List.mem_flatMap, List.mem_map, Finset.mem_toList,
    Finset.mem_univ, true_and, Label.act.injEq, Prod.exists]
  constructor
  · rintro ⟨j, o', v', hmem, rfl, rfl, rfl, rfl⟩
    exact ⟨rfl, hmem⟩
  · rintro ⟨rfl, hmem⟩
    exact ⟨i, o, v, hmem, rfl, rfl, rfl, rfl⟩

theorem act_mem_laterLabels {b b' : B} {i : T} {o : Op} {v : V} {ess : List (Phase T Op V)} :
    .act b' i o v ∈ laterLabels b ess ↔ b' = b ∧ ∃ es ∈ ess, (o, v) ∈ es i := by
  induction ess with
  | nil => simp [laterLabels]
  | cons es ess ih =>
      simp only [laterLabels, List.mem_cons, List.mem_append, reduceCtorEq, false_or, ih,
        act_mem_phaseLabels, exists_eq_or_imp, and_or_left]

theorem act_mem_blockLabels {b b' : B} {i : T} {o : Op} {v : V} {ess : List (Phase T Op V)} :
    .act b' i o v ∈ blockLabels b ess ↔ b' = b ∧ ∃ es ∈ ess, (o, v) ∈ es i := by
  cases ess with
  | nil => simp [blockLabels]
  | cons es ess =>
      simp only [blockLabels, List.mem_append, act_mem_laterLabels, act_mem_phaseLabels,
        List.mem_cons, exists_eq_or_imp, and_or_left]

/-- Only one part of a list of parts depends on one of its values. -/
theorem flatMap_update {ι β α : Type} [DecidableEq ι] [Fintype ι] (f : ι → β) (x : ι)
    (g : ι → β → List α) : ∃ before after : List ι, x ∉ before ∧
      ∀ y, Finset.univ.toList.flatMap (fun j => g j (Function.update f x y j)) =
        before.flatMap (fun j => g j (f j)) ++ (g x y ++ after.flatMap fun j => g j (f j)) := by
  have hnodup := (Finset.univ : Finset ι).nodup_toList
  obtain ⟨before, after, hxs⟩ := List.append_of_mem (Finset.mem_toList.mpr (Finset.mem_univ x))
  rw [hxs, List.nodup_append, List.nodup_cons] at hnodup
  have hbefore : x ∉ before := fun hmem => hnodup.2.2 x hmem x (by simp) rfl
  have hsame : ∀ (ys : List ι) (y : β), x ∉ ys →
      ys.flatMap (fun j => g j (Function.update f x y j)) = ys.flatMap fun j => g j (f j) := by
    intro ys y hys
    refine List.flatMap_congr fun j hj => ?_
    rw [Function.update_of_ne (ne_of_mem_of_not_mem hj hys)]
  refine ⟨before, after, hbefore, fun y => ?_⟩
  rw [hxs, List.flatMap_append, List.flatMap_cons, Function.update_self, hsame before y hbefore,
    hsame after y hnodup.2.1.1]

end Serial

-- ============================================================================
-- Going on with a plan
-- ============================================================================

section Advance

variable [DecidableEq B] [DecidableEq T]

/-- What is left of a plan after a step. -/
inductive Advance (plan : B → List (Phase T Op V)) :
    Label B T Op V → (B → List (Phase T Op V)) → Prop where
  | act {b : B} {i : T} {o : Op} {v : V} {es : Phase T Op V} {rest : List (Phase T Op V)}
      {tail : List (Op × V)} :
      plan b = es :: rest → es i = (o, v) :: tail →
        Advance plan (.act b i o v) (Function.update plan b (Function.update es i tail :: rest))
  | release {b : B} {es next : Phase T Op V} {rest : List (Phase T Op V)} :
      plan b = es :: next :: rest → (∀ i, es i = []) →
        Advance plan (.release b) (Function.update plan b (next :: rest))

/-- Operations that are not ordered by a barrier are apart. -/
structure Independent (apart : Op → Op → Prop) (plan : B → List (Phase T Op V)) : Prop where
  threads : ∀ b, ∀ es ∈ plan b, ∀ i j, i ≠ j → ∀ e ∈ es i, ∀ e' ∈ es j, apart e.1 e'.1
  blocks : ∀ b b', b ≠ b' → ∀ es ∈ plan b, ∀ es' ∈ plan b', ∀ i j, ∀ e ∈ es i, ∀ e' ∈ es' j,
    apart e.1 e'.1

variable {apart : Op → Op → Prop} {plan plan' : B → List (Phase T Op V)} {l : Label B T Op V}

/-- Nothing is added to a plan. -/
theorem Advance.part (h : Advance plan l plan') {b : B} {es' : Phase T Op V}
    (hes' : es' ∈ plan' b) : ∃ es ∈ plan b, ∀ i, es' i ⊆ es i := by
  cases h with
  | @act b₀ i o v es rest tail hplan hes =>
      rcases eq_or_ne b b₀ with rfl | hne
      · rw [Function.update_self] at hes'
        rcases List.mem_cons.mp hes' with rfl | hrest
        · refine ⟨es, by simp [hplan], fun j => ?_⟩
          rcases eq_or_ne j i with rfl | hne
          · rw [Function.update_self, hes]
            exact List.subset_cons_self _ _
          · rw [Function.update_of_ne hne]
            exact List.Subset.refl _
        · exact ⟨es', by simp [hplan, hrest], fun i => List.Subset.refl _⟩
      · rw [Function.update_of_ne hne] at hes'
        exact ⟨es', hes', fun i => List.Subset.refl _⟩
  | @release b₀ es next rest hplan hes =>
      rcases eq_or_ne b b₀ with rfl | hne
      · rw [Function.update_self] at hes'
        exact ⟨es', by rw [hplan]; exact List.mem_cons_of_mem _ hes', fun i => List.Subset.refl _⟩
      · rw [Function.update_of_ne hne] at hes'
        exact ⟨es', hes', fun i => List.Subset.refl _⟩

theorem Advance.independent (h : Advance plan l plan') (hplan : Independent apart plan) :
    Independent apart plan' where
  threads b es hes i j hij e he e' he' := by
    obtain ⟨es₀, hes₀, hsub⟩ := h.part hes
    exact hplan.threads b es₀ hes₀ i j hij e (hsub i he) e' (hsub j he')
  blocks b b' hbb es hes es' hes' i j e he e' he' := by
    obtain ⟨es₀, hes₀, hsub⟩ := h.part hes
    obtain ⟨es₀', hes₀', hsub'⟩ := h.part hes'
    exact hplan.blocks b b' hbb es₀ hes₀ es₀' hes₀' i j e (hsub i he) e' (hsub' j he')

variable [Fintype B] [Fintype T]

/-- The step is one of the steps that were left, and apart from those that stand before it
    in the serial order. -/
theorem Advance.serial (h : Advance plan l plan') (hplan : Independent apart plan) :
    ∃ before after, serial plan = before ++ l :: after ∧ serial plan' = before ++ after ∧
      ∀ b i o v b' i' o' v', l = .act b i o v → .act b' i' o' v' ∈ before → apart o o' := by
  cases h with
  | @act b i o v es rest tail hb hes =>
      obtain ⟨blocks, blocks', hblocks, hserial⟩ := flatMap_update plan b blockLabels
      obtain ⟨threads, threads', hthreads, hphase⟩ := flatMap_update es i (actsOf b)
      have hbefore := hserial (plan b)
      have hphase₀ := hphase (es i)
      rw [Function.update_eq_self, hb] at hbefore
      rw [Function.update_eq_self, hes] at hphase₀
      refine ⟨blocks.flatMap (fun b => blockLabels b (plan b)) ++
        threads.flatMap (fun i => actsOf b i (es i)),
        actsOf b i tail ++ (threads'.flatMap (fun i => actsOf b i (es i)) ++
          (laterLabels b rest ++ blocks'.flatMap fun b => blockLabels b (plan b))), ?_, ?_, ?_⟩
      · rw [Kernels.serial, hbefore, blockLabels, phaseLabels, hphase₀]
        simp only [actsOf, List.map_cons, List.append_assoc, List.cons_append]
      · rw [Kernels.serial, hserial, blockLabels, phaseLabels, hphase]
        simp only [List.append_assoc]
      · rintro b₀ i₀ o₀ v₀ b' i' o' v' heq hmem
        obtain ⟨rfl, rfl, rfl, rfl⟩ := Label.act.inj heq
        have hmine : es ∈ plan b := by simp [hb]
        have he : (o, v) ∈ es i := by simp [hes]
        rcases List.mem_append.mp hmem with hmem | hmem
        · obtain ⟨b₁, hb₁, hmem⟩ := List.mem_flatMap.mp hmem
          obtain ⟨rfl, es', hes', he'⟩ := act_mem_blockLabels.mp hmem
          exact hplan.blocks b b' (ne_of_mem_of_not_mem hb₁ hblocks).symm es hmine es' hes' i i'
            _ he _ he'
        · obtain ⟨j, hj, hmem⟩ := List.mem_flatMap.mp hmem
          obtain ⟨e', he', heq⟩ := List.mem_map.mp hmem
          obtain ⟨rfl, rfl, rfl, rfl⟩ := Label.act.inj heq
          exact hplan.threads b es hmine i j (ne_of_mem_of_not_mem hj hthreads).symm _ he _ he'
  | @release b es next rest hb hes =>
      obtain ⟨blocks, blocks', -, hserial⟩ := flatMap_update plan b blockLabels
      have hbefore := hserial (plan b)
      have hnone : phaseLabels b es = [] := by simp [phaseLabels, actsOf, hes]
      rw [Function.update_eq_self, hb] at hbefore
      refine ⟨blocks.flatMap fun b => blockLabels b (plan b), blockLabels b (next :: rest) ++
        blocks'.flatMap fun b => blockLabels b (plan b), ?_, hserial _, by simp⟩
      rw [Kernels.serial, hbefore, blockLabels, hnone]
      rfl

end Advance

-- ============================================================================
-- Blocks that keep to a plan
-- ============================================================================

section Phases

variable [DecidableEq T] {ps k : T → Program Op V Unit} {ess : List (Phase T Op V)}

omit [DecidableEq T] in
theorem Phases.cons_of (h : Phases ps ess) : ∃ es rest, ess = es :: rest := by
  cases h with
  | last _ => exact ⟨_, _, rfl⟩
  | next _ _ => exact ⟨_, _, rfl⟩

theorem Follows.of_act {R : Type} {o : Op} {k : V → Program Op V R} {es : List (Op × V)}
    {q : Program Op V R} (h : Follows (.act o k) es q) (hq : q ≠ .act o k) :
    ∃ v tail, es = (o, v) :: tail ∧ Follows (k v) tail q := by
  cases h with
  | nil => exact absurd rfl hq
  | act h => exact ⟨_, _, rfl, h⟩

/-- A thread goes on by the first operation that is left for it. -/
theorem Phases.act {i : T} {o : Op} {k : V → Program Op V Unit} (h : Phases ps ess)
    (hi : ps i = .act o k) : ∃ es rest v tail, ess = es :: rest ∧ es i = (o, v) :: tail ∧
      Phases (Function.update ps i (k v)) (Function.update es i tail :: rest) := by
  cases h with
  | @last _ es hes =>
      obtain ⟨v, tail, heq, hgo⟩ := Follows.of_act (hi ▸ hes i) (by simp)
      refine ⟨es, [], v, tail, rfl, heq, .last fun j => ?_⟩
      rcases eq_or_ne j i with rfl | hne
      · rwa [Function.update_self, Function.update_self]
      · rw [Function.update_of_ne hne, Function.update_of_ne hne]
        exact hes j
  | @next _ k' es rest hes hrest =>
      obtain ⟨v, tail, heq, hgo⟩ := Follows.of_act (hi ▸ hes i) (by simp)
      refine ⟨es, rest, v, tail, rfl, heq, .next (fun j => ?_) hrest⟩
      rcases eq_or_ne j i with rfl | hne
      · rw [Function.update_self, Function.update_self]
        exact hgo
      · rw [Function.update_of_ne hne, Function.update_of_ne hne]
        exact hes j

omit [DecidableEq T] in
theorem Phases.release [Nonempty T] (h : Phases ps ess) (hk : ∀ i, ps i = .sync (k i)) :
    ∃ es next rest, ess = es :: next :: rest ∧ (∀ i, es i = []) ∧ Phases k (next :: rest) := by
  cases h with
  | @last _ es hes =>
      have hi := hes (Classical.arbitrary T)
      rw [hk] at hi
      exact absurd hi.sync_eq.2 (by simp)
  | @next _ k' es rest hes hrest =>
      obtain ⟨next, rest, rfl⟩ := hrest.cons_of
      have hsync : ∀ i, es i = [] ∧ k' i = k i := fun i => by
        have hi := hes i
        rw [hk] at hi
        exact ⟨hi.sync_eq.1, Program.sync.inj hi.sync_eq.2⟩
      exact ⟨es, next, rest, rfl, fun i => (hsync i).1, funext (fun i => (hsync i).2) ▸ hrest⟩

omit [DecidableEq T] in
/-- A block none of whose threads can act has ended or waits at the barrier. -/
theorem Phases.stopped (h : Phases ps ess) (hstop : ∀ i o k, ps i ≠ .act o k) :
    (∀ i, ps i = .ret ()) ∨ ∃ k : T → Program Op V Unit, ∀ i, ps i = .sync (k i) := by
  have hnil : ∀ i es q, Follows (ps i) es q → ps i = q := by
    intro i es q hi
    generalize hp : ps i = p at hi
    cases hi with
    | nil => rfl
    | act _ => exact absurd hp (hstop i _ _)
  cases h with
  | last hes => exact .inl fun i => hnil i _ _ (hes i)
  | next hes _ => exact .inr ⟨_, fun i => hnil i _ _ (hes i)⟩

end Phases

end Schedules

end PassionProjects.Kernels
