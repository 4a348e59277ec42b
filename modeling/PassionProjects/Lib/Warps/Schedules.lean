/-
  PassionProjects.Lib.Warps.Schedules

  Programs of the threads of a block that also meet in warps, and a grid of such blocks under
  every schedule.  Where the members of a group meet, each of them brings a value and goes on
  with the values of all; a barrier is a meeting of the block, a shuffle one of a warp.

  At each step some thread performs its next operation, or a group all of whose members wait
  for each other goes on.  A plan is one order of all steps; where two operations of different
  threads, with no meeting of both between them, do not depend on each other, every schedule
  does what the plan does.
-/

import Mathlib.Data.List.Basic

namespace PassionProjects.Warps

section Programs

/-- Threads that wait for each other: those of a block, or 32 of them. -/
inductive Group where
  | block
  | warp (w : Nat)
  deriving DecidableEq

/-- The members of a group in a block of `n` threads. -/
def Group.Has (n : Nat) : Group → Nat → Prop
  | .block, i => i < n
  | .warp w, i => i < n ∧ i / 32 = w

instance (n : Nat) (g : Group) (i : Nat) : Decidable (g.Has n i) := by
  cases g with
  | block => exact inferInstanceAs (Decidable (i < n))
  | warp w => exact inferInstanceAs (Decidable (i < n ∧ i / 32 = w))

theorem Group.Has.lt {n : Nat} {g : Group} {i : Nat} (h : g.Has n i) : i < n := by
  cases g with
  | block => exact h
  | warp w => exact h.1

/-- A thread that ends with an `R`.  An operation is answered with a `V`. -/
inductive Program (Op V R : Type) where
  | ret (r : R)
  | act (o : Op) (k : V → Program Op V R)
  | meet (g : Group) (v : V) (k : (Nat → V) → Program Op V R)

namespace Program

variable {Op V R R' : Type}

def bind : Program Op V R → (R → Program Op V R') → Program Op V R'
  | .ret r, f => f r
  | .act o k, f => .act o fun v => (k v).bind f
  | .meet g v k, f => .meet g v fun vs => (k vs).bind f

instance : Monad (Program Op V) where
  pure := .ret
  bind := .bind

@[simp] theorem ret_bind (r : R) (f : R → Program Op V R') : (ret r >>= f) = f r := rfl

@[simp] theorem act_bind (o : Op) (k : V → Program Op V R) (f : R → Program Op V R') :
    (act o k >>= f) = act o fun v => k v >>= f := rfl

@[simp] theorem meet_bind (g : Group) (v : V) (k : (Nat → V) → Program Op V R)
    (f : R → Program Op V R') : (meet g v k >>= f) = meet g v fun vs => k vs >>= f := rfl

@[simp] theorem bind_ret (p : Program Op V R) : p >>= ret = p := by
  induction p with
  | ret r => rfl
  | act o k ih => exact congrArg (act o) (funext ih)
  | meet g v k ih => exact congrArg (meet g v) (funext ih)

theorem bind_bind {R'' : Type} (p : Program Op V R) (f : R → Program Op V R')
    (g : R' → Program Op V R'') : p >>= f >>= g = p >>= fun r => f r >>= g := by
  induction p with
  | ret r => rfl
  | act o k ih => exact congrArg (act o) (funext ih)
  | meet h v k ih => exact congrArg (meet h v) (funext ih)

instance : LawfulMonad (Program Op V) :=
  LawfulMonad.mk' _ (fun p => bind_ret p) (fun _ _ => rfl) bind_bind

/-- One operation, and its answer. -/
def perform (o : Op) : Program Op V V := act o ret

/-- `__syncthreads()` -/
def barrier [Zero V] : Program Op V Unit := meet .block 0 fun _ => ret ()

/-- `__shfl_down_sync` with a full mask: a lane beyond the end of the warp is answered with
    the value it brought. -/
def shflDown (tid : Nat) (v : V) (offset : Nat) : Program Op V V :=
  meet (.warp (tid / 32)) v fun vs => ret (if tid % 32 + offset < 32 then vs (tid + offset) else v)

end Program

end Programs

section Schedules

open Program

variable {Op V S R : Type}

structure Config (Op V S : Type) where
  state : S
  threads : Nat → Nat → Program Op V Unit

/-- What happened at one step: thread `i` of block `b` performed an operation, or a group of
    the block met. -/
inductive Label (Op V : Type) where
  | act (b i : Nat) (o : Op) (v : V)
  | meet (b : Nat) (g : Group) (vs : Nat → V)

/-- The threads that take part. -/
def Label.Involves (n : Nat) : Label Op V → Nat → Nat → Prop
  | .act b' i' _ _, b, i => b' = b ∧ i' = i
  | .meet b' g _, b, i => b' = b ∧ g.Has n i

instance (n : Nat) (l : Label Op V) (b i : Nat) : Decidable (l.Involves n b i) := by
  cases l with
  | act b' i' o v => exact inferInstanceAs (Decidable (b' = b ∧ i' = i))
  | meet b' g vs => exact inferInstanceAs (Decidable (b' = b ∧ g.Has n i))

section Steps

variable [Zero V] (n : Nat) (exec : Op → S → V × S)

/-- Blocks have `n` threads.  Of who is no member nothing is known at a meeting. -/
inductive Step : Config Op V S → Label Op V → Config Op V S → Prop where
  | act {c : Config Op V S} {b i : Nat} {o : Op} {k : V → Program Op V Unit} :
      c.threads b i = .act o k →
        Step c (.act b i o (exec o c.state).1)
          ⟨(exec o c.state).2, fun b' i' =>
            if b = b' ∧ i = i' then k (exec o c.state).1 else c.threads b' i'⟩
  | meet {c : Config Op V S} {b : Nat} {g : Group} {vs : Nat → V}
      {k : Nat → (Nat → V) → Program Op V Unit} :
      (∃ i, g.Has n i) → (∀ i, g.Has n i → c.threads b i = .meet g (vs i) (k i)) →
        (∀ i, ¬ g.Has n i → vs i = 0) →
          Step c (.meet b g vs)
            ⟨c.state, fun b' i => if b = b' ∧ g.Has n i then k i vs else c.threads b' i⟩

/-- The steps taken, in their order. -/
inductive Run (c : Config Op V S) : List (Label Op V) → Config Op V S → Prop where
  | start : Run c [] c
  | step {c' c'' : Config Op V S} {tr : List (Label Op V)} {l : Label Op V} :
      Run c tr c' → Step n exec c' l c'' → Run c (tr ++ [l]) c''

end Steps

def Config.Finished (c : Config Op V S) : Prop := ∀ b i, c.threads b i = .ret ()

-- ============================================================================
-- Operations that do not depend on each other
-- ============================================================================

/-- Neither the answers nor the state tell in which order the two were performed. -/
def Commute (exec : Op → S → V × S) (o o' : Op) : Prop :=
  ∀ s, (exec o (exec o' s).2).1 = (exec o s).1 ∧ (exec o' (exec o s).2).1 = (exec o' s).1 ∧
    (exec o' (exec o s).2).2 = (exec o (exec o' s).2).2

/-- The state goes from `s` to `s'` with the answers that the labels give. -/
def Replays (exec : Op → S → V × S) : List (Label Op V) → S → S → Prop
  | [], s, s' => s = s'
  | .act _ _ o v :: w, s, s' => (exec o s).1 = v ∧ Replays exec w (exec o s).2 s'
  | .meet _ _ _ :: w, s, s' => Replays exec w s s'

variable {exec : Op → S → V × S}

theorem replays_append {w w' : List (Label Op V)} {s s' : S} :
    Replays exec (w ++ w') s s' ↔ ∃ s₁, Replays exec w s s₁ ∧ Replays exec w' s₁ s' := by
  induction w generalizing s with
  | nil => simp [Replays]
  | cons l w ih =>
      cases l with
      | act b i o v => simp [Replays, ih, and_assoc]
      | meet b g vs => simp [Replays, ih]

/-- An operation is performed first where it commutes with what stands before it. -/
theorem replays_first {w w' : List (Label Op V)} {b i : Nat} {o : Op} {v : V} {s s' : S}
    (hw : ∀ b' i' o' v', .act b' i' o' v' ∈ w → Commute exec o o')
    (h : Replays exec (w ++ .act b i o v :: w') s s') :
    (exec o s).1 = v ∧ Replays exec (w ++ w') (exec o s).2 s' := by
  induction w generalizing s with
  | nil => exact h
  | cons l w ih =>
      have htail := fun b' i' o' v' hmem => hw b' i' o' v' (List.mem_cons_of_mem l hmem)
      cases l with
      | act b' i' o' v' =>
          obtain ⟨hanswer, hrest⟩ := h
          obtain ⟨hfirst, hsecond, hstate⟩ := hw b' i' o' v' (by simp) s
          obtain ⟨hv, hgo⟩ := ih htail hrest
          rw [hfirst] at hv
          exact ⟨hv, hsecond.trans hanswer, hstate ▸ hgo⟩
      | meet b' g vs => exact ih htail h

/-- A meeting does nothing to the state. -/
theorem replays_meet {w w' : List (Label Op V)} {b : Nat} {g : Group} {vs : Nat → V} {s s' : S}
    (h : Replays exec (w ++ .meet b g vs :: w') s s') : Replays exec (w ++ w') s s' := by
  obtain ⟨s₁, hw, hw'⟩ := replays_append.mp h
  exact replays_append.mpr ⟨s₁, hw, hw'⟩

-- ============================================================================
-- What one thread does in a plan
-- ============================================================================

variable {n b i : Nat}

/-- Thread `i` of block `b` takes those steps in which it takes part. -/
inductive Takes (n b i : Nat) : Program Op V R → List (Label Op V) → Program Op V R → Prop where
  | nil {p : Program Op V R} : Takes n b i p [] p
  | act {o : Op} {k : V → Program Op V R} {v : V} {w : List (Label Op V)} {q : Program Op V R} :
      Takes n b i (k v) w q → Takes n b i (.act o k) (.act b i o v :: w) q
  | meet {g : Group} {vs : Nat → V} {k : (Nat → V) → Program Op V R} {w : List (Label Op V)}
      {q : Program Op V R} :
      g.Has n i → Takes n b i (k vs) w q → Takes n b i (.meet g (vs i) k) (.meet b g vs :: w) q
  | skip {p : Program Op V R} {l : Label Op V} {w : List (Label Op V)} {q : Program Op V R} :
      ¬ l.Involves n b i → Takes n b i p w q → Takes n b i p (l :: w) q

namespace Takes

variable {p q r : Program Op V R} {w w' : List (Label Op V)} {l : Label Op V}

theorem append (h : Takes n b i p w q) (h' : Takes n b i q w' r) :
    Takes n b i p (w ++ w') r := by
  induction h with
  | nil => exact h'
  | act _ ih => exact .act (ih h')
  | meet hg _ ih => exact .meet hg (ih h')
  | skip hl _ ih => exact .skip hl (ih h')

theorem skip_all (hw : ∀ l ∈ w, ¬ l.Involves n b i) (h : Takes n b i p w' q) :
    Takes n b i p (w ++ w') q := by
  induction w with
  | nil => exact h
  | cons l w ih =>
      exact .skip (hw l List.mem_cons_self) (ih fun l' hl' => hw l' (List.mem_cons_of_mem l hl'))

theorem none (hw : ∀ l ∈ w, ¬ l.Involves n b i) : Takes n b i p w p := by
  have h := skip_all hw (.nil (p := p))
  rwa [List.append_nil] at h

theorem of_skip (hl : ¬ l.Involves n b i) (h : Takes n b i p (l :: w) q) : Takes n b i p w q := by
  cases h with
  | act _ => exact absurd ⟨rfl, rfl⟩ hl
  | meet hg _ => exact absurd ⟨rfl, hg⟩ hl
  | skip _ h => exact h

/-- Without a step in which it takes no part. -/
theorem remove (hl : ¬ l.Involves n b i) (h : Takes n b i p (w ++ l :: w') q) :
    Takes n b i p (w ++ w') q := by
  induction w generalizing p with
  | nil => exact h.of_skip hl
  | cons a w ih =>
      cases h with
      | act h => exact .act (ih h)
      | meet hg h => exact .meet hg (ih h)
      | skip ha h => exact .skip ha (ih h)

theorem nil_eq (h : Takes n b i p [] q) : p = q := by
  cases h
  rfl

theorem ret_eq {a : R} (h : Takes n b i (.ret a) w q) : ∀ l ∈ w, ¬ l.Involves n b i := by
  generalize hp : Program.ret a = p at h
  induction h with
  | nil => exact fun l hl => absurd hl List.not_mem_nil
  | act _ => exact absurd hp (by simp)
  | meet _ _ => exact absurd hp (by simp)
  | skip hl _ ih => exact List.forall_mem_cons.mpr ⟨hl, ih hp⟩

theorem first_act {o : Op} {k : V → Program Op V R} {a : R}
    (h : Takes n b i (.act o k) w (.ret a)) :
    ∃ u v w', w = u ++ .act b i o v :: w' ∧ (∀ l ∈ u, ¬ l.Involves n b i) ∧
      Takes n b i (k v) w' (.ret a) := by
  induction w with
  | nil => exact absurd h.nil_eq (by simp)
  | cons l w ih =>
      cases h with
      | act h => exact ⟨[], _, w, rfl, by simp, h⟩
      | skip hl h =>
          obtain ⟨u, v, w', rfl, hu, hgo⟩ := ih h
          exact ⟨l :: u, v, w', rfl, List.forall_mem_cons.mpr ⟨hl, hu⟩, hgo⟩

theorem first_meet {g : Group} {v : V} {k : (Nat → V) → Program Op V R} {a : R}
    (h : Takes n b i (.meet g v k) w (.ret a)) :
    ∃ u vs w', w = u ++ .meet b g vs :: w' ∧ (∀ l ∈ u, ¬ l.Involves n b i) ∧ vs i = v ∧
      Takes n b i (k vs) w' (.ret a) := by
  induction w with
  | nil => exact absurd h.nil_eq (by simp)
  | cons l w ih =>
      cases h with
      | meet _ h => exact ⟨[], _, w, rfl, by simp, rfl, h⟩
      | skip hl h =>
          obtain ⟨u, vs, w', rfl, hu, hv, hgo⟩ := ih h
          exact ⟨l :: u, vs, w', rfl, List.forall_mem_cons.mpr ⟨hl, hu⟩, hv, hgo⟩

end Takes

-- ============================================================================
-- What a thread may still do
-- ============================================================================

namespace Program

/-- Whatever the answers are, the operations of the thread satisfy `P`. -/
def All (P : Op → Prop) : Program Op V R → Prop
  | .ret _ => True
  | .act o k => P o ∧ ∀ v, (k v).All P
  | .meet _ _ k => ∀ vs, (k vs).All P

/-- The operations satisfy `P` up to the first barrier, and `Q` behind it. -/
def Phased (P Q : Op → Prop) : Program Op V R → Prop
  | .ret _ => True
  | .act o k => P o ∧ ∀ v, (k v).Phased P Q
  | .meet g _ k => g = .block ∧ ∀ vs, (k vs).All Q

variable {R' : Type} {P Q : Op → Prop}

theorem All.mono {p : Program Op V R} (h : p.All P) (hPQ : ∀ o, P o → Q o) : p.All Q := by
  induction p with
  | ret r => trivial
  | act o k ih => exact ⟨hPQ o h.1, fun v => ih v (h.2 v)⟩
  | meet g v k ih => exact fun vs => ih vs (h vs)

theorem All.bind {p : Program Op V R} {f : R → Program Op V R'} (h : p.All P)
    (hf : ∀ r, (f r).All P) : (p >>= f).All P := by
  induction p with
  | ret r => exact hf r
  | act o k ih => exact ⟨h.1, fun v => ih v (h.2 v)⟩
  | meet g v k ih => exact fun vs => ih vs (h vs)

theorem All.forM {ι : Type} {xs : List ι} {body : ι → Program Op V Unit}
    (h : ∀ x ∈ xs, (body x).All P) : (xs.forM body).All P := by
  induction xs with
  | nil => trivial
  | cons x xs ih =>
      exact (h x List.mem_cons_self).bind fun _ => ih fun x' hx' =>
        h x' (List.mem_cons_of_mem x hx')

end Program

variable {P Q : Op → Prop}

namespace Takes

variable {p q : Program Op V R} {w : List (Label Op V)}

theorem all (h : Takes n b i p w q) (hp : p.All P) :
    q.All P ∧ ∀ o v, .act b i o v ∈ w → P o := by
  induction h with
  | nil => exact ⟨hp, fun o v hmem => absurd hmem List.not_mem_nil⟩
  | act _ ih =>
      obtain ⟨hq, hw⟩ := ih (hp.2 _)
      refine ⟨hq, fun o v hmem => ?_⟩
      rcases List.mem_cons.mp hmem with heq | hmem
      · injection heq with _ _ ho
        exact ho ▸ hp.1
      · exact hw o v hmem
  | meet _ _ ih =>
      obtain ⟨hq, hw⟩ := ih (hp _)
      refine ⟨hq, fun o v hmem => ?_⟩
      rcases List.mem_cons.mp hmem with heq | hmem
      · exact nomatch heq
      · exact hw o v hmem
  | skip hl _ ih =>
      obtain ⟨hq, hw⟩ := ih hp
      refine ⟨hq, fun o v hmem => ?_⟩
      rcases List.mem_cons.mp hmem with rfl | hmem
      · exact absurd ⟨rfl, rfl⟩ hl
      · exact hw o v hmem

/-- A thread has come to its first barrier, or not. -/
theorem phased (h : Takes n b i p w q) (hi : i < n) (hp : p.Phased P Q) :
    (q.Phased P Q ∧ ∀ vs, .meet b .block vs ∉ w) ∨ (q.All Q ∧ ∃ vs, .meet b .block vs ∈ w) := by
  induction h with
  | nil => exact .inl ⟨hp, fun vs hmem => absurd hmem List.not_mem_nil⟩
  | act _ ih =>
      refine (ih (hp.2 _)).imp (fun ⟨hq, hw⟩ => ⟨hq, fun vs hmem => ?_⟩)
        fun ⟨hq, vs, hmem⟩ => ⟨hq, vs, List.mem_cons_of_mem _ hmem⟩
      rcases List.mem_cons.mp hmem with heq | hmem
      · exact nomatch heq
      · exact hw vs hmem
  | @meet g vs k _ _ hg hrest _ =>
      obtain ⟨rfl, hk⟩ := hp
      exact .inr ⟨(hrest.all (hk vs)).1, vs, List.mem_cons_self⟩
  | skip hl _ ih =>
      refine (ih hp).imp (fun ⟨hq, hw⟩ => ⟨hq, fun vs hmem => ?_⟩)
        fun ⟨hq, vs, hmem⟩ => ⟨hq, vs, List.mem_cons_of_mem _ hmem⟩
      rcases List.mem_cons.mp hmem with rfl | hmem
      · exact hl ⟨rfl, hi⟩
      · exact hw vs hmem

end Takes

/-- The steps of a run in which a thread takes part are those it takes. -/
theorem Run.takes [Zero V] {exec : Op → S → V × S} {c c' : Config Op V S} {tr : List (Label Op V)}
    (h : Run n exec c tr c') (b i : Nat) : Takes n b i (c.threads b i) tr (c'.threads b i) := by
  induction h with
  | start => exact .nil
  | step _ hstep ih =>
      refine ih.append ?_
      cases hstep with
      | @act b' i' o k hthread =>
          dsimp only
          by_cases hown : b' = b ∧ i' = i
          · obtain ⟨rfl, rfl⟩ := hown
            rw [hthread, if_pos ⟨rfl, rfl⟩]
            exact .act .nil
          · rw [if_neg hown]
            exact .skip hown .nil
      | @meet b' g vs k _ hmembers _ =>
          dsimp only
          by_cases hown : b' = b ∧ g.Has n i
          · obtain ⟨rfl, hi⟩ := hown
            rw [hmembers i hi, if_pos ⟨rfl, hi⟩]
            exact .meet hi .nil
          · rw [if_neg hown]
            exact .skip hown .nil

end Schedules

end PassionProjects.Warps
