/-
  PassionProjects.Lib.Raising

  Computations that read and change a state and may raise: what they left of the
  state is kept when they raise, as in a language with exceptions and mutable objects.
  `wp` says how a computation ends, with one rule for each way to build one.
-/

import Mathlib.Data.List.Basic

namespace PassionProjects.Raising

/-- A computation over a state `σ` that returns an `α` or raises an `ε`. -/
def Prog (ε σ α : Type) := σ → Except ε α × σ

namespace Prog

variable {ε σ τ α β : Type}

/-- `m`, and then what `f` does with the value it returns. -/
def andThen (m : Prog ε σ α) (f : α → Prog ε σ β) : Prog ε σ β := fun s =>
  match m s with
  | (.ok a, s') => f a s'
  | (.error e, s') => (.error e, s')

instance : Monad (Prog ε σ) where
  pure a := fun s => (.ok a, s)
  bind := andThen

/-- Raises `e`. -/
def raise (e : ε) : Prog ε σ α := fun s => (.error e, s)

/-- Reads the state. -/
def read : Prog ε σ σ := fun s => (.ok s, s)

/-- Changes the state. -/
def modify (f : σ → σ) : Prog ε σ Unit := fun s => (.ok (), f s)

/-- An assertion: raises `e` where `p` is false. -/
def check (p : Prop) [Decidable p] (e : ε) : Prog ε σ Unit := if p then pure () else raise e

/-- Adds `c` to what was asked for: raises `e` where `p` is false. -/
def ask (p : Prop) [Decidable p] (e : ε) (c : α) : Prog ε (List α) Unit := do
  check p e
  modify (· ++ [c])

/-- A value there has to be: raises `e` where there is none. -/
def unwrap (e : ε) : Option α → Prog ε σ α
  | some a => pure a
  | none => raise e

/-- A result that depends on no state. -/
def ofExcept (x : Except ε α) : Prog ε σ α := fun s => (x, s)

/-- What `m` does to a part of the state. -/
def onPart (get : σ → τ) (set : τ → σ → σ) (m : Prog ε τ α) : Prog ε σ α := fun s =>
  ((m (get s)).1, set (m (get s)).2 s)

/-- `m`, with what it raises dropped. -/
def attempt (m : Prog ε σ α) : Prog ε σ Unit := fun s => (.ok (), (m s).2)

/-- `m`, with the exceptions of a kind caught: nothing where one was. -/
def caught (p : ε → Bool) (m : Prog ε σ α) : Prog ε σ (Option α) := fun s =>
  match m s with
  | (.ok a, s') => (.ok (some a), s')
  | (.error e, s') => (if p e then .ok none else .error e, s')

/-- `f` for every element, in order. -/
def forEach : List β → (β → Prog ε σ Unit) → Prog ε σ Unit
  | [], _ => pure ()
  | b :: bs, f => do
      f b
      forEach bs f

-- ============================================================================
-- How a computation ends
-- ============================================================================

/-- From `s`, `m` returns with `Q` or raises with `R`. -/
def wp (m : Prog ε σ α) (Q : α → σ → Prop) (R : ε → σ → Prop) (s : σ) : Prop :=
  match m s with
  | (.ok a, s') => Q a s'
  | (.error e, s') => R e s'

/-- From `s`, `m` returns with `Q` and does not raise. -/
def Returns (m : Prog ε σ α) (Q : α → σ → Prop) (s : σ) : Prop := wp m Q (fun _ _ => False) s

variable {m : Prog ε σ α} {f : α → Prog ε σ β} {Q Q' : α → σ → Prop} {R R' : ε → σ → Prop} {s : σ}

theorem wp_pure {a : α} : wp (pure a : Prog ε σ α) Q R s ↔ Q a s := Iff.rfl

theorem wp_raise {e : ε} : wp (raise e : Prog ε σ α) Q R s ↔ R e s := Iff.rfl

theorem wp_read {Q : σ → σ → Prop} : wp (read : Prog ε σ σ) Q R s ↔ Q s s := Iff.rfl

theorem wp_modify {g : σ → σ} {Q : Unit → σ → Prop} :
    wp (modify g : Prog ε σ Unit) Q R s ↔ Q () (g s) := Iff.rfl

theorem wp_mono (h : wp m Q R s) (hQ : ∀ a s', Q a s' → Q' a s')
    (hR : ∀ e s', R e s' → R' e s') : wp m Q' R' s := by
  unfold wp at h ⊢
  rcases hm : m s with ⟨_ | _, s'⟩
  · rw [hm] at h
    exact hR _ _ h
  · rw [hm] at h
    exact hQ _ _ h

/-- What is shown of both ends holds of the end there is. -/
theorem wp_result {W : Except ε α → σ → Prop}
    (h : wp m (fun a => W (.ok a)) (fun e => W (.error e)) s) : W (m s).1 (m s).2 := by
  unfold wp at h
  rcases hm : m s with ⟨_ | _, s'⟩
  · rw [hm] at h
    exact h
  · rw [hm] at h
    exact h

/-- However `m` ends, it leaves what it leaves. -/
theorem wp_left : wp m (fun _ s' => s' = (m s).2) (fun _ s' => s' = (m s).2) s := by
  unfold wp
  rcases m s with ⟨_ | _, s'⟩ <;> rfl

/-- What follows a computation that returns. -/
theorem bind_ok {a : α} {s' : σ} (hm : m s = (.ok a, s')) : (m >>= f) s = f a s' := by
  show andThen m f s = _
  unfold andThen
  rw [hm]

/-- Nothing follows a computation that raises. -/
theorem bind_error {e : ε} {s' : σ} (hm : m s = (.error e, s')) :
    (m >>= f) s = (.error e, s') := by
  show andThen m f s = _
  unfold andThen
  rw [hm]

/-- What is left of the state does not depend on the value returned. -/
theorem bind_pure_snd {b : β} : ((m >>= fun _ => (pure b : Prog ε σ β)) s).2 = (m s).2 := by
  show (andThen m _ s).2 = _
  unfold andThen
  rcases hm : m s with ⟨_ | _, s'⟩ <;> rfl

theorem wp_bind {Q : β → σ → Prop} (h : wp m (fun a => wp (f a) Q R) R s) :
    wp (m >>= f) Q R s := by
  show wp (andThen m f) Q R s
  unfold wp andThen at *
  rcases hm : m s with ⟨_ | _, s'⟩
  · rw [hm] at h
    exact h
  · rw [hm] at h
    exact h

theorem wp_check {p : Prop} [Decidable p] {e : ε} {Q : Unit → σ → Prop} (hp : p)
    (h : Q () s) : wp (check p e : Prog ε σ Unit) Q R s := by
  rw [check, if_pos hp]
  exact h

theorem ask_ok {p : Prop} [Decidable p] {e : ε} {c : α} (hp : p) (cs : List α) :
    ask p e c cs = (.ok (), cs ++ [c]) := by
  simp only [ask, check, if_pos hp]
  rfl

theorem ask_error {p : Prop} [Decidable p] {e : ε} {c : α} (hp : ¬ p) (cs : List α) :
    ask p e c cs = (.error e, cs) := by
  simp only [ask, check, if_neg hp]
  rfl

theorem wp_unwrap {o : Option α} {e : ε} {a : α} (ho : o = some a) (h : Q a s) :
    wp (unwrap e o : Prog ε σ α) Q R s := by
  rw [ho]
  exact h

theorem wp_ofExcept {x : Except ε α} {a : α} (hx : x = .ok a) (h : Q a s) :
    wp (ofExcept x : Prog ε σ α) Q R s := by
  rw [hx]
  exact h

theorem wp_caught {p : ε → Bool} {Q : Option α → σ → Prop}
    (h : wp m (fun a => Q (some a)) (fun e s' => if p e then Q none s' else R e s') s) :
    wp (caught p m) Q R s := by
  unfold wp caught at *
  rcases hm : m s with ⟨e | _, s'⟩
  · rw [hm] at h
    dsimp only at h ⊢
    cases hp : p e with
    | true => simpa [hp] using h
    | false => simpa [hp] using h
  · rw [hm] at h
    exact h

theorem wp_onPart {get : σ → τ} {set : τ → σ → σ} {m : Prog ε τ α}
    (h : wp m (fun a t => Q a (set t s)) (fun e t => R e (set t s)) (get s)) :
    wp (onPart get set m) Q R s := by
  unfold wp onPart at *
  rcases hm : m (get s) with ⟨_ | _, t⟩
  · rw [hm] at h
    exact h
  · rw [hm] at h
    exact h

-- ============================================================================
-- Computations that keep an invariant
-- ============================================================================

/-- However `m` ends, it keeps `I`. -/
def Keeps (I : σ → Prop) (m : Prog ε σ α) : Prop := ∀ s, I s → wp m (fun _ => I) (fun _ => I) s

namespace Keeps

variable {I : σ → Prop}

theorem pure {a : α} : Keeps I (pure a : Prog ε σ α) := fun _ h => h

theorem raise {e : ε} : Keeps I (raise e : Prog ε σ α) := fun _ h => h

theorem bind (hm : Keeps I m) (hf : ∀ a, Keeps I (f a)) : Keeps I (m >>= f) := fun s h =>
  wp_bind (wp_mono (hm s h) (fun a s' hs' => hf a s' hs') fun _ _ hs' => hs')

theorem ite {p : Prop} [Decidable p] {m m' : Prog ε σ α} (hm : Keeps I m) (hm' : Keeps I m') :
    Keeps I (if p then m else m') := by
  split
  · exact hm
  · exact hm'

theorem check {p : Prop} [Decidable p] {e : ε} : Keeps I (check p e : Prog ε σ Unit) :=
  ite pure raise

theorem attempt (hm : Keeps I m) : Keeps I (attempt m) := fun s h =>
  wp_result (W := fun _ => I) (hm s h)

end Keeps

-- ============================================================================
-- Computations that do not raise
-- ============================================================================

theorem Returns.mono (h : Returns m Q s) (hQ : ∀ a s', Q a s' → Q' a s') : Returns m Q' s :=
  wp_mono h hQ fun _ _ hR => hR

theorem Returns.bind {Q' : β → σ → Prop} (h : Returns m Q s)
    (hf : ∀ a s', Q a s' → Returns (f a) Q' s') : Returns (m >>= f) Q' s :=
  wp_bind (h.mono hf)

/-- A computation that returns has one end. -/
theorem returns_iff : Returns m Q s ↔ ∃ a s', m s = (.ok a, s') ∧ Q a s' := by
  unfold Returns wp
  rcases hm : m s with ⟨e | a, s'⟩
  · exact ⟨False.elim, fun ⟨_, _, heq, _⟩ => nomatch heq⟩
  · refine ⟨fun h => ⟨a, s', rfl, h⟩, fun ⟨a', s'', heq, h⟩ => ?_⟩
    cases heq
    exact h

end Prog

end PassionProjects.Raising
