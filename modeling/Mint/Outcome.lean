/-!
# Outcomes

A step of the library ends in one of three ways: it is done, it failed for a stated
cause, or the fuel that bounds its recursion ran out. The last is kept apart from
failure: more fuel can change `starved` and nothing else.

`Run ε σ α` is a step over a state. A failed run still has a state, because what was
written before a failure stays written.
-/

namespace Mint

/-- How a bounded step ends. -/
inductive Outcome (ε α : Type) where
  | done (value : α)
  | failed (cause : ε)
  | starved
deriving DecidableEq

namespace Outcome

variable {ε ε' α β : Type}

/-- Changes the value of a finished step. -/
def map (f : α → β) : Outcome ε α → Outcome ε β
  | done a => done (f a)
  | failed e => failed e
  | starved => starved

/-- Changes the cause of a failed step. -/
def mapCause (f : ε → ε') : Outcome ε α → Outcome ε' α
  | done a => done a
  | failed e => failed (f e)
  | starved => starved

end Outcome

/-- A step that carries a state `σ` and fails with causes `ε`. -/
def Run (ε σ α : Type) : Type := σ → Outcome (ε × σ) (α × σ)

namespace Run

variable {ε σ α β : Type}

/-- The step that does nothing and yields `a`. -/
@[inline] protected def pure (a : α) : Run ε σ α := fun s => .done (a, s)

/-- Goes on with `f` where `step` is done; failure and starvation end the whole. -/
@[inline] protected def bind (step : Run ε σ α) (f : α → Run ε σ β) :
    Run ε σ β := fun s =>
  match step s with
  | .done (a, s') => f a s'
  | .failed e => .failed e
  | .starved => .starved

instance : Monad (Run ε σ) where
  pure := Run.pure
  bind := Run.bind

/-- Ends the run with a cause; the state stays as it is. -/
@[inline] def fail (cause : ε) : Run ε σ α := fun s => .failed (cause, s)

/-- Ends the run for want of fuel. -/
@[inline] def starve : Run ε σ α := fun _ => .starved

/-- Reads something off the state. -/
@[inline] def gets (f : σ → α) : Run ε σ α := fun s => .done (f s, s)

/-- Changes the state. -/
@[inline] def modify (f : σ → σ) : Run ε σ Unit := fun s => .done ((), f s)

/-- A result that leaves the state alone. -/
@[inline] def ofExcept : Except ε α → Run ε σ α
  | .ok a => Run.pure a
  | .error e => fail e

@[simp] theorem pure_apply (a : α) (s : σ) : (pure a : Run ε σ α) s = .done (a, s) := rfl

theorem bind_apply (step : Run ε σ α) (f : α → Run ε σ β) (s : σ) :
    (step >>= f) s = match step s with
      | .done (a, s') => f a s'
      | .failed e => .failed e
      | .starved => .starved := rfl

theorem bind_done {step : Run ε σ α} {f : α → Run ε σ β} {s s' : σ} {a : α}
    (h : step s = .done (a, s')) : (step >>= f) s = f a s' := by
  rw [bind_apply, h]

theorem bind_failed {step : Run ε σ α} {f : α → Run ε σ β} {s : σ} {e : ε × σ}
    (h : step s = .failed e) : (step >>= f) s = .failed e := by
  rw [bind_apply, h]

theorem bind_starved {step : Run ε σ α} {f : α → Run ε σ β} {s : σ}
    (h : step s = .starved) : (step >>= f) s = .starved := by
  rw [bind_apply, h]

theorem bind_eq_done_iff {step : Run ε σ α} {f : α → Run ε σ β} {s : σ} {r : β × σ} :
    (step >>= f) s = .done r ↔ ∃ a s', step s = .done (a, s') ∧ f a s' = .done r := by
  constructor
  · intro h
    cases hstep : step s with
    | starved =>
      rw [bind_starved hstep] at h
      cases h
    | failed e =>
      rw [bind_failed hstep] at h
      cases h
    | done p =>
      rw [bind_done hstep] at h
      exact ⟨p.1, p.2, rfl, h⟩
  · rintro ⟨a, s', hstep, hf⟩
    rw [bind_done hstep, hf]

theorem pure_eq_done_iff {a : α} {s : σ} {r : α × σ} :
    (pure a : Run ε σ α) s = .done r ↔ (a, s) = r := by
  rw [pure_apply, Outcome.done.injEq]

@[simp] theorem starve_apply (s : σ) : (starve : Run ε σ α) s = .starved := rfl
@[simp] theorem gets_apply (f : σ → α) (s : σ) :
    (gets f : Run ε σ α) s = .done (f s, s) := rfl

instance : LawfulMonad (Run ε σ) :=
  LawfulMonad.mk' (Run ε σ)
    (by
      intro α x
      funext s
      show Run.bind x _ s = x s
      simp only [Run.bind]
      cases x s <;> rfl)
    (by intros; rfl)
    (by
      intro α β γ x f g
      funext s
      show Run.bind (Run.bind x f) g s = Run.bind x (fun a => Run.bind (f a) g) s
      simp only [Run.bind]
      cases x s <;> rfl)

end Run

end Mint
