import Mint.Proofs.Eval.Congruence

/-!
# Where a `return` can get to

A `return` travels outwards until a method body stops it. In a tree in which every
`return` lies beneath a method body none gets out, and if the bodies of all methods are
such trees, none gets out of a call either: there it would have become the error of a
stray `return`.
-/

namespace Mint

section

variable {α β : Type}

/-- The action does not fail with a stray `return`. -/
def Action.NoStray (x : Action α) : Prop := ∀ m m', x m ≠ .failed (.strayReturn, m')

/-- The code does not fail with a stray `return`. Unless the flag is set, no `return`
comes out of it. -/
structure Exec.NoStray (returns : Bool) (x : Exec α) : Prop where
  error : ∀ f f', x f ≠ .failed (.error .strayReturn, f')
  returned : returns = false → ∀ f f' v, x f ≠ .failed (.returned v, f')

/-- What a sequence fails with is what one of its parts fails with. -/
theorem Run.failed_of_bind {ε σ : Type} {x : Run ε σ α} {f : α → Run ε σ β} {s : σ}
    {r : ε × σ} (h : (x >>= f) s = .failed r) :
    x s = .failed r ∨ ∃ a s', f a s' = .failed r := by
  cases hx : x s with
  | starved =>
    rw [Run.bind_starved hx] at h
    cases h
  | failed r' =>
    rw [Run.bind_failed hx] at h
    cases h
    exact .inl rfl
  | done r' =>
    rw [Run.bind_done hx] at h
    exact .inr ⟨r'.1, r'.2, h⟩

theorem Action.NoStray.bind {x : Action α} {f : α → Action β} (h : x.NoStray)
    (k : ∀ a, (f a).NoStray) :
    Action.NoStray (x >>= f) := by
  intro m m' hf
  rcases Run.failed_of_bind hf with hx | ⟨a, s', ha⟩
  · exact h m m' hx
  · exact k a s' m' ha

theorem Exec.NoStray.bind {returns : Bool} {x : Exec α} {f : α → Exec β}
    (h : x.NoStray returns) (k : ∀ a, (f a).NoStray returns) :
    Exec.NoStray returns (x >>= f) := by
  refine ⟨fun s s' hf => ?_, fun hr s s' v hf => ?_⟩
  · rcases Run.failed_of_bind hf with hx | ⟨a, t, ha⟩
    · exact h.error s s' hx
    · exact (k a).error t s' ha
  · rcases Run.failed_of_bind hf with hx | ⟨a, t, ha⟩
    · exact h.returned hr s s' v hx
    · exact (k a).returned hr t s' v ha

theorem Action.NoStray.ofAction {returns : Bool} {x : Action α} (h : x.NoStray) :
    Exec.NoStray returns (Exec.ofAction x) := by
  refine ⟨fun f f' hf => ?_, fun _ f f' v hf => ?_⟩
  · simp only [Exec.ofAction] at hf
    split at hf
    · cases hf
    · next hx =>
      cases hf
      exact h _ _ hx
    · cases hf
  · simp only [Exec.ofAction] at hf
    split at hf <;> cases hf

theorem Exec.NoStray.ofLookup {returns : Bool}
    {lookup : Heap → Scope → Except EvalError α}
    (h : ∀ heap scope, lookup heap scope ≠ .error .strayReturn) :
    Exec.NoStray returns (Node.ofLookup lookup) := by
  refine ⟨fun f f' hf => ?_, fun _ f f' v hf => ?_⟩
  · simp only [Node.ofLookup] at hf
    split at hf
    · cases hf
    · next hl =>
      cases hf
      exact h _ _ hl
  · simp only [Node.ofLookup] at hf
    split at hf <;> cases hf

/-- A method body stops every `return`. -/
theorem Exec.NoStray.catchReturn {returns : Bool} {x : Exec Value} (h : x.NoStray true) :
    Exec.NoStray returns (Exec.catchReturn x) := by
  refine ⟨fun f f' hf => ?_, fun _ f f' v hf => ?_⟩
  · simp only [Exec.catchReturn] at hf
    split at hf
    · cases hf
    · exact h.error f f' hf
  · simp only [Exec.catchReturn] at hf
    split at hf
    · cases hf
    · next hreturned => exact hreturned v f' hf

/-- Code out of which no `return` comes can be run as a call. -/
theorem Exec.NoStray.inScope {x : Exec α} (scope : Scope) (h : x.NoStray false) :
    Action.NoStray (Exec.inScope scope x) := by
  intro m m' hf
  simp only [Exec.inScope] at hf
  split at hf
  · cases hf
  · next signal f hx =>
    cases signal with
    | returned v => exact h.returned rfl _ _ v hx
    | error cause =>
      cases hf
      exact h.error _ _ hx
  · cases hf

end

theorem noStray_congruence :
    CallCongruence (fun x _ => x.NoStray)
      (fun returns _ x _ => x.NoStray returns) false where
  actionPure _ := fun _ _ h => by cases h
  actionBind h k := .bind h k
  actionFail h := fun _ _ hf => by
    cases hf
    exact h rfl
  heap := fun _ _ h => by cases h
  allocate _ := fun _ _ h => by cases h
  setField _ _ _ := fun _ _ h => by cases h
  write text := fun m m' h => by
    simp only [Action.write] at h
    split at h <;> cases h
  codePure _ := ⟨fun _ _ h => (by cases h), fun _ _ _ _ h => (by cases h)⟩
  codeBind h k := .bind h k
  ofAction h := h.ofAction
  ofLookup h := .ofLookup h
  bindName _ _ := ⟨fun _ _ h => (by cases h), fun _ _ _ _ h => (by cases h)⟩
  returned _ := ⟨fun _ _ h => (by cases h), fun h => (by cases h)⟩
  catchReturn h := h.catchReturn
  inScope scope h := h.inScope scope
  starve _ := fun _ _ h => by cases h

/-- In the classes of the table every `return` of a method has a method body around it. -/
def ClassTable.Sealed (classes : ClassTable) : Prop :=
  ∀ i, ∀ m ∈ (classes.get i).methods, m.body.isSealed = true

/-- No `return` comes out of a sealed tree that runs with sealed classes, and none is
stray inside it. -/
theorem Node.exec_noStray {classes : ClassTable} (hc : classes.Sealed) {n : Node}
    (hn : n.isSealed = true) (fuel : Nat) :
    (n.exec classes (Dispatch.within classes fuel)).NoStray false := by
  have hd : (Dispatch.within classes fuel).Related (fun x _ => x.NoStray)
      (Dispatch.within classes fuel) :=
    Dispatch.within_related noStray_congruence hc (Nat.le_refl fuel)
  exact Node.exec_related noStray_congruence.toCongruence hd false n hn

/-- A program of sealed statements and sealed classes does not fail with a stray
`return`. -/
theorem Program.run_noStray {program : Program} (hc : program.classes.Sealed)
    (hs : Node.allSealed program.statements = true) (fuel : Nat) :
    (program.run fuel).NoStray := by
  have hbody : program.body.isSealed = true := hs
  refine .bind (Exec.NoStray.inScope ∅ (Node.exec_noStray hc hbody fuel)) fun r =>
    .bind ?_ fun _ => ?_
  · intro m m' h
    simp only [Action.flush] at h
    split at h <;> cases h
  · intro m m' h
    cases h

end Mint
