import Mint.Proofs.Eval.Congruence

/-!
# More fuel keeps finished answers

Fuel bounds how deep method calls nest. A run that finishes, well or badly, finishes the
same way with more fuel: only starvation can change. `Run.Refines x y` says that `y`
does what `x` does wherever `x` does not starve. Every construct of the language keeps
that relation.
-/

namespace Mint

/-! ## Refinement of runs -/

/-- `b` is what `a` becomes with more fuel: the same, unless `a` starved. -/
def Outcome.Refines {ε α : Type} (a b : Outcome ε α) : Prop := a = .starved ∨ a = b

/-- Refinement at every state. -/
def Run.Refines {ε σ α : Type} (x y : Run ε σ α) : Prop := ∀ s, (x s).Refines (y s)

namespace Run.Refines

variable {ε σ α β : Type}

theorem refl (x : Run ε σ α) : Run.Refines x x := fun _ => Or.inr rfl

theorem starve (x : Run ε σ α) : Run.Refines Run.starve x := fun _ => Or.inl rfl

/-- A finished run is not changed. -/
theorem done {x y : Run ε σ α} (h : Run.Refines x y) {s : σ} {r : α × σ}
    (hx : x s = .done r) :
    y s = .done r := by
  rcases h s with hs | hs
  · rw [hs] at hx
    cases hx
  · rw [← hs, hx]

/-- A failed run is not changed. -/
theorem failed {x y : Run ε σ α} (h : Run.Refines x y) {s : σ} {r : ε × σ}
    (hx : x s = .failed r) :
    y s = .failed r := by
  rcases h s with hs | hs
  · rw [hs] at hx
    cases hx
  · rw [← hs, hx]

theorem bind {x y : Run ε σ α} {f g : α → Run ε σ β} (h : Run.Refines x y)
    (k : ∀ a, Run.Refines (f a) (g a)) : Run.Refines (x >>= f) (y >>= g) := by
  intro s
  rcases h s with hx | hx
  · exact Or.inl (by rw [Run.bind_apply, hx])
  · rw [Run.bind_apply, Run.bind_apply, hx]
    cases y s with
    | done v => exact k v.1 v.2
    | failed e => exact Or.inr rfl
    | starved => exact Or.inr rfl

end Run.Refines

theorem Exec.ofAction_refines {α : Type} {x y : Action α} (h : Run.Refines x y) :
    Run.Refines (Exec.ofAction x) (Exec.ofAction y) := by
  intro f
  rcases h f.machine with hx | hx
  · exact Or.inl (by simp only [Exec.ofAction, hx])
  · exact Or.inr (by simp only [Exec.ofAction, hx])

theorem Exec.catchReturn_refines {x y : Exec Value} (h : Run.Refines x y) :
    Run.Refines (Exec.catchReturn x) (Exec.catchReturn y) := by
  intro f
  rcases h f with hx | hx
  · exact Or.inl (by simp only [Exec.catchReturn, hx])
  · exact Or.inr (by simp only [Exec.catchReturn, hx])

theorem Exec.inScope_refines {α : Type} {x y : Exec α} (h : Run.Refines x y)
    (scope : Scope) :
    Run.Refines (Exec.inScope scope x) (Exec.inScope scope y) := by
  intro machine
  rcases h ⟨scope, machine⟩ with hx | hx
  · exact Or.inl (by simp only [Exec.inScope, hx])
  · exact Or.inr (by simp only [Exec.inScope, hx])

/-! ## Calls and programs -/

/-- Refinement passes through all code, whether or not a `return` may come out of it. -/
theorem Run.refines_congruence :
    CallCongruence Run.Refines (fun _ => Run.Refines) true where
  actionPure _ := .refl _
  actionBind h k := .bind h k
  actionFail _ := .refl _
  heap := .refl _
  allocate _ := .refl _
  setField _ _ _ := .refl _
  write _ := .refl _
  codePure _ := .refl _
  codeBind h k := .bind h k
  ofAction h := Exec.ofAction_refines h
  ofLookup _ := .refl _
  bindName _ _ := .refl _
  returned _ := .refl _
  catchReturn h := Exec.catchReturn_refines h
  inScope scope h := Exec.inScope_refines h scope
  starve _ := .starve _

/-- More levels of calls. -/
theorem Dispatch.within_refines (classes : ClassTable) {fuel more : Nat}
    (h : fuel ≤ more) :
    (Dispatch.within classes fuel).Related Run.Refines (Dispatch.within classes more) :=
  Dispatch.within_related Run.refines_congruence (fun _ _ _ => rfl) h

/-- A program that finishes with some fuel finishes in the same way with more. -/
theorem Program.run_refines (program : Program) {fuel more : Nat} (h : fuel ≤ more) :
    Run.Refines (program.run fuel) (program.run more) := by
  have hd := Dispatch.within_refines program.classes h
  have hbody : Run.Refines
      (program.body.exec program.classes (Dispatch.within program.classes fuel))
        (program.body.exec program.classes (Dispatch.within program.classes more)) :=
    Node.exec_related Run.refines_congruence.toCongruence hd true program.body rfl
  exact .bind (Exec.inScope_refines hbody ∅) fun _ => .refl _

end Mint
