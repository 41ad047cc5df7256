import Mathlib.Logic.Relation
import Mint.Proofs.Eval.Replacement

/-!
# Code behind a certain return

Some trees return whatever happens, if nothing fails before (`Node.SurelyReturns`). What
stands behind such a statement in a block is dead: it can be left out, or put in, and
the block does the same. So can it anywhere in a program, in any number of places
(`Node.SameLive`), and every run stays what it was (`Node.code_behind_return_is_dead`).
-/

namespace Mint

/-- The run does not end with a value. -/
def Run.NeverDone {ε σ α : Type} (x : Run ε σ α) : Prop := ∀ s r, x s ≠ .done r

namespace Run.NeverDone

variable {ε σ α β : Type} {x : Run ε σ α} {f g : α → Run ε σ β}

theorem bind (h : x.NeverDone) (f : α → Run ε σ β) : NeverDone (x >>= f) := by
  intro s r hdone
  obtain ⟨a, s', hx, -⟩ := Run.bind_eq_done_iff.mp hdone
  exact h s _ hx

theorem after (x : Run ε σ α) (h : ∀ a, NeverDone (f a)) : NeverDone (x >>= f) := by
  intro s r hdone
  obtain ⟨a, s', -, hf⟩ := Run.bind_eq_done_iff.mp hdone
  exact h a s' r hf

/-- What comes behind it does not matter. -/
theorem bind_congr (h : x.NeverDone) (f g : α → Run ε σ β) : (x >>= f) = (x >>= g) := by
  funext s
  cases hx : x s with
  | done r => exact absurd hx (h s r)
  | failed r => rw [Run.bind_failed hx, Run.bind_failed hx]
  | starved => rw [Run.bind_starved hx, Run.bind_starved hx]

end Run.NeverDone

namespace Node

/-- Trees out of which a `return` comes, unless something fails. -/
inductive SurelyReturns : Node → Prop where
  | ret {value} : SurelyReturns (.ret value)
  | block {nodes n} (hmem : n ∈ nodes)
    (h : SurelyReturns n) : SurelyReturns (.block nodes)
  | ifElse {condition yes no} (hyes : SurelyReturns yes) (hno : SurelyReturns no) :
    SurelyReturns (.ifElse condition yes no)

section

variable (classes : ClassTable) (d : Dispatch)

theorem neverDone_execAll {nodes : List Node} {n : Node} (hmem : n ∈ nodes)
    (h : (n.exec classes d).NeverDone) :
    (execAll classes d nodes).NeverDone := by
  induction nodes with
  | nil => cases hmem
  | cons first rest ih =>
    rw [execAll]
    rcases List.mem_cons.mp hmem with rfl | hrest
    · exact h.bind _
    · exact .after _ fun _ => ih hrest

theorem SurelyReturns.neverDone {n : Node} (h : n.SurelyReturns) :
    (n.exec classes d).NeverDone := by
  induction h with
  | ret =>
    rw [exec]
    exact .after _ fun v f r hdone => by cases hdone
  | block hmem _ ih =>
    rw [exec]
    exact (neverDone_execAll classes d hmem ih).bind _
  | ifElse _ _ ihyes ihno =>
    rw [exec]
    refine .after _ fun v => ?_
    split
    · exact ihyes
    · exact ihno

end

/-- The second block is the first without what stands behind a statement that surely
returns. -/
inductive Trimmed : Node → Node → Prop where
  | mk (before : List Node) {s : Node} (after : List Node) (h : s.SurelyReturns) :
    Trimmed (.block (before ++ [s] ++ after)) (.block (before ++ [s]))

/-- The trees become the same by leaving out dead statements, in any number of places in
either of them. -/
def SameLive : Node → Node → Prop := Relation.EqvGen (Replaced Trimmed)

theorem Trimmed.sameEffect {a b : Node} (h : Trimmed a b) : a.SameEffect b := by
  obtain ⟨before, after, hs⟩ := h
  rename_i s
  intro classes d
  have hnever := hs.neverDone classes d
  have hall :
      execAll classes d (before ++ [s] ++ after) = execAll classes d (before ++ [s]) := by
    induction before with
    | nil =>
      simp only [List.nil_append, List.cons_append, execAll]
      exact hnever.bind_congr _ _
    | cons first before ih => simp only [List.cons_append, execAll, ih]
  simp only [exec, hall]

theorem SameLive.sameEffect {a b : Node} (h : SameLive a b) : a.SameEffect b := by
  intro classes d
  induction h with
  | rel a b h => exact h.sameEffect Trimmed.sameEffect classes d
  | refl a => rfl
  | symm a b _ ih => exact ih.symm
  | trans a b c _ _ ih ih' => exact ih.trans ih'

/-- A tree that surely returns never yields a value: it ends in a `return` or an error,
if it ends. What stands behind it in a block changes nothing about the block, and
nothing about any run of a program that has the block anywhere, in its own statements or
in a method of its classes. -/
theorem code_behind_return_is_dead :
    (∀ n : Node, n.SurelyReturns → ∀ classes d f,
      (∃ v g, n.exec classes d f = .failed (.returned v, g)) ∨
      (∃ cause g, n.exec classes d f = .failed (.error cause, g)) ∨
        n.exec classes d f = .starved) ∧
    (∀ before s after, SurelyReturns s → ∀ classes d f,
      (block (before ++ [s] ++ after)).exec classes d f =
        (block (before ++ [s])).exec classes d f) ∧
    ∀ p p' : Program, p.SameUpTo SameLive p' →
      ∀ fuel machine, p'.run fuel machine = p.run fuel machine := by
  refine ⟨?_, ?_, ?_⟩
  · intro n hn classes d f
    cases hresult : n.exec classes d f with
    | done r => exact absurd hresult (hn.neverDone classes d f r)
    | failed r =>
      obtain ⟨signal, g⟩ := r
      cases signal with
      | returned v => exact .inl ⟨v, g, rfl⟩
      | error cause => exact .inr (.inl ⟨cause, g, rfl⟩)
    | starved => exact .inr (.inr rfl)
  · intro before s after hs classes d f
    rw [(Trimmed.mk before after hs).sameEffect classes d]
  · intro p p' h fuel machine
    rw [h.run_eq SameLive.sameEffect fuel]

/-- Both branches return, and something may stand behind the `return` of the first. -/
def signTree (behind : List Node) : Node :=
  .ifElse (.compare .less (.path ["x"]) (.lit (.number 0)))
    (.block (.ret (.lit (.text "negative")) :: behind))
    (.block [.ret (.lit (.text "positive"))])

/-- Asks for the sign of a number. The method has the same code behind its first
`return` and behind all of them. -/
def signProgram (behind : List Node) : Program where
  statements :=
    [.assign "s" (.create 0 []), .print [.call (.path ["s"]) "sign" [.lit (.number 3)]]]
  classes := ⟨#[⟨"Sign", Option.none,
    [⟨"sign", ["x"], .body (.block (signTree behind :: behind))⟩]⟩]⟩

theorem surelyReturns_signTree (behind : List Node) : (signTree behind).SurelyReturns :=
  .ifElse (.block List.mem_cons_self .ret) (.block List.mem_cons_self .ret)

theorem sameUpTo_signProgram (behind : List Node) :
    (signProgram behind).SameUpTo SameLive (signProgram []) := by
  have hblock : Trimmed (.block (signTree behind :: behind)) (.block [signTree behind]) :=
    .mk [] behind (surelyReturns_signTree behind)
  have hbranch : Trimmed (.block (.ret (.lit (.text "negative")) :: behind))
      (.block [.ret (.lit (.text "negative"))]) :=
    .mk [] behind .ret
  have hstatement : Replaced Trimmed (.block ([] ++ [signTree behind]))
      (.block ([] ++ [signTree []])) :=
    .statement (.ifElseYes (.here hbranch))
  have hbody : SameLive (.body (.block (signTree behind :: behind)))
      (.body (.block [signTree []])) :=
    .trans _ _ _ (.rel _ _ (.body (.here hblock))) (.rel _ _ (.body hstatement))
  refine ⟨.refl _, rfl, fun i => ?_⟩
  match i with
  | 0 => exact ⟨rfl, rfl, .cons ⟨rfl, rfl, hbody⟩ .nil⟩
  | i + 1 => exact ⟨rfl, rfl, .nil⟩

/-- A message that is never printed. -/
def unreached : List Node := [.print [.lit (.text "unreached")]]

/-- A frame in which the tree can be run by itself. -/
def signFrame : Frame := ⟨⟨[("x", .number 3)]⟩, .start .unlimited⟩

theorem code_behind_return_is_dead_sign :
    (signTree unreached).SurelyReturns ∧
    ((∃ v g,
      (signTree unreached).exec ∅ (.within ∅ 0) signFrame = .failed (.returned v, g)) ∨
      ∃ cause g,
        (signTree unreached).exec ∅ (.within ∅ 0) signFrame = .failed (.error cause, g)) ∧
    (∀ classes d f,
      (block ([.none] ++ [signTree []] ++ unreached)).exec classes d f =
        (block ([.none] ++ [signTree []])).exec classes d f) ∧
    (signProgram unreached).SameUpTo SameLive (signProgram []) ∧
    (signProgram unreached).run 2 (.start .unlimited) =
      .done (⟨[("s", .inst 0)]⟩,
        ⟨⟨#[⟨0, ∅⟩]⟩, ⟨"positive\n".toUTF8, Option.none, false, 1⟩⟩) ∧
    (signProgram []).run 2 (.start .unlimited) =
      (signProgram unreached).run 2 (.start .unlimited) := by
  obtain ⟨hends, htrim, hprograms⟩ := code_behind_return_is_dead
  have hsure := surelyReturns_signTree unreached
  have hsame := sameUpTo_signProgram unreached
  refine ⟨hsure, ?_, htrim _ _ _ (surelyReturns_signTree []), hsame, by decide +kernel,
    hprograms _ _ hsame _ _⟩
  rcases hends _ hsure ∅ (.within ∅ 0) signFrame with hreturned | herror | hstarved
  · exact .inl hreturned
  · exact .inr herror
  · exact absurd hstarved (by decide +kernel)

end Node

end Mint
