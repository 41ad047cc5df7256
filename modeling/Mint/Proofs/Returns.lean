import Mint.Proofs.Eval.StrayReturn
import Mint.Proofs.Parse

/-!
# No `return` goes astray

The grammar lets a `return` stand in a method only, and a method's statements are
wrapped into a body. Every tree of an accepted program is therefore sealed, through
conditionals and through classes declared inside methods, and what sealed trees cannot
do no run of the program can do: no `return` comes out of its statements and no call
reports a stray one.
-/

namespace Mint

namespace Grammar

open Node (allSealed)

/-- The trees of a phrase are sealed if those are that it is put after. -/
def Phrase.Sealed : Phrase → Prop
  | .expression _ node | .atom node => node.isSealed = true
  | .chain _ left node => left.isSealed = true → node.isSealed = true
  | .calls object node => object.isSealed = true → node.isSealed = true
  | .arguments nodes | .expressions nodes => allSealed nodes = true

theorem isSealed_of_join? {level : Parser.Level} {op : Token} {join : Node → Node → Node}
    {left right : Node} (hop : level.join? op = some join) (hleft : left.isSealed = true)
    (hright : right.isSealed = true) :
    (join left right).isSealed = true := by
  unfold Parser.Level.join? at hop
  split at hop <;> cases hop <;> simp [Node.isSealed, hleft, hright]

theorem isSealed_of_constant? {token : Token} {node : Node}
    (h : Parser.constant? token = some node) :
    node.isSealed = true := by
  rcases lit_of_constant? h with ⟨value, rfl⟩ | rfl
  · rfl
  · rfl

/-- No phrase holds a `return`. -/
theorem Spells.isSealed {classes : ClassTable} {ts : List Token} {phrase : Phrase}
    (h : Spells classes ts phrase) :
    phrase.Sealed := by
  induction h with
  | grouped _ _ _ ih ih' | called _ _ ih ih' => exact ih' ih
  | chainEnd | callsEnd => exact id
  | chainStep hop _ _ ih ih' =>
    intro hleft
    exact ih' (isSealed_of_join? hop hleft ih)
  | negation _ ih | positive _ ih | operand _ ih | parenthesized _ ih | conversion _ ih
  | someArguments _ ih =>
    exact ih
  | comparison _ _ _ ih ih' =>
    show (_ && _) = true
    rw [ih, ih']
    rfl
  | negative _ ih =>
    show (_ && _) = true
    rw [ih]
    rfl
  | name | noArguments => rfl
  | callsStep _ _ ih ih' =>
    intro hobject
    refine ih' ?_
    show (_ && _) = true
    rw [hobject, ih]
    rfl
  | constant h => exact isSealed_of_constant? h
  | methodCall _ ih | creation _ _ _ ih => exact ih
  | lastExpression _ ih =>
    show (_ && _) = true
    rw [ih]
    rfl
  | moreExpressions _ _ ih ih' =>
    show (_ && _) = true
    rw [ih, ih']
    rfl

/-- Outside methods a line holds no `return`. -/
theorem Simple.isSealed {classes : ClassTable} {ts : List Token} {node : Node}
    (h : Simple false classes ts node) :
    node.isSealed = true := by
  cases h with
  | returnNone hmethod | returnValue hmethod => cases hmethod
  | printNothing => rfl
  | printValues h => exact h.isSealed
  | assign _ h | setField _ _ h | expression h => exact h.isSealed

/-- The methods of a part are sealed, and so are its statements where `return` is not
allowed. -/
def Part.Sealed (inMethod : Bool) : Part → Prop
  | .statement node => inMethod = false → node.isSealed = true
  | .statements nodes => inMethod = false → allSealed nodes = true
  | .method found => found.body.isSealed = true
  | .methods found => ∀ m ∈ found, m.body.isSealed = true

theorem sealed_empty : (∅ : ClassTable).Sealed := by
  intro i m hm
  cases hm

theorem sealed_push {classes : ClassTable} {cls : Class} (h : classes.Sealed)
    (hcls : ∀ m ∈ cls.methods, m.body.isSealed = true) : (classes.push cls).Sealed := by
  intro i m hm
  rw [ClassTable.get_push] at hm
  split at hm
  · exact hcls m hm
  · exact h i m hm

theorem Block.isSealed {inMethod : Bool} {depth : Nat} {classes classes' : ClassTable}
    {rows : List Row} {part : Part} (h : Block inMethod depth classes rows part classes')
    (hclasses : classes.Sealed) :
    classes'.Sealed ∧ part.Sealed inMethod := by
  induction h with
  | simple h =>
    refine ⟨hclasses, ?_⟩
    rintro rfl
    exact h.isSealed
  | ifThen hcondition _ _ ih =>
    obtain ⟨hclasses', hyes⟩ := ih hclasses
    refine ⟨hclasses', fun hmethod => ?_⟩
    show (_ && _) = true
    rw [hcondition.isSealed, Node.isSealed, hyes hmethod]
    rfl
  | ifElse hcondition _ _ _ _ ih ih' =>
    obtain ⟨hclasses', hyes⟩ := ih hclasses
    obtain ⟨hclasses'', hno⟩ := ih' hclasses'
    refine ⟨hclasses'', fun hmethod => ?_⟩
    show (_ && _ && _) = true
    rw [hcondition.isSealed, Node.isSealed, Node.isSealed, hyes hmethod, hno hmethod]
    rfl
  | declaration _ _ ih =>
    obtain ⟨hclasses', hmethods⟩ := ih hclasses
    exact ⟨sealed_push hclasses' hmethods, fun _ => rfl⟩
  | noStatements => exact ⟨hclasses, fun _ => rfl⟩
  | statements _ _ ih ih' =>
    obtain ⟨hclasses', hfirst⟩ := ih hclasses
    obtain ⟨hclasses'', hrest⟩ := ih' hclasses'
    refine ⟨hclasses'', fun hmethod => ?_⟩
    show (_ && _) = true
    rw [hfirst hmethod, hrest hmethod]
    rfl
  | method _ _ ih => exact ⟨(ih hclasses).1, rfl⟩
  | lastMethod _ ih =>
    obtain ⟨hclasses', hmethod⟩ := ih hclasses
    exact ⟨hclasses', List.forall_mem_singleton.mpr hmethod⟩
  | moreMethods _ _ ih ih' =>
    obtain ⟨hclasses', hfirst⟩ := ih hclasses
    obtain ⟨hclasses'', hrest⟩ := ih' hclasses'
    exact ⟨hclasses'', List.forall_mem_cons.mpr ⟨hfirst, hrest⟩⟩

end Grammar

namespace Program

/-- All trees of an accepted program are sealed. -/
theorem isSealed_of_parse {source : Source} {program : Program}
    (h : parse source = .done program) :
    program.classes.Sealed ∧ Node.allSealed program.statements = true := by
  obtain ⟨lines, -, hblock⟩ := parse_eq_done_iff.mp h
  obtain ⟨hclasses, hstatements⟩ := hblock.isSealed Grammar.sealed_empty
  exact ⟨hclasses, hstatements rfl⟩

/-- Whatever the sink does and wherever an accepted program is started, no call of it
reports a stray `return` and no `return` comes out of its statements. The same holds of
any sealed tree with any sealed classes, from every scope and heap. -/
theorem no_return_goes_astray :
    (∀ {source : Source} {program : Program}, parse source = .done program → ∀ fuel,
      (∀ machine machine', program.run fuel machine ≠ .failed (.strayReturn, machine')) ∧
      ∀ frame frame' v,
        program.body.exec program.classes (Dispatch.within program.classes fuel) frame ≠
          .failed (.returned v, frame')) ∧
    ∀ {classes : ClassTable} {node : Node},
      classes.Sealed → node.isSealed = true → ∀ fuel frame frame',
      (∀ v, node.exec classes (Dispatch.within classes fuel) frame ≠
        .failed (.returned v, frame')) ∧
      node.exec classes (Dispatch.within classes fuel) frame ≠
        .failed (.error .strayReturn, frame') := by
  constructor
  · intro source program h fuel
    obtain ⟨hclasses, hstatements⟩ := isSealed_of_parse h
    have hbody : program.body.isSealed = true := hstatements
    exact ⟨run_noStray hclasses hstatements fuel,
      (Node.exec_noStray hclasses hbody fuel).returned rfl⟩
  · intro classes node hclasses hnode fuel frame frame'
    have hexec := Node.exec_noStray hclasses hnode fuel
    exact ⟨hexec.returned rfl frame frame', hexec.error frame frame'⟩

/-- A class inside a method of another, with a `return` in a conditional of each. -/
def nestedReturns : Source := .ofString
  ("class A:\n  def f(self):\n    class B:\n      def g(self, x):\n" ++
    "        if x:\n          return 1\n" ++
    "    if B().g(self):\n      return 2\n    return\nprint A().f()\n")

/-- What `nestedReturns` is read as. -/
def nestedReturnsProgram : Program where
  statements := [.define 1, .print [.call (.create 1 []) "f" []]]
  classes := ⟨#[
    ⟨"B", none, [⟨"g", ["x"],
      .body (.block [.ifThen (.path ["x"]) (.block [.ret (.lit (.number 1))])])⟩]⟩,
    ⟨"A", none, [⟨"f", [], .body (.block [.define 0,
      .ifThen (.call (.create 0 []) "g" [.path ["self"]])
        (.block [.ret (.lit (.number 2))]), .ret .none])⟩]⟩]⟩

theorem no_return_goes_astray_nestedReturns :
    parse nestedReturns = .done nestedReturnsProgram ∧
      (∀ fuel machine machine',
        nestedReturnsProgram.run fuel machine ≠ .failed (.strayReturn, machine')) ∧
      (∅ : ClassTable).Sealed ∧ (Node.body (.ret .none)).isSealed = true ∧
      ∀ fuel frame frame' v,
        (Node.body (.ret .none)).exec ∅ (Dispatch.within ∅ fuel) frame ≠
          .failed (.returned v, frame') := by
  have hparse : parse nestedReturns = .done nestedReturnsProgram := by decide +kernel
  refine ⟨hparse, fun fuel => (no_return_goes_astray.1 hparse fuel).1,
    Grammar.sealed_empty, rfl, ?_⟩
  intro fuel frame frame'
  exact (no_return_goes_astray.2 Grammar.sealed_empty rfl fuel frame frame').1

end Program

end Mint
