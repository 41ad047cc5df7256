import Mathlib.Data.List.Forall2
import Mathlib.Data.Option.Defs
import Mint.Interpreter

/-!
# Replacing code by code that does the same

Trees that do the same in every frame can be put in each other's place: in any part of a
tree (`Node.Replaced`), and in the bodies of methods (`ClassTable.SameUpTo`). The second
is not a matter of one tree. A call runs whatever body the table has, at any depth, so
the two tables are compared along whole runs: look-ups find methods that correspond,
everything else that code asks of a table has the same answer, and by induction on the
depth of calls every call does the same. A program does then the same as the one with
the other code (`Program.SameUpTo.run_eq`).
-/

namespace Mint

namespace Node

/-- The trees do the same in every frame, whatever the classes are and however methods
are run. -/
def SameEffect (a b : Node) : Prop := ∀ classes d, a.exec classes d = b.exec classes d

/-- The second tree is the first with one part of it replaced, which is related to what
stands there instead. -/
inductive Replaced (R : Node → Node → Prop) : Node → Node → Prop where
  | here {a b} (h : R a b) : Replaced R a b
  | assign {name a b} (h : Replaced R a b) : Replaced R (.assign name a) (.assign name b)
  | setField {object field a b} (h : Replaced R a b) :
    Replaced R (.setField object field a) (.setField object field b)
  | arithLeft {op a b right}
    (h : Replaced R a b) : Replaced R (.arith op a right) (.arith op b right)
  | arithRight {op left a b}
    (h : Replaced R a b) : Replaced R (.arith op left a) (.arith op left b)
  | logicLeft {op a b right}
    (h : Replaced R a b) : Replaced R (.logic op a right) (.logic op b right)
  | logicRight {op left a b}
    (h : Replaced R a b) : Replaced R (.logic op left a) (.logic op left b)
  | not {a b} (h : Replaced R a b) : Replaced R (.not a) (.not b)
  | compareLeft {op a b right}
    (h : Replaced R a b) : Replaced R (.compare op a right) (.compare op b right)
  | compareRight {op left a b}
    (h : Replaced R a b) : Replaced R (.compare op left a) (.compare op left b)
  | ifThenCondition {a b yes}
    (h : Replaced R a b) : Replaced R (.ifThen a yes) (.ifThen b yes)
  | ifThenYes {condition a b}
    (h : Replaced R a b) : Replaced R (.ifThen condition a) (.ifThen condition b)
  | ifElseCondition {a b yes no}
    (h : Replaced R a b) : Replaced R (.ifElse a yes no) (.ifElse b yes no)
  | ifElseYes {condition a b no}
    (h : Replaced R a b) : Replaced R (.ifElse condition a no) (.ifElse condition b no)
  | ifElseNo {condition yes a b}
    (h : Replaced R a b) : Replaced R (.ifElse condition yes a) (.ifElse condition yes b)
  | statement {before a b after} (h : Replaced R a b) :
    Replaced R (.block (before ++ a :: after)) (.block (before ++ b :: after))
  | ret {a b} (h : Replaced R a b) : Replaced R (.ret a) (.ret b)
  | body {a b} (h : Replaced R a b) : Replaced R (.body a) (.body b)
  | initArgument {cls before a b after} (h : Replaced R a b) :
    Replaced R (.create cls (before ++ a :: after)) (.create cls (before ++ b :: after))
  | printed {before a b after} (h : Replaced R a b) :
    Replaced R (.print (before ++ a :: after)) (.print (before ++ b :: after))
  | str {a b} (h : Replaced R a b) : Replaced R (.str a) (.str b)
  | receiver {a b method args}
    (h : Replaced R a b) : Replaced R (.call a method args) (.call b method args)
  | argument {object method before a b after} (h : Replaced R a b) :
    Replaced R (.call object method (before ++ a :: after))
    (.call object method (before ++ b :: after))

/-! ## In trees -/

section

variable {classes : ClassTable} {d : Dispatch} {a b : Node}

theorem execAll_middle (h : a.exec classes d = b.exec classes d)
    (before after : List Node) :
    execAll classes d (before ++ a :: after) =
      execAll classes d (before ++ b :: after) := by
  induction before with
  | nil => simp only [List.nil_append, execAll, h]
  | cons first before ih => simp only [List.cons_append, execAll, ih]

theorem evalAll_middle (h : a.exec classes d = b.exec classes d)
    (before after : List Node) :
    evalAll classes d (before ++ a :: after) =
      evalAll classes d (before ++ b :: after) := by
  induction before with
  | nil => simp only [List.nil_append, evalAll, h]
  | cons first before ih => simp only [List.cons_append, evalAll, ih]

theorem printAll_middle (h : a.exec classes d = b.exec classes d)
    (before after : List Node) (separate : Bool) :
    printAll classes d separate (before ++ a :: after) =
      printAll classes d separate (before ++ b :: after) := by
  induction before generalizing separate with
  | nil => simp only [List.nil_append, printAll, h]
  | cons first before ih => simp only [List.cons_append, printAll, ih]

end

/-- Where a part is replaced by one that does the same, the whole does the same. -/
theorem Replaced.sameEffect {R : Node → Node → Prop}
    (hR : ∀ {a b}, R a b → a.SameEffect b) {a b : Node} (h : Replaced R a b) :
    a.SameEffect b := by
  intro classes d
  induction h with
  | here h => exact hR h classes d
  | assign _ ih | setField _ ih | not _ ih | ret _ ih | body _ ih | str _ ih
  | receiver _ ih => simp only [exec, ih]
  | arithLeft _ ih | arithRight _ ih | logicLeft _ ih | logicRight _ ih | compareLeft _ ih
  | compareRight _ ih =>
    simp only [exec, ih]
  | ifThenCondition _ ih | ifThenYes _ ih | ifElseCondition _ ih | ifElseYes _ ih
  | ifElseNo _ ih => simp only [exec, ih]
  | statement _ ih => simp only [exec, execAll_middle ih]
  | initArgument _ ih | argument _ ih =>
    simp only [exec, evalAll_middle ih, List.length_append, List.length_cons]
  | printed _ ih => simp only [exec, printAll_middle ih]

end Node

/-! ## In tables of classes -/

/-- The methods differ at most in their bodies, and these are related. -/
structure Method.SameUpTo (R : Node → Node → Prop) (m m' : Method) : Prop where
  name : m'.name = m.name
  params : m'.params = m.params
  body : R m.body m'.body

/-- The classes differ at most in the bodies of their methods. -/
structure Class.SameUpTo (R : Node → Node → Prop) (c c' : Class) : Prop where
  name : c'.name = c.name
  parent : c'.parent = c.parent
  methods : List.Forall₂ (Method.SameUpTo R) c.methods c'.methods

/-- The tables differ at most in the bodies of methods. -/
structure ClassTable.SameUpTo (R : Node → Node → Prop) (t t' : ClassTable) : Prop where
  size : t'.size = t.size
  get : ∀ i, (t.get i).SameUpTo R (t'.get i)

section

variable {R : Node → Node → Prop}

/-- Tests that related entries pass alike find related entries. -/
theorem find?_rel {α : Type} {S : α → α → Prop} {p : α → Bool} {xs ys : List α}
    (h : List.Forall₂ S xs ys) (hp : ∀ x y, S x y → p y = p x) :
    Option.Rel S (xs.find? p) (ys.find? p) := by
  induction h with
  | nil => exact .none
  | @cons x y xs ys hxy _ ih =>
    rw [List.find?_cons, List.find?_cons, hp x y hxy]
    cases p x with
    | true => exact .some hxy
    | false => exact ih

theorem findSome?_rel {α β : Type} {S : α → α → Prop} {T : β → β → Prop}
    {f : α → Option β} {xs ys : List α} (h : List.Forall₂ S xs ys)
    (hf : ∀ x y, S x y → Option.Rel T (f x) (f y)) :
    Option.Rel T (xs.findSome? f) (ys.findSome? f) := by
  induction h with
  | nil => exact .none
  | @cons x y xs ys hxy _ ih =>
    rw [List.findSome?_cons, List.findSome?_cons]
    have hfirst := hf x y hxy
    generalize f x = found at hfirst
    generalize f y = found' at hfirst
    cases hfirst with
    | some h => exact .some h
    | none => exact ih

theorem Class.SameUpTo.own? {c c' : Class} (h : c.SameUpTo R c') (name : String) :
    Option.Rel (Method.SameUpTo R) (c.own? name) (c'.own? name) :=
  find?_rel (List.rel_reverse h.methods) fun m m' hm => by rw [hm.name]

namespace ClassTable.SameUpTo

variable {t t' : ClassTable} (h : t.SameUpTo R t')

include h

theorem lineageWithin (fuel : Nat) (i : ClassId) :
    List.Forall₂ (Class.SameUpTo R) (t.lineageWithin fuel i)
      (t'.lineageWithin fuel i) := by
  induction fuel generalizing i with
  | zero => exact .nil
  | succ fuel ih =>
    rw [ClassTable.lineageWithin, ClassTable.lineageWithin, (h.get i).parent]
    cases (t.get i).parent with
    | none => exact .cons (h.get i) .nil
    | some parent => exact .cons (h.get i) (ih parent)

theorem method? (i : ClassId) (name : String) :
    Option.Rel (Method.SameUpTo R) (t.method? i name) (t'.method? i name) :=
  findSome?_rel (h.lineageWithin (i + 1) i) fun _ _ hc => hc.own? name

theorem methodTaking? (i : ClassId) (name : String) (arity : Nat) :
    Option.Rel (Method.SameUpTo R) (t.methodTaking? i name arity)
      (t'.methodTaking? i name arity) := by
  rw [ClassTable.methodTaking?, ClassTable.methodTaking?]
  have hmethod := h.method? i name
  generalize t.method? i name = found at hmethod
  generalize t'.method? i name = found' at hmethod
  cases hmethod with
  | none => exact .none
  | @some m m' hm =>
    rw [Option.filter_some, Option.filter_some, hm.params]
    split
    · exact .some hm
    · exact .none

/-! Whatever code asks of a table, short of running a method, has the same answer. -/

theorem hasMethod_eq : t'.hasMethod = t.hasMethod := by
  funext i name arity
  have hmethod := h.method? i name
  rw [hasMethod, hasMethod]
  generalize t.method? i name = found at hmethod
  generalize t'.method? i name = found' at hmethod
  cases hmethod with
  | none => rfl
  | some hm => rw [Option.any_some, Option.any_some, hm.params]

theorem typeName_eq : Value.typeName t' = Value.typeName t := by
  funext heap v
  cases v with
  | inst a => exact (h.get _).name
  | _ => rfl

theorem plainText_eq : Value.plainText t' = Value.plainText t := by
  funext heap v
  cases v with
  | inst a => simp only [Value.plainText, (h.get _).name]
  | cls i => simp only [Value.plainText, (h.get _).name]
  | truth value => cases value <;> rfl
  | _ => rfl

theorem understands_eq : Value.understands t' = Value.understands t := by
  funext heap method arity v
  cases v with
  | inst a => simp only [Value.understands, h.hasMethod_eq]
  | _ => rfl

theorem follow_eq : Path.follow t' = Path.follow t := by
  funext heap whole last v rest
  induction rest generalizing last v with
  | nil => rfl
  | cons field rest ih => simp only [Path.follow, h.typeName_eq, ih]

theorem resolve_eq : Path.resolve t' = Path.resolve t := by
  funext heap scope path
  simp only [Path.resolve.eq_def, h.follow_eq]

theorem target_eq : Path.target t' = Path.target t := by
  funext heap scope object field
  simp only [Path.target, h.resolve_eq, h.typeName_eq]

theorem mismatch_eq {α : Type} : Dispatch.mismatch (α := α) t' = Dispatch.mismatch t := by
  funext cause left right
  simp only [Dispatch.mismatch, h.typeName_eq]

variable (d : Dispatch)

theorem predicate_eq : d.predicate t' = d.predicate t := by
  funext receiver method arg
  simp only [Dispatch.predicate, h.typeName_eq]

theorem equal_eq : d.equal t' = d.equal t := by
  funext left right
  simp only [Dispatch.equal.eq_def, h.predicate_eq, h.mismatch_eq]

theorem less_eq : d.less t' = d.less t := by
  funext left right
  simp only [Dispatch.less.eq_def, h.understands_eq, h.predicate_eq, h.mismatch_eq]

theorem compare_eq : d.compare t' = d.compare t := by
  funext op left right
  simp only [Dispatch.compare.eq_def, h.equal_eq, h.less_eq]

theorem arith_eq : d.arith t' = d.arith t := by
  funext op left right
  simp only [Dispatch.arith.eq_def, h.understands_eq, h.mismatch_eq]

theorem logic_eq : Dispatch.logic t' = Dispatch.logic t := by
  funext op left right
  simp only [Dispatch.logic, h.mismatch_eq]

theorem negate_eq : Dispatch.negate t' = Dispatch.negate t := by
  funext operand
  simp only [Dispatch.negate, h.typeName_eq]

end ClassTable.SameUpTo

/-! ## In runs -/

namespace ClassTable.SameUpTo

variable {t t' : ClassTable}

mutual

/-- Code asks no more of a table than that. -/
theorem exec_eq (h : t.SameUpTo R t') (d : Dispatch) :
    ∀ n : Node, n.exec t' d = n.exec t d
  | .lit _ | .none => by simp only [Node.exec]
  | .path _ => by simp only [Node.exec, h.resolve_eq]
  | .define cls => by simp only [Node.exec, (h.get cls).name]
  | .assign _ value | .ret value | .body value | .str value => by
    simp only [Node.exec, exec_eq h d value]
  | .setField _ _ value => by simp only [Node.exec, h.target_eq, exec_eq h d value]
  | .arith _ left right => by
    simp only [Node.exec, h.arith_eq, exec_eq h d left, exec_eq h d right]
  | .logic _ left right => by
    simp only [Node.exec, h.logic_eq, exec_eq h d left, exec_eq h d right]
  | .not operand => by simp only [Node.exec, h.negate_eq, exec_eq h d operand]
  | .compare _ left right => by
    simp only [Node.exec, h.compare_eq, exec_eq h d left, exec_eq h d right]
  | .ifThen condition yes => by
    simp only [Node.exec, exec_eq h d condition, exec_eq h d yes]
  | .ifElse condition yes no => by
    simp only [Node.exec, exec_eq h d condition, exec_eq h d yes, exec_eq h d no]
  | .block statements => by simp only [Node.exec, execAll_eq h d statements]
  | .create _ args => by simp only [Node.exec, h.hasMethod_eq, evalAll_eq h d args]
  | .print args => by simp only [Node.exec, printAll_eq h d args]
  | .call object _ args => by
    simp only [Node.exec, h.understands_eq, exec_eq h d object, evalAll_eq h d args]

theorem execAll_eq (h : t.SameUpTo R t') (d : Dispatch) :
    ∀ ns : List Node, Node.execAll t' d ns = Node.execAll t d ns
  | [] => by simp only [Node.execAll]
  | first :: rest => by simp only [Node.execAll, exec_eq h d first, execAll_eq h d rest]

theorem evalAll_eq (h : t.SameUpTo R t') (d : Dispatch) :
    ∀ ns : List Node, Node.evalAll t' d ns = Node.evalAll t d ns
  | [] => by simp only [Node.evalAll]
  | first :: rest => by simp only [Node.evalAll, exec_eq h d first, evalAll_eq h d rest]

theorem printAll_eq (h : t.SameUpTo R t') (d : Dispatch) :
    ∀ (ns : List Node) (separate : Bool),
      Node.printAll t' d separate ns = Node.printAll t d separate ns
  | [], _ => by simp only [Node.printAll]
  | first :: rest, _ => by
    simp only [Node.printAll, exec_eq h d first, printAll_eq h d rest]

end

/-- Finding a method and going on with it. -/
theorem methodFor_bind (h : t.SameUpTo R t') {α : Type} {f f' : Method → Action α}
    (hf : ∀ m m', m.SameUpTo R m' → f' m' = f m) (heap : Heap) (v : Value) (name : String)
    (arity : Nat) :
    (Run.ofExcept (v.methodFor t' heap name arity) >>= f') =
      (Run.ofExcept (v.methodFor t heap name arity) >>= f) := by
  unfold Value.methodFor
  split
  · next a =>
    dsimp only
    rw [(h.get (heap.classOf a)).name]
    have hmethod := h.methodTaking? (heap.classOf a) name arity
    generalize t.methodTaking? (heap.classOf a) name arity = found at hmethod
    generalize t'.methodTaking? (heap.classOf a) name arity = found' at hmethod
    cases hmethod with
    | none => rfl
    | some hm => exact hf _ _ hm
  · rw [h.typeName_eq]
    rfl

variable (hR : ∀ {a b}, R a b → a.SameEffect b)

include hR

theorem run_eq (h : t.SameUpTo R t') {m m' : Method} (hm : m.SameUpTo R m') (d : Dispatch)
    (receiver : Value) (args : List Value) :
    m'.run t' d receiver args = m.run t d receiver args := by
  simp only [Method.run, Method.frame, hm.params, h.exec_eq d, hR hm.body t d]

/-- Calls do the same. The induction is on how deep they may nest: a body is run by the
calls below. -/
theorem within_eq (h : t.SameUpTo R t') (fuel : Nat) :
    Dispatch.within t' fuel = Dispatch.within t fuel := by
  induction fuel with
  | zero =>
    have hcall : callMethod t' 0 = callMethod t 0 := by
      funext receiver method args
      simp only [callMethod]
      congr 1
      funext heap
      exact h.methodFor_bind (fun _ _ _ => rfl) heap receiver method args.length
    have hrender : renderValue t' 0 = renderValue t 0 := by
      funext v
      simp only [renderValue, h.understands_eq, h.plainText_eq]
    rw [Dispatch.within, Dispatch.within, hcall, hrender]
  | succ fuel ih =>
    obtain ⟨hcall, hrender⟩ := Dispatch.mk.inj ih
    have hcall' : callMethod t' (fuel + 1) = callMethod t (fuel + 1) := by
      funext receiver method args
      simp only [callMethod, hcall, hrender]
      congr 1
      funext heap
      exact h.methodFor_bind
        (fun m m' hm => h.run_eq hR hm _ receiver args) heap receiver method args.length
    have hrender' : renderValue t' (fuel + 1) = renderValue t (fuel + 1) := by
      funext v
      simp only [renderValue, h.understands_eq, h.plainText_eq, hcall, hrender]
    rw [Dispatch.within, Dispatch.within, hcall', hrender']

end ClassTable.SameUpTo

end

namespace Program

/-- The programs differ at most in code that is related. -/
structure SameUpTo (R : Node → Node → Prop) (p p' : Program) : Prop where
  body : R p.body p'.body
  classes : p.classes.SameUpTo R p'.classes

/-- Programs that differ in code which does the same run alike: with the same outcome,
the same variables, the same heap and the same output. -/
theorem SameUpTo.run_eq {R : Node → Node → Prop} (hR : ∀ {a b}, R a b → a.SameEffect b)
    {p p' : Program} (h : p.SameUpTo R p') (fuel : Nat) : p'.run fuel = p.run fuel := by
  simp only [run, h.classes.within_eq hR fuel, h.classes.exec_eq, hR h.body p.classes _]

end Program

end Mint
