import Mint.Eval.Fuel
import Mint.Proofs.ClassOrder
import Mint.Proofs.Eval.Activity

/-!
# Programs that end

A program can run forever only if methods call methods by dynamic dispatch. Where the
methods of a program do not dispatch (`Node.dispatches`) and none of them is a
`__str__`, they still run each other: to make an instance is to call an `__init__`,
perhaps an inherited one, which may make further instances. But these are instances of
earlier classes, for the table is sorted. So calls nest no deeper than there are
classes, and one more level does for the statements of the program, which may dispatch
as they like.

`Activity.Ranked` says this of everything that goes on inside a run: the classes it can
still get at are below its fuel.
-/

namespace Mint

/-- Whether a node can run a method of a value that it gets at run time. -/
def Node.dispatches : Node → Bool
  | .call _ _ _ | .compare _ _ _ | .arith .add _ _ => true
  | _ => false

/-! ## Methods by name -/

namespace Class

/-- What a name leads to is the last method of that name. -/
theorem mem_lastOfEachName {methods : List Method} {name : String} {m : Method}
    (h : methods.reverse.find? (fun m => m.name == name) = some m) :
    m ∈ lastOfEachName methods := by
  induction methods with
  | nil => cases h
  | cons first rest ih =>
    rw [List.reverse_cons, List.find?_append] at h
    unfold lastOfEachName
    cases hrest : rest.reverse.find? (fun m => m.name == name) with
    | some found =>
      rw [hrest] at h ih
      cases h
      split
      · exact ih rfl
      · exact List.mem_cons_of_mem _ (ih rfl)
    | none =>
      rw [hrest, Option.none_or, List.find?_singleton] at h
      split at h
      · next hname =>
        cases h
        have hlast : ¬rest.any (fun other => other.name == m.name) = true := by
          rw [List.any_eq_true]
          rintro ⟨other, hother, hsame⟩
          refine List.find?_eq_none.mp hrest other (List.mem_reverse.mpr hother) ?_
          rw [beq_iff_eq.mp hsame]
          exact hname
        rw [if_neg hlast]
        exact List.mem_cons_self
      · cases h

theorem lastOfEachName_subset (methods : List Method) :
    lastOfEachName methods ⊆ methods := by
  induction methods with
  | nil => exact List.Subset.refl _
  | cons first rest ih =>
    unfold lastOfEachName
    split
    · exact List.subset_cons_of_subset _ ih
    · exact List.cons_subset_cons first ih

theorem mem_ownMethods_of_own? {cls : Class} {name : String} {m : Method}
    (h : cls.own? name = some m) :
    m ∈ cls.ownMethods ∧ m.name = name := by
  rw [own?] at h
  have hname := List.find?_some h
  exact ⟨mem_lastOfEachName h, beq_iff_eq.mp hname⟩

end Class

namespace ClassTable

variable {classes : ClassTable}

/-- In a sorted table a line of ancestors goes down. -/
theorem Sorted.exists_get_of_mem_lineageWithin (h : classes.Sorted) {fuel : Nat}
    {i : ClassId} {cls : Class} (hcls : cls ∈ classes.lineageWithin fuel i) :
    ∃ j, j ≤ i ∧ cls = classes.get j := by
  induction fuel generalizing i with
  | zero => cases hcls
  | succ fuel ih =>
    rw [lineageWithin] at hcls
    split at hcls
    · exact ⟨i, Nat.le_refl i, List.mem_singleton.mp hcls⟩
    · next parent hparent =>
      rcases List.mem_cons.mp hcls with rfl | hcls
      · exact ⟨i, Nat.le_refl i, rfl⟩
      · obtain ⟨j, hj, rfl⟩ := ih hcls
        exact ⟨j, Nat.le_trans hj (Nat.le_of_lt (h.parent_lt i parent hparent)), rfl⟩

/-- What holds of the methods of the classes in a table holds of all methods. -/
theorem forall_ownMethods {P : Method → Prop}
    (h : ∀ i < classes.size, ∀ method ∈ (classes.get i).ownMethods, P method) :
    ∀ i, ∀ method ∈ (classes.get i).ownMethods, P method := by
  intro i method hmethod
  by_cases hi : i < classes.size
  · exact h i hi method hmethod
  · rw [get_of_size_le (Nat.not_lt.mp hi)] at hmethod
    cases hmethod

/-- A method that a class understands comes from that class or an earlier one. -/
theorem Sorted.exists_of_methodTaking? (h : classes.Sorted) {i : ClassId} {name : String}
    {arity : Nat} {m : Method} (hm : classes.methodTaking? i name arity = some m) :
    ∃ j, j ≤ i ∧ m ∈ (classes.get j).ownMethods ∧ m.name = name := by
  obtain ⟨hmethod, -⟩ := Option.filter_eq_some_iff.mp hm
  obtain ⟨cls, hcls, hown⟩ := List.exists_of_findSome?_eq_some hmethod
  obtain ⟨j, hj, rfl⟩ := h.exists_get_of_mem_lineageWithin hcls
  obtain ⟨hmem, hname⟩ := Class.mem_ownMethods_of_own? hown
  exact ⟨j, hj, hmem, hname⟩

end ClassTable

/-! ## Ranks -/

/-- Nothing in the trees dispatches, and the classes that they name come before class
`bound`. -/
structure Node.Still (bound : ClassId) (trees : List Node) : Prop where
  dispatches : ∀ t ∈ trees, t.dispatches = false
  mention : Node.MentionBelow bound trees

namespace Node

theorem mem_subtrees_self (n : Node) : n ∈ n.subtrees := by
  cases n <;> exact List.mem_cons_self

theorem subtrees_subset_of_first? {n child : Node} (h : n.first? = some child) :
    child.subtrees ⊆ n.subtrees := by
  cases n with
  | assign | not | str | ret | body =>
    cases h
    exact List.subset_cons_self _ _
  | arith | logic | compare | ifThen | ifElse | call =>
    cases h
    exact List.subset_cons_of_subset _ (List.subset_append_left _ _)
  | lit | none | path | setField | block | define | create | print => cases h

theorem subtrees_subset_of_operands? {n left right : Node}
    (h : n.operands? = some (left, right)) :
    right.subtrees ⊆ n.subtrees := by
  cases n with
  | arith | logic | compare =>
    cases h
    exact List.subset_cons_of_subset _ (List.subset_append_right _ _)
  | _ => cases h

variable {bound bound' : ClassId} {trees trees' : List Node}

theorem Still.of_subset (h : Still bound trees) (hsub : trees' ⊆ trees) :
    Still bound trees' :=
  ⟨fun t ht => h.dispatches t (hsub ht), fun t ht => h.mention t (hsub ht)⟩

theorem Still.mono (h : Still bound trees) (hle : bound ≤ bound') : Still bound' trees :=
  ⟨h.dispatches, h.mention.mono hle⟩

end Node

/-- The methods that can be reached by name do not dispatch, and none of them is a
`__str__`. -/
structure ClassTable.Still (classes : ClassTable) : Prop where
  name_ne : ∀ i, ∀ method ∈ (classes.get i).ownMethods, method.name ≠ Special.str
  dispatches : ∀ i, ∀ method ∈ (classes.get i).ownMethods,
    ∀ t ∈ method.body.subtrees, t.dispatches = false

namespace Activity

variable {classes : ClassTable}

/-- The fuel is more than there are classes, or else it is more than the number of any
class that the activity can make an instance of or call a method of. -/
def Ranked (classes : ClassTable) : Activity → Prop
  | .node fuel _ n => classes.size < fuel ∨ Node.Still fuel n.subtrees
  | .statements fuel _ ns | .arguments fuel _ ns | .printing fuel _ _ ns =>
    classes.size < fuel ∨ Node.Still fuel (Node.allSubtrees ns)
  | .call fuel m receiver _ _ =>
    classes.size < fuel ∨ ∃ a, receiver = .inst a ∧ m.heap.classOf a < fuel
  | .render _ _ _ => True

/-- Where no `__str__` is, no value has a text of its own. -/
theorem not_understands_str (hsorted : classes.Sorted) (hstill : classes.Still)
    (heap : Heap) (v : Value) (arity : Nat) :
    v.understands classes heap Special.str arity ≠ true := by
  intro h
  unfold Value.understands at h
  split at h
  · obtain ⟨m, hm⟩ := ClassTable.hasMethod_iff_methodTaking?.mp h
    obtain ⟨j, -, hmem, hname⟩ := hsorted.exists_of_methodTaking? hm
    exact hstill.name_ne j m hmem hname
  · cases h

/-- The body of a method that a class understands names only classes before that class,
and the class is in the table. -/
theorem still_body (hsorted : classes.Sorted) (hstill : classes.Still) {i : ClassId}
    {name : String} {arity : Nat} {method : Method}
    (h : classes.methodTaking? i name arity = some method) :
    ∃ j, j ≤ i ∧ j < classes.size ∧ Node.Still j method.body.subtrees := by
  obtain ⟨j, hj, hmem, -⟩ := hsorted.exists_of_methodTaking? h
  refine ⟨j, hj, Nat.lt_of_not_le fun hle => ?_, hstill.dispatches j method hmem, ?_⟩
  · rw [ClassTable.get_of_size_le hle] at hmem
    cases hmem
  · exact hsorted.mention_lt j method (Class.lastOfEachName_subset _ hmem)

/-- Trees among ranked trees are ranked. -/
theorem ranked_of_subset {fuel : Nat} {trees trees' : List Node}
    (h : classes.size < fuel ∨ Node.Still fuel trees) (hsub : trees' ⊆ trees) :
    classes.size < fuel ∨ Node.Still fuel trees' :=
  h.imp id fun hstill => hstill.of_subset hsub

/-- Only the statements of the program dispatch. -/
theorem lt_of_dispatches {fuel : Nat} {f : Frame} {n : Node}
    (h : (node fuel f n).Ranked classes) (hn : n.dispatches = true) :
    classes.size < fuel := by
  rcases h with hlt | hstill
  · exact hlt
  · rw [hstill.dispatches n (Node.mem_subtrees_self n)] at hn
    cases hn

/-- What an activity is made of is ranked if the activity is. -/
theorem ranked_part (hsorted : classes.Sorted) (hstill : classes.Still) {A B : Activity}
    (h : A.Part classes B) (hA : A.Ranked classes) : B.Ranked classes := by
  cases h with
  | first hn => exact ranked_of_subset hA (Node.subtrees_subset_of_first? hn)
  | second hn => exact ranked_of_subset hA (Node.subtrees_subset_of_operands? hn)
  | stored | block | print => exact ranked_of_subset hA (List.subset_cons_self _ _)
  | initArguments => exact ranked_of_subset hA (List.subset_cons_self _ _)
  | yes =>
    exact ranked_of_subset hA
      (List.subset_cons_of_subset _ (List.subset_append_right _ _))
  | either =>
    refine ranked_of_subset hA
      (List.subset_cons_of_subset _ (List.subset_append_of_subset_right _ ?_))
    split
    · exact List.subset_append_left _ _
    · exact List.subset_append_right _ _
  | firstStatement | firstArgument | firstPrinted =>
    exact ranked_of_subset hA (List.subset_append_left _ _)
  | laterStatements | laterArguments | laterPrinted =>
    exact ranked_of_subset hA (List.subset_append_right _ _)
  | str | rendered | textAgain => trivial
  | add | compare | call => exact .inl (lt_of_dispatches hA rfl)
  | callArguments => exact .inl (lt_of_dispatches hA rfl)
  | text hmethod => exact absurd hmethod (not_understands_str hsorted hstill _ _ _)
  | init hmethod hargs =>
    -- The arguments have been evaluated since, but the new instance is still of its
    -- class.
    refine hA.imp id fun hstill => ⟨_, rfl, ?_⟩
    rw [(Node.evalAll_extends hargs).classOf_allocate]
    exact hstill.mention _ List.mem_cons_self _ rfl
  | body hmethod =>
    -- The method may be inherited. Its class `j` is not after that of the receiver, and
    -- it is in the table.
    obtain ⟨a, rfl, hfound⟩ := Value.exists_of_methodFor hmethod
    obtain ⟨j, hj, hlt, hbody⟩ := still_body hsorted hstill hfound
    refine .inr (hbody.mono ?_)
    rcases hA with hsize | ⟨_, ⟨⟩, hclass⟩
    · exact Nat.le_of_lt (Nat.lt_of_lt_of_le hlt (Nat.le_of_lt_succ hsize))
    · exact Nat.le_trans hj (Nat.le_of_lt_succ hclass)

/-- Ranked activities do not run out of fuel. -/
theorem ending_ne_starved (hsorted : classes.Sorted) (hstill : classes.Still)
    {A : Activity} (hA : A.Ranked classes) :
    A.ending classes ≠ .starved := by
  intro h
  obtain ⟨B, hpath, hraises⟩ := exists_origin .starved h
  have hB : B.Ranked classes := by
    clear hraises
    induction hpath with
    | refl => exact hA
    | tail _ hpart ih => exact ranked_part hsorted hstill hpart.1 ih
  cases hraises with
  | tooDeep =>
    rcases hB with hlt | ⟨a, -, hlt⟩
    · exact Nat.not_lt_zero _ hlt
    · exact Nat.not_lt_zero _ hlt
  | tooDeepText hmethod =>
    exact not_understands_str hsorted hstill _ _ _ hmethod

end Activity

/-! ## Programs -/

/-- If the methods of an accepted program do not dispatch, those apart that are hidden
by later ones of their class, and none of them is a `__str__`, the program ends on every
sink: there is an outcome at which it arrives with all fuel above the number of its
classes. -/
theorem terminates_without_dispatch {source : Source} {program : Program}
    (h : Program.parse source = .done program)
    (hstr : ∀ i, ∀ method ∈ (program.classes.get i).ownMethods, method.name ≠ "__str__")
    (hbodies : ∀ i, ∀ method ∈ (program.classes.get i).ownMethods,
      ∀ t ∈ method.body.subtrees, t.dispatches = false)
    (sink : Sink) :
    ∃ outcome, outcome ≠ .starved ∧
      ∀ fuel, program.classes.size < fuel → program.run fuel (.start sink) = outcome := by
  obtain ⟨hsorted, -⟩ := Program.sorted_of_parse h
  have hending : ∀ fuel,
      program.classes.size < fuel → program.run fuel (.start sink) ≠ .starved := by
    intro fuel hfuel hstarved
    have hranked :
        (Activity.node fuel ⟨∅, .start sink⟩ program.body).Ranked program.classes :=
      .inl hfuel
    refine Activity.ending_ne_starved hsorted ⟨hstr, hbodies⟩ hranked
      (Ending.OfCall.of_program_run .starved ?_)
    rw [Action.ending, Run.ending, hstarved]
  refine ⟨program.run (program.classes.size + 1) (.start sink),
    hending _ (Nat.lt_succ_self _), fun fuel hfuel => ?_⟩
  rcases Program.run_refines program hfuel (.start sink) with hstarved | heq
  · exact absurd hstarved (hending _ (Nat.lt_succ_self _))
  · exact heq.symm

/-- Constructors that run each other: `C` makes a `D`, and what `D` inherits makes an
`A`. A hidden method would not end, and the statements of the program dispatch. -/
def constructors : Source := .ofString
  ("class A:\n  def __init__(self):\n    self.x = 1\n" ++
    "class P:\n  def __init__(self):\n    self.a = A()\n" ++
    "class B(P):\n  def g(self):\n    return self.g()\n" ++
    "  def g(self):\n    return A()\n" ++
    "class C:\n  def __init__(self, n):\n    class D(B):\n      def h(self):\n" ++
    "        return str(n)\n    self.d = D()\n" ++
    "c = C(2)\nc.d.g()\nprint c.d.a.x + 1 < 3\n")

/-- What `constructors` is read as. -/
def constructorsProgram : Program where
  statements := [.define 0, .define 1, .define 2, .define 4,
    .assign "c" (.create 4 [.lit (.number 2)]), .call (.path ["c", "d"]) "g" [],
    .print [.compare .less (.arith .add (.path ["c", "d", "a", "x"]) (.lit (.number 1)))
      (.lit (.number 3))]]
  classes := ⟨#[
    ⟨"A", none,
      [⟨"__init__", [], .body (.block [.setField ["self"] "x" (.lit (.number 1))])⟩]⟩,
    ⟨"P", none,
      [⟨"__init__", [], .body (.block [.setField ["self"] "a" (.create 0 [])])⟩]⟩,
    ⟨"B", some 1, [⟨"g", [], .body (.block [.ret (.call (.path ["self"]) "g" [])])⟩,
      ⟨"g", [], .body (.block [.ret (.create 0 [])])⟩]⟩,
    ⟨"D", some 2, [⟨"h", [], .body (.block [.ret (.str (.path ["n"]))])⟩]⟩,
    ⟨"C", none, [⟨"__init__", ["n"],
      .body (.block [.define 3, .setField ["self"] "d" (.create 3 [])])⟩]⟩]⟩

theorem terminates_without_dispatch_constructors :
    Program.parse constructors = .done constructorsProgram ∧
    (∀ i, ∀ method ∈ (constructorsProgram.classes.get i).ownMethods,
      method.name ≠ "__str__") ∧
    (∀ i, ∀ method ∈ (constructorsProgram.classes.get i).ownMethods,
      ∀ t ∈ method.body.subtrees, t.dispatches = false) ∧
    ∀ sink, ∃ outcome, outcome ≠ .starved ∧
      ∀ fuel, 5 < fuel → constructorsProgram.run fuel (.start sink) = outcome := by
  have hparse : Program.parse constructors = .done constructorsProgram := by
    decide +kernel
  have hstr : ∀ i, ∀ method ∈ (constructorsProgram.classes.get i).ownMethods,
      method.name ≠ "__str__" :=
    ClassTable.forall_ownMethods (by decide +kernel)
  have hbodies : ∀ i, ∀ method ∈ (constructorsProgram.classes.get i).ownMethods,
      ∀ t ∈ method.body.subtrees, t.dispatches = false :=
    ClassTable.forall_ownMethods (by decide +kernel)
  exact ⟨hparse, hstr, hbodies, terminates_without_dispatch hparse hstr hbodies⟩

end Mint
