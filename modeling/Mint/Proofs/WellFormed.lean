import Mathlib.Algebra.Group.Int.Defs
import Mint.Proofs.Canonical
import Mint.Proofs.Eval.Course
import Mint.Proofs.Termination

/-!
# What accepted programs look like

The type of trees allows more than the grammar does. `Program.WellFormed` lists what the
grammar adds: dotted names have segments, the blocks of conditionals and methods have
statements, values are expressions all the way down, and a method body is marked as such
at its root and nowhere else. It follows from the program's being canonical
(`Program.canonical_of_parse`).

So a name without segments, for which both the parser and the evaluator have an answer,
does not come up: the parser reads none, and no run of an accepted program looks one up.
-/

namespace Mint

/-! ## Well-formed trees -/

/-- The constant can stand in a source: a number has no sign, and no escape is for a
backslash or a carriage return. -/
def Literal.Scanned : Literal → Prop
  | .number value => 0 ≤ value.toInt ∧ value.toInt ≤ 2 ^ 63 - 1
  | .text value => ∀ c ∈ value.toList, c ≠ '\\' ∧ c ≠ '\r'
  | .truth _ => True

namespace Node

/-- Whether the node is an expression. -/
def isExpression : Node → Bool
  | .lit _ | .none | .path _ | .arith _ _ _ | .logic _ _ _ | .not _ | .compare _ _ _
  | .create _ _ | .str _
  | .call _ _ _ => true
  | .assign _ _ | .setField _ _ _ | .ifThen _ _ | .ifElse _ _ _ | .block _ | .ret _
  | .body _ | .define _
  | .print _ => false

/-- The children whose values the node uses: operands, arguments, the receiver of a
call, a condition, what is assigned and what is returned. -/
def values : Node → List Node
  | .lit _ | .none | .path _ | .block _ | .body _ | .define _ => []
  | .assign _ value | .setField _ _ value | .not value | .str value | .ret value =>
    [value]
  | .arith _ left right | .logic _ left right | .compare _ left right => [left, right]
  | .ifThen condition _ | .ifElse condition _ _ => [condition]
  | .create _ args | .print args => args
  | .call object _ args => object :: args

/-- The node is a block of statements that is not empty. -/
def IsSuite (node : Node) : Prop := ∃ nodes, nodes ≠ [] ∧ node = .block nodes

/-- What the grammar asks of a node by itself. Only the root of a method body is marked
as one. -/
def Shaped : Node → Prop
  | .lit value => value.Scanned
  | .path segments => segments ≠ []
  | .setField object _ _ => object ≠ []
  | .call _ method _ => method ≠ ""
  | .ifThen _ yes => yes.IsSuite
  | .ifElse _ yes no => yes.IsSuite ∧ no.IsSuite
  | .body _ => False
  | _ => True

/-- What the grammar asks of a node and of the trees whose values it uses. -/
structure Proper (node : Node) : Prop where
  shaped : node.Shaped
  values : ∀ value ∈ node.values, ∀ t ∈ value.subtrees, t.isExpression = true

end Node

/-- The body of the method is marked at its root, and its block is a suite of proper
nodes. -/
def Method.Proper (method : Method) : Prop :=
  ∃ suite : Node,
    method.body = .body suite ∧ suite.IsSuite ∧ ∀ t ∈ suite.subtrees, t.Proper

/-- The class has a name and methods, and the methods are proper. -/
structure Class.Proper (cls : Class) : Prop where
  isName : Token.isName cls.name.toList = true
  methods_ne_nil : cls.methods ≠ []
  methods : ∀ method ∈ cls.methods, method.Proper

/-- The trees of the program are such as the grammar has. -/
structure Program.WellFormed (program : Program) : Prop where
  statements : ∀ t ∈ Node.allSubtrees program.statements, t.Proper
  classes : ∀ i < program.classes.size, (program.classes.get i).Proper

/-! ## Expressions -/

namespace Node

theorem ne_empty_of_isName {name : String} (h : Token.isName name.toList = true) :
    name ≠ "" := by
  rintro rfl
  cases h

theorem scanned_of_isScannable {value : Literal}
    (h : (Printer.literalToken value).isScannable = true) :
    value.Scanned := by
  cases value with
  | number n => exact ⟨of_decide_eq_true h, Int.le_sub_one_of_lt n.toInt_lt⟩
  | text text => simpa [Literal.Scanned, Printer.literalToken, Token.isScannable] using h
  | truth => trivial

theorem mem_allSubtrees {t : Node} {ns : List Node} :
    t ∈ allSubtrees ns ↔ ∃ n ∈ ns, t ∈ n.subtrees := by
  induction ns with
  | nil => simp [allSubtrees]
  | cons first rest ih => simp [allSubtrees, ih]

/-- What is inside an expression is inside one of the values it uses. -/
theorem mem_subtrees_of_isExpression {n t : Node} (hn : n.isExpression = true)
    (h : t ∈ n.subtrees) :
    t = n ∨ ∃ value ∈ n.values, t ∈ value.subtrees := by
  cases n with
  | lit | none | path => exact .inl (List.mem_singleton.mp h)
  | arith | logic | compare | not | str => simpa [subtrees, values] using h
  | create | call => simpa [subtrees, values, mem_allSubtrees] using h
  | _ => cases hn

/-- The tree is a proper expression, and so is everything in it. -/
def Pure (node : Node) : Prop := ∀ t ∈ node.subtrees, t.isExpression = true ∧ t.Proper

variable {n : Node} {ns : List Node} {known : ClassTable}

theorem Pure.isExpression (h : n.Pure) : ∀ t ∈ n.subtrees, t.isExpression = true :=
  fun t ht => (h t ht).1

theorem Pure.proper (h : n.Pure) : ∀ t ∈ n.subtrees, t.Proper := fun t ht => (h t ht).2

theorem pure_of_values (hn : n.isExpression = true) (hshaped : n.Shaped)
    (h : ∀ value ∈ n.values, value.Pure) :
    n.Pure := by
  intro t ht
  rcases mem_subtrees_of_isExpression hn ht with rfl | ⟨value, hvalue, ht⟩
  · exact ⟨hn, hshaped, fun value hvalue => (h value hvalue).isExpression⟩
  · exact h value hvalue t ht

mutual

/-- An expression that can be written is proper. -/
theorem pure_of_isWritable (n : Node) (h : n.isWritable known = true) : n.Pure := by
  cases n with
  | lit value =>
    rw [isWritable] at h
    exact pure_of_values rfl (scanned_of_isScannable h) (by simp [values])
  | none => exact pure_of_values rfl trivial (by simp [values])
  | path segments =>
    rw [isWritable, Bool.and_eq_true, Bool.not_eq_true', List.isEmpty_eq_false_iff] at h
    exact pure_of_values rfl h.1 (by simp [values])
  | arith op left right | logic op left right | compare op left right =>
    rw [isWritable, Bool.and_eq_true] at h
    exact pure_of_values rfl trivial
      (by simp [values, pure_of_isWritable left h.1, pure_of_isWritable right h.2])
  | not operand | str operand =>
    rw [isWritable] at h
    exact pure_of_values rfl trivial (by simp [values, pure_of_isWritable operand h])
  | create cls args =>
    rw [isWritable, Bool.and_eq_true] at h
    exact pure_of_values rfl trivial (pure_of_allWritable args h.2)
  | call object method args =>
    rw [isWritable, Bool.and_eq_true, Bool.and_eq_true] at h
    obtain ⟨⟨hobject, hmethod⟩, hargs⟩ := h
    refine pure_of_values rfl (ne_empty_of_isName hmethod) ?_
    exact List.forall_mem_cons.mpr ⟨pure_of_isWritable object hobject,
      pure_of_allWritable args hargs⟩
  | _ => cases h

theorem pure_of_allWritable (ns : List Node) (h : allWritable known ns = true) :
    ∀ n ∈ ns, n.Pure := by
  cases ns with
  | nil => simp
  | cons first rest =>
    rw [allWritable, Bool.and_eq_true] at h
    exact List.forall_mem_cons.mpr ⟨pure_of_isWritable first h.1,
      pure_of_allWritable rest h.2⟩

end

end Node

/-! ## Statements -/

namespace Grammar

open Node (pure_of_isWritable pure_of_allWritable mem_allSubtrees)

/-- The trees of the part are proper. -/
def Part.Proper : Part → Prop
  | .statement node => ∀ t ∈ node.subtrees, t.Proper
  | .statements nodes => ∀ t ∈ Node.allSubtrees nodes, t.Proper
  | .method found => found.Proper
  | .methods found => found ≠ [] ∧ ∀ method ∈ found, method.Proper

/-- A statement that uses one value and has no other parts. -/
theorem proper_of_value {node value : Node}
    (hsubtrees : node.subtrees = node :: value.subtrees) (hvalues : node.values = [value])
    (hshaped : node.Shaped) (hvalue : value.Pure) : ∀ t ∈ node.subtrees, t.Proper := by
  rw [hsubtrees]
  refine List.forall_mem_cons.mpr ⟨⟨hshaped, ?_⟩, hvalue.proper⟩
  rw [hvalues]
  exact List.forall_mem_singleton.mpr hvalue.isExpression

theorem proper_block {nodes : List Node} (h : ∀ t ∈ Node.allSubtrees nodes, t.Proper) :
    ∀ t ∈ (Node.block nodes).subtrees, t.Proper :=
  List.forall_mem_cons.mpr ⟨⟨trivial, fun _ hvalue => absurd hvalue List.not_mem_nil⟩, h⟩

/-- The classes with numbers from `n` up to `n'` are proper. -/
def ProperBetween (classes : ClassTable) (n n' : Nat) : Prop :=
  ∀ i, n ≤ i → i < n' → (classes.get i).Proper

theorem ProperBetween.refl (classes : ClassTable) (n : Nat) : ProperBetween classes n n :=
  fun _ hle hlt => absurd hlt (Nat.not_lt_of_le hle)

theorem ProperBetween.trans {classes : ClassTable} {n n' n'' : Nat}
    (h : ProperBetween classes n n') (h' : ProperBetween classes n' n'') :
    ProperBetween classes n n'' := by
  intro i hle hlt
  rcases Nat.lt_or_ge i n' with hi | hi
  · exact h i hle hi
  · exact h' i hi hlt

theorem ProperBetween.succ {classes : ClassTable} {n n' : Nat}
    (h : ProperBetween classes n n') (hlast : (classes.get n').Proper) :
    ProperBetween classes n (n' + 1) := by
  intro i hle hlt
  rcases Nat.lt_succ_iff_lt_or_eq.mp hlt with hi | rfl
  · exact h i hle hi
  · exact hlast

/-- A part that can be written is proper, and so are the classes that are complete
behind it and not before. -/
theorem Canonical.proper {classes : ClassTable} {inMethod : Bool} {n n' : Nat}
    {part : Part} (h : Canonical classes inMethod n part n') :
    part.Proper ∧ ProperBetween classes n n' := by
  induction h with
  | expression h => exact ⟨(pure_of_isWritable _ h).proper, .refl _ _⟩
  | assign _ hvalue =>
    exact ⟨proper_of_value rfl rfl trivial (pure_of_isWritable _ hvalue), .refl _ _⟩
  | setField hobject _ hvalue =>
    exact ⟨proper_of_value rfl rfl hobject (pure_of_isWritable _ hvalue), .refl _ _⟩
  | ret hvalue =>
    exact ⟨proper_of_value rfl rfl trivial (pure_of_isWritable _ hvalue), .refl _ _⟩
  | print hargs =>
    have hpure := pure_of_allWritable _ hargs
    refine ⟨List.forall_mem_cons.mpr ⟨⟨trivial,
      fun arg harg => (hpure arg harg).isExpression⟩, fun t ht => ?_⟩, .refl _ _⟩
    obtain ⟨arg, harg, ht⟩ := mem_allSubtrees.mp ht
    exact (hpure arg harg).proper t ht
  | ifThen hcondition _ hne ih =>
    obtain ⟨hyes, hclasses⟩ := ih
    have hpure := pure_of_isWritable _ hcondition
    refine ⟨List.forall_mem_cons.mpr ⟨⟨⟨_, hne, rfl⟩, ?_⟩, ?_⟩, hclasses⟩
    · exact List.forall_mem_singleton.mpr hpure.isExpression
    · exact List.forall_mem_append.mpr ⟨hpure.proper, proper_block hyes⟩
  | ifElse hcondition _ hne _ hne' ih ih' =>
    obtain ⟨hyes, hclasses⟩ := ih
    obtain ⟨hno, hclasses'⟩ := ih'
    have hpure := pure_of_isWritable _ hcondition
    refine ⟨List.forall_mem_cons.mpr ⟨⟨⟨⟨_, hne, rfl⟩, ⟨_, hne', rfl⟩⟩, ?_⟩, ?_⟩,
      hclasses.trans hclasses'⟩
    · exact List.forall_mem_singleton.mpr hpure.isExpression
    · refine List.forall_mem_append.mpr ⟨hpure.proper,
        List.forall_mem_append.mpr ⟨?_, ?_⟩⟩
      · exact proper_block hyes
      · exact proper_block hno
  | define _ hname _ _ ih =>
    obtain ⟨⟨hne, hmethods⟩, hclasses⟩ := ih
    refine ⟨List.forall_mem_singleton.mpr ⟨trivial, fun value hvalue => ?_⟩,
      hclasses.succ ⟨hname, hne, hmethods⟩⟩
    exact absurd hvalue List.not_mem_nil
  | noStatements => exact ⟨fun t ht => absurd ht List.not_mem_nil, .refl _ _⟩
  | statements _ _ ih ih' =>
    obtain ⟨hfirst, hclasses⟩ := ih
    obtain ⟨hrest, hclasses'⟩ := ih'
    exact ⟨List.forall_mem_append.mpr ⟨hfirst, hrest⟩, hclasses.trans hclasses'⟩
  | method _ _ _ hne ih =>
    obtain ⟨hbody, hclasses⟩ := ih
    exact ⟨⟨_, rfl, ⟨_, hne, rfl⟩, proper_block hbody⟩, hclasses⟩
  | lastMethod _ ih =>
    obtain ⟨hmethod, hclasses⟩ := ih
    exact ⟨⟨List.cons_ne_nil _ _, List.forall_mem_singleton.mpr hmethod⟩, hclasses⟩
  | moreMethods _ _ ih ih' =>
    obtain ⟨hfirst, hclasses⟩ := ih
    obtain ⟨⟨-, hrest⟩, hclasses'⟩ := ih'
    exact ⟨⟨List.cons_ne_nil _ _, List.forall_mem_cons.mpr ⟨hfirst, hrest⟩⟩,
      hclasses.trans hclasses'⟩

end Grammar

/-- Accepted programs are well-formed. -/
theorem Program.wellFormed_of_parse {source : Source} {program : Program}
    (h : parse source = .done program) :
    program.WellFormed := by
  obtain ⟨hstatements, hclasses⟩ := Grammar.Canonical.proper (canonical_of_parse h)
  exact ⟨hstatements, fun i hi => hclasses i (Nat.zero_le i) hi⟩

/-! ## Trees that the parser makes -/

namespace Parser

/-- If the parser succeeds, what it yields is as `P` says. -/
def Yields {α : Type} (P : α → Prop) (x : Parser α) : Prop :=
  ∀ s a u, x s = .done (a, u) → P a

namespace Yields

variable {α β : Type} {P : α → Prop} {Q : β → Prop}

theorem pure {a : α} (h : P a) : Yields P (pure a) := by
  rintro s _ u ⟨⟩
  exact h

theorem starve : Yields P (Run.starve : Parser α) := by
  rintro s a u ⟨⟩

theorem fail (e : ParseError) : Yields P (Run.fail e : Parser α) := by
  rintro s a u ⟨⟩

theorem bind {x : Parser α} {g : α → Parser β} (hx : Yields P x)
    (hg : ∀ a, P a → Yields Q (g a)) :
    Yields Q (x >>= g) := by
  intro s b u h
  obtain ⟨a, s', ha, hb⟩ := Run.bind_eq_done_iff.mp h
  exact hg a (hx s a s' ha) s' b u hb

/-- Of the first step nothing is asked. -/
theorem after {x : Parser α} {g : α → Parser β} (hg : ∀ a, Yields Q (g a)) :
    Yields Q (x >>= g) :=
  bind (P := fun _ => True) (fun _ _ _ _ => trivial) fun a _ => hg a

theorem ite {p : Prop} [Decidable p] {x y : Parser α} (h : Yields P x) (h' : Yields P y) :
    Yields P (if p then x else y) := by
  split
  · exact h
  · exact h'

end Yields

/-- The property passes on to an expression from the values that it uses. It need not
hold of a name without segments. -/
def Composes (P : Node → Prop) : Prop :=
  ∀ node : Node,
    node.isExpression = true → node ≠ .path [] → (∀ value ∈ node.values, P value) → P node

namespace Composes

variable {P : Node → Prop}

theorem join (hP : Composes P) {level : Level} {op : Token} {join : Node → Node → Node}
    (h : level.join? op = some join) {left right : Node} (hleft : P left)
    (hright : P right) : P (join left right) := by
  have hvalues : ∀ value ∈ [left, right], P value :=
    List.forall_mem_cons.mpr ⟨hleft, List.forall_mem_singleton.mpr hright⟩
  unfold Level.join? at h
  split at h <;> cases h <;> exact hP _ rfl (by simp) hvalues

theorem constant (hP : Composes P) {token : Token} {node : Node}
    (h : constant? token = some node) : P node := by
  rcases Grammar.lit_of_constant? h with
    ⟨value, rfl⟩ | rfl <;> exact hP _ rfl (by simp) (by simp [Node.values])

end Composes

/-- Every tree that the productions of expressions yield has the property. -/
structure Builds (P : Node → Prop) (fuel : Nat) : Prop where
  expression : ∀ level, Yields P (expression fuel level)
  chain : ∀ level left, P left → Yields P (chain fuel level left)
  calls : ∀ object, P object → Yields P (calls fuel object)
  atom : Yields P (atom fuel)
  name : Yields P (name fuel)
  arguments : Yields (fun args => ∀ arg ∈ args, P arg) (arguments fuel)
  expressions : Yields (fun nodes => ∀ node ∈ nodes, P node) (expressions fuel)

/-- The parser makes trees from the leaves up. -/
theorem Composes.builds {P : Node → Prop} (hP : Composes P) (fuel : Nat) :
    Builds P fuel := by
  induction fuel with
  | zero =>
    exact ⟨fun _ => .starve, fun _ _ _ => .starve, fun _ _ => .starve, .starve, .starve,
      .starve, .starve⟩
  | succ fuel ih =>
    refine ⟨fun level => ?_, fun level left hleft => ?_, fun object hobject => ?_, ?_,
      ?_, ?_, ?_⟩
    · have grouped : Yields P
          (do Parser.chain fuel level (← Parser.expression fuel level.operand)) :=
        (ih.expression _).bind fun left hleft => ih.chain level left hleft
      cases level with
      | negation =>
        unfold expression
        refine .after fun _ =>
          .ite (.after fun _ => (ih.expression _).bind fun operand h => .pure ?_)
          (ih.expression _)
        exact hP _ rfl (by simp) (List.forall_mem_singleton.mpr h)
      | comparison =>
        unfold expression
        refine (ih.expression _).bind fun left hleft => .after fun token => ?_
        split
        · exact .pure hleft
        · refine .after fun _ =>
            (ih.expression _).bind fun right hright => .pure (hP _ rfl (by simp) ?_)
          exact List.forall_mem_cons.mpr ⟨hleft, List.forall_mem_singleton.mpr hright⟩
      | sign =>
        unfold expression
        refine .after fun _ =>
          .ite (.after fun _ => (ih.expression _).bind fun operand h => .pure ?_) ?_
        · -- the difference from zero, which is a constant
          have hzero : P (.lit (.number 0)) := hP _ rfl (by simp) (by simp [Node.values])
          exact hP _ rfl (by simp [negative])
            (List.forall_mem_cons.mpr ⟨hzero, List.forall_mem_singleton.mpr h⟩)
        · exact ih.atom.bind fun object hobject => ih.calls object hobject
      | disjunction | conjunction | sum | product => exact grouped
    · unfold chain
      refine .after fun token => ?_
      split
      · exact .pure hleft
      · next join hjoin =>
        exact .after fun _ => (ih.expression _).bind fun right hright =>
          ih.chain level _ (hP.join hjoin hleft hright)
    · unfold calls
      refine .after fun _ => .ite
        (.after fun _ => .after fun method => .after fun _ => .ite ?_ ?_) (.pure hobject)
      · refine ih.arguments.bind fun args hargs => ih.calls _ (hP _ rfl (by simp) ?_)
        exact List.forall_mem_cons.mpr ⟨hobject, hargs⟩
      · exact .after fun _ => .after fun _ => .fail _
    · unfold atom
      refine .after fun token => ?_
      split
      · next hconstant => exact .after fun _ => .pure (hP.constant hconstant)
      · exact .after fun _ =>
          (ih.expression _).bind fun inner hinner => .after fun _ => .pure hinner
      · exact ih.name
      · exact .after fun _ => .after fun _ => .fail _
    · unfold name
      refine .after fun start =>
        .after fun first => .after fun more => .after fun _ => .ite ?_ (.pure ?_)
      · split
        · refine ih.arguments.bind fun args hargs => .pure (hP _ rfl (by simp) ?_)
          exact List.forall_mem_cons.mpr
            ⟨hP _ rfl (by simp) (by simp [Node.values]), hargs⟩
        · refine .ite (.after
            fun _ => (ih.expression _).bind fun operand h => .after fun _ => .pure ?_) ?_
          · exact hP _ rfl (by simp) (List.forall_mem_singleton.mpr h)
          · refine .after fun found => ?_
            split
            · exact ih.arguments.bind fun args hargs => .pure (hP _ rfl (by simp) hargs)
            · exact .fail _
      · exact hP _ rfl (by simp) (by simp [Node.values])
    · unfold arguments
      have closes : ∀ args : List Node,
          (∀ arg ∈ args, P arg) → Yields (fun args => ∀ arg ∈ args, P arg) (do
          takeChar ')'
          return args) := fun args hargs => .after fun _ => .pure hargs
      exact .after fun _ => .after fun _ =>
        .ite (closes [] (List.forall_mem_nil _)) (ih.expressions.bind closes)
    · unfold expressions
      refine (ih.expression _).bind fun first hfirst => .after fun _ => .ite ?_ ?_
      · exact .after fun _ => ih.expressions.bind fun rest hrest =>
          .pure (List.forall_mem_cons.mpr ⟨hfirst, hrest⟩)
      · exact .pure (List.forall_mem_singleton.mpr hfirst)

/-- No production of expressions yields a name without segments. -/
theorem names (fuel : Nat) : Builds (fun node => node ≠ .path []) fuel :=
  Composes.builds (fun _ _ hnode _ => hnode) fuel

/-- What is inside an expression is an expression. -/
theorem composes_isExpression :
    Composes fun node => ∀ t ∈ node.subtrees, t.isExpression = true := by
  intro node hnode _ hvalues t ht
  rcases Node.mem_subtrees_of_isExpression hnode ht with rfl | ⟨value, hvalue, ht⟩
  · exact hnode
  · exact hvalues value hvalue t ht

/-- What the parser reads as an expression is one all the way down. -/
theorem isExpression_of_expression {fuel : Nat} {level : Level} {s u : ParserState}
    {node : Node} (h : expression fuel level s = .done (node, u)) :
    ∀ t ∈ node.subtrees, t.isExpression = true :=
  (composes_isExpression.builds fuel).expression level s node u h

end Parser

/-! ## Names that runs look up -/

namespace Path

variable {classes : ClassTable} {heap : Heap} {scope : Scope} {path whole : List String}

theorem eq_of_follow_undefined {last : String} {v : Value} {rest : List String}
    (h : follow classes heap whole last v rest = .error (.undefined path)) :
    path = whole := by
  induction rest generalizing last v with
  | nil => cases h
  | cons field rest ih =>
    unfold follow at h
    split at h
    · split at h
      · exact ih h
      · cases h
        rfl
    · cases h

/-- The name that is reported is the name that was looked up. -/
theorem eq_of_resolve_undefined
    (h : resolve classes heap scope whole = .error (.undefined path)) : path = whole := by
  unfold resolve at h
  split at h
  · cases h
    rfl
  · split at h
    · exact eq_of_follow_undefined h
    · cases h
      rfl

theorem eq_of_target_undefined {field : String}
    (h : target classes heap scope whole field = .error (.undefined path)) :
    path = whole := by
  unfold target at h
  split at h
  · next hresolve =>
    cases h
    exact eq_of_resolve_undefined hresolve
  · cases h
  · cases h

end Path

namespace Activity

variable {classes : ClassTable} {A B : Activity}

/-- The trees that the activity executes, those of the methods that it calls apart. -/
def trees : Activity → List Node
  | .node _ _ n => n.subtrees
  | .statements _ _ ns | .arguments _ _ ns | .printing _ _ _ ns => Node.allSubtrees ns
  | .call _ _ _ _ _ | .render _ _ _ => []

/-- What a part executes is in the trees of the activity, or it is a method. -/
theorem trees_of_part (h : A.Part classes B) :
    B.trees ⊆ A.trees ∨
    ∃ i, ∃ method ∈ (classes.get i).methods, B.trees = method.body.subtrees := by
  cases h with
  | first hn => exact .inl (Node.subtrees_subset_of_first? hn)
  | second hn => exact .inl (Node.subtrees_subset_of_operands? hn)
  | stored | block | print | initArguments => exact .inl (List.subset_cons_self _ _)
  | yes | callArguments =>
    exact .inl (List.subset_cons_of_subset _ (List.subset_append_right _ _))
  | either =>
    refine .inl (List.subset_cons_of_subset _ (List.subset_append_of_subset_right _ ?_))
    split
    · exact List.subset_append_left _ _
    · exact List.subset_append_right _ _
  | firstStatement | firstArgument | firstPrinted =>
    exact .inl (List.subset_append_left _ _)
  | laterStatements | laterArguments | laterPrinted =>
    exact .inl (List.subset_append_right _ _)
  | str | rendered | textAgain | add | compare | call | init | text =>
    exact .inl (List.nil_subset _)
  | body hmethod =>
    obtain ⟨i, hi⟩ := Value.exists_mem_of_methodFor hmethod
    exact .inr ⟨i, _, hi, rfl⟩

/-- What holds of the trees of an activity and of those of all methods holds of
everything that is executed inside it. -/
theorem forall_trees_of_contains {P : Node → Prop}
    (hclasses : ∀ i, ∀ method ∈ (classes.get i).methods, ∀ t ∈ method.body.subtrees, P t)
    (hA : ∀ t ∈ A.trees, P t) (h : A.Contains classes B) : ∀ t ∈ B.trees, P t := by
  induction h with
  | refl => exact hA
  | tail _ hpart ih =>
    intro t ht
    rcases trees_of_part hpart with hsub | ⟨i, method, hmethod, heq⟩
    · exact ih t (hsub ht)
    · rw [heq] at ht
      exact hclasses i method hmethod t ht

end Activity

/-- The node looks up a name without segments. -/
def Node.isNameless : Node → Bool
  | .path [] | .setField [] _ _ => true
  | _ => false

theorem Node.Proper.isNameless {n : Node} (h : n.Proper) : n.isNameless = false := by
  cases n with
  | path segments =>
    cases segments with
    | nil => exact absurd rfl h.shaped
    | cons => rfl
  | setField object =>
    cases object with
    | nil => exact absurd rfl h.shaped
    | cons => rfl
  | _ => rfl

/-- Only a name without segments is reported as one. -/
theorem Activity.Misses.isNameless {classes : ClassTable} {A : Activity}
    (h : A.Misses classes (.undefined [])) :
    ∃ fuel f n, A = .node fuel f n ∧ n.isNameless = true := by
  cases h with
  | path h =>
    obtain rfl := Path.eq_of_resolve_undefined h
    exact ⟨_, _, _, rfl, rfl⟩
  | object h =>
    obtain rfl := Path.eq_of_target_undefined h
    exact ⟨_, _, _, rfl, rfl⟩

namespace Program

variable {program : Program}

theorem WellFormed.proper_of_mem_methods (h : program.WellFormed) {i : ClassId}
    {method : Method} (hmethod : method ∈ (program.classes.get i).methods) :
    method.Proper := by
  by_cases hi : i < program.classes.size
  · exact (h.classes i hi).methods method hmethod
  · rw [ClassTable.get_of_size_le (Nat.not_lt.mp hi)] at hmethod
    cases hmethod

theorem WellFormed.isNameless_methods (h : program.WellFormed) :
    ∀ i, ∀ method ∈ (program.classes.get i).methods,
    ∀ t ∈ method.body.subtrees, t.isNameless = false := by
  intro i method hmethod
  obtain ⟨suite, hbody, -, hproper⟩ := h.proper_of_mem_methods hmethod
  rw [hbody]
  exact List.forall_mem_cons.mpr ⟨rfl, fun t ht => (hproper t ht).isNameless⟩

/-- No run of a well-formed program executes a node that looks up a name without
segments. -/
theorem WellFormed.isNameless_of_contains (h : program.WellFormed) {fuel : Nat}
    {f : Frame} {B : Activity}
    (hB : (Activity.node fuel f program.body).Contains program.classes B) :
    ∀ t ∈ B.trees, t.isNameless = false := by
  refine Activity.forall_trees_of_contains h.isNameless_methods ?_ hB
  exact List.forall_mem_cons.mpr ⟨rfl, fun t ht => (h.statements t ht).isNameless⟩

/-- A program that fails because of a dotted name fails as its statements do. -/
theorem ending_body_of_run {fuel : Nat} {m m' : Machine} {cause : EvalError}
    (hcause : cause.isLookup = true) (h : program.run fuel m = .failed (cause, m')) :
    (Activity.node fuel ⟨∅, m⟩ program.body).ending program.classes =
      .failed (.error cause, m') := by
  rw [Activity.ending, Exec.ending, Run.ending]
  cases hbody :
    program.body.exec program.classes (.within program.classes fuel) ⟨∅, m⟩ with
  | starved =>
    have hrun : program.run fuel m = .starved :=
      Run.bind_starved (by rw [Exec.inScope, hbody])
    rw [hrun] at h
    cases h
  | failed r =>
    obtain ⟨signal, f⟩ := r
    have hrun : program.run fuel m = .failed (signal.cause, f.machine) :=
      Run.bind_failed (by rw [Exec.inScope, hbody])
    rw [hrun] at h
    cases signal with
    | returned v =>
      cases h
      cases hcause
    | error cause =>
      cases h
      rfl
  | done r =>
    obtain ⟨v, f⟩ := r
    have hrun :
        program.run fuel m = (do Action.flush; return f.scope : Action Scope) f.machine :=
      Run.bind_done (a := (v, f.scope)) (by rw [Exec.inScope, hbody])
    rw [hrun, Run.bind_apply, Action.flush] at h
    -- Behind the statements there is only the flush to fail.
    generalize f.machine.sink.flush = flushed at h
    obtain ⟨_ | fault, sink⟩ := flushed
    · cases h
    · cases h
      cases hcause

theorem WellFormed.run_ne_undefined (h : program.WellFormed) (fuel : Nat)
    (m m' : Machine) :
    program.run fuel m ≠ .failed (.undefined [], m') := by
  intro hrun
  obtain ⟨B, hB, hmisses⟩ := Activity.exists_misses (ending_body_of_run rfl hrun) rfl
  obtain ⟨fuel', f, n, rfl, hn⟩ := hmisses.isNameless
  rw [h.isNameless_of_contains hB n (Node.mem_subtrees_self n)] at hn
  cases hn

/-- Every accepted program is well-formed. So no run of it executes a node that looks up
a name without segments, and none fails because of such a name. Nor does the parser read
one, in any state that it can be in. -/
theorem trees_are_well_formed {source : Source} {program : Program}
    (h : parse source = .done program) :
    program.WellFormed ∧
    (∀ fuel frame fuel' frame' node,
      (Activity.node fuel frame program.body).Contains program.classes
        (.node fuel' frame' node) → node.isNameless = false) ∧
    (∀ fuel machine machine',
      program.run fuel machine ≠ .failed (.undefined [], machine')) ∧
    ∀ fuel level state segments state',
      Parser.expression fuel level state = .done (.path segments, state') →
      segments ≠ [] := by
  have hformed := wellFormed_of_parse h
  refine ⟨hformed, fun fuel frame fuel' frame' node hB => ?_,
    hformed.run_ne_undefined, ?_⟩
  · exact hformed.isNameless_of_contains hB node (Node.mem_subtrees_self node)
  · rintro fuel level state segments state' hdone rfl
    exact (Parser.names fuel).expression level _ _ _ hdone rfl

/-- A class inside a method, a sign before a constant, both branches of a conditional, a
call on a call. -/
def nestedForms : Source := .ofString
  ("class A:\n  def f(self, x):\n    class B:\n      def g(self, y, z):\n" ++
    "        self.p.q = -1\n    if not x.y:\n      return B().g(str(x), 2)\n" ++
    "    else:\n      print x, 'a' + \"b\"\nA().f(1).q(3)\n")

/-- What `nestedForms` is read as. -/
def nestedFormsProgram : Program where
  statements := [.define 1,
    .call (.call (.create 1 []) "f" [.lit (.number 1)]) "q" [.lit (.number 3)]]
  classes := ⟨#[
    ⟨"B", none, [⟨"g", ["y", "z"],
      .body (.block [.setField ["self", "p"] "q"
        (.arith .sub (.lit (.number 0)) (.lit (.number 1)))])⟩]⟩,
    ⟨"A", none, [⟨"f", ["x"], .body (.block [.define 0,
      .ifElse (.not (.path ["x", "y"]))
        (.block [.ret (.call (.create 0 []) "g" [.str (.path ["x"]), .lit (.number 2)])])
        (.block [.print [.path ["x"],
          .arith .add (.lit (.text "a")) (.lit (.text "b"))]])])⟩]⟩]⟩

theorem trees_are_well_formed_nestedForms :
    parse nestedForms = .done nestedFormsProgram ∧ nestedFormsProgram.WellFormed ∧
    ∀ fuel machine machine',
      nestedFormsProgram.run fuel machine ≠ .failed (.undefined [], machine') := by
  have hparse : parse nestedForms = .done nestedFormsProgram := by decide +kernel
  obtain ⟨hformed, -, hrun, -⟩ := trees_are_well_formed hparse
  exact ⟨hparse, hformed, hrun⟩

end Program

end Mint
