import Mint.Proofs.Derivation
import Mint.Proofs.Printing.Rows

/-!
# Reading what was printed

A program that the grammar can express is given back by printing and parsing
(`Program.parse_print`). Which programs those are is said of their trees alone:
expressions stand where values are wanted (`Node.isWritable`), statements where
statements are, and a class is named only where it is the latest complete one of its
name (`Canonical`). Classes are complete in the order of the table. The walk through a
program therefore counts them, and what is known at a point of the source is the table
up to that count (`ClassTable.before`).

The rows of such a program are statements by the grammar (`Canonical.written`), and its
text has those rows as its lines.
-/

namespace Mint

/-! ## Classes that are complete -/

namespace ClassTable

variable {classes : ClassTable} {n i : Nat}

/-- The first `n` classes. -/
def before (classes : ClassTable) (n : Nat) : ClassTable := ⟨classes.classes.extract 0 n⟩

theorem before_zero : classes.before 0 = ∅ := by
  rw [before, Array.extract_empty_of_stop_le_start (Nat.le_refl 0)]
  rfl

theorem before_size : classes.before classes.size = classes := by
  rw [before, size, Array.extract_size]

theorem size_before (h : n ≤ classes.size) : (classes.before n).size = n := by
  rw [size, before, Array.size_extract_of_le h, Nat.sub_zero]

theorem get_before (h : i < (classes.before n).size) :
    (classes.before n).get i = classes.get i := by
  rw [size, before, Array.size_extract] at h
  simp only [get, before, Array.getD_eq_getD_getElem?, Array.getElem?_extract, if_pos h,
    Nat.zero_add]

theorem before_push (h : n < classes.size) :
    (classes.before n).push (classes.get n) = classes.before (n + 1) := by
  have hn : n < classes.classes.size := h
  rw [push, before, before, get, Array.extract_succ_right (Nat.succ_pos n) hn,
    Array.getD_eq_getD_getElem?, Array.getElem?_eq_getElem hn]
  rfl

end ClassTable

/-! ## Expressions -/

namespace Node

mutual

/-- Whether the tree is an expression that can be written where the classes of `known`
are complete. -/
def isWritable (known : ClassTable) : Node → Bool
  | .lit value => (Printer.literalToken value).isScannable
  | .none => true
  | .path segments =>
    !segments.isEmpty && segments.all fun segment => Token.isName segment.toList
  | .arith _ left right | .logic _ left right | .compare _ left right =>
    left.isWritable known && right.isWritable known
  | .not operand | .str operand => operand.isWritable known
  | .create cls args =>
    Token.isName (known.get cls).name.toList &&
      (known.get cls).name != Parser.textConversion &&
      known.latest? (known.get cls).name == some cls && allWritable known args
  | .call object method args =>
    object.isWritable known && Token.isName method.toList && allWritable known args
  | _ => false

/-- Whether all trees are expressions that can be written. -/
def allWritable (known : ClassTable) : List Node → Bool
  | [] => true
  | first :: rest => first.isWritable known && allWritable known rest

end

end Node

/-- A line can hold each of the tokens. -/
def Scannable (tokens : List Token) : Prop := ∀ token ∈ tokens, token.isScannable = true

namespace Scannable

variable {token : Token} {ts us : List Token}

theorem nil : Scannable [] := fun _ h => absurd h List.not_mem_nil

theorem cons (h : token.isScannable = true) (hts : Scannable ts) :
    Scannable (token :: ts) :=
  List.forall_mem_cons.mpr ⟨h, hts⟩

theorem append (hts : Scannable ts) (hus : Scannable us) : Scannable (ts ++ us) :=
  List.forall_mem_append.mpr ⟨hts, hus⟩

theorem parens (h : Scannable ts) : Scannable (Printer.parens ts) :=
  .cons rfl (h.append (.cons rfl .nil))

theorem dotted {path : List String}
    (h : ∀ segment ∈ path, Token.isName segment.toList = true) :
    Scannable (Printer.dottedTokens path) := by
  cases path with
  | nil => exact .nil
  | cons first more =>
    obtain ⟨hfirst, hmore⟩ := List.forall_mem_cons.mp h
    rw [Grammar.dottedTokens_cons]
    refine .cons hfirst ?_
    intro token htoken
    obtain ⟨segment, hsegment, htoken⟩ := List.mem_flatMap.mp htoken
    simp only [List.mem_cons, List.not_mem_nil, or_false] at htoken
    rcases htoken with rfl | rfl
    · rfl
    · exact hmore segment hsegment

end Scannable

namespace Grammar

/-- An atom with its calls is an expression of any level. -/
theorem Derives.expr_of_primary {classes : ClassTable} {p : List Token} {a : Node}
    (h : Derives classes p (.tree .primary a)) : Derives classes p (.tree .expr a) :=
  .expr (.term (.unary h))

theorem Derives.notTest_of_primary {classes : ClassTable} {p : List Token} {a : Node}
    (h : Derives classes p (.tree .primary a)) : Derives classes p (.tree .notTest a) :=
  .notTest (.comparison h.expr_of_primary)

theorem Derives.test_of_primary {classes : ClassTable} {p : List Token} {a : Node}
    (h : Derives classes p (.tree .primary a)) : Derives classes p (.tree .test a) :=
  .test (.andTest h.notTest_of_primary)

end Grammar

namespace Printer

open Grammar

section

variable {known classes : ClassTable}

theorem derives_args {args : List Node}
    (h : args ≠ [] → Derives known (commas (expressions classes args)) (.tests args)) :
    Derives known (commas (expressions classes args)) (.args args) := by
  cases args with
  | nil => exact .noArgs
  | cons first rest => exact .someArgs (h (List.cons_ne_nil first rest))

/-- The classes that are known have the numbers of the table. -/
def Agrees (known classes : ClassTable) : Prop :=
  ∀ i < known.size, known.get i = classes.get i

mutual

/-- What is written for an expression derives it. -/
theorem derives_expression (hknown : Agrees known classes) (node : Node)
    (h : node.isWritable known = true) :
    Derives known (expression classes node) (.tree .primary node) := by
  cases node with
  | lit value => exact .primary (.literal value)
  | none => exact .primary .none
  | path segments =>
    rw [Node.isWritable, Bool.and_eq_true, Bool.not_eq_true',
      List.isEmpty_eq_false_iff] at h
    exact .primary (.dotted h.1)
  | arith op left right =>
    rw [Node.isWritable, Bool.and_eq_true] at h
    have hleft := (derives_expression hknown left h.1).expr_of_primary
    have hright := derives_expression hknown right h.2
    refine .primary (.parens (.test (.andTest (.notTest (.comparison ?_)))))
    cases op with
    | add => exact .add hleft (.term (.unary hright))
    | sub => exact .sub hleft (.term (.unary hright))
    | mul =>
      exact .expr
        (.mul (.term (.unary (derives_expression hknown left h.1))) (.unary hright))
    | div =>
      exact .expr
        (.div (.term (.unary (derives_expression hknown left h.1))) (.unary hright))
  | logic op left right =>
    rw [Node.isWritable, Bool.and_eq_true] at h
    have hleft := derives_expression hknown left h.1
    have hright := (derives_expression hknown right h.2).notTest_of_primary
    refine .primary (.parens ?_)
    cases op with
    | and => exact .test (.and (.andTest hleft.notTest_of_primary) hright)
    | or => exact .or hleft.test_of_primary (.andTest hright)
  | not operand =>
    rw [Node.isWritable] at h
    exact .primary (.parens
      (.test (.andTest (.not (derives_expression hknown operand h).notTest_of_primary))))
  | compare op left right =>
    rw [Node.isWritable, Bool.and_eq_true] at h
    have hleft := (derives_expression hknown left h.1).expr_of_primary
    have hright := (derives_expression hknown right h.2).expr_of_primary
    exact .primary (.parens (.test (.andTest (.notTest (.compare op hleft hright)))))
  | create cls args =>
    simp only [Node.isWritable, Bool.and_eq_true, bne_iff_ne, beq_iff_eq] at h
    obtain ⟨⟨⟨-, hname⟩, hlatest⟩, hargs⟩ := h
    rw [expression, ← hknown cls (ClassTable.lt_of_latest? hlatest)]
    exact .primary
      (.create hname hlatest (derives_args (derives_tests hknown args hargs)))
  | str operand =>
    rw [Node.isWritable] at h
    exact .primary (.str (derives_expression hknown operand h).test_of_primary)
  | call object method args =>
    simp only [Node.isWritable, Bool.and_eq_true] at h
    exact .call method (derives_expression hknown object h.1.1)
      (derives_args (derives_tests hknown args h.2))
  | _ => cases h

theorem derives_tests (hknown : Agrees known classes) (args : List Node)
    (h : Node.allWritable known args = true) (hne : args ≠ []) :
    Derives known (commas (expressions classes args)) (.tests args) := by
  cases args with
  | nil => exact absurd rfl hne
  | cons first rest =>
    rw [Node.allWritable, Bool.and_eq_true] at h
    have hfirst := (derives_expression hknown first h.1).test_of_primary
    have hrest := derives_tests hknown rest h.2
    cases rest with
    | nil => exact .lastTest hfirst
    | cons second rest => exact .moreTests hfirst (hrest (List.cons_ne_nil second rest))

end

mutual

theorem scannable_expression (hknown : Agrees known classes) (node : Node)
    (h : node.isWritable known = true) :
    Scannable (expression classes node) := by
  cases node with
  | lit value => exact .cons h .nil
  | none => exact .cons rfl .nil
  | path segments =>
    rw [Node.isWritable, Bool.and_eq_true, List.all_eq_true] at h
    exact .dotted h.2
  | arith op left right =>
    rw [Node.isWritable, Bool.and_eq_true] at h
    refine .parens ((scannable_expression hknown left h.1).append
      (.cons ?_ (scannable_expression hknown right h.2)))
    cases op <;> rfl
  | logic op left right =>
    rw [Node.isWritable, Bool.and_eq_true] at h
    refine .parens ((scannable_expression hknown left h.1).append
      (.cons ?_ (scannable_expression hknown right h.2)))
    cases op <;> rfl
  | not operand =>
    rw [Node.isWritable] at h
    exact .parens (.cons rfl (scannable_expression hknown operand h))
  | compare op left right =>
    rw [Node.isWritable, Bool.and_eq_true] at h
    refine .parens ((scannable_expression hknown left h.1).append
      (.cons ?_ (scannable_expression hknown right h.2)))
    cases op <;> rfl
  | create cls args =>
    simp only [Node.isWritable, Bool.and_eq_true, bne_iff_ne, beq_iff_eq] at h
    obtain ⟨⟨⟨hname, -⟩, hlatest⟩, hargs⟩ := h
    rw [expression, ← hknown cls (ClassTable.lt_of_latest? hlatest)]
    exact .cons hname (.parens (scannable_expressions hknown args hargs))
  | str operand =>
    rw [Node.isWritable] at h
    exact .cons (by decide) (.parens (scannable_expression hknown operand h))
  | call object method args =>
    simp only [Node.isWritable, Bool.and_eq_true] at h
    exact (scannable_expression hknown object h.1.1).append
      (.cons rfl (.cons h.1.2 (.parens (scannable_expressions hknown args h.2))))
  | _ => cases h

theorem scannable_expressions (hknown : Agrees known classes) (args : List Node)
    (h : Node.allWritable known args = true) :
    Scannable (commas (expressions classes args)) := by
  cases args with
  | nil => exact .nil
  | cons first rest =>
    rw [Node.allWritable, Bool.and_eq_true] at h
    have hfirst := scannable_expression hknown first h.1
    have hrest := scannable_expressions hknown rest h.2
    cases rest with
    | nil => exact hfirst
    | cons second rest => exact hfirst.append (.cons rfl hrest)

end

end

end Printer

/-! ## Statements -/

namespace Grammar

/-- The part can be written where the first `n` classes are complete, and behind it the
first `n'` are. A class counts once its last method has been written. -/
inductive Canonical (classes : ClassTable) : Bool → Nat → Part → Nat → Prop where
  | expression {inMethod n node} (h : node.isWritable (classes.before n) = true) :
    Canonical classes inMethod n (.statement node) n
  | assign {inMethod n name value} (hname : Token.isName name.toList = true)
    (hvalue : value.isWritable (classes.before n) = true) :
    Canonical classes inMethod n (.statement (.assign name value)) n
  | setField {inMethod n object field value} (hobject : object ≠ [])
    (hnames : ∀ segment ∈ object ++ [field], Token.isName segment.toList = true)
    (hvalue : value.isWritable (classes.before n) = true) :
    Canonical classes inMethod n (.statement (.setField object field value)) n
  | ret {n value} (hvalue : value.isWritable (classes.before n) = true) :
    Canonical classes true n (.statement (.ret value)) n
  | print {inMethod n args} (hargs : Node.allWritable (classes.before n) args = true) :
    Canonical classes inMethod n (.statement (.print args)) n
  | ifThen {inMethod n n' condition nodes}
    (hcondition : condition.isWritable (classes.before n) = true)
    (hyes : Canonical classes inMethod n (.statements nodes) n') (hne : nodes ≠ []) :
    Canonical classes inMethod n (.statement (.ifThen condition (.block nodes))) n'
  | ifElse {inMethod n n' n'' condition nodes nodes'}
    (hcondition : condition.isWritable (classes.before n) = true)
    (hyes : Canonical classes inMethod n (.statements nodes) n') (hne : nodes ≠ [])
    (hno : Canonical classes inMethod n' (.statements nodes') n'') (hne' : nodes' ≠ []) :
    Canonical classes inMethod n
    (.statement (.ifElse condition (.block nodes) (.block nodes'))) n''
  | define {inMethod n cls} (hcls : cls < classes.size)
    (hname : Token.isName (classes.get cls).name.toList = true)
    (hparent : ∀ parent, (classes.get cls).parent = some parent →
      Token.isName (classes.get parent).name.toList = true ∧
        (classes.before n).latest? (classes.get parent).name = some parent)
    (hmethods : Canonical classes inMethod n (.methods (classes.get cls).methods) cls) :
    Canonical classes inMethod n (.statement (.define cls)) (cls + 1)
  | noStatements {inMethod n} : Canonical classes inMethod n (.statements []) n
  | statements {inMethod n n' n'' node nodes}
    (hfirst : Canonical classes inMethod n (.statement node) n')
    (hrest : Canonical classes inMethod n' (.statements nodes) n'') :
    Canonical classes inMethod n (.statements (node :: nodes)) n''
  | method {inMethod n n' name params nodes} (hname : Token.isName name.toList = true)
    (hparams : ∀ param ∈ params, Token.isName param.toList = true)
    (hbody : Canonical classes true n (.statements nodes) n') (hne : nodes ≠ []) :
    Canonical classes inMethod n (.method ⟨name, params, .body (.block nodes)⟩) n'
  | lastMethod {inMethod n n' method}
    (h : Canonical classes inMethod n (.method method) n') :
    Canonical classes inMethod n (.methods [method]) n'
  | moreMethods {inMethod n n' n'' method methods}
    (hfirst : Canonical classes inMethod n (.method method) n')
    (hrest : Canonical classes inMethod n' (.methods methods) n'') :
    Canonical classes inMethod n (.methods (method :: methods)) n''

end Grammar

namespace Printer

open Grammar

section

variable {classes : ClassTable} {classRows : ClassRows} {n depth : Nat}

/-- The rows that are written for a part. -/
def partRows (classes : ClassTable) (classRows : ClassRows) (depth : Nat) :
    Part → List Row
  | .statement node => statement classes classRows depth node
  | .statements nodes => statements classes classRows depth nodes
  | .method method => methodRows classes classRows depth method
  | .methods methods => methods.flatMap (methodRows classes classRows depth)

theorem agrees_before : Agrees (classes.before n) classes :=
  fun _ h => ClassTable.get_before h

theorem spells_expression {node : Node} (h : node.isWritable (classes.before n) = true) :
    Spells (classes.before n) (expression classes node) (.expression .disjunction node) :=
  derives_iff_spells.mp (derives_expression agrees_before node h).test_of_primary

theorem spells_expressions {args : List Node}
    (h : Node.allWritable (classes.before n) args = true) (hne : args ≠ []) :
    Spells (classes.before n) (commas (expressions classes args)) (.expressions args) :=
  (derives_tests agrees_before args h hne).spells

/-- A dotted name of names is an expression. -/
theorem spells_dotted {path : List String} (hne : path ≠ []) :
    Spells classes (dottedTokens path) (.expression .disjunction (.path path)) :=
  derives_iff_spells.mp (Derives.test_of_primary (.primary (.dotted hne)))

theorem statement_of_isWritable {known : ClassTable} {node : Node}
    (h : node.isWritable known = true) :
    statement classes classRows depth node = [⟨depth, expression classes node⟩] := by
  cases node with
  | assign | setField | ret | print | ifThen | ifElse | define => cases h
  | _ => rfl

/-- The parameters of a method as they are written. -/
theorem commas_params (first : String) (params : List String) :
    commas ((first :: params).map fun param => [Token.id param]) =
      .id first :: parameterTokens params := by
  induction params generalizing first with
  | nil => rfl
  | cons second params ih =>
    show [Token.id first] ++
      .char ',' :: commas ((second :: params).map fun param => [Token.id param]) = _
    rw [ih]
    rfl

theorem methodRows_eq (name : String) (params : List String) (nodes : List Node) :
    methodRows classes classRows depth ⟨name, params, .body (.block nodes)⟩ =
      ⟨depth, methodHeader name params⟩ ::
        statements classes classRows (depth + 1) nodes := by
  simp only [methodRows, commas_params, suite, parens, methodHeader, List.cons_append,
    List.append_assoc, List.nil_append]

/-- The rows are the part by the grammar, and each of them can be written. -/
structure Written (inMethod : Bool) (depth : Nat) (known : ClassTable) (rows : List Row)
    (part : Part) (known' : ClassTable) : Prop where
  block : Block inMethod depth known rows part known'
  writable : ∀ row ∈ rows, row.Writable

theorem Written.line {inMethod : Bool} {known : ClassTable} {ts : List Token}
    {node : Node} (h : Simple inMethod known ts node) (hts : Scannable ts) :
    Written inMethod depth known [⟨depth, ts⟩] (.statement node) known :=
  ⟨.simple h, List.forall_mem_singleton.mpr ⟨h.nonempty, hts⟩⟩

theorem writable_of_scannable {token : Token} {ts : List Token}
    (h : Scannable (token :: ts)) :
    Row.Writable ⟨depth, token :: ts⟩ := ⟨List.cons_ne_nil token ts, h⟩

theorem scannable_params {params : List String}
    (h : ∀ param ∈ params, Token.isName param.toList = true) :
    Scannable (parameterTokens params) := by
  intro token htoken
  obtain ⟨param, hparam, htoken⟩ := List.mem_flatMap.mp htoken
  simp only [List.mem_cons, List.not_mem_nil, or_false] at htoken
  rcases htoken with rfl | rfl
  · rfl
  · exact h param hparam

theorem writable_methodHeader {name : String} {params : List String}
    (hname : Token.isName name.toList = true)
    (hparams : ∀ param ∈ params, Token.isName param.toList = true) :
    Row.Writable ⟨depth, methodHeader name params⟩ :=
  writable_of_scannable (.cons rfl (.cons hname (.cons rfl (.cons (by decide)
    ((scannable_params hparams).append (.cons rfl (.cons rfl .nil)))))))

theorem writable_conditionHeader {ts : List Token} (h : Scannable ts) :
    Row.Writable ⟨depth, conditionHeader ts⟩ :=
  writable_of_scannable (.cons rfl (h.append (.cons rfl .nil)))

theorem writable_elseHeader : Row.Writable ⟨depth, elseHeader⟩ :=
  writable_of_scannable (.cons rfl (.cons rfl .nil))

/-- What is written for the parent of a class. -/
def parentTokens (classes : ClassTable) : Option ClassId → List Token
  | none => []
  | some parent => parens [.id (classes.get parent).name]

theorem classRowsWithin_succ (fuel : Nat) (cls : ClassId) :
    classRowsWithin classes (fuel + 1) depth cls =
    ⟨depth, classHeader (classes.get cls).name
      (parentTokens classes (classes.get cls).parent)⟩ ::
      partRows classes (classRowsWithin classes fuel) (depth + 1)
        (.methods (classes.get cls).methods) := by
  rw [classRowsWithin, partRows]
  cases (classes.get cls).parent <;> rfl

theorem parent_parentTokens {known : ClassTable} {parent? : Option ClassId}
    (h : ∀ parent,
      parent? = some parent → known.latest? (classes.get parent).name = some parent) :
    Parent known (parentTokens classes parent?) parent? := by
  cases parent? with
  | none => exact .root
  | some parent => exact .child (h parent rfl)

theorem writable_classHeader {name : String} {parent? : Option ClassId}
    (hname : Token.isName name.toList = true) (h : ∀ parent,
      parent? = some parent → Token.isName (classes.get parent).name.toList = true) :
    Row.Writable ⟨depth, classHeader name (parentTokens classes parent?)⟩ := by
  have hparent : Scannable (parentTokens classes parent?) := by
    cases parent? with
    | none => exact .nil
    | some parent => exact .parens (.cons (h parent rfl) .nil)
  exact writable_of_scannable (.cons rfl (.cons hname (hparent.append (.cons rfl .nil))))

end

end Printer

namespace Grammar.Canonical

open Printer

variable {classes : ClassTable} {inMethod : Bool} {n n' : Nat} {part : Part}

theorem le (h : Canonical classes inMethod n part n') : n ≤ n' := by
  induction h with
  | ifThen _ _ _ ih => exact ih
  | ifElse _ _ _ _ _ ihYes ihNo => exact Nat.le_trans ihYes ihNo
  | define _ _ _ _ ih => exact Nat.le_succ_of_le ih
  | statements _ _ ihFirst ihRest => exact Nat.le_trans ihFirst ihRest
  | method _ _ _ _ ih => exact ih
  | lastMethod _ ih => exact ih
  | moreMethods _ _ ihFirst ihRest => exact Nat.le_trans ihFirst ihRest
  | _ => exact Nat.le_refl _

/-- What is written for a part is that part by the grammar. -/
theorem written (h : Canonical classes inMethod n part n') {fuel : Nat}
    (hfuel : n' ≤ fuel) (depth : Nat) :
    Written inMethod depth (classes.before n)
      (partRows classes (classRowsWithin classes fuel) depth part) part
        (classes.before n') := by
  -- Classes inside a class come before it in the table, so writing the methods of class
  -- `cls` takes fuel `cls`.
  induction h generalizing fuel depth with
  | expression h =>
    rw [partRows, statement_of_isWritable h]
    exact .line (.expression (spells_expression h))
      (scannable_expression agrees_before _ h)
  | assign hname hvalue =>
    exact .line
      (.assign (spells_dotted (List.cons_ne_nil _ _)) (spells_expression hvalue))
      (.cons hname (.cons rfl (scannable_expression agrees_before _ hvalue)))
  | setField hobject hnames hvalue =>
    exact .line (.setField hobject (spells_dotted
      (List.append_ne_nil_of_left_ne_nil hobject _))
      (spells_expression hvalue)) ((Scannable.dotted hnames).append
        (.cons rfl (scannable_expression agrees_before _ hvalue)))
  | ret hvalue =>
    exact .line (.returnValue rfl (spells_expression hvalue))
      (.cons rfl (scannable_expression agrees_before _ hvalue))
  | @print _ _ args hargs =>
    refine .line ?_ (.cons rfl (scannable_expressions agrees_before _ hargs))
    cases args with
    | nil => exact .printNothing
    | cons first rest =>
      exact .printValues (spells_expressions hargs (List.cons_ne_nil first rest))
  | ifThen hcondition _ hne ih =>
    have hyes := ih hfuel (depth + 1)
    exact ⟨.ifThen (spells_expression hcondition) hyes.block hne, List.forall_mem_cons.mpr
      ⟨writable_conditionHeader (scannable_expression agrees_before _ hcondition),
        hyes.writable⟩⟩
  | ifElse hcondition _ hne hno hne' ihYes ihNo =>
    have hyes := ihYes (Nat.le_trans hno.le hfuel) (depth + 1)
    have hno := ihNo hfuel (depth + 1)
    exact ⟨.ifElse (spells_expression hcondition) hyes.block hne hno.block hne',
      List.forall_mem_cons.mpr ⟨writable_conditionHeader
        (scannable_expression agrees_before _ hcondition), List.forall_mem_append.mpr
          ⟨hyes.writable, List.forall_mem_cons.mpr ⟨writable_elseHeader, hno.writable⟩⟩⟩⟩
  | @define inMethod n cls hcls hname hparent _ ih =>
    obtain ⟨fuel, rfl⟩ : ∃ f, fuel = f + 1 := ⟨fuel - 1, by omega⟩
    have hmethods := ih (Nat.le_of_succ_le_succ hfuel) (depth + 1)
    have hblock : Block inMethod depth
        (classes.before n) _ (.statement (.define (classes.before cls).size))
          ((classes.before cls).push (classes.get cls)) :=
      .declaration (parent_parentTokens fun parent h => (hparent parent h).2)
        hmethods.block
    rw [ClassTable.size_before (Nat.le_of_lt hcls), ClassTable.before_push hcls] at hblock
    rw [partRows, statement, classRowsWithin_succ]
    exact ⟨hblock, List.forall_mem_cons.mpr
      ⟨writable_classHeader hname fun parent h => (hparent parent h).1,
        hmethods.writable⟩⟩
  | noStatements => exact ⟨.noStatements, fun _ h => absurd h List.not_mem_nil⟩
  | statements _ hrest ihFirst ihRest =>
    have hfirst := ihFirst (Nat.le_trans hrest.le hfuel) depth
    have hrest := ihRest hfuel depth
    exact ⟨.statements hfirst.block hrest.block,
      List.forall_mem_append.mpr ⟨hfirst.writable, hrest.writable⟩⟩
  | method hname hparams _ hne ih =>
    have hbody := ih hfuel (depth + 1)
    rw [partRows, methodRows_eq]
    exact ⟨.method hbody.block hne,
      List.forall_mem_cons.mpr ⟨writable_methodHeader hname hparams, hbody.writable⟩⟩
  | lastMethod _ ih =>
    have hmethod := ih hfuel depth
    rw [partRows, List.flatMap_singleton]
    exact ⟨.lastMethod hmethod.block, hmethod.writable⟩
  | moreMethods _ hrest ihFirst ihRest =>
    have hfirst := ihFirst (Nat.le_trans hrest.le hfuel) depth
    have hrest := ihRest hfuel depth
    exact ⟨.moreMethods hfirst.block hrest.block,
      List.forall_mem_append.mpr ⟨hfirst.writable, hrest.writable⟩⟩

end Grammar.Canonical

/-! ## Programs -/

namespace Program

/-- The program can be written, and its table holds the classes in the order in which
they are written. -/
def Canonical (program : Program) : Prop :=
  Grammar.Canonical program.classes false 0
    (.statements program.statements) program.classes.size

/-- Parsing undoes printing. -/
theorem parse_print (program : Program) (h : program.Canonical) :
    parse (.ofString program.print) = .done program := by
  have hwritten := Grammar.Canonical.written h (Nat.le_refl _) 0
  rw [ClassTable.before_zero, ClassTable.before_size] at hwritten
  obtain ⟨lines, hlines, hrows⟩ := lines_of_rows hwritten.writable
  refine parse_eq_done_iff.mpr ⟨lines, hlines, ?_⟩
  rw [hrows]
  exact hwritten.block

/-- A program with a class inside a method, a child of it under the name of another
class, and a string that needs escapes. -/
def nestedClasses : Program where
  classes :=
    ⟨#[⟨"Inner", none, [⟨"get", [], .body (.block [.ret (.path ["self", "x"])])⟩]⟩,
      ⟨"Outer", none, [⟨"make", ["n", "m"], .body (.block [
        .ifElse (.compare .less (.path ["n"]) (.lit (.number 1)))
          (.block [.define 0, .ret (.create 0 [])])
          (.block [.setField ["self"] "x" (.lit (.text "say \"hi\"\n")), .print []])])⟩]⟩,
      ⟨"Outer", some 0, [⟨"get", [], .body (.block [.ret .none])⟩,
        ⟨"put", [], .body (.block [.path ["self"]])⟩]⟩]⟩
  statements := [.define 1, .define 2,
    .assign "o" (.create 2 [.not (.lit (.truth true)),
      .call (.path ["o", "p"]) "q" [.str (.path ["o"])]]),
    .ifThen (.logic .or (.path ["o"]) .none)
    (.block [.print [.path ["o"], .arith .div (.path ["a"]) (.path ["b"])]])]

theorem canonical_nestedClasses : nestedClasses.Canonical := by
  have hinner :
      Grammar.Canonical nestedClasses.classes true 0 (.statement (.define 0)) 1 :=
    .define (by decide) (by decide) (by rintro _ ⟨⟩)
      (.lastMethod (.method (by decide) (by decide)
        (.statements (.ret (by decide)) .noStatements) (by decide)))
  have houter :
      Grammar.Canonical nestedClasses.classes false 0 (.statement (.define 1)) 2 :=
    .define (by decide) (by decide) (by rintro _ ⟨⟩)
      (.lastMethod (.method (by decide) (by decide) (.statements (.ifElse (by decide)
        (.statements hinner (.statements (.ret (by decide)) .noStatements))
        (by decide) (.statements (.setField (by decide) (by decide) (by decide))
          (.statements (.print (by decide)) .noStatements))
        (by decide)) .noStatements) (by decide)))
  have hchild :
      Grammar.Canonical nestedClasses.classes false 2 (.statement (.define 2)) 3 :=
    .define (by decide) (by decide) (by rintro _ ⟨⟩; decide)
      (.moreMethods (.method (by decide) (by decide)
        (.statements (.ret (by decide)) .noStatements)
        (by decide)) (.lastMethod (.method (by decide) (by decide)
          (.statements (.expression (by decide)) .noStatements) (by decide))))
  exact .statements houter
    (.statements hchild
      (.statements (.assign (by decide) (by decide)) (.statements (.ifThen (by decide)
      (.statements (.print (by decide)) .noStatements) (by decide)) .noStatements)))

theorem parse_print_nestedClasses :
    parse (.ofString nestedClasses.print) = .done nestedClasses :=
  parse_print nestedClasses canonical_nestedClasses

end Program

end Mint
