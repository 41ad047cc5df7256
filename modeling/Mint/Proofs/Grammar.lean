import Mint.Program.Printer

/-!
# The grammar as a relation

What the productions of the parser read, said without a parser: which tokens spell which
tree. Expressions are runs of tokens (`Spells`), and so are the statements that fit on a
line (`Simple`). Everything larger is a list of rows, each of them a depth and the
tokens of one line (`Block`): blocks are told by the depths of rows alone, and no layout
mark occurs.

Every relation is indexed by what is read together with the tree it yields, so that one
induction covers all productions.
-/

namespace Mint.Grammar

open Mint.Parser (Level)

/-! ## Expressions -/

/-- What a run of tokens inside a line can be. -/
inductive Phrase where
  | expression (level : Level) (node : Node)
  /-- Operators of a level with their right operands. Put after `left` they make
  `node`. -/
  | chain (level : Level) (left node : Node)
  /-- Method calls. Put after `object` they make `node`. -/
  | calls (object node : Node)
  /-- What calls can be put after, names without arguments excepted. -/
  | atom (node : Node)
  | arguments (args : List Node)
  /-- One or more expressions with commas between them. -/
  | expressions (nodes : List Node)

/-- The levels whose operators group to the left. -/
def groups : Level → Bool
  | .disjunction | .conjunction | .sum | .product => true
  | .negation | .comparison | .sign => false

/-- The later segments of a dotted name. -/
def dots (segments : List String) : List Token :=
  segments.flatMap fun segment => [.char '.', .id segment]

/-- The tokens are a phrase, given the classes declared so far. -/
inductive Spells (classes : ClassTable) : List Token → Phrase → Prop where
  | grouped {level ts us left node} (hlevel : groups level = true)
    (hleft : Spells classes ts (.expression level.operand left))
    (hchain : Spells classes us (.chain level left node)) :
    Spells classes (ts ++ us) (.expression level node)
  | chainEnd {level node} : Spells classes [] (.chain level node node)
  | chainStep {level op join ts us left right node} (hop : level.join? op = some join)
    (hright : Spells classes ts (.expression level.operand right))
    (hchain : Spells classes us (.chain level (join left right) node)) :
    Spells classes (op :: (ts ++ us)) (.chain level left node)
  | negation {ts node} (h : Spells classes ts (.expression .negation node)) :
    Spells classes (.keyword .notKw :: ts) (.expression .negation (.not node))
  | positive {ts node} (h : Spells classes ts (.expression .comparison node)) :
    Spells classes ts (.expression .negation node)
  | operand {ts node} (h : Spells classes ts (.expression .sum node)) :
    Spells classes ts (.expression .comparison node)
  | comparison {op comparator ts us left right}
    (hop : Parser.comparator? op = some comparator)
    (hleft : Spells classes ts (.expression .sum left))
    (hright : Spells classes us (.expression .sum right)) :
    Spells classes (ts ++ op :: us)
    (.expression .comparison (.compare comparator left right))
  | negative {ts node} (h : Spells classes ts (.expression .sign node)) :
    Spells classes (.char '-' :: ts) (.expression .sign (Parser.negative node))
  | name {first more} :
    Spells classes (.id first :: dots more) (.expression .sign (.path (first :: more)))
  | called {ts us object node} (hatom : Spells classes ts (.atom object))
    (hcalls : Spells classes us (.calls object node)) :
    Spells classes (ts ++ us) (.expression .sign node)
  | callsEnd {node} : Spells classes [] (.calls node node)
  | callsStep {object method args ts us node}
    (hargs : Spells classes ts (.arguments args))
    (hcalls : Spells classes us (.calls (.call object method args) node)) :
    Spells classes (.char '.' :: .id method :: (ts ++ us)) (.calls object node)
  | constant {token node} (h : Parser.constant? token = some node) :
    Spells classes [token] (.atom node)
  | parenthesized {ts node} (h : Spells classes ts (.expression .disjunction node)) :
    Spells classes (.char '(' :: (ts ++ [.char ')'])) (.atom node)
  | methodCall {first more method args ts} (h : Spells classes ts (.arguments args)) :
    Spells classes (.id first :: (dots (more ++ [method]) ++ ts))
    (.atom (.call (.path (first :: more)) method args))
  | conversion {ts node} (h : Spells classes ts (.expression .disjunction node)) :
    Spells classes (.id Parser.textConversion :: .char '(' :: (ts ++ [.char ')']))
    (.atom (.str node))
  | creation {name cls args ts} (hname : name ≠ Parser.textConversion)
    (hcls : classes.latest? name = some cls)
    (hargs : Spells classes ts (.arguments args)) :
    Spells classes (.id name :: ts) (.atom (.create cls args))
  | noArguments : Spells classes [.char '(', .char ')'] (.arguments [])
  | someArguments {ts nodes} (h : Spells classes ts (.expressions nodes)) :
    Spells classes (.char '(' :: (ts ++ [.char ')'])) (.arguments nodes)
  | lastExpression {ts node} (h : Spells classes ts (.expression .disjunction node)) :
    Spells classes ts (.expressions [node])
  | moreExpressions {ts us node nodes}
    (hfirst : Spells classes ts (.expression .disjunction node))
    (hrest : Spells classes us (.expressions nodes)) :
    Spells classes (ts ++ .char ',' :: us) (.expressions (node :: nodes))

/-! ## Lines -/

/-- The tokens are a statement that fits on one line. -/
inductive Simple (inMethod : Bool) (classes : ClassTable) : List Token → Node → Prop where
  | returnNone (hmethod : inMethod = true) :
    Simple inMethod classes [.keyword .returnKw] (.ret .none)
  | returnValue {ts node} (hmethod : inMethod = true)
    (h : Spells classes ts (.expression .disjunction node)) :
    Simple inMethod classes (.keyword .returnKw :: ts) (.ret node)
  | printNothing : Simple inMethod classes [.keyword .printKw] (.print [])
  | printValues {ts nodes} (h : Spells classes ts (.expressions nodes)) :
    Simple inMethod classes (.keyword .printKw :: ts) (.print nodes)
  | assign {ts us name node}
    (htarget : Spells classes ts (.expression .disjunction (.path [name])))
    (hvalue : Spells classes us (.expression .disjunction node)) :
    Simple inMethod classes (ts ++ .char '=' :: us) (.assign name node)
  | setField {ts us object field node} (hobject : object ≠ [])
    (htarget : Spells classes ts (.expression .disjunction (.path (object ++ [field]))))
    (hvalue : Spells classes us (.expression .disjunction node)) :
    Simple inMethod classes (ts ++ .char '=' :: us) (.setField object field node)
  | expression {ts node} (h : Spells classes ts (.expression .disjunction node)) :
    Simple inMethod classes ts node

/-- The tokens name the parent of a class, or there are none. -/
inductive Parent (classes : ClassTable) : List Token → Option ClassId → Prop where
  | root : Parent classes [] none
  | child {name cls} (h : classes.latest? name = some cls) :
    Parent classes [.char '(', .id name, .char ')'] (some cls)

/-- The first line of a class. -/
def classHeader (name : String) (parent : List Token) : List Token :=
  .keyword .classKw :: .id name :: (parent ++ [.char ':'])

/-- The parameters of a method after `self`. -/
def parameterTokens (params : List String) : List Token :=
  params.flatMap fun param => [.char ',', .id param]

/-- The first line of a method. -/
def methodHeader (name : String) (params : List String) : List Token :=
  .keyword .defKw :: .id name :: .char '(' :: .id Method.receiverName ::
    (parameterTokens params ++ [.char ')', .char ':'])

/-- The first line of a conditional. -/
def conditionHeader (condition : List Token) : List Token :=
  .keyword .ifKw :: (condition ++ [.char ':'])

/-- The line before the alternative. -/
def elseHeader : List Token := [.keyword .elseKw, .char ':']

/-! ## Blocks -/

/-- What a list of rows can be. -/
inductive Part where
  | statement (node : Node)
  | statements (nodes : List Node)
  | method (method : Method)
  /-- One or more methods. -/
  | methods (methods : List Method)

/-- The rows are a part of a program at a depth. Declarations change the table of
classes. -/
inductive Block : Bool → Nat → ClassTable → List Row → Part → ClassTable → Prop where
  | simple {inMethod depth classes ts node} (h : Simple inMethod classes ts node) :
    Block inMethod depth classes [⟨depth, ts⟩] (.statement node) classes
  | ifThen {inMethod depth classes classes' ts condition rows nodes}
    (hcondition : Spells classes ts (.expression .disjunction condition))
    (hyes : Block inMethod (depth + 1) classes rows (.statements nodes) classes')
    (hne : nodes ≠ []) :
    Block inMethod depth classes (⟨depth, conditionHeader ts⟩ :: rows)
      (.statement (.ifThen condition (.block nodes))) classes'
  | ifElse {inMethod depth classes classes' classes'' ts condition rows nodes rows'
      nodes'}
    (hcondition : Spells classes ts (.expression .disjunction condition))
    (hyes : Block inMethod (depth + 1) classes rows (.statements nodes) classes')
    (hne : nodes ≠ [])
    (hno : Block inMethod (depth + 1) classes' rows' (.statements nodes') classes'')
    (hne' : nodes' ≠ []) :
    Block inMethod depth classes
      (⟨depth, conditionHeader ts⟩ :: (rows ++ ⟨depth, elseHeader⟩ :: rows'))
      (.statement (.ifElse condition (.block nodes) (.block nodes'))) classes''
  | declaration {inMethod depth classes classes' name ts parent rows methods}
    (hparent : Parent classes ts parent)
    (hmethods : Block inMethod (depth + 1) classes rows (.methods methods) classes') :
    Block inMethod depth classes (⟨depth, classHeader name ts⟩ :: rows)
    (.statement (.define classes'.size))
      (classes'.push ⟨name, parent, methods⟩)
  | noStatements {inMethod depth classes} :
    Block inMethod depth classes [] (.statements []) classes
  | statements {inMethod depth classes classes' classes'' rows node rows' nodes}
    (hfirst : Block inMethod depth classes rows (.statement node) classes')
    (hrest : Block inMethod depth classes' rows' (.statements nodes) classes'') :
    Block inMethod depth classes (rows ++ rows') (.statements (node :: nodes)) classes''
  | method {inMethod depth classes classes' name params rows nodes}
    (hbody : Block true (depth + 1) classes rows (.statements nodes) classes')
    (hne : nodes ≠ []) :
    Block inMethod depth classes (⟨depth, methodHeader name params⟩ :: rows)
      (.method ⟨name, params, .body (.block nodes)⟩) classes'
  | lastMethod {inMethod depth classes classes' rows method}
    (h : Block inMethod depth classes rows (.method method) classes') :
    Block inMethod depth classes rows (.methods [method]) classes'
  | moreMethods {inMethod depth classes classes' classes'' rows method rows' methods}
    (hfirst : Block inMethod depth classes rows (.method method) classes')
    (hrest : Block inMethod depth classes' rows' (.methods methods) classes'') :
    Block inMethod depth classes (rows ++ rows') (.methods (method :: methods)) classes''

end Mint.Grammar
