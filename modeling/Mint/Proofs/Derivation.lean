import Mint.Proofs.Parser.ExpressionSound
import Mint.Proofs.Parser.ExpressionComplete

/-!
# Derivations of expressions

The grammar of expressions as it is written down, one rule for each alternative:

```
test       := and_test | test 'or' and_test
and_test   := not_test | and_test 'and' not_test
not_test   := 'not' not_test | comparison
comparison := expr [('<' | '>' | '==' | '!=' | '<=' | '>=') expr]
expr       := term | expr ('+' | '-') term
term       := unary | term ('*' | '/') unary
unary      := '-' unary | primary
primary    := atom | primary '.' Id '(' args ')'
atom       := Number | String | 'True' | 'False' | 'None' | '(' test ')'
            | 'str' '(' test ')' | Class '(' args ')'
            | dotted | dotted '.' Id '(' args ')'
dotted     := Id ('.' Id)*
args       := [test (',' test)*]
```

A repetition that groups to the left is written as a recursion to the left, so that a
derivation has the shape of its tree. The parser has loops in place of that recursion,
and reads the longest dotted name before it looks for calls. `Derives` and the relation
`Spells` that follows the parser are the same (`derives_iff_spells`), and so the parser
yields a tree exactly for the tokens that derive it (`expression_reads_derivations`).
-/

namespace Mint.Grammar

open Mint.Parser (Level)

/-- The symbols of the grammar that stand for one tree. -/
inductive Nonterminal where
  | test
  | andTest
  | notTest
  | comparison
  | expr
  | term
  | unary
  | primary
  | atom

/-- What tokens can derive. -/
inductive Derived where
  | tree (symbol : Nonterminal) (node : Node)
  /-- One or more tests with commas between them. -/
  | tests (nodes : List Node)
  /-- Tests with commas between them, or nothing. -/
  | args (nodes : List Node)

/-- The tokens derive a tree, given the classes declared so far. -/
inductive Derives (classes : ClassTable) : List Token → Derived → Prop where
  | test {p a} (h : Derives classes p (.tree .andTest a)) :
    Derives classes p (.tree .test a)
  | or {p q a b} (hleft : Derives classes p (.tree .test a))
    (hright : Derives classes q (.tree .andTest b)) :
    Derives classes (p ++ .keyword .orKw :: q) (.tree .test (.logic .or a b))
  | andTest {p a} (h : Derives classes p (.tree .notTest a)) :
    Derives classes p (.tree .andTest a)
  | and {p q a b} (hleft : Derives classes p (.tree .andTest a))
    (hright : Derives classes q (.tree .notTest b)) :
    Derives classes (p ++ .keyword .andKw :: q) (.tree .andTest (.logic .and a b))
  | not {p a} (h : Derives classes p (.tree .notTest a)) :
    Derives classes (.keyword .notKw :: p) (.tree .notTest (.not a))
  | notTest {p a} (h : Derives classes p (.tree .comparison a)) :
    Derives classes p (.tree .notTest a)
  | compare {p q a b} (op : Comparator) (hleft : Derives classes p (.tree .expr a))
    (hright : Derives classes q (.tree .expr b)) :
    Derives classes (p ++ Printer.comparatorToken op :: q)
    (.tree .comparison (.compare op a b))
  | comparison {p a} (h : Derives classes p (.tree .expr a)) :
    Derives classes p (.tree .comparison a)
  | add {p q a b} (hleft : Derives classes p (.tree .expr a))
    (hright : Derives classes q (.tree .term b)) :
    Derives classes (p ++ .char '+' :: q) (.tree .expr (.arith .add a b))
  | sub {p q a b} (hleft : Derives classes p (.tree .expr a))
    (hright : Derives classes q (.tree .term b)) :
    Derives classes (p ++ .char '-' :: q) (.tree .expr (.arith .sub a b))
  | expr {p a} (h : Derives classes p (.tree .term a)) : Derives classes p (.tree .expr a)
  | mul {p q a b} (hleft : Derives classes p (.tree .term a))
    (hright : Derives classes q (.tree .unary b)) :
    Derives classes (p ++ .char '*' :: q) (.tree .term (.arith .mul a b))
  | div {p q a b} (hleft : Derives classes p (.tree .term a))
    (hright : Derives classes q (.tree .unary b)) :
    Derives classes (p ++ .char '/' :: q) (.tree .term (.arith .div a b))
  | term {p a} (h : Derives classes p (.tree .unary a)) :
    Derives classes p (.tree .term a)
  /-- A negative is a difference from zero. -/
  | negative {p a} (h : Derives classes p (.tree .unary a)) :
    Derives classes (.char '-' :: p) (.tree .unary (.arith .sub (.lit (.number 0)) a))
  | unary {p a} (h : Derives classes p (.tree .primary a)) :
    Derives classes p (.tree .unary a)
  | primary {p a} (h : Derives classes p (.tree .atom a)) :
    Derives classes p (.tree .primary a)
  | call {p q a args} (method : String) (hobject : Derives classes p (.tree .primary a))
    (hargs : Derives classes q (.args args)) :
    Derives classes (p ++ .char '.' :: .id method :: Printer.parens q)
    (.tree .primary (.call a method args))
  | literal (value : Literal) :
    Derives classes [Printer.literalToken value] (.tree .atom (.lit value))
  | none : Derives classes [.keyword .noneKw] (.tree .atom .none)
  | parens {p a} (h : Derives classes p (.tree .test a)) :
    Derives classes (Printer.parens p) (.tree .atom a)
  | str {p a} (h : Derives classes p (.tree .test a)) :
    Derives classes (.id Parser.textConversion :: Printer.parens p) (.tree .atom (.str a))
  | create {p name cls args} (hname : name ≠ Parser.textConversion)
    (hcls : classes.latest? name = some cls) (hargs : Derives classes p (.args args)) :
    Derives classes (.id name :: Printer.parens p) (.tree .atom (.create cls args))
  | dotted {path} (hpath : path ≠ []) :
    Derives classes (Printer.dottedTokens path) (.tree .atom (.path path))
  /-- A called name of two segments or more. -/
  | callName {p path args} (method : String) (hpath : path ≠ [])
    (hargs : Derives classes p (.args args)) :
    Derives classes (Printer.dottedTokens (path ++ [method]) ++ Printer.parens p)
      (.tree .atom (.call (.path path) method args))
  | lastTest {p a} (h : Derives classes p (.tree .test a)) :
    Derives classes p (.tests [a])
  | moreTests {p q a as} (hfirst : Derives classes p (.tree .test a))
    (hrest : Derives classes q (.tests as)) :
    Derives classes (p ++ .char ',' :: q) (.tests (a :: as))
  | noArgs : Derives classes [] (.args [])
  | someArgs {p as} (h : Derives classes p (.tests as)) : Derives classes p (.args as)

/-! ## From what the parser spells -/

/-- The symbol of a level of the parser. -/
def symbol : Level → Nonterminal
  | .disjunction => .test
  | .conjunction => .andTest
  | .negation => .notTest
  | .comparison => .comparison
  | .sum => .expr
  | .product => .term
  | .sign => .unary

theorem dottedTokens_cons (first : String) (more : List String) :
    Printer.dottedTokens (first :: more) = .id first :: dots more := by
  induction more generalizing first with
  | nil => rfl
  | cons second more ih =>
    rw [Printer.dottedTokens, ih]
    · rfl
    · exact List.cons_ne_nil second more

variable {classes : ClassTable} {ts us : List Token} {level : Level}
  {left right a b : Node}

theorem Derives.operand (hlevel : groups level = true)
    (h : Derives classes ts (.tree (symbol level.operand) a)) :
    Derives classes ts (.tree (symbol level) a) := by
  cases level with
  | disjunction => exact .test h
  | conjunction => exact .andTest h
  | sum => exact .expr h
  | product => exact .term h
  | _ => cases hlevel

theorem Derives.join {op : Token} {join : Node → Node → Node}
    (hop : level.join? op = some join)
    (hleft : Derives classes ts (.tree (symbol level) a))
    (hright : Derives classes us (.tree (symbol level.operand) b)) :
    Derives classes (ts ++ op :: us) (.tree (symbol level) (join a b)) := by
  unfold Level.join? at hop
  split at hop
  · cases hop
    exact .or hleft hright
  · cases hop
    exact .and hleft hright
  · cases hop
    exact .add hleft hright
  · cases hop
    exact .sub hleft hright
  · cases hop
    exact .mul hleft hright
  · cases hop
    exact .div hleft hright
  · cases hop

theorem comparatorToken_of_comparator? {op : Token} {comparator : Comparator}
    (h : Parser.comparator? op = some comparator) :
    op = Printer.comparatorToken comparator := by
  unfold Parser.comparator? at h
  split at h
  all_goals cases h
  all_goals rfl

theorem derives_of_constant? {token : Token} (h : Parser.constant? token = some a) :
    Derives classes [token] (.tree .atom a) := by
  cases token with
  | number value =>
    obtain rfl := Option.some.inj h
    exact .literal (.number value)
  | string text =>
    obtain rfl := Option.some.inj h
    exact .literal (.text text)
  | keyword word =>
    cases word with
    | trueKw =>
      obtain rfl := Option.some.inj h
      exact .literal (.truth true)
    | falseKw =>
      obtain rfl := Option.some.inj h
      exact .literal (.truth false)
    | noneKw =>
      obtain rfl := Option.some.inj h
      exact .none
    | _ => cases h
  | _ => cases h

/-- What tokens that spell a phrase derive. The operators and calls of a loop are put
behind what stands before them. -/
def Phrase.Derives (classes : ClassTable) (ts : List Token) : Phrase → Prop
  | .expression level node => Grammar.Derives classes ts (.tree (symbol level) node)
  | .chain level left node =>
    ∀ {p}, Grammar.Derives classes p (.tree (symbol level) left) →
      Grammar.Derives classes (p ++ ts) (.tree (symbol level) node)
  | .calls object node => ∀ {p}, Grammar.Derives classes p (.tree .primary object) →
    Grammar.Derives classes (p ++ ts) (.tree .primary node)
  | .atom node => Grammar.Derives classes ts (.tree .atom node)
  | .arguments args => ∃ p, ts = Printer.parens p ∧ Grammar.Derives classes p (.args args)
  | .expressions nodes => Grammar.Derives classes ts (.tests nodes)

theorem Spells.derives {phrase : Phrase} (h : Spells classes ts phrase) :
    phrase.Derives classes ts := by
  induction h with
  | grouped hlevel _ _ ihLeft ihChain => exact ihChain (ihLeft.operand hlevel)
  | chainEnd =>
    intro p hp
    rwa [List.append_nil]
  | chainStep hop _ _ ihRight ihChain =>
    intro p hp
    have hjoin := ihChain (hp.join hop ihRight)
    rwa [List.append_assoc, List.cons_append] at hjoin
  | negation _ ih => exact .not ih
  | positive _ ih => exact .notTest ih
  | operand _ ih => exact .comparison ih
  | comparison hop _ _ ihLeft ihRight =>
    rw [comparatorToken_of_comparator? hop]
    exact .compare _ ihLeft ihRight
  | negative _ ih => exact .negative ih
  | @name first more =>
    rw [← dottedTokens_cons]
    exact .unary (.primary (.dotted (List.cons_ne_nil first more)))
  | called _ _ ihAtom ihCalls => exact .unary (ihCalls (.primary ihAtom))
  | callsEnd =>
    intro p hp
    rwa [List.append_nil]
  | callsStep _ _ ihArgs ihCalls =>
    intro p hp
    obtain ⟨q, rfl, hargs⟩ := ihArgs
    have hcall := ihCalls (.call _ hp hargs)
    rwa [List.append_assoc, List.cons_append, List.cons_append] at hcall
  | constant h => exact derives_of_constant? h
  | parenthesized _ ih => exact .parens ih
  | @methodCall first more method _ _ _ ih =>
    obtain ⟨q, rfl, hargs⟩ := ih
    rw [← List.cons_append, ← dottedTokens_cons, ← List.cons_append]
    exact .callName method (List.cons_ne_nil first more) hargs
  | conversion _ ih => exact .str ih
  | creation hname hcls _ ih =>
    obtain ⟨q, rfl, hargs⟩ := ih
    exact .create hname hcls hargs
  | noArguments => exact ⟨[], rfl, .noArgs⟩
  | someArguments _ ih => exact ⟨_, rfl, .someArgs ih⟩
  | lastExpression _ ih => exact .lastTest ih
  | moreExpressions _ _ ihFirst ihRest => exact .moreTests ihFirst ihRest

/-! ## To what the parser spells -/

/-- What can be put behind the operators and calls of a loop. -/
def Phrase.Extends (classes : ClassTable) (ts : List Token) : Phrase → Prop
  | .chain level left node => ∀ {op join us right}, level.join? op = some join →
    Spells classes us (.expression level.operand right) →
    Spells classes (ts ++ op :: us) (.chain level left (join node right))
  | .calls object node => ∀ {method us args}, Spells classes us (.arguments args) →
    Spells classes (ts ++ .char '.' :: .id method :: us)
    (.calls object (.call node method args))
  | _ => True

theorem Spells.extends {phrase : Phrase} (h : Spells classes ts phrase) :
    phrase.Extends classes ts := by
  induction h with
  | @chainEnd level node =>
    intro op join us right hop hright
    have hchain :
        Spells classes (op :: (us ++ [])) (.chain level node (join node right)) :=
      .chainStep hop hright .chainEnd
    rwa [List.append_nil] at hchain
  | @chainStep level op join ts us left right node hop hright _ _ ih =>
    intro op' join' us' right' hop' hright'
    show Spells classes (op :: (ts ++ us ++ op' :: us')) _
    rw [List.append_assoc]
    exact .chainStep hop hright (ih hop' hright')
  | @callsEnd node =>
    intro method us args hargs
    have hcalls : Spells classes (.char '.' :: .id method :: (us ++ []))
        (.calls node (.call node method args)) :=
      .callsStep hargs .callsEnd
    rwa [List.append_nil] at hcalls
  | @callsStep object method args ts us node hargs _ _ ih =>
    intro method' us' args' hargs'
    show Spells classes
      (.char '.' :: .id method :: (ts ++ us ++ .char '.' :: .id method' :: us')) _
    rw [List.append_assoc]
    exact .callsStep hargs (ih hargs')
  | _ => trivial

/-- An operator and its right operand behind an expression of a level that groups to the
left. -/
theorem Spells.join {op : Token} {join : Node → Node → Node}
    (hlevel : groups level = true) (hop : level.join? op = some join)
    (hleft : Spells classes ts (.expression level a))
    (hright : Spells classes us (.expression level.operand b)) :
    Spells classes (ts ++ op :: us) (.expression level (join a b)) := by
  cases hleft with
  | grouped _ hfirst hchain =>
    rw [List.append_assoc]
    exact .grouped hlevel hfirst (hchain.extends hop hright)
  | _ => cases hlevel

theorem Spells.single (hlevel : groups level = true)
    (h : Spells classes ts (.expression level.operand a)) :
    Spells classes ts (.expression level a) := by
  rw [← List.append_nil ts]
  exact .grouped hlevel h .chainEnd

theorem constant?_literalToken (value : Literal) :
    Parser.constant? (Printer.literalToken value) = some (.lit value) := by
  cases value with
  | truth value => cases value <;> rfl
  | _ => rfl

theorem comparator?_comparatorToken (op : Comparator) :
    Parser.comparator? (Printer.comparatorToken op) = some op := by
  cases op <;> rfl

/-- What an object of calls is spelled by: an atom and calls, or a name on its own. -/
inductive Called (classes : ClassTable) : List Token → Node → Prop where
  | atom {ts us object node} (hatom : Spells classes ts (.atom object))
    (hcalls : Spells classes us (.calls object node)) :
    Called classes (ts ++ us) node
  | name {first more} : Called classes (.id first :: dots more) (.path (first :: more))

theorem Called.of_atom (h : Spells classes ts (.atom a)) : Called classes ts a := by
  rw [← List.append_nil ts]
  exact .atom h .callsEnd

theorem Called.spells (h : Called classes ts a) :
    Spells classes ts (.expression .sign a) := by
  cases h with
  | atom hatom hcalls => exact .called hatom hcalls
  | name => exact .name

/-- A call behind a name takes the name as its object. -/
theorem Called.call {args : List Node} (h : Called classes ts a) (method : String)
    (hargs : Spells classes us (.arguments args)) :
    Called classes (ts ++ .char '.' :: .id method :: us) (.call a method args) := by
  cases h with
  | atom hatom hcalls =>
    rw [List.append_assoc]
    exact .atom hatom (hcalls.extends hargs)
  | @name first more =>
    have hcall : Spells classes (.id first :: (dots (more ++ [method]) ++ us)) _ :=
      .methodCall hargs
    rw [dots, List.flatMap_append, ← dots] at hcall
    exact .of_atom (by simpa using hcall)

/-- What tokens that derive something spell. -/
def Derived.Spells (classes : ClassTable) (ts : List Token) : Derived → Prop
  | .tree .test node => Grammar.Spells classes ts (.expression .disjunction node)
  | .tree .andTest node => Grammar.Spells classes ts (.expression .conjunction node)
  | .tree .notTest node => Grammar.Spells classes ts (.expression .negation node)
  | .tree .comparison node => Grammar.Spells classes ts (.expression .comparison node)
  | .tree .expr node => Grammar.Spells classes ts (.expression .sum node)
  | .tree .term node => Grammar.Spells classes ts (.expression .product node)
  | .tree .unary node => Grammar.Spells classes ts (.expression .sign node)
  | .tree .primary node | .tree .atom node => Called classes ts node
  | .tests nodes => Grammar.Spells classes ts (.expressions nodes)
  | .args nodes => Grammar.Spells classes (Printer.parens ts) (.arguments nodes)

theorem Derives.spells {derived : Derived} (h : Derives classes ts derived) :
    derived.Spells classes ts := by
  induction h with
  | test _ ih | andTest _ ih | expr _ ih | term _ ih => exact ih.single rfl
  | or _ _ ihLeft ihRight | and _ _ ihLeft ihRight | add _ _ ihLeft ihRight
  | sub _ _ ihLeft ihRight
  | mul _ _ ihLeft ihRight | div _ _ ihLeft ihRight => exact ihLeft.join rfl rfl ihRight
  | not _ ih => exact .negation ih
  | notTest _ ih => exact .positive ih
  | compare op _ _ ihLeft ihRight =>
    exact .comparison (comparator?_comparatorToken op) ihLeft ihRight
  | comparison _ ih => exact .operand ih
  | negative _ ih => exact .negative ih
  | unary _ ih => exact ih.spells
  | primary _ ih => exact ih
  | call method _ _ ihObject ihArgs => exact ihObject.call method ihArgs
  | literal value => exact .of_atom (.constant (constant?_literalToken value))
  | none => exact .of_atom (.constant rfl)
  | parens _ ih => exact .of_atom (.parenthesized ih)
  | str _ ih => exact .of_atom (.conversion ih)
  | create hname hcls _ ih => exact .of_atom (.creation hname hcls ih)
  | @dotted path hpath =>
    obtain ⟨first, more, rfl⟩ := List.exists_cons_of_ne_nil hpath
    rw [dottedTokens_cons]
    exact .name
  | @callName p path args method hpath _ ih =>
    obtain ⟨first, more, rfl⟩ := List.exists_cons_of_ne_nil hpath
    rw [List.cons_append, dottedTokens_cons]
    exact .of_atom (.methodCall ih)
  | lastTest _ ih => exact .lastExpression ih
  | moreTests _ _ ihFirst ihRest => exact .moreExpressions ihFirst ihRest
  | noArgs => exact .noArguments
  | someArgs _ ih => exact .someArguments ih

/-- The grammar as it is written down and the one that follows the parser are the same. -/
theorem derives_iff_spells :
    Derives classes ts (.tree .test a) ↔ Spells classes ts (.expression .disjunction a) :=
  ⟨Derives.spells, Spells.derives⟩

end Mint.Grammar

namespace Mint.Parser

open Grammar

/-- The parser for expressions yields a tree exactly for the tokens that derive it. If
it succeeds on a stream that ends in the end of the input, as every stream of a source
does, then what it has taken derives its tree and no class was declared. And where
tokens derive a tree and the token behind them does not continue an expression, it takes
these tokens and no more. The fuel that it needs for this grows with the tokens it takes
and not with what stands behind them. -/
theorem expression_reads_derivations :
    (∀ (fuel : Nat) (s u : ParserState) (node : Node), s.cursor.Closed →
      expression fuel .disjunction s = .done (node, u) →
      u.classes = s.classes ∧
      ∃ taken : List Lexeme, s.cursor.stream = taken.map .token ++ u.cursor.stream ∧
        Derives s.classes (taken.map Lexeme.token) (.tree .test node)) ∧
    ∀ (fuel : Nat) (s : ParserState) (taken : List Lexeme) (next : Lexeme)
      (rest : List Reading) (node : Node),
      Derives s.classes (taken.map Lexeme.token) (.tree .test node) →
        continues? next.token = none →
      s.cursor.stream = taken.map .token ++ .token next :: rest →
      16 * taken.length + 9 ≤ fuel →
      ∃ u, expression fuel .disjunction s = .done (node, u) ∧
        u.cursor.stream = .token next :: rest ∧
        u.classes = s.classes := by
  constructor
  · intro fuel s u node hclosed h
    obtain ⟨ts, htakes, hspells⟩ := (sound fuel).expression hclosed h
    obtain ⟨taken, rfl, hstream, -⟩ := htakes.lexemes
    exact ⟨htakes.classes_eq, taken, hstream, derives_iff_spells.mpr hspells⟩
  · intro fuel s taken next rest node hderives hnext hstream hfuel
    obtain ⟨u, htakes, hu⟩ := ParserState.Takes.of_stream hstream
    have hcurrent : u.cursor.current = next := Reading.token.inj (List.cons.inj hu).1
    have hstops : Stops .disjunction u.cursor.token :=
      stops_of_none (by rw [Cursor.token, hcurrent]; exact hnext)
    have hcomplete := complete_of_spells (derives_iff_spells.mp hderives)
    refine ⟨u, hcomplete fuel rfl htakes ?_ hstops, hu, htakes.classes_eq⟩
    rw [List.length_map]
    exact hfuel

/-- `not a.f(-1, str(x)) < 2 * (B() + 3) or c`, which has an operator of every level. -/
def mixedTokens : List Token :=
  [.keyword .notKw, .id "a", .char '.', .id "f", .char '(', .char '-', .number 1,
    .char ',', .id "str", .char '(', .id "x", .char ')', .char ')', .char '<', .number 2,
    .char '*', .char '(', .id "B", .char '(', .char ')', .char '+',
    .number 3, .char ')', .keyword .orKw, .id "c"]

/-- The tree of `mixedTokens` where `B` is the first class. -/
def mixedTree : Node :=
  .logic .or
    (.not (.compare .less
      (.call (.path ["a"]) "f" [.arith .sub (.lit (.number 0)) (.lit (.number 1)),
        .str (.path ["x"])])
      (.arith .mul (.lit (.number 2)) (.arith .add (.create 0 []) (.lit (.number 3))))))
    (.path ["c"])

/-- A parser before tokens on one line, with the class `B` declared. -/
def beforeTokens (first : Token) (more : List Token) : ParserState :=
  ⟨⟨[], ⟨first, 1⟩, Reading.place 1 more⟩, ⟨#[⟨"B", none, []⟩]⟩⟩

theorem expression_reads_derivations_mixed :
    (beforeTokens (.keyword .notKw)
      (mixedTokens.tail ++ [Token.newline, Token.eof])).cursor.Closed ∧
    Derives ⟨#[⟨"B", none, []⟩]⟩ mixedTokens (.tree .test mixedTree) ∧
    ∃ u, expression 409 .disjunction
      (beforeTokens (.keyword .notKw) (mixedTokens.tail ++ [.char ':', .id "d"])) =
      .done (mixedTree, u) ∧ u.cursor.stream = Reading.place 1 [.char ':', .id "d"] ∧
      u.classes = ⟨#[⟨"B", none, []⟩]⟩ := by
  have hclosed : (beforeTokens (.keyword .notKw)
      (mixedTokens.tail ++ [Token.newline, Token.eof])).cursor.Closed :=
    ⟨1, by decide⟩
  have hdone : expression 409 .disjunction
      (beforeTokens (.keyword .notKw) (mixedTokens.tail ++ [Token.newline, Token.eof])) =
      .done (mixedTree, ⟨⟨mixedTokens.reverse.map (⟨·, 1⟩), ⟨Token.newline, 1⟩,
        Reading.place 1 [Token.eof]⟩, ⟨#[⟨"B", none, []⟩]⟩⟩) := by decide +kernel
  obtain ⟨-, taken, hstream, hderives⟩ :=
    expression_reads_derivations.1 _ _ _ _ hclosed hdone
  -- what was taken is all that stands before the newline mark
  have htaken : (mixedTokens.map fun token => (⟨token, 1⟩ : Lexeme)) = taken :=
    (List.map_inj_right fun _ _ => Reading.token.inj).mp
      (List.append_cancel_right hstream)
  subst htaken
  refine ⟨hclosed, hderives, ?_⟩
  exact expression_reads_derivations.2 409 _ (mixedTokens.map (⟨·, 1⟩)) ⟨.char ':', 1⟩
    (Reading.place 1 [.id "d"]) _ hderives rfl rfl (by decide)

end Mint.Parser
