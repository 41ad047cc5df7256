import Mint.Proofs.Parse

/-!
# One source after another

Two accepted sources put one after the other are accepted, and what is read is what each
of them is read as: the statements of the first and then those of the second, the
classes of the first and then those of the second. Only the numbers of the classes of
the second move up (`Node.shift`), because the table is no longer empty when their
declarations are reached. Blocks that the first source leaves open are closed by the
first line of the second.
-/

namespace Mint

/-! ## Moving class numbers -/

namespace Node

mutual

/-- The tree with all class numbers moved up by `n`. -/
def shift (n : Nat) : Node → Node
  | .assign name value => .assign name (shift n value)
  | .setField object field value => .setField object field (shift n value)
  | .arith op left right => .arith op (shift n left) (shift n right)
  | .logic op left right => .logic op (shift n left) (shift n right)
  | .not operand => .not (shift n operand)
  | .compare op left right => .compare op (shift n left) (shift n right)
  | .ifThen condition yes => .ifThen (shift n condition) (shift n yes)
  | .ifElse condition yes no => .ifElse (shift n condition) (shift n yes) (shift n no)
  | .block nodes => .block (shiftAll n nodes)
  | .ret value => .ret (shift n value)
  | .body inner => .body (shift n inner)
  | .define cls => .define (n + cls)
  | .create cls args => .create (n + cls) (shiftAll n args)
  | .print args => .print (shiftAll n args)
  | .str operand => .str (shift n operand)
  | .call object method args => .call (shift n object) method (shiftAll n args)
  | .lit value => .lit value
  | .none => .none
  | .path segments => .path segments

/-- All trees of a list with their class numbers moved up. -/
def shiftAll (n : Nat) : List Node → List Node
  | [] => []
  | first :: rest => shift n first :: shiftAll n rest

end

theorem shiftAll_eq_map (n : Nat) (nodes : List Node) :
    shiftAll n nodes = nodes.map (shift n) := by
  induction nodes with
  | nil => rfl
  | cons first rest ih => rw [shiftAll, ih, List.map_cons]

end Node

/-- The method with all class numbers moved up by `n`. -/
def Method.shift (n : Nat) (method : Method) : Method :=
  { method with body := method.body.shift n }

/-- The class with all class numbers moved up by `n`. -/
def Class.shift (n : Nat) (cls : Class) : Class where
  name := cls.name
  parent := cls.parent.map (n + ·)
  methods := cls.methods.map (Method.shift n)

namespace ClassTable

/-- The classes of one table and then those of another, numbered on. -/
def append (base table : ClassTable) : ClassTable :=
  ⟨base.classes ++ table.classes.map (Class.shift base.size)⟩

variable (base table : ClassTable)

@[simp] theorem append_empty : base.append ∅ = base := by
  rw [append, show (∅ : ClassTable).classes = #[] from rfl, Array.map_empty,
    Array.append_empty]

@[simp] theorem size_append : (base.append table).size = base.size + table.size := by
  simp [append, size]

theorem push_append (cls : Class) :
    (base.append table).push (cls.shift base.size) = base.append (table.push cls) := by
  simp [append, push]

theorem get_append (i : Nat) :
    (base.append table).get (base.size + i) = (table.get i).shift base.size := by
  simp only [append, get, size, Array.getD_eq_getD_getElem?,
    Array.getElem?_append_right (Nat.le_add_right _ _),
    Nat.add_sub_cancel_left, Array.getElem?_map]
  cases table.classes[i]? <;> rfl

variable {base table}

/-- A class of the second table is found under its name before all classes of the
first. -/
theorem latest?_append {name : String} {i : ClassId} (h : table.latest? name = some i) :
    (base.append table).latest? name = some (base.size + i) := by
  have hname :
      ∀ j, ((base.append table).get (base.size + j)).name = (table.get j).name := by
    intro j
    rw [get_append]
    rfl
  rw [latest?, size_append, List.range_add, List.reverse_append, List.find?_append,
    ← List.map_reverse, List.find?_map]
  simp only [Function.comp_def, hname]
  rw [latest?] at h
  rw [h]
  rfl

end ClassTable

namespace Grammar

open Node (shiftAll)

/-! ## The grammar under more classes -/

/-- The phrase with all class numbers moved up by `n`. -/
def Phrase.shift (n : Nat) : Phrase → Phrase
  | .expression level node => .expression level (node.shift n)
  | .chain level left node => .chain level (left.shift n) (node.shift n)
  | .calls object node => .calls (object.shift n) (node.shift n)
  | .atom node => .atom (node.shift n)
  | .arguments args => .arguments (shiftAll n args)
  | .expressions nodes => .expressions (shiftAll n nodes)

theorem shift_of_join? {level : Parser.Level} {op : Token} {join : Node → Node → Node}
    (n : Nat) (left right : Node) (hop : level.join? op = some join) :
    (join left right).shift n = join (left.shift n) (right.shift n) := by
  unfold Parser.Level.join? at hop
  split at hop <;> cases hop <;> rfl

theorem shift_of_constant? {token : Token} {node : Node} (n : Nat)
    (h : Parser.constant? token = some node) :
    node.shift n = node := by
  rcases lit_of_constant? h with ⟨value, rfl⟩ | rfl
  · rfl
  · rfl

/-- With more classes before them, tokens spell the same phrase. -/
theorem Spells.shift {classes : ClassTable} {ts : List Token} {phrase : Phrase}
    (base : ClassTable) (h : Spells classes ts phrase) :
    Spells (base.append classes) ts (phrase.shift base.size) := by
  induction h with
  | grouped hlevel _ _ ih ih' => exact .grouped hlevel ih ih'
  | chainEnd => exact .chainEnd
  | chainStep hop _ _ ih ih' =>
    rw [Phrase.shift, shift_of_join? base.size _ _ hop] at ih'
    exact .chainStep hop ih ih'
  | negation _ ih => exact .negation ih
  | positive _ ih => exact .positive ih
  | operand _ ih => exact .operand ih
  | comparison hop _ _ ih ih' => exact .comparison hop ih ih'
  | negative _ ih => exact .negative ih
  | name => exact .name
  | called _ _ ih ih' => exact .called ih ih'
  | callsEnd => exact .callsEnd
  | callsStep _ _ ih ih' => exact .callsStep ih ih'
  | constant h =>
    rw [Phrase.shift, shift_of_constant? base.size h]
    exact .constant h
  | parenthesized _ ih => exact .parenthesized ih
  | methodCall _ ih => exact .methodCall ih
  | conversion _ ih => exact .conversion ih
  | creation hname hcls _ ih => exact .creation hname (ClassTable.latest?_append hcls) ih
  | noArguments => exact .noArguments
  | someArguments _ ih => exact .someArguments ih
  | lastExpression _ ih => exact .lastExpression ih
  | moreExpressions _ _ ih ih' => exact .moreExpressions ih ih'

theorem Simple.shift {inMethod : Bool} {classes : ClassTable} {ts : List Token}
    {node : Node} (base : ClassTable) (h : Simple inMethod classes ts node) :
    Simple inMethod (base.append classes) ts (node.shift base.size) := by
  cases h with
  | returnNone hmethod => exact .returnNone hmethod
  | returnValue hmethod h => exact .returnValue hmethod (h.shift base)
  | printNothing => exact .printNothing
  | printValues h => exact .printValues (h.shift base)
  | assign htarget hvalue => exact .assign (htarget.shift base) (hvalue.shift base)
  | setField hobject htarget hvalue =>
    exact .setField hobject (htarget.shift base) (hvalue.shift base)
  | expression h => exact .expression (h.shift base)

theorem Parent.shift {classes : ClassTable} {ts : List Token} {parent : Option ClassId}
    (base : ClassTable) (h : Parent classes ts parent) :
    Parent (base.append classes) ts (parent.map (base.size + ·)) := by
  cases h with
  | root => exact .root
  | child hcls => exact .child (ClassTable.latest?_append hcls)

/-- The part with all class numbers moved up by `n`. -/
def Part.shift (n : Nat) : Part → Part
  | .statement node => .statement (node.shift n)
  | .statements nodes => .statements (shiftAll n nodes)
  | .method found => .method (found.shift n)
  | .methods found => .methods (found.map (Method.shift n))

theorem shiftAll_ne_nil {nodes : List Node} (n : Nat) (h : nodes ≠ []) :
    shiftAll n nodes ≠ [] := by
  rw [Node.shiftAll_eq_map]
  exact fun hnil => h (List.map_eq_nil_iff.mp hnil)

/-- With more classes before them, rows are the same part. -/
theorem Block.shift {inMethod : Bool} {depth : Nat} {classes classes' : ClassTable}
    {rows : List Row} {part : Part} (base : ClassTable)
    (h : Block inMethod depth classes rows part classes') :
    Block inMethod depth (base.append classes) rows (part.shift base.size)
      (base.append classes') := by
  induction h with
  | simple h => exact .simple (h.shift base)
  | ifThen hcondition _ hne ih =>
    exact .ifThen (hcondition.shift base) ih (shiftAll_ne_nil _ hne)
  | ifElse hcondition _ hne _ hne' ih ih' =>
    exact .ifElse (hcondition.shift base) ih (shiftAll_ne_nil _ hne) ih'
      (shiftAll_ne_nil _ hne')
  | @declaration _ _ _ classes' name _ parent _ methods hparent _ ih =>
    rw [← ClassTable.push_append, Part.shift, Node.shift, ← ClassTable.size_append]
    exact .declaration (hparent.shift base) ih
  | noStatements => exact .noStatements
  | statements _ _ ih ih' => exact .statements ih ih'
  | method _ hne ih => exact .method ih (shiftAll_ne_nil _ hne)
  | lastMethod _ ih => exact .lastMethod ih
  | moreMethods _ _ ih ih' => exact .moreMethods ih ih'

/-- Statements and then statements are statements. -/
theorem Block.append {inMethod : Bool} {depth : Nat}
    {classes classes' classes'' : ClassTable}
    {rows rows' : List Row} {nodes nodes' : List Node}
    (h : Block inMethod depth classes rows (.statements nodes) classes')
    (h' : Block inMethod depth classes' rows' (.statements nodes') classes'') :
    Block inMethod depth classes (rows ++ rows')
      (.statements (nodes ++ nodes')) classes'' := by
  induction nodes generalizing rows classes with
  | nil =>
    cases h
    exact h'
  | cons node nodes ih =>
    cases h with
    | statements hfirst hrest =>
      rw [List.append_assoc]
      exact .statements hfirst (ih hrest)

end Grammar

/-! ## Lines of two sources -/

namespace CodeLine

theorem exists_of_ofBytes_ok {count : Nat} {bytes : List UInt8} {found : Option CodeLine}
    (h : ofBytes count bytes = .ok found) (count' : Nat) :
    ∃ found', ofBytes count' bytes = .ok found' ∧
      found'.toList.map row = found.toList.map row := by
  obtain ⟨text, line, htext, hline, rfl⟩ := exists_of_ofBytes h
  refine ⟨ofLine? (count' + 1) line, by simp only [ofBytes, htext, hline], ?_⟩
  rw [ofLine?, ofLine?]
  split <;> rfl

/-- Where lines stand in a source does not matter to their rows. -/
theorem exists_of_leading {lines : List (List UInt8)} {count : Nat}
    {found : List CodeLine} (h : leading count lines = (found, none)) (count' : Nat) :
    ∃ found', leading count' lines = (found', none) ∧ found'.map row = found.map row := by
  induction lines generalizing count count' found with
  | nil =>
    cases h
    exact ⟨[], rfl, rfl⟩
  | cons bytes rest ih =>
    obtain ⟨first, others, hbytes, hrest, rfl⟩ := exists_of_leading_cons h
    obtain ⟨first', hbytes', hfirst⟩ := exists_of_ofBytes_ok hbytes count'
    obtain ⟨others', hrest', hothers⟩ := ih hrest (count' + 1)
    refine ⟨first'.toList ++ others', by rw [leading_of_ok hbytes', hrest'], ?_⟩
    rw [List.map_append, List.map_append, hfirst, hothers]

theorem leading_append {lines lines' : List (List UInt8)} {count : Nat}
    {found found' : List CodeLine} {e : Option LexError}
    (h : leading count lines = (found, none))
    (h' : leading (count + lines.length) lines' = (found', e)) :
    leading count (lines ++ lines') = (found ++ found', e) := by
  induction lines generalizing count found with
  | nil =>
    cases h
    exact h'
  | cons bytes rest ih =>
    obtain ⟨first, others, hbytes, hrest, rfl⟩ := exists_of_leading_cons h
    rw [List.length_cons, ← Nat.add_assoc, Nat.add_right_comm] at h'
    rw [List.cons_append, leading_of_ok hbytes, ih hrest h', List.append_assoc]

theorem exists_of_leading_append {lines lines' : List (List UInt8)} {count : Nat}
    {found : List CodeLine} (h : leading count (lines ++ lines') = (found, none)) :
    ∃ first others, leading count lines = (first, none) ∧
      leading (count + lines.length) lines' = (others, none) ∧
      found = first ++ others := by
  induction lines generalizing count found with
  | nil => exact ⟨[], found, rfl, h, rfl⟩
  | cons bytes rest ih =>
    obtain ⟨line, found, hbytes, hfound, rfl⟩ := exists_of_leading_cons h
    obtain ⟨first, others, hfirst, hothers, rfl⟩ := ih hfound
    refine ⟨line.toList ++ first, others, by rw [leading_of_ok hbytes, hfirst], ?_,
      (List.append_assoc _ _ _).symm⟩
    rw [List.length_cons, ← Nat.add_assoc, Nat.add_right_comm]
    exact hothers

end CodeLine

namespace Program

/-- Two accepted sources, the first of them empty or closed by a line feed, are accepted
as one, and its statements and classes are those of the first and then those of the
second. -/
theorem parse_append {source source' : Source} {program program' : Program}
    (h : parse source = .done program) (h' : parse source' = .done program')
    (hend : source.bytes = [] ∨ source.bytes.getLast? = some Source.lineFeed) :
    parse ⟨source.bytes ++ source'.bytes⟩ =
      .done
        ⟨program.statements ++ program'.statements.map (Node.shift program.classes.size),
        program.classes.append program'.classes⟩ := by
  obtain ⟨lines, hlines, hblock⟩ := parse_eq_done_iff.mp h
  obtain ⟨lines', hlines', hblock'⟩ := parse_eq_done_iff.mp h'
  obtain ⟨found, hfound, hrows⟩ :=
    CodeLine.exists_of_leading hlines' (0 + source.physicalLines.length)
  refine parse_eq_done_iff.mpr ⟨lines ++ found, ?_, ?_⟩
  · rw [Lines, Source.physicalLines, Source.cut_append hend]
    exact CodeLine.leading_append hlines hfound
  · rw [List.map_append, hrows, ← Node.shiftAll_eq_map]
    have hshifted := hblock'.shift program.classes
    rw [ClassTable.append_empty] at hshifted
    exact hblock.append hshifted

/-- A source that leaves three blocks open. -/
def openBlocks : Source :=
  .ofString "class A:\n  def f(self):\n    if self:\n      print 1\n"

/-- What `openBlocks` is read as. -/
def openBlocksProgram : Program where
  statements := [.define 0]
  classes := ⟨#[⟨"A", none, [⟨"f", [],
    .body (.block [.ifThen (.path ["self"]) (.block [.print [.lit (.number 1)]])])⟩]⟩]⟩

/-- A source that declares the class of `openBlocks` anew. -/
def redeclaration : Source :=
  .ofString "class A:\n  def g(self):\n    print 2\nprint A().g()\n"

/-- What `redeclaration` is read as. -/
def redeclarationProgram : Program where
  statements := [.define 0, .print [.call (.create 0 []) "g" []]]
  classes := ⟨#[⟨"A", none, [⟨"g", [], .body (.block [.print [.lit (.number 2)]])⟩]⟩]⟩

theorem parse_append_redeclaration :
    parse openBlocks = .done openBlocksProgram ∧
    parse redeclaration = .done redeclarationProgram ∧
      openBlocks.bytes.getLast? = some Source.lineFeed ∧
      parse ⟨openBlocks.bytes ++ redeclaration.bytes⟩ =
        .done ⟨[.define 0, .define 1, .print [.call (.create 1 []) "g" []]],
          ⟨openBlocksProgram.classes.classes ++
            redeclarationProgram.classes.classes⟩⟩ := by
  have hfirst : parse openBlocks = .done openBlocksProgram := by decide +kernel
  have hsecond : parse redeclaration = .done redeclarationProgram := by decide +kernel
  have hend : openBlocks.bytes.getLast? = some Source.lineFeed := by decide +kernel
  exact ⟨hfirst, hsecond, hend,
    (parse_append hfirst hsecond (.inr hend)).trans (by decide +kernel)⟩

end Program

end Mint
