import Mathlib.Data.List.Forall2
import Mint.Proofs.ClassOrder

/-!
# Outlines

What the lines of a source say of classes, told without parsing them. An `Outline` is
read from the top, line by line. It keeps the classes that are complete, the classes
that are open, and the names that are called or stand for a parent, each with the number
of classes that are complete by then. A class is complete at the first line that is not
deeper than its header.

In a line, a name that stands before a parenthesis and not behind a dot is the name of a
class of which an instance is made. The grammar says the same (`Grammar.Spells.calls`):
these names are, one by one, those of the classes in the tree.
-/

namespace Mint

/-! ## Reading lines -/

/-- The name of a class at its place in a source. -/
structure Mention where
  name : String
  /-- The number of classes that are complete where the name is written. -/
  complete : Nat
deriving DecidableEq

/-- What the lines of a class say of other classes. -/
structure Declared where
  name : String
  parent : Option Mention
  /-- The names called in its methods, outside of the classes inside them. -/
  creations : List Mention
deriving DecidableEq

/-- What the lines read so far say of classes. -/
structure Outline where
  complete : List Declared
  /-- The open classes with the depths of their headers, the innermost first. -/
  opened : List (Nat × Declared)
  /-- The names called outside of all classes. -/
  top : List Mention
deriving DecidableEq

namespace Outline

/-- The names in a line that stand before a parenthesis and not behind a dot, except for
`str`. -/
def calledNames (afterDot : Bool) : List Token → List String
  | [] => []
  | .id name :: rest =>
    if afterDot = false ∧ rest.head? = some (.char '(') ∧
        name ≠ Parser.textConversion then
      name :: calledNames false rest
    else
      calledNames false rest
  | token :: rest => calledNames (token == .char '.') rest

/-- The parent that is named behind the name of a class. -/
def parentName? : List Token → Option String
  | .char '(' :: .id name :: _ => some name
  | _ => none

/-- A name that is written here. -/
def mention (o : Outline) (name : String) : Mention := ⟨name, o.complete.length⟩

/-- The classes whose headers are at `depth` or deeper are complete, the innermost
first. -/
def close (o : Outline) (depth : Nat) : Outline where
  complete := o.complete ++ (o.opened.takeWhile (depth ≤ ·.1)).map Prod.snd
  opened := o.opened.dropWhile (depth ≤ ·.1)
  top := o.top

/-- Adds names that are called in the innermost open class. -/
def record (o : Outline) (mentions : List Mention) : Outline :=
  match o.opened with
  | [] => { o with top := o.top ++ mentions }
  | (depth, cls) :: rest =>
    { o with
      opened := (depth, { cls with creations := cls.creations ++ mentions }) :: rest }

/-- Adds a class that begins here. -/
def enter (o : Outline) (depth : Nat) (cls : Declared) : Outline :=
  { o with opened := (depth, cls) :: o.opened }

/-- Reads the next line. -/
def addRow (o : Outline) (row : Row) : Outline :=
  let o := o.close row.depth
  match row.tokens with
  | .keyword .classKw :: .id name :: rest =>
    o.enter row.depth ⟨name, (parentName? rest).map o.mention, []⟩
  | .keyword .defKw :: _ => o
  | tokens => o.record ((calledNames false tokens).map o.mention)

/-- Reads lines to the end. -/
def ofRows (rows : List Row) : Outline := (rows.foldl addRow ⟨[], [], []⟩).close 0

end Outline

/-- The outline of the lines of a source. -/
def Source.outline (source : Source) : Outline :=
  .ofRows ((CodeLine.leading 0 source.physicalLines).1.map CodeLine.row)

/-! ## Closing classes -/

namespace Outline

variable {o : Outline} {depth depth' : Nat} {tokens : List Token}

/-- No class is open that a line at this depth would end. -/
def Closed (o : Outline) (depth : Nat) : Prop :=
  ∀ entry, o.opened.head? = some entry → entry.1 < depth

theorem closed_close (o : Outline) (depth : Nat) : (o.close depth).Closed depth := by
  intro entry hentry
  have hhead :=
    List.head?_dropWhile_not (fun e : Nat × Declared => decide (depth ≤ e.1)) o.opened
  rw [show (o.opened.dropWhile _).head? = some entry from hentry] at hhead
  exact Nat.lt_of_not_le (of_decide_eq_false hhead)

theorem Closed.close_eq (h : o.Closed depth) : o.close depth = o := by
  obtain ⟨complete, opened, top⟩ := o
  cases opened with
  | nil => simp [close]
  | cons entry rest =>
    have hentry : ¬depth ≤ entry.1 := Nat.not_le_of_lt (h entry rfl)
    simp [close, hentry]

theorem Closed.mono (h : o.Closed depth) (hle : depth ≤ depth') : o.Closed depth' :=
  fun entry hentry => Nat.lt_of_lt_of_le (h entry hentry) hle

/-- A shallower line ends what a deeper line ends. -/
theorem close_close (o : Outline) (hle : depth ≤ depth') :
    (o.close depth').close depth = o.close depth := by
  obtain ⟨complete, opened, top⟩ := o
  induction opened generalizing complete with
  | nil => simp [close]
  | cons entry rest ih =>
    by_cases hentry : depth' ≤ entry.1
    · have hentry' : depth ≤ entry.1 := Nat.le_trans hle hentry
      have hrest := ih (complete ++ [entry.2])
      simpa [close, hentry, hentry'] using hrest
    · simp [close, hentry]

theorem record_record (o : Outline) (mentions mentions' : List Mention) :
    (o.record mentions).record mentions' = o.record (mentions ++ mentions') := by
  obtain ⟨complete, opened, top⟩ := o
  cases opened with
  | nil => simp [record]
  | cons entry rest => simp [record]

theorem record_nil (o : Outline) : o.record [] = o := by
  obtain ⟨complete, opened, top⟩ := o
  cases opened with
  | nil => simp [record]
  | cons entry rest => simp [record]

theorem complete_record (o : Outline) (mentions : List Mention) :
    (o.record mentions).complete = o.complete := by
  obtain ⟨complete, opened, top⟩ := o
  cases opened <;> rfl

theorem Closed.record (h : o.Closed depth) (mentions : List Mention) :
    (o.record mentions).Closed depth := by
  obtain ⟨complete, opened, top⟩ := o
  cases opened with
  | nil => exact h
  | cons entry rest =>
    rintro _ ⟨⟩
    exact h entry rfl

/-- The outline with other complete classes. -/
def withComplete (o : Outline) (complete : List Declared) : Outline := { o with complete }

theorem record_withComplete (o : Outline) (complete : List Declared)
    (mentions : List Mention) :
    (o.withComplete complete).record mentions =
      (o.record mentions).withComplete complete := by
  obtain ⟨complete, opened, top⟩ := o
  cases opened <;> rfl

theorem Closed.withComplete (h : o.Closed depth) (complete : List Declared) :
    (o.withComplete complete).Closed depth := h

/-- A line that is not deeper than its header ends a class. -/
theorem close_enter (h : o.Closed depth) (cls : Declared) :
    (o.enter depth cls).close depth = o.withComplete (o.complete ++ [cls]) := by
  obtain ⟨complete, opened, top⟩ := o
  cases opened with
  | nil => simp [enter, close, withComplete]
  | cons entry rest =>
    have hentry : ¬depth ≤ entry.1 := Nat.not_le_of_lt (h entry rfl)
    simp [enter, close, withComplete, hentry]

/-- A line that begins neither a class nor a method. -/
theorem addRow_of_plain (hclass : tokens.head? ≠ some (.keyword .classKw))
    (hdef : tokens.head? ≠ some (.keyword .defKw)) :
    o.addRow ⟨depth, tokens⟩ = (o.close depth).record
      ((calledNames false tokens).map (o.close depth).mention) := by
  unfold addRow
  dsimp only
  split
  · exact absurd rfl hclass
  · exact absurd rfl hdef
  · rfl

end Outline

/-! ## Creations in trees -/

namespace Node

/-- The class of which a node makes an instance. -/
def created? : Node → Option ClassId
  | .create cls _ => some cls
  | _ => Option.none

/-- The classes of which instances are made, in the order in which they are written. -/
def creations (n : Node) : List ClassId := n.subtrees.filterMap created?

/-- The classes of which instances are made in the trees of a list. -/
def allCreations (ns : List Node) : List ClassId := (allSubtrees ns).filterMap created?

end Node

/-- The classes of which instances are made in methods. -/
def Method.allCreations (methods : List Method) : List ClassId :=
  methods.flatMap fun method => method.body.creations

theorem Node.creations_compare (op : Comparator) (left right : Node) :
    (compare op left right).creations = left.creations ++ right.creations :=
  List.filterMap_append

theorem Node.creations_call (object : Node) (method : String) (args : List Node) :
    (call object method args).creations = object.creations ++ allCreations args :=
  List.filterMap_append

theorem Node.creations_ifThen (condition : Node) (nodes : List Node) :
    (ifThen condition (.block nodes)).creations =
      condition.creations ++ allCreations nodes := List.filterMap_append

theorem Node.creations_ifElse (condition : Node) (nodes nodes' : List Node) :
    (ifElse condition (.block nodes) (.block nodes')).creations =
      condition.creations ++ (allCreations nodes ++ allCreations nodes') := by
  refine List.filterMap_append.trans ?_
  exact congrArg _ List.filterMap_append

theorem Node.allCreations_cons (first : Node) (rest : List Node) :
    allCreations (first :: rest) = first.creations ++ allCreations rest := by
  rw [allCreations, allSubtrees, List.filterMap_append, creations, allCreations]

/-! ## Names in a line -/

namespace Outline

theorem calledNames_id {name : String} {rest : List Token}
    (h : rest.head? ≠ some (.char '(')) :
    calledNames false (.id name :: rest) = calledNames false rest := by
  rw [calledNames, if_neg fun hcall => h hcall.2.1]

theorem calledNames_call {name : String} (hname : name ≠ Parser.textConversion)
    (rest : List Token) :
    calledNames false (.id name :: .char '(' :: rest) =
      name :: calledNames false rest := by
  rw [calledNames, if_pos ⟨rfl, rfl, hname⟩]
  rfl

theorem calledNames_conversion (rest : List Token) :
    calledNames false (.id Parser.textConversion :: .char '(' :: rest) =
      calledNames false rest := by
  rw [calledNames, if_neg fun hcall => hcall.2.2 rfl]
  rfl

/-- What stands behind a dot is not called by itself. -/
theorem calledNames_dots (segments : List String) (rest : List Token) :
    calledNames false (Grammar.dots segments ++ rest) = calledNames false rest := by
  induction segments with
  | nil => rfl
  | cons segment segments ih => exact ih

end Outline

namespace Grammar

open Outline
    (calledNames calledNames_id calledNames_call calledNames_conversion calledNames_dots)
open Node (creations allCreations)

/-- The names mean the classes. -/
def Named (classes : ClassTable) : List String → List ClassId → Prop :=
  List.Forall₂ fun name i => classes.latest? name = some i

theorem Named.append {classes : ClassTable} {names names' : List String}
    {ids ids' : List ClassId} (h : Named classes names ids)
    (h' : Named classes names' ids') : Named classes (names ++ names') (ids ++ ids') :=
  List.rel_append h h'

/-- The names are those of the classes of which the phrase makes instances. -/
def Phrase.Calls (classes : ClassTable) (names : List String) : Phrase → Prop
  | .expression _ node | .atom node => Named classes names node.creations
  | .chain _ left node | .calls left node =>
    ∃ ids, node.creations = left.creations ++ ids ∧ Named classes names ids
  | .arguments nodes | .expressions nodes => Named classes names (allCreations nodes)

/-- No parenthesis opens here. -/
def Unopened (ts : List Token) : Prop := ts.head? ≠ some (.char '(')

variable {classes : ClassTable} {ts us : List Token}

theorem Unopened.chain {level : Parser.Level} {left node : Node}
    (h : Spells classes ts (.chain level left node)) (hus : Unopened us) :
    Unopened (ts ++ us) := by
  cases h with
  | chainEnd => exact hus
  | chainStep hop =>
    intro hopen
    cases hopen
    cases level <;> cases hop

theorem Unopened.calls {object node : Node} (h : Spells classes ts (.calls object node))
    (hus : Unopened us) :
    Unopened (ts ++ us) := by
  cases h with
  | callsEnd => exact hus
  | callsStep =>
    intro hopen
    cases hopen

theorem Unopened.comparator {op : Token} {comparator : Comparator}
    (hop : Parser.comparator? op = some comparator) (us : List Token) :
    Unopened (op :: us) := by
  intro hopen
  cases hopen
  cases hop

theorem Unopened.dots (segments : List String) (hus : Unopened us) :
    Unopened (dots segments ++ us) := by
  cases segments with
  | nil => exact hus
  | cons segment segments => exact fun h => nomatch h

theorem Unopened.dots_concat (segments : List String) (last : String) (us : List Token) :
    Unopened (Grammar.dots (segments ++ [last]) ++ us) := by
  cases segments <;> exact fun h => nomatch h

theorem Unopened.closed (us : List Token) : Unopened ([.char ')'] ++ us) := by
  rintro ⟨⟩

theorem Unopened.comma (us : List Token) : Unopened (.char ',' :: us) := by
  rintro ⟨⟩

theorem exists_of_arguments {args : List Node} (h : Spells classes ts (.arguments args)) :
    ∃ rest, ts = .char '(' :: rest := by
  cases h with
  | noArguments => exact ⟨_, rfl⟩
  | someArguments => exact ⟨_, rfl⟩

theorem creations_of_join? {level : Parser.Level} {op : Token} {join : Node → Node → Node}
    (hop : level.join? op = some join) (left right : Node) :
    (join left right).creations = left.creations ++ right.creations := by
  unfold Parser.Level.join? at hop
  split at hop <;> cases hop <;> exact List.filterMap_append

/-- Operators are no names and no dots. -/
theorem calledNames_of_join? {level : Parser.Level} {op : Token}
    {join : Node → Node → Node} (hop : level.join? op = some join) (rest : List Token) :
    calledNames false (op :: rest) = calledNames false rest := by
  unfold Parser.Level.join? at hop
  split at hop <;> first | rfl | cases hop

theorem calledNames_of_comparator? {op : Token} {comparator : Comparator}
    (hop : Parser.comparator? op = some comparator) (rest : List Token) :
    calledNames false (op :: rest) = calledNames false rest := by
  unfold Parser.comparator? at hop
  split at hop <;> first | rfl | cases hop

theorem calledNames_of_constant? {token : Token} {node : Node}
    (h : Parser.constant? token = some node) (rest : List Token) :
    calledNames false (token :: rest) = calledNames false rest := by
  cases token with
  | number | string | keyword => rfl
  | _ => cases h

/-- The names that are called in the tokens of a phrase are those of the classes of
which it makes instances. -/
theorem Spells.calls {phrase : Phrase} (h : Spells classes ts phrase) :
    ∃ names, phrase.Calls classes names ∧
      ∀ us,
        Unopened us → calledNames false (ts ++ us) = names ++ calledNames false us := by
  induction h with
  | grouped _ hleft hchain ih ih' =>
    obtain ⟨names, hnames, hts⟩ := ih
    obtain ⟨names', ⟨ids, hids, hnames'⟩, hus⟩ := ih'
    refine ⟨names ++ names', ?_, fun us h => ?_⟩
    · rw [Phrase.Calls, hids]
      exact hnames.append hnames'
    · rw [List.append_assoc, hts _ (.chain hchain h), hus us h, List.append_assoc]
  | chainEnd | callsEnd =>
    exact ⟨[], ⟨[], (List.append_nil _).symm, .nil⟩, fun us _ => rfl⟩
  | chainStep hop hright hchain ih ih' =>
    obtain ⟨names, hnames, hts⟩ := ih
    obtain ⟨names', ⟨ids, hids, hnames'⟩, hus⟩ := ih'
    rw [creations_of_join? hop, List.append_assoc] at hids
    refine ⟨names ++ names', ⟨_, hids, hnames.append hnames'⟩, fun us h => ?_⟩
    rw [List.cons_append, calledNames_of_join? hop, List.append_assoc,
      hts _ (.chain hchain h), hus us h, List.append_assoc]
  | positive _ ih | operand _ ih => exact ih
  | negation _ ih | negative _ ih =>
    obtain ⟨names, hnames, hts⟩ := ih
    exact ⟨names, hnames, fun us h => hts us h⟩
  | comparison hop _ _ ih ih' =>
    obtain ⟨names, hnames, hts⟩ := ih
    obtain ⟨names', hnames', hus⟩ := ih'
    refine ⟨names ++ names', ?_, fun us h => ?_⟩
    · rw [Phrase.Calls, Node.creations_compare]
      exact hnames.append hnames'
    · rw [List.append_assoc, List.cons_append, hts _ (.comparator hop _),
        calledNames_of_comparator? hop, hus us h, List.append_assoc]
  | @name first more =>
    refine ⟨[], .nil, fun us h => ?_⟩
    rw [List.cons_append, calledNames_id (Unopened.dots more h), calledNames_dots]
    rfl
  | called _ hcalls ih ih' =>
    obtain ⟨names, hnames, hts⟩ := ih
    obtain ⟨names', ⟨ids, hids, hnames'⟩, hus⟩ := ih'
    refine ⟨names ++ names', ?_, fun us h => ?_⟩
    · rw [Phrase.Calls, hids]
      exact hnames.append hnames'
    · rw [List.append_assoc, hts _ (.calls hcalls h), hus us h, List.append_assoc]
  | callsStep _ hcalls ih ih' =>
    obtain ⟨names, hnames, hts⟩ := ih
    obtain ⟨names', ⟨ids, hids, hnames'⟩, hus⟩ := ih'
    rw [Node.creations_call, List.append_assoc] at hids
    refine ⟨names ++ names', ⟨_, hids, hnames.append hnames'⟩, fun us h => ?_⟩
    show calledNames false ((_ ++ _) ++ us) = _
    rw [List.append_assoc, hts _ (.calls hcalls h), hus us h, List.append_assoc]
  | constant h =>
    refine ⟨[], ?_, fun us _ => calledNames_of_constant? h us⟩
    rcases lit_of_constant? h with ⟨value, rfl⟩ | rfl
    · exact .nil
    · exact .nil
  | parenthesized _ ih | someArguments _ ih =>
    obtain ⟨names, hnames, hts⟩ := ih
    refine ⟨names, hnames, fun us h => ?_⟩
    show calledNames false ((_ ++ _) ++ us) = _
    rw [List.append_assoc]
    exact hts _ (.closed us)
  | methodCall hargs ih =>
    obtain ⟨names, hnames, hts⟩ := ih
    refine ⟨names, hnames, fun us h => ?_⟩
    rw [List.cons_append, List.append_assoc, calledNames_id (Unopened.dots_concat _ _ _),
      calledNames_dots, hts us h]
  | conversion _ ih =>
    obtain ⟨names, hnames, hts⟩ := ih
    refine ⟨names, hnames, fun us h => ?_⟩
    rw [List.cons_append, List.cons_append, calledNames_conversion, List.append_assoc]
    exact hts _ (.closed us)
  | creation hname hcls hargs ih =>
    obtain ⟨names, hnames, hts⟩ := ih
    obtain ⟨rest, rfl⟩ := exists_of_arguments hargs
    refine ⟨_ :: names, .cons hcls hnames, fun us h => ?_⟩
    rw [List.cons_append, List.cons_append, calledNames_call hname, List.cons_append]
    exact congrArg _ (hts us h)
  | noArguments => exact ⟨[], .nil, fun us _ => rfl⟩
  | lastExpression _ ih =>
    obtain ⟨names, hnames, hts⟩ := ih
    refine ⟨names, ?_, hts⟩
    rw [Phrase.Calls, Node.allCreations_cons]
    exact (List.append_nil (creations _)).symm ▸ hnames
  | moreExpressions _ _ ih ih' =>
    obtain ⟨names, hnames, hts⟩ := ih
    obtain ⟨names', hnames', hus⟩ := ih'
    refine ⟨names ++ names', ?_, fun us h => ?_⟩
    · rw [Phrase.Calls, Node.allCreations_cons]
      exact hnames.append hnames'
    · rw [List.append_assoc, List.cons_append, hts _ (.comma _), List.append_assoc,
        ← hus us h]
      rfl

theorem Spells.calls_calledNames {phrase : Phrase} (h : Spells classes ts phrase) :
    phrase.Calls classes (calledNames false ts) := by
  obtain ⟨names, hnames, hts⟩ := h.calls
  have hall := hts [] fun h => nomatch h
  rw [List.append_nil, calledNames, List.append_nil] at hall
  rw [hall]
  exact hnames

/-- The target of an assignment calls nothing. -/
theorem Spells.calledNames_target {level : Parser.Level} {segments : List String}
    (h : Spells classes ts (.expression level (.path segments))) (rest : List Token) :
    calledNames false (ts ++ .char '=' :: rest) = calledNames false rest := by
  obtain ⟨names, hnames, hts⟩ := h.calls
  cases hnames
  exact hts _ fun h => nomatch h

theorem Simple.named {inMethod : Bool} {node : Node}
    (h : Simple inMethod classes ts node) :
    Named classes (calledNames false ts) node.creations := by
  cases h with
  | returnNone | printNothing => exact .nil
  | returnValue _ h => exact h.calls_calledNames
  | printValues h => exact h.calls_calledNames
  | assign htarget h | setField _ htarget h =>
    rw [htarget.calledNames_target]
    exact h.calls_calledNames
  | expression h => exact h.calls_calledNames

end Grammar

end Mint
