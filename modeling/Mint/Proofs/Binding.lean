import Mint.Proofs.Eval.Invariant
import Mint.Proofs.Outline

/-!
# Class names mean what is above them

Which class a name means can be told from the lines above it: it is the latest of that
name among the classes that are complete where the name is written (`Mention.Denotes`).
The outline of a source has the names and the number of complete classes, and the parser
agrees with it. The classes that it puts into the table are the complete ones in their
order, and every parent and every creation in a tree is what its name denotes. A later
class of that name changes nothing, and neither does a variable.
-/

namespace Mint

/-! ## What outlines say of programs -/

/-- Class `i` is the latest of the name among those that are complete where the name is
written. -/
structure Mention.Denotes (classes : ClassTable) (mention : Mention) (i : ClassId) :
    Prop where
  complete_le : mention.complete ≤ classes.size
  lt : i < mention.complete
  name_eq : (classes.get i).name = mention.name
  latest : ∀ j, i < j → j < mention.complete → (classes.get j).name ≠ mention.name

/-- The class is as its lines say. -/
structure Declared.Describes (classes : ClassTable) (declared : Declared) (cls : Class) :
    Prop where
  name_eq : cls.name = declared.name
  parent : Option.Rel (Mention.Denotes classes) declared.parent cls.parent
  creations : List.Forall₂ (Mention.Denotes classes) declared.creations
    (Method.allCreations cls.methods)

/-- The program is as the outline says: its classes are the complete ones, and every
name has its class. -/
structure Outline.Describes (o : Outline) (program : Program) : Prop where
  classes : List.Forall₂ (Declared.Describes program.classes) o.complete
    program.classes.classes.toList
  top : List.Forall₂ (Mention.Denotes program.classes) o.top
    (Node.allCreations program.statements)

/-! ## Tables that grow -/

/-- The second table is the first with classes added at the end. -/
structure ClassTable.Grows (classes classes' : ClassTable) : Prop where
  size_le : classes.size ≤ classes'.size
  get_eq : ∀ i, i < classes.size → classes'.get i = classes.get i

namespace ClassTable

variable {classes classes' classes'' : ClassTable}

theorem Grows.refl (classes : ClassTable) : classes.Grows classes :=
  ⟨Nat.le_refl _, fun _ _ => rfl⟩

theorem Grows.trans (h : classes.Grows classes') (h' : classes'.Grows classes'') :
    classes.Grows classes'' := by
  refine ⟨Nat.le_trans h.size_le h'.size_le, fun i hi => ?_⟩
  rw [h'.get_eq i (Nat.lt_of_lt_of_le hi h.size_le), h.get_eq i hi]

theorem grows_push (classes : ClassTable) (cls : Class) :
    classes.Grows (classes.push cls) := by
  refine ⟨?_, fun i hi => get_push_of_lt cls hi⟩
  rw [size_push]
  exact Nat.le_succ _

/-- What `latest?` finds has the name, and nothing after it has. -/
theorem latest_of_latest? {name : String} {i : ClassId}
    (h : classes.latest? name = some i) :
    (classes.get i).name = name ∧
    ∀ j, i < j → j < classes.size → (classes.get j).name ≠ name := by
  have hfind :
      ∀ n, (List.range n).reverse.find? (fun i => (classes.get i).name == name) = some i →
      (classes.get i).name = name ∧ ∀ j, i < j → j < n → (classes.get j).name ≠ name := by
    intro n
    induction n with
    | zero =>
      intro h
      cases h
    | succ n ih =>
      intro h
      rw [List.range_succ, List.reverse_append, List.reverse_singleton,
        List.singleton_append, List.find?_cons] at h
      split at h
      · next hname =>
        cases h
        refine ⟨beq_iff_eq.mp hname, fun j hj hlt => ?_⟩
        exact absurd (Nat.le_of_lt_succ hlt) (Nat.not_le_of_lt hj)
      · next hname =>
        obtain ⟨hi, hlater⟩ := ih h
        refine ⟨hi, fun j hj hlt => ?_⟩
        rcases Nat.lt_succ_iff_lt_or_eq.mp hlt with hlt | rfl
        · exact hlater j hj hlt
        · exact fun heq => by simp [heq] at hname
  exact hfind classes.size h

end ClassTable

namespace Mention

variable {classes classes' : ClassTable} {name : String} {i : ClassId}

theorem Denotes.grows {mention : Mention} (h : mention.Denotes classes i)
    (hgrows : classes.Grows classes') :
    mention.Denotes classes' i := by
  refine ⟨Nat.le_trans h.complete_le hgrows.size_le, h.lt, ?_, fun j hij hj => ?_⟩
  · rw [hgrows.get_eq i (Nat.lt_of_lt_of_le h.lt h.complete_le), h.name_eq]
  · rw [hgrows.get_eq j (Nat.lt_of_lt_of_le hj h.complete_le)]
    exact h.latest j hij hj

theorem rel_grows {mention? : Option Mention} {cls? : Option ClassId}
    (h : Option.Rel (Denotes classes) mention? cls?) (hgrows : classes.Grows classes') :
    Option.Rel (Denotes classes') mention? cls? := by
  cases h with
  | some hdenotes => exact .some (hdenotes.grows hgrows)
  | none => exact .none

/-- The parser looks for the latest class of the name in the table as it is. -/
theorem denotes_of_latest? (h : classes.latest? name = some i) :
    Denotes classes ⟨name, classes.size⟩ i := by
  obtain ⟨hname, hlater⟩ := ClassTable.latest_of_latest? h
  exact ⟨Nat.le_refl _, ClassTable.lt_of_latest? h, hname, hlater⟩

end Mention

theorem Declared.Describes.grows {classes classes' : ClassTable} {declared : Declared}
    {cls : Class} (h : declared.Describes classes cls) (hgrows : classes.Grows classes') :
    declared.Describes classes' cls :=
  ⟨h.name_eq, Mention.rel_grows h.parent hgrows,
    h.creations.imp fun _ _ hdenotes => hdenotes.grows hgrows⟩

/-! ## Blocks -/

/-- The complete classes are those of the table. -/
def Outline.Complete (classes : ClassTable) (o : Outline) : Prop :=
  List.Forall₂ (Declared.Describes classes) o.complete classes.classes.toList

/-- Reading lines at a depth has led from the one outline to the other, while the table
grew. The names in the lines mean the classes `ids`. -/
structure Outline.Reads (classes classes' : ClassTable) (depth : Nat) (o o' : Outline)
    (ids : List ClassId) : Prop where
  grows : classes.Grows classes'
  complete : Complete classes' (o'.close depth)
  recorded : ∃ mentions, List.Forall₂ (Mention.Denotes classes') mentions ids ∧
    o'.close depth =
      ((o.close depth).record mentions).withComplete (o'.close depth).complete

namespace Outline

variable {classes classes' classes'' : ClassTable} {o o' o'' : Outline} {depth : Nat}
  {ids ids' : List ClassId}

theorem Reads.refl (h : Complete classes (o.close depth)) :
    Reads classes classes depth o o [] := by
  refine ⟨.refl _, h, [], .nil, ?_⟩
  rw [record_nil]
  rfl

theorem Reads.trans (h : Reads classes classes' depth o o' ids)
    (h' : Reads classes' classes'' depth o' o'' ids') :
    Reads classes classes'' depth o o'' (ids ++ ids') := by
  obtain ⟨mentions, hmentions, ho'⟩ := h.recorded
  obtain ⟨mentions', hmentions', ho''⟩ := h'.recorded
  refine ⟨h.grows.trans h'.grows, h'.complete, mentions ++ mentions', ?_, ?_⟩
  · exact List.rel_append (hmentions.imp fun _ _ hdenotes => hdenotes.grows h'.grows)
      hmentions'
  · rw [ho', record_withComplete, record_record] at ho''
    exact ho''

/-- Deeper lines, read where nothing is left to close. -/
theorem Reads.shallower (h : Reads classes classes' (depth + 1) o o' ids)
    (ho : o.Closed depth) :
    Reads classes classes' depth o o' ids := by
  obtain ⟨mentions, hmentions, ho'⟩ := h.recorded
  rw [(ho.mono (Nat.le_succ depth)).close_eq] at ho'
  have hclosed : (o'.close (depth + 1)).Closed depth := by
    rw [ho']
    exact (ho.record mentions).withComplete _
  have hclose : o'.close depth = o'.close (depth + 1) := by
    rw [← close_close o' (Nat.le_succ depth), hclosed.close_eq]
  refine ⟨h.grows, hclose ▸ h.complete, mentions, hmentions, ?_⟩
  rw [hclose, ho.close_eq]
  exact ho'

/-- Names are written where the classes of the table are complete. -/
theorem Complete.denotes (ho : Complete classes o) {names : List String}
    (h : Grammar.Named classes names ids) :
    List.Forall₂ (Mention.Denotes classes) (names.map o.mention) ids := by
  rw [List.forall₂_map_left_iff]
  refine h.imp fun name i hi => ?_
  have hsize : o.complete.length = classes.size := by
    rw [ho.length_eq, Array.length_toList, ClassTable.size]
  rw [mention, hsize]
  exact Mention.denotes_of_latest? hi

theorem closed_enter (o : Outline) (depth : Nat) (cls : Declared) :
    (o.enter depth cls).Closed (depth + 1) := by
  rintro entry ⟨⟩
  exact Nat.lt_succ_self depth

theorem Complete.enter (ho : Complete classes o) (depth : Nat) (cls : Declared) :
    Complete classes ((o.enter depth cls).close (depth + 1)) := by
  rw [(closed_enter o depth cls).close_eq]
  exact ho

/-- A line that begins neither a class nor a method. -/
theorem reads_row {tokens : List Token} (ho : Complete classes (o.close depth))
    (hclass : tokens.head? ≠ some (.keyword .classKw))
    (hdef : tokens.head? ≠ some (.keyword .defKw))
    (h : Grammar.Named classes (calledNames false tokens) ids) :
    Reads classes classes depth o (o.addRow ⟨depth, tokens⟩) ids ∧
    (o.addRow ⟨depth, tokens⟩).Closed depth := by
  have hclosed : (o.addRow ⟨depth, tokens⟩).Closed depth := by
    rw [addRow_of_plain hclass hdef]
    exact (closed_close o depth).record _
  refine ⟨⟨.refl _, ?_, _, ho.denotes h, ?_⟩, hclosed⟩
  · rw [hclosed.close_eq, addRow_of_plain hclass hdef, Complete, complete_record]
    exact ho
  · rw [hclosed.close_eq, addRow_of_plain hclass hdef]
    rfl

/-- A class, once its methods have been read and a line ends it. -/
theorem reads_class {name : String} {parent : Option Mention} {cls : Class}
    (hname : cls.name = name)
    (hparent : Option.Rel (Mention.Denotes classes) parent cls.parent)
    (h : Reads classes classes' (depth + 1)
      ((o.close depth).enter depth ⟨name, parent, []⟩) o'
      (Method.allCreations cls.methods)) :
    Reads classes (classes'.push cls) depth o o' [] := by
  obtain ⟨mentions, hmentions, ho'⟩ := h.recorded
  have hgrows := ClassTable.grows_push classes' cls
  rw [(closed_enter _ _ _).close_eq] at ho'
  -- The class stayed open while its methods were read, and they ended up in it.
  have hclose : o'.close depth =
      (o.close depth).withComplete
        ((o'.close (depth + 1)).complete ++ [⟨name, parent, mentions⟩]) := by
    rw [← close_close o' (Nat.le_succ depth), ho']
    exact close_enter ((closed_close o depth).withComplete _) ⟨name, parent, mentions⟩
  have hcls : Declared.Describes (classes'.push cls) ⟨name, parent, mentions⟩ cls := by
    refine ⟨hname, Mention.rel_grows hparent (h.grows.trans hgrows), ?_⟩
    exact hmentions.imp fun _ _ hdenotes => hdenotes.grows hgrows
  refine ⟨h.grows.trans hgrows, ?_, [], .nil, ?_⟩
  · rw [hclose, Complete, ClassTable.push, Array.toList_push]
    exact List.rel_append (h.complete.imp fun _ _ hdescribes => hdescribes.grows hgrows)
      (.cons hcls .nil)
  · rw [hclose, record_nil]
    rfl

end Outline

namespace Grammar

open Outline (Complete Reads reads_row reads_class calledNames)

/-- The classes of which a part makes instances. -/
def Part.creations : Part → List ClassId
  | .statement node => node.creations
  | .statements nodes => Node.allCreations nodes
  | .method found => found.body.creations
  | .methods found => Method.allCreations found

theorem Parent.denotes {classes : ClassTable} {ts : List Token} {parent : Option ClassId}
    {o : Outline} (h : Parent classes ts parent) (ho : Complete classes o) :
    Option.Rel (Mention.Denotes classes)
      ((Outline.parentName? (ts ++ [.char ':'])).map o.mention) parent := by
  cases h with
  | root => exact .none
  | child hcls =>
    cases ho.denotes (.cons hcls .nil) with
    | cons hdenotes _ => exact .some hdenotes

theorem Simple.head_ne {inMethod : Bool} {classes : ClassTable} {ts : List Token}
    {node : Node} (h : Simple inMethod classes ts node) :
    ts.head? ≠ some (.keyword .classKw) ∧ ts.head? ≠ some (.keyword .defKw) := by
  obtain ⟨token, rest, rfl, htoken⟩ := h.starts
  constructor <;> rintro ⟨⟩ <;> revert htoken <;> decide

section

variable {depth : Nat} {classes classes' : ClassTable} {o o' : Outline}
  {ids ids' : List ClassId} {rows : List Row}

/-- A header and the deeper lines behind it. -/
theorem reads_deeper (h : Reads classes classes depth o o' ids ∧ o'.Closed depth)
    (hrows : ∀ o : Outline, Complete classes (o.close (depth + 1)) →
      Reads classes classes' (depth + 1) o (rows.foldl Outline.addRow o) ids') :
    Reads classes classes' depth o (rows.foldl Outline.addRow o') (ids ++ ids') := by
  obtain ⟨hheader, hclosed⟩ := h
  have hcomplete := hheader.complete
  rw [hclosed.close_eq, ← (hclosed.mono (Nat.le_succ depth)).close_eq] at hcomplete
  exact hheader.trans ((hrows o' hcomplete).shallower hclosed)

theorem Spells.reads_condition {ts : List Token} {level : Parser.Level} {condition : Node}
    (h : Spells classes ts (.expression level condition))
    (ho : Complete classes (o.close depth)) :
    Reads classes classes depth o
      (o.addRow ⟨depth, conditionHeader ts⟩) condition.creations ∧
      (o.addRow ⟨depth, conditionHeader ts⟩).Closed depth := by
  obtain ⟨names, hnames, hts⟩ := h.calls
  have hcalled : calledNames false (conditionHeader ts) = names :=
    (hts [.char ':'] fun h => nomatch h).trans (List.append_nil names)
  exact reads_row ho (fun h => nomatch h) (fun h => nomatch h) (hcalled ▸ hnames)

theorem reads_else (ho : Complete classes (o.close depth)) :
    Reads classes classes depth o (o.addRow ⟨depth, elseHeader⟩) [] ∧
    (o.addRow ⟨depth, elseHeader⟩).Closed depth :=
  reads_row ho (fun h => nomatch h) (fun h => nomatch h) .nil

/-- The header of a method names no class. -/
theorem reads_methodHeader (ho : Complete classes (o.close depth)) (name : String)
    (params : List String) :
    Reads classes classes depth o (o.addRow ⟨depth, methodHeader name params⟩) [] ∧
      (o.addRow ⟨depth, methodHeader name params⟩).Closed depth := by
  have hrow : o.addRow ⟨depth, methodHeader name params⟩ = o.close depth := rfl
  have hclosed := Outline.closed_close o depth
  rw [hrow]
  refine ⟨⟨.refl _, ?_, [], .nil, ?_⟩, hclosed⟩
  · rw [hclosed.close_eq]
    exact ho
  · rw [hclosed.close_eq, Outline.record_nil]
    rfl

end

/-- The outline of the rows of a part agrees with what the part is. -/
theorem Block.reads {inMethod : Bool} {depth : Nat} {classes classes' : ClassTable}
    {rows : List Row} {part : Part}
    (h : Block inMethod depth classes rows part classes') :
    ∀ o : Outline, Complete classes (o.close depth) →
      Reads classes classes' depth o (rows.foldl Outline.addRow o) part.creations := by
  induction h with
  | simple h =>
    intro o ho
    exact (reads_row ho h.head_ne.1 h.head_ne.2 h.named).1
  | ifThen hcondition _ _ ih =>
    intro o ho
    rw [Part.creations, Node.creations_ifThen, List.foldl_cons]
    exact reads_deeper (hcondition.reads_condition ho) ih
  | ifElse hcondition _ _ _ _ ih ih' =>
    intro o ho
    have hyes := reads_deeper (hcondition.reads_condition ho) ih
    have hno := reads_deeper (reads_else hyes.complete) ih'
    rw [Part.creations, Node.creations_ifElse, ← List.append_assoc, List.foldl_cons,
      List.foldl_append]
    exact hyes.trans hno
  | declaration hparent _ ih =>
    intro o ho
    exact reads_class rfl (hparent.denotes ho) (ih _ (ho.enter _ _))
  | noStatements => exact fun o ho => .refl ho
  | statements _ _ ih ih' =>
    intro o ho
    have hfirst := ih o ho
    rw [Part.creations, Node.allCreations_cons, List.foldl_append]
    exact hfirst.trans (ih' _ hfirst.complete)
  | method _ _ ih =>
    intro o ho
    exact reads_deeper (reads_methodHeader ho _ _) ih
  | lastMethod _ ih =>
    intro o ho
    rw [Part.creations, Method.allCreations, List.flatMap_cons, List.flatMap_nil,
      List.append_nil]
    exact ih o ho
  | moreMethods _ _ ih ih' =>
    intro o ho
    have hfirst := ih o ho
    rw [Part.creations, Method.allCreations, List.flatMap_cons, List.foldl_append]
    exact hfirst.trans (ih' _ hfirst.complete)

end Grammar

/-! ## Programs -/

/-- The outline of an accepted source says what the program is. -/
theorem Program.outline_describes {source : Source} {program : Program}
    (h : parse source = .done program) :
    source.outline.Describes program := by
  obtain ⟨lines, hlines, hblock⟩ := parse_eq_done_iff.mp h
  have hreads := hblock.reads ⟨[], [], []⟩ .nil
  obtain ⟨mentions, hmentions, hrecorded⟩ := hreads.recorded
  have houtline : source.outline = .ofRows (lines.map CodeLine.row) := by
    rw [Source.outline, hlines]
  rw [houtline]
  refine ⟨hreads.complete, ?_⟩
  rw [Outline.ofRows, hrecorded]
  exact hmentions

/-- An instance is made of the class that the node holds, and keeps it. -/
theorem Node.classOf_create {classes : ClassTable} {fuel : Nat} {cls : ClassId}
    {args : List Node} {f f' : Frame} {v : Value}
    (h : (create cls args).exec classes (.within classes fuel) f = .done (v, f')) :
    ∃ a, v = .inst a ∧ f'.machine.heap.classOf a = cls := by
  rw [Node.exec] at h
  obtain ⟨created, f₁, hcreated, h⟩ := Run.bind_eq_done_iff.mp h
  cases hcreated
  split at h
  · obtain ⟨values, f₂, hvalues, h⟩ := Run.bind_eq_done_iff.mp h
    obtain ⟨result, f₃, hresult, h⟩ := Run.bind_eq_done_iff.mp h
    cases h
    exact ⟨_, rfl,
      ((Node.evalAll_extends hvalues).trans (Exec.call_extends hresult)).classOf_allocate⟩
  · cases h
    exact ⟨_, rfl, (Heap.Extends.refl _).classOf_allocate⟩

/-- The classes of an accepted program are sorted, its statements name classes of the
table, and the outline of the source says which class every parent and every creation
is. What is created at run time is of that class, whatever the variables are. -/
theorem class_names_bind_upwards {source : Source} {program : Program}
    (h : Program.parse source = .done program) :
    program.classes.Sorted ∧
    Node.MentionBelow program.classes.size (Node.allSubtrees program.statements) ∧
    source.outline.Describes program ∧
    ∀ {cls : ClassId} {args : List Node} {fuel : Nat} {frame frame' : Frame} {v : Value},
      (Node.create cls args).exec program.classes
        (Dispatch.within program.classes fuel) frame = .done (v, frame') →
      ∃ a, v = .inst a ∧ frame'.machine.heap.classOf a = cls := by
  obtain ⟨hsorted, hstatements⟩ := Program.sorted_of_parse h
  exact ⟨hsorted, hstatements, Program.outline_describes h, Node.classOf_create⟩

/-- Classes that are called the same. One is inside a method, next to a variable of that
name, and one has another for its parent. -/
def namesakes : Source := .ofString
  ("class A:\n  def f(self):\n    return 1\n" ++
    "class B(A):\n  def make(self):\n    class A:\n      def g(self):\n" ++
    "        return A()\n    A = 5\n    return A()\n" ++
    "class A(A):\n  def f(self):\n    return B().make()\nx = A()\n")

/-- What `namesakes` is read as. -/
def namesakesProgram : Program where
  statements := [.define 0, .define 2, .define 3, .assign "x" (.create 3 [])]
  classes := ⟨#[
    ⟨"A", none, [⟨"f", [], .body (.block [.ret (.lit (.number 1))])⟩]⟩,
    ⟨"A", none, [⟨"g", [], .body (.block [.ret (.create 0 [])])⟩]⟩,
    ⟨"B", some 0, [⟨"make", [],
      .body (.block [.define 1, .assign "A" (.lit (.number 5)), .ret (.create 1 [])])⟩]⟩,
    ⟨"A", some 1, [⟨"f", [], .body (.block [.ret (.call (.create 2 []) "make" [])])⟩]⟩]⟩

theorem class_names_bind_upwards_namesakes :
    Program.parse namesakes = .done namesakesProgram ∧
    namesakes.outline =
      ⟨[⟨"A", none, []⟩, ⟨"A", none, [⟨"A", 1⟩]⟩, ⟨"B", some ⟨"A", 1⟩, [⟨"A", 2⟩]⟩,
      ⟨"A", some ⟨"A", 3⟩, [⟨"B", 3⟩]⟩], [], [⟨"A", 4⟩]⟩ ∧
    namesakesProgram.classes.Sorted ∧ namesakes.outline.Describes namesakesProgram := by
  have hparse : Program.parse namesakes = .done namesakesProgram := by decide +kernel
  obtain ⟨hsorted, -, hdescribes, -⟩ := class_names_bind_upwards hparse
  exact ⟨hparse, by decide +kernel, hsorted, hdescribes⟩

end Mint
