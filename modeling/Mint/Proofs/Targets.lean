import Mint.Proofs.Parser.Rejection
import Mint.Proofs.WellFormed

/-!
# Targets of assignments

The parser reads what stands before `=` as an expression, and only then asks whether its
tree is a dotted name. Nothing of parentheses is left in a tree, so the targets are the
dotted names in any number of parentheses (`Target`). Every assignment of an accepted
program stands on a line with such a target. Where any other expression stands before
`=`, the source is rejected on that line (`assignments_have_targets`).
-/

namespace Mint

/-- Whether the node is an assignment, to a variable or to a field. -/
def Node.isAssignment : Node → Bool
  | .assign _ _ | .setField _ _ _ => true
  | _ => false

namespace Grammar

/-- The tokens are a dotted name, in parentheses or not. -/
inductive Target : List Token → List String → Prop where
  | dotted {path} (hpath : path ≠ []) : Target (Printer.dottedTokens path) path
  | parens {ts path} (h : Target ts path) : Target (Printer.parens ts) path

/-- The tokens are an assignment, given the classes declared so far. -/
inductive Assignment (classes : ClassTable) : List Token → Node → Prop where
  | assign {ts us name value} (htarget : Target ts [name])
    (hvalue : Derives classes us (.tree .test value)) :
    Assignment classes (ts ++ .char '=' :: us) (.assign name value)
  | setField {ts us object field value} (hobject : object ≠ [])
    (htarget : Target ts (object ++ [field]))
    (hvalue : Derives classes us (.tree .test value)) :
    Assignment classes (ts ++ .char '=' :: us) (.setField object field value)

/-! ## Expressions -/

variable {classes classes' : ClassTable} {ts : List Token}

/-- A dotted name can be derived from a target only. -/
theorem Derives.target {symbol : Nonterminal} {path : List String}
    (h : Derives classes ts (.tree symbol (.path path))) :
    Target ts path := by
  generalize hderived : Derived.tree symbol (.path path) = derived at h
  induction h generalizing symbol with
  | test _ ih | andTest _ ih | notTest _ ih | comparison _ ih | expr _ ih | term _ ih
  | unary _ ih | primary _ ih =>
    cases hderived
    exact ih rfl
  | parens _ ih =>
    cases hderived
    exact .parens (ih rfl)
  | dotted hpath =>
    cases hderived
    exact .dotted hpath
  | _ => cases hderived

/-- The trees that are derived have the property. -/
def Derived.All (P : Node → Prop) : Derived → Prop
  | .tree _ node => P node
  | .tests nodes | .args nodes => ∀ node ∈ nodes, P node

/-- What passes on from values to expressions holds of every tree that can be derived. -/
theorem Derives.all {P : Node → Prop} (hP : Parser.Composes P) {derived : Derived}
    (h : Derives classes ts derived) :
    derived.All P := by
  induction h with
  | test _ ih | andTest _ ih | notTest _ ih | comparison _ ih | expr _ ih | term _ ih
  | unary _ ih | primary _ ih
  | parens _ ih | someArgs _ ih => exact ih
  | or _ _ ih ih' | and _ _ ih ih' | compare _ _ _ ih ih' | add _ _ ih ih'
  | sub _ _ ih ih' | mul _ _ ih ih'
  | div _ _ ih ih' =>
    exact hP _ rfl nofun
      (List.forall_mem_cons.mpr ⟨ih, List.forall_mem_singleton.mpr ih'⟩)
  | not _ ih | str _ ih => exact hP _ rfl nofun (List.forall_mem_singleton.mpr ih)
  | negative _ ih =>
    have hzero : P (.lit (.number 0)) := hP _ rfl nofun nofun
    exact hP _ rfl nofun
      (List.forall_mem_cons.mpr ⟨hzero, List.forall_mem_singleton.mpr ih⟩)
  | call _ _ _ ih ih' => exact hP _ rfl nofun (List.forall_mem_cons.mpr ⟨ih, ih'⟩)
  | literal | none => exact hP _ rfl nofun nofun
  | create _ _ _ ih => exact hP _ rfl nofun ih
  | dotted hpath => exact hP _ rfl (fun heq => hpath (Node.path.inj heq)) nofun
  | callName _ hpath _ ih =>
    have hobject : P (.path _) := hP _ rfl (fun heq => hpath (Node.path.inj heq)) nofun
    exact hP _ rfl nofun (List.forall_mem_cons.mpr ⟨hobject, ih⟩)
  | lastTest _ ih => exact List.forall_mem_singleton.mpr ih
  | moreTests _ _ ih ih' => exact List.forall_mem_cons.mpr ⟨ih, ih'⟩
  | noArgs => exact nofun

/-! ## Lines of assignments -/

/-- Every assignment among the trees is written on one of the rows, at a point where the
classes of the table are declared in part. -/
def Written (classes : ClassTable) (rows : List Row) (trees : List Node) : Prop :=
  ∀ t ∈ trees,
    t.isAssignment = true → ∃ row ∈ rows, ∃ known : ClassTable, known.Grows classes ∧
    Assignment known row.tokens t

namespace Written

variable {rows rows' : List Row} {trees trees' : List Node} {node : Node}

theorem nil : Written classes rows [] := nofun

theorem append (h : Written classes rows trees) (h' : Written classes rows trees') :
    Written classes rows (trees ++ trees') := List.forall_mem_append.mpr ⟨h, h'⟩

/-- A node that is no assignment may stand above. -/
theorem under (hnode : node.isAssignment = false) (h : Written classes rows trees) :
    Written classes rows (node :: trees) := by
  refine List.forall_mem_cons.mpr ⟨fun hassign => ?_, h⟩
  rw [hnode] at hassign
  cases hassign

theorem mono (h : Written classes rows trees) (hgrows : classes.Grows classes')
    (hrows : rows ⊆ rows') :
    Written classes' rows' trees := by
  intro t ht hassign
  obtain ⟨row, hrow, known, hknown, hwritten⟩ := h t ht hassign
  exact ⟨row, hrows hrow, known, hknown.trans hgrows, hwritten⟩

theorem of_isExpression (h : ∀ t ∈ trees, t.isExpression = true) :
    Written classes rows trees := by
  intro t ht hassign
  have hexpression := h t ht
  cases t with
  | assign | setField => cases hexpression
  | _ => cases hassign

/-- An expression has no assignment in it. -/
theorem of_spells {level : Parser.Level}
    (h : Spells classes' ts (.expression level node)) :
    Written classes rows node.subtrees :=
  of_isExpression (h.derives.all Parser.composes_isExpression)

theorem of_expressions {nodes : List Node} (h : Spells classes' ts (.expressions nodes)) :
    Written classes rows (Node.allSubtrees nodes) := by
  refine of_isExpression fun t ht => ?_
  obtain ⟨node, hnode, ht⟩ := Node.mem_allSubtrees.mp ht
  exact h.derives.all Parser.composes_isExpression node hnode t ht

/-- A statement that fits on one line is written on it. -/
theorem of_simple {inMethod : Bool} {depth : Nat} (h : Simple inMethod classes ts node) :
    Written classes [⟨depth, ts⟩] node.subtrees := by
  -- an assignment has no other in it
  have whole : ∀ {ts us target},
      Assignment classes ts node → node.subtrees = node :: target.subtrees →
      Spells classes us (.expression .disjunction target) →
      Written classes [⟨depth, ts⟩] node.subtrees := by
    intro ts us target hassign hsubtrees hvalue
    rw [hsubtrees]
    exact List.forall_mem_cons.mpr ⟨fun _ =>
      ⟨_, List.mem_singleton_self _, classes, .refl _, hassign⟩, of_spells hvalue⟩
  cases h with
  | returnNone => exact .under rfl (.under rfl .nil)
  | returnValue _ h => exact .under rfl (of_spells h)
  | printNothing => exact .under rfl .nil
  | printValues h => exact .under rfl (of_expressions h)
  | assign htarget hvalue =>
    exact whole (.assign htarget.derives.target hvalue.derives) rfl hvalue
  | setField hobject htarget hvalue =>
    exact whole (.setField hobject htarget.derives.target hvalue.derives) rfl hvalue
  | expression h => exact of_spells h

end Written

/-- The same of the methods of all classes from number `bound` on. -/
def WrittenFrom (bound : ClassId) (classes : ClassTable) (rows : List Row) : Prop :=
  ∀ i, bound ≤ i →
    ∀ method ∈ (classes.get i).methods, Written classes rows method.body.subtrees

namespace WrittenFrom

variable {bound : ClassId} {rows rows' : List Row}

theorem refl : WrittenFrom classes.size classes rows := by
  intro i hi method hmethod
  rw [ClassTable.get_of_size_le hi] at hmethod
  cases hmethod

theorem mono (h : WrittenFrom bound classes rows) (hrows : rows ⊆ rows') :
    WrittenFrom bound classes rows' :=
  fun i hi method hmethod => (h i hi method hmethod).mono (.refl _) hrows

theorem trans (h : WrittenFrom bound classes rows) (hgrows : classes.Grows classes')
    (h' : WrittenFrom classes.size classes' rows) : WrittenFrom bound classes' rows := by
  intro i hi method hmethod
  rcases Nat.lt_or_ge i classes.size with hlt | hge
  · rw [hgrows.get_eq i hlt] at hmethod
    exact (h i hi method hmethod).mono hgrows (List.Subset.refl _)
  · exact h' i hge method hmethod

/-- A class is declared with methods that are written on the rows. -/
theorem push {cls : Class}
    (h : ∀ method ∈ cls.methods, Written classes rows method.body.subtrees) :
    WrittenFrom classes.size (classes.push cls) rows := by
  intro i hi method hmethod
  rw [ClassTable.get_push] at hmethod
  split at hmethod
  · exact (h method hmethod).mono (ClassTable.grows_push classes cls) (List.Subset.refl _)
  · rw [ClassTable.get_of_size_le hi] at hmethod
    cases hmethod

end WrittenFrom

/-- Every assignment of the part is written on the rows. -/
def Part.Written (classes : ClassTable) (rows : List Row) : Part → Prop
  | .statement node => Grammar.Written classes rows node.subtrees
  | .statements nodes => Grammar.Written classes rows (Node.allSubtrees nodes)
  | .method found => Grammar.Written classes rows found.body.subtrees
  | .methods found => ∀ method ∈ found, Grammar.Written classes rows method.body.subtrees

/-- Reading a part adds classes, and every assignment of the part and of these classes
is written on the rows. -/
theorem Block.written {inMethod : Bool} {depth : Nat} {rows : List Row} {part : Part}
    (h : Block inMethod depth classes rows part classes') :
    classes.Grows classes' ∧ part.Written classes' rows ∧
    WrittenFrom classes.size classes' rows := by
  induction h with
  | simple h => exact ⟨.refl _, .of_simple h, .refl⟩
  | ifThen hcondition _ _ ih =>
    obtain ⟨hgrows, hyes, hclasses⟩ := ih
    refine ⟨hgrows,
      .under rfl ((Written.of_spells hcondition).append (.under rfl ?_)), ?_⟩
    · exact hyes.mono (.refl _) (List.subset_cons_self _ _)
    · exact hclasses.mono (List.subset_cons_self _ _)
  | ifElse hcondition _ _ _ _ ih ih' =>
    obtain ⟨hgrows, hyes, hclasses⟩ := ih
    obtain ⟨hgrows', hno, hclasses'⟩ := ih'
    refine ⟨hgrows.trans hgrows',
      .under rfl ((Written.of_spells hcondition).append (.append ?_ ?_)), ?_⟩
    · exact .under rfl
        (hyes.mono hgrows' (List.subset_cons_of_subset _ (List.subset_append_left _ _)))
    · refine .under rfl (hno.mono (.refl _) (List.subset_cons_of_subset _ ?_))
      exact List.subset_append_of_subset_right _ (List.subset_cons_self _ _)
    · refine (hclasses.mono
        (List.subset_cons_of_subset _ (List.subset_append_left _ _))).trans hgrows' ?_
      refine hclasses'.mono (List.subset_cons_of_subset _ ?_)
      exact List.subset_append_of_subset_right _ (List.subset_cons_self _ _)
  | @declaration _ _ _ classes' name _ parent _ methods _ _ ih =>
    obtain ⟨hgrows, hmethods, hclasses⟩ := ih
    have hpush := ClassTable.grows_push classes' ⟨name, parent, methods⟩
    refine ⟨hgrows.trans hpush, .under rfl .nil,
      (hclasses.mono (List.subset_cons_self _ _)).trans hpush (.push ?_)⟩
    exact fun method hmethod =>
      (hmethods method hmethod).mono (.refl _) (List.subset_cons_self _ _)
  | noStatements => exact ⟨.refl _, .nil, .refl⟩
  | statements _ _ ih ih' =>
    obtain ⟨hgrows, hfirst, hclasses⟩ := ih
    obtain ⟨hgrows', hrest, hclasses'⟩ := ih'
    refine ⟨hgrows.trans hgrows', ?_,
      (hclasses.mono (List.subset_append_left _ _)).trans hgrows' ?_⟩
    · exact (hfirst.mono hgrows' (List.subset_append_left _ _)).append
        (hrest.mono (.refl _) (List.subset_append_right _ _))
    · exact hclasses'.mono (List.subset_append_right _ _)
  | method _ _ ih =>
    obtain ⟨hgrows, hbody, hclasses⟩ := ih
    refine ⟨hgrows, .under rfl (.under rfl ?_), hclasses.mono (List.subset_cons_self _ _)⟩
    exact hbody.mono (.refl _) (List.subset_cons_self _ _)
  | lastMethod _ ih =>
    obtain ⟨hgrows, hmethod, hclasses⟩ := ih
    exact ⟨hgrows, List.forall_mem_singleton.mpr hmethod, hclasses⟩
  | moreMethods _ _ ih ih' =>
    obtain ⟨hgrows, hfirst, hclasses⟩ := ih
    obtain ⟨hgrows', hrest, hclasses'⟩ := ih'
    refine ⟨hgrows.trans hgrows', List.forall_mem_cons.mpr ⟨?_, fun method hmethod => ?_⟩,
      (hclasses.mono (List.subset_append_left _ _)).trans hgrows'
      (hclasses'.mono (List.subset_append_right _ _))⟩
    · exact hfirst.mono hgrows' (List.subset_append_left _ _)
    · exact (hrest method hmethod).mono (.refl _) (List.subset_append_right _ _)

/-! ## Lines that are rejected -/

/-- A line without `=` that neither returns nor prints is an expression. -/
theorem Simple.spells {inMethod : Bool} {node : Node}
    (h : Simple inMethod classes ts node) (hreturn : ts.head? ≠ some (.keyword .returnKw))
    (hprint : ts.head? ≠ some (.keyword .printKw)) (hassign : .char '=' ∉ ts) :
    Spells classes ts (.expression .disjunction node) := by
  cases h with
  | returnNone | returnValue => exact absurd rfl hreturn
  | printNothing | printValues => exact absurd rfl hprint
  | assign | setField => exact absurd (List.mem_append_right _ List.mem_cons_self) hassign
  | expression h => exact h

end Grammar

namespace Parser

open Grammar

theorem assignment_of_ne {start : Nat} {target : Node} (h : ∀ path, target ≠ .path path)
    (value : Parser Node) (s : ParserState) :
    assignment start target value s = .failed (.grammatical start .invalidTarget, s) := by
  unfold assignment
  split
  · exact absurd rfl (h _)
  · rfl

/-- Behind an expression that is no target `=` is rejected. -/
theorem breaks_of_not_target {ts us : List Token} {line : CodeLine} (hne : ts ≠ [])
    (htokens : line.tokens = ts ++ .char '=' :: us)
    (hreturn : ts.head? ≠ some (.keyword .returnKw))
    (hprint : ts.head? ≠ some (.keyword .printKw)) (hassign : .char '=' ∉ ts)
    (htarget : ∀ path, ¬ Target ts path) :
    Breaks ts line (.grammatical line.number .invalidTarget) where
  nonempty := hne
  begins := ⟨_, htokens.symm⟩
  fails := by
    intro inMethod classes node rest s fuel hsimple hs hclasses hfuel
    obtain ⟨fuel, rfl⟩ : ∃ f, fuel = f + 1 := ⟨fuel - 1, by omega⟩
    have hspells := hsimple.spells hreturn hprint hassign
    have hpath : ∀ path, node ≠ .path path := by
      rintro path rfl
      exact htarget path hspells.derives.target
    have hrow : line.row = ⟨line.depth, ts ++ .char '=' :: us⟩ := by
      rw [CodeLine.row, htokens]
    obtain ⟨t, u, htakes, -⟩ := exists_of_header hs hrow
    obtain ⟨t, hts, hequals, -⟩ := htakes.split
    have hstart := starts_of_takes hspells hts
    have hnode := expression_complete fuel hspells hclasses hts (by omega)
      (by rw [hequals.head.1]; rfl)
    have hfailed : simple fuel inMethod s =
        .failed (.grammatical line.number .invalidTarget, t) := by
      rw [simple_of_starts hstart, line_bind, Run.bind_done hnode, atChar_bind,
        isChar_iff.mpr hequals.head.1, hs.line_level rfl]
      exact assignment_of_ne hpath _ _
    refine ⟨t, ?_⟩
    rw [statement_of_line rfl (.inr (.inr hstart)), Run.bind_failed hfailed]

end Parser

/-! ## Programs -/

open Grammar

/-- Every assignment of an accepted program stands on a line of its own: a dotted name,
which may be in parentheses, `=` and a test. The last segment of the name is what is
assigned to and the ones before it are the object. And if the last line of an accepted
source is any other expression, the source is rejected on that line once `=` stands
behind it, whatever follows. -/
theorem assignments_have_targets {source : Source} {program : Program}
    (h : Program.parse source = .done program) :
    (∀ t : Node, (t ∈ Node.allSubtrees program.statements ∨
        ∃ i, ∃ method ∈ (program.classes.get i).methods, t ∈ method.body.subtrees) →
        t.isAssignment = true →
      ∃ line ∈ source.contentLines, ∃ known : ClassTable,
        known.Grows program.classes ∧ Assignment known line.tokens t) ∧
    ∀ (source' : Source) (front rest : List (List UInt8)) (bytes bytes' : List UInt8)
      (spaces : Nat) (ts us : List Token), source.physicalLines = front ++ [bytes] →
        source'.physicalLines = front ++ bytes' :: rest →
      ContentLine.ofBytes? (front.length + 1) bytes =
        some ⟨front.length + 1, spaces, ts⟩ →
      ContentLine.ofBytes? (front.length + 1) bytes' =
        some ⟨front.length + 1, spaces, ts ++ .char '=' :: us⟩ →
      ts.head? ≠ some (.keyword .returnKw) → ts.head? ≠ some (.keyword .printKw) →
      .char '=' ∉ ts →
      (∀ path, ¬ Target ts path) →
      Program.parse source' =
        .failed (.grammatical (front.length + 1) .invalidTarget) := by
  constructor
  · intro t ht hassign
    obtain ⟨lines, hlines, hblock⟩ := Program.parse_eq_done_iff.mp h
    obtain ⟨-, hstatements, hclasses⟩ := hblock.written
    have hwritten : ∃ row ∈ lines.map CodeLine.row,
        ∃ known : ClassTable, known.Grows program.classes ∧
        Assignment known row.tokens t := by
      rcases ht with ht | ⟨i, method, hmethod, ht⟩
      · exact hstatements t ht hassign
      · exact hclasses i (Nat.zero_le i) method hmethod t ht hassign
    obtain ⟨row, hrow, known, hknown, hassignment⟩ := hwritten
    obtain ⟨line, hline, rfl⟩ := List.mem_map.mp hrow
    obtain ⟨hcontents, -⟩ := CodeLine.contentLines_of_leading
      (Source.chopped_cut source.bytes) (fun _ => id) hlines
    have hcontent : source.contentLines = lines.map CodeLine.content := hcontents
    exact ⟨line.content, hcontent ▸ List.mem_map_of_mem hline, known, hknown, hassignment⟩
  · intro source' front rest bytes bytes' spaces ts us hsource hsource' hbytes hbytes'
      hreturn hprint hassign htarget
    refine Program.parse_of_broken h hsource hsource' hbytes hbytes' rfl
      fun hne line hnumber htokens => ?_
    rw [← show line.number = front.length + 1 from hnumber]
    exact Parser.breaks_of_not_target hne htokens hreturn hprint hassign htarget

/-- Assignments at the top and in a method, one of them to a target in parentheses, and
a call. -/
def guardedTargets : Source := .ofString
  "class A:\n  def f(self):\n    self.y = A\n    ((self.y.z)) = (1)\ny = A()\ny.f()\n"

/-- What `guardedTargets` is read as. -/
def guardedTargetsProgram : Program where
  statements := [.define 0, .assign "y" (.create 0 []), .call (.path ["y"]) "f" []]
  classes :=
    ⟨#[⟨"A", none, [⟨"f", [], .body (.block [.setField ["self"] "y" (.path ["A"]),
      .setField ["self", "y"] "z" (.lit (.number 1))])⟩]⟩]⟩

/-- The same with a value for the call, and behind it a line that is not text. -/
def assignedCall : Source where
  bytes := (Source.ofString
    ("class A:\n  def f(self):\n    self.y = A\n    ((self.y.z)) = (1)\n" ++
      "y = A()\ny.f() = 2\n")).bytes ++ [255]

theorem assignments_have_targets_guarded :
    Program.parse guardedTargets = .done guardedTargetsProgram ∧
    (∃ line ∈ guardedTargets.contentLines,
      ∃ known : ClassTable, known.Grows guardedTargetsProgram.classes ∧
      Assignment known line.tokens (.setField ["self", "y"] "z" (.lit (.number 1)))) ∧
    Program.parse assignedCall = .failed (.grammatical 6 .invalidTarget) := by
  have hparse : Program.parse guardedTargets = .done guardedTargetsProgram := by
    decide +kernel
  obtain ⟨hassignments, hrejected⟩ := assignments_have_targets hparse
  refine ⟨hparse,
    hassignments _ (.inr ⟨0, _, List.mem_singleton_self _, by decide +kernel⟩) rfl, ?_⟩
  have htarget :
      ∀ path, ¬ Target [.id "y", .char '.', .id "f", .char '(', .char ')'] path := by
    intro path h
    generalize hts : [Token.id "y", .char '.', .id "f", .char '(', .char ')'] = ts at h
    cases h with
    | dotted =>
      rcases path with _ | ⟨first, _ | ⟨second, _ | ⟨third, more⟩⟩⟩ <;> cases hts
    | parens => cases hts
  have hfront : (guardedTargets.physicalLines.take 5).length = 5 := by decide +kernel
  have hfailed := hrejected assignedCall (guardedTargets.physicalLines.take 5) [[255]]
    (Source.ofString "y.f()\n").bytes (Source.ofString "y.f() = 2\n").bytes 0 [.id "y",
      .char '.', .id "f", .char '(', .char ')'] [.number 2]
    (by decide +kernel) (by decide +kernel) (by decide +kernel) (by decide +kernel)
    (by decide) (by decide) (by decide) htarget
  rwa [hfront] at hfailed

/-- A dotted name in parentheses is assigned to, though the line does not begin with a
dotted name and `=`. -/
theorem parenthesized_name_is_assigned :
    Program.parse (.ofString "(x) = 1\n") = .done ⟨[.assign "x" (.lit (.number 1))], ∅⟩ ∧
    ∀ line ∈ (Source.ofString "(x) = 1\n").contentLines,
      ∀ (path : List String) (us : List Token),
      line.tokens ≠ Printer.dottedTokens path ++ .char '=' :: us := by
  have hcontent : (Source.ofString "(x) = 1\n").contentLines =
      [⟨1, 0, [.char '(', .id "x", .char ')', .char '=', .number 1]⟩] := by decide +kernel
  refine ⟨by decide +kernel, ?_⟩
  rw [hcontent]
  refine List.forall_mem_singleton.mpr fun path us heq => ?_
  rcases path with _ | ⟨first, _ | ⟨second, more⟩⟩ <;> cases heq

end Mint
