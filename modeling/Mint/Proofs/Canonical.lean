import Mint.Proofs.Binding
import Mint.Proofs.Scanning

/-!
# Accepted programs can be printed

`Program.Canonical` says of which programs the printed text can be read back. All
programs that were read from a source are among them (`Program.canonical_of_parse`):
whatever the grammar yields is an expression where a value is wanted and a statement
elsewhere, its names are names since the lexer has found them, and the table as it was
when a name was read is the final table up to the number of classes complete at that
point.
-/

namespace Mint

/-- A table is what a longer one was when it had as many classes. -/
theorem ClassTable.Grows.before_eq {classes classes' : ClassTable}
    (h : classes.Grows classes') :
    classes'.before classes.size = classes := by
  have hsize : (classes'.before classes.size).size = classes.size := size_before h.size_le
  suffices harray : (classes'.before classes.size).classes = classes.classes by
    show (⟨(classes'.before classes.size).classes⟩ : ClassTable) = ⟨classes.classes⟩
    rw [harray]
  refine Array.ext hsize fun i hi hi' => ?_
  have hget : (classes'.before classes.size).get i = classes.get i :=
    (get_before hi).trans (h.get_eq i hi')
  rwa [get, get, Array.getD_eq_getD_getElem?, Array.getD_eq_getD_getElem?,
    Array.getElem?_eq_getElem hi, Array.getElem?_eq_getElem hi'] at hget

namespace Scannable

variable {token : Token} {ts us : List Token}

theorem head (h : Scannable (token :: ts)) : token.isScannable = true :=
  h token List.mem_cons_self

theorem tail (h : Scannable (token :: ts)) : Scannable ts :=
  fun t ht => h t (List.mem_cons_of_mem _ ht)

theorem left (h : Scannable (ts ++ us)) : Scannable ts :=
  fun t ht => h t (List.mem_append_left _ ht)

theorem right (h : Scannable (ts ++ us)) : Scannable us :=
  fun t ht => h t (List.mem_append_right _ ht)

theorem isName_of_dots {segments : List String} (h : Scannable (Grammar.dots segments)) :
    ∀ segment ∈ segments, Token.isName segment.toList = true := by
  intro segment hsegment
  have hmem : Token.id segment ∈ Grammar.dots segments :=
    List.mem_flatMap.mpr ⟨segment, hsegment, List.mem_cons_of_mem _ List.mem_cons_self⟩
  exact h _ hmem

end Scannable

namespace Grammar

/-! ## Expressions -/

section

variable {classes : ClassTable} {ts : List Token} {node : Node}

/-- The trees of a phrase are expressions that can be written, provided that the tree is
which the phrase is put after. -/
def Phrase.Writable (known : ClassTable) : Phrase → Prop
  | .expression _ node | .atom node => node.isWritable known = true
  | .chain _ left node | .calls left node =>
    left.isWritable known = true → node.isWritable known = true
  | .arguments nodes | .expressions nodes => Node.allWritable known nodes = true

theorem isWritable_of_constant? {token : Token} (h : Parser.constant? token = some node)
    (htoken : token.isScannable = true) : node.isWritable classes = true := by
  cases token with
  | number | string =>
    cases h
    exact htoken
  | keyword word =>
    cases word with
    | trueKw | falseKw | noneKw =>
      cases h
      rfl
    | _ => cases h
  | _ => cases h

theorem isWritable_of_join? {level : Parser.Level} {op : Token}
    {join : Node → Node → Node} {left right : Node} (hop : level.join? op = some join)
    (hleft : left.isWritable classes = true) (hright : right.isWritable classes = true) :
    (join left right).isWritable classes = true := by
  unfold Parser.Level.join? at hop
  split at hop <;> cases hop <;> rw [Node.isWritable, hleft, hright] <;> rfl

theorem isWritable_path {first : String} {more : List String}
    (hfirst : Token.isName first.toList = true)
    (hmore : ∀ segment ∈ more, Token.isName segment.toList = true) :
    (Node.path (first :: more)).isWritable classes = true := by
  rw [Node.isWritable, List.all_cons, hfirst, List.all_eq_true.mpr hmore]
  rfl

theorem isName_of_isWritable_path {path : List String}
    (h : (Node.path path).isWritable classes = true) :
    ∀ segment ∈ path, Token.isName segment.toList = true := by
  rw [Node.isWritable, Bool.and_eq_true] at h
  exact List.all_eq_true.mp h.2

/-- What a line spells can be written. -/
theorem Spells.writable {phrase : Phrase} (h : Spells classes ts phrase)
    (hts : Scannable ts) :
    phrase.Writable classes := by
  induction h with
  | grouped _ _ _ ih ih' | called _ _ ih ih' => exact ih' hts.right (ih hts.left)
  | chainEnd | callsEnd => exact id
  | chainStep hop _ _ ih ih' =>
    intro hleft
    exact ih' hts.tail.right (isWritable_of_join? hop hleft (ih hts.tail.left))
  | positive _ ih | operand _ ih | lastExpression _ ih =>
    simpa [Phrase.Writable, Node.allWritable] using ih hts
  | negation _ ih => exact ih hts.tail
  | parenthesized _ ih | someArguments _ ih => exact ih hts.tail.left
  | conversion _ ih => exact ih hts.tail.tail.left
  | comparison _ _ _ ih ih' =>
    show (_ && _) = true
    rw [ih hts.left, ih' hts.right.tail]
    rfl
  | negative _ ih =>
    show (_ && _) = true
    rw [Node.isWritable, ih hts.tail]
    rfl
  | name => exact isWritable_path hts.head hts.tail.isName_of_dots
  | callsStep _ _ ih ih' =>
    intro hobject
    refine ih' hts.tail.tail.right ?_
    show (_ && _ && _) = true
    rw [hobject, ih hts.tail.tail.left]
    exact (Bool.and_true _).trans hts.tail.head
  | constant h => exact isWritable_of_constant? h hts.head
  | methodCall _ ih =>
    obtain ⟨hmore, hmethod⟩ := List.forall_mem_append.mp hts.tail.left.isName_of_dots
    show (_ && _ && _) = true
    rw [isWritable_path hts.head hmore, List.forall_mem_singleton.mp hmethod,
      ih hts.tail.right]
    rfl
  | @creation name cls args ts hname hcls _ ih =>
    obtain ⟨rfl, -⟩ := ClassTable.latest_of_latest? hcls
    simp only [Phrase.Writable, Node.isWritable, Bool.and_eq_true, bne_iff_ne, beq_iff_eq]
    exact ⟨⟨⟨hts.head, hname⟩, hcls⟩, ih hts.tail⟩
  | noArguments => rfl
  | moreExpressions _ _ ih ih' =>
    show (_ && _) = true
    rw [ih hts.left, ih' hts.right.tail]
    rfl

end

/-! ## Lines and blocks -/

section

variable {inMethod : Bool} {classes classes' final : ClassTable}

/-- A line is a statement that can be written where the classes of that point are
complete. -/
theorem Simple.canonical {ts : List Token} {node : Node}
    (h : Simple inMethod classes ts node)
    (hts : Scannable ts) (hgrows : classes.Grows final) :
    Canonical final inMethod classes.size (.statement node) classes.size := by
  have hwritable : ∀ {ts level value},
      Spells classes ts (.expression level value) → Scannable ts →
      value.isWritable (final.before classes.size) = true := by
    intro ts level value h hts
    rw [hgrows.before_eq]
    exact h.writable hts
  cases h with
  | returnNone hmethod =>
    rw [hmethod]
    exact .ret rfl
  | returnValue hmethod h =>
    rw [hmethod]
    exact .ret (hwritable h hts.tail)
  | printNothing => exact .print rfl
  | printValues h =>
    refine .print ?_
    rw [hgrows.before_eq]
    exact h.writable hts.tail
  | assign htarget hvalue =>
    have hnames := isName_of_isWritable_path (hwritable htarget hts.left)
    exact .assign (hnames _ List.mem_cons_self) (hwritable hvalue hts.right.tail)
  | setField hobject htarget hvalue =>
    have hnames := isName_of_isWritable_path (hwritable htarget hts.left)
    exact .setField hobject hnames (hwritable hvalue hts.right.tail)
  | expression h => exact .expression (hwritable h hts)

/-- A class that is pushed onto a table is there when the table has grown. -/
theorem get_of_grows_push {cls : Class} (h : (classes.push cls).Grows final) :
    classes.size < final.size ∧ final.get classes.size = cls := by
  have hlt : classes.size < (classes.push cls).size := by
    rw [ClassTable.size_push]
    exact Nat.lt_succ_self _
  refine ⟨Nat.lt_of_lt_of_le hlt h.size_le, ?_⟩
  rw [h.get_eq _ hlt, ClassTable.get_push_size]

theorem Parent.canonical {ts : List Token} {parent : Option ClassId}
    (h : Parent classes ts parent) (hts : Scannable ts) (hgrows : classes.Grows final) :
    ∀ p, parent = some p → Token.isName (final.get p).name.toList = true ∧
      (final.before classes.size).latest? (final.get p).name = some p := by
  rintro p rfl
  cases h with
  | child hcls =>
    obtain ⟨hname, -⟩ := ClassTable.latest_of_latest? hcls
    rw [hgrows.before_eq, hgrows.get_eq p (ClassTable.lt_of_latest? hcls), hname]
    exact ⟨hts.tail.head, hcls⟩

theorem isName_of_parameterTokens {params : List String}
    (h : Scannable (parameterTokens params)) :
    ∀ param ∈ params, Token.isName param.toList = true := by
  intro param hparam
  have hmem : Token.id param ∈ parameterTokens params :=
    List.mem_flatMap.mpr ⟨param, hparam, List.mem_cons_of_mem _ List.mem_cons_self⟩
  exact h _ hmem

/-- What the rows of a source make up can be written, with the classes that were
complete before it and those that are behind it. -/
theorem Block.canonical {depth : Nat} {rows : List Row} {part : Part}
    (h : Block inMethod depth classes rows part classes')
    (hrows : ∀ row ∈ rows, Scannable row.tokens) :
    classes.Grows classes' ∧
      ∀ {final}, classes'.Grows final →
        Canonical final inMethod classes.size part classes'.size := by
  induction h with
  | simple h =>
    have hts := List.forall_mem_singleton.mp hrows
    exact ⟨.refl _, fun hgrows => h.canonical hts hgrows⟩
  | ifThen hcondition _ hne ih =>
    obtain ⟨hheader, hyes⟩ := List.forall_mem_cons.mp hrows
    obtain ⟨hgrows, hcanonical⟩ := ih hyes
    refine ⟨hgrows, fun hfinal => .ifThen ?_ (hcanonical hfinal) hne⟩
    rw [(hgrows.trans hfinal).before_eq]
    exact hcondition.writable hheader.tail.left
  | ifElse hcondition _ hne _ hne' ih ih' =>
    obtain ⟨hheader, hrows⟩ := List.forall_mem_cons.mp hrows
    obtain ⟨hyes, hrows⟩ := List.forall_mem_append.mp hrows
    obtain ⟨-, hno⟩ := List.forall_mem_cons.mp hrows
    obtain ⟨hgrows, hcanonical⟩ := ih hyes
    obtain ⟨hgrows', hcanonical'⟩ := ih' hno
    refine ⟨hgrows.trans hgrows', fun hfinal => ?_⟩
    refine .ifElse ?_ (hcanonical (hgrows'.trans hfinal)) hne (hcanonical' hfinal) hne'
    rw [(hgrows.trans (hgrows'.trans hfinal)).before_eq]
    exact hcondition.writable hheader.tail.left
  | @declaration _ _ _ classes' name _ parent _ methods hparent _ ih =>
    obtain ⟨hheader, hmethods⟩ := List.forall_mem_cons.mp hrows
    obtain ⟨hgrows, hcanonical⟩ := ih hmethods
    have hpush := ClassTable.grows_push classes' ⟨name, parent, methods⟩
    refine ⟨hgrows.trans hpush, fun hfinal => ?_⟩
    obtain ⟨hlt, hget⟩ := get_of_grows_push hfinal
    rw [ClassTable.size_push]
    refine .define hlt ?_ ?_ ?_
    · rw [hget]
      exact hheader.tail.head
    · rw [hget]
      exact hparent.canonical hheader.tail.tail.left (hgrows.trans (hpush.trans hfinal))
    · rw [hget]
      exact hcanonical (hpush.trans hfinal)
  | noStatements => exact ⟨.refl _, fun _ => .noStatements⟩
  | statements _ _ ih ih' =>
    obtain ⟨hfirst, hrest⟩ := List.forall_mem_append.mp hrows
    obtain ⟨hgrows, hcanonical⟩ := ih hfirst
    obtain ⟨hgrows', hcanonical'⟩ := ih' hrest
    exact ⟨hgrows.trans hgrows',
      fun hfinal => .statements (hcanonical (hgrows'.trans hfinal)) (hcanonical' hfinal)⟩
  | method _ hne ih =>
    obtain ⟨hheader, hbody⟩ := List.forall_mem_cons.mp hrows
    obtain ⟨hgrows, hcanonical⟩ := ih hbody
    have hparams := isName_of_parameterTokens hheader.tail.tail.tail.tail.left
    exact ⟨hgrows,
      fun hfinal => .method hheader.tail.head hparams (hcanonical hfinal) hne⟩
  | lastMethod _ ih =>
    obtain ⟨hgrows, hcanonical⟩ := ih hrows
    exact ⟨hgrows, fun hfinal => .lastMethod (hcanonical hfinal)⟩
  | moreMethods _ _ ih ih' =>
    obtain ⟨hfirst, hrest⟩ := List.forall_mem_append.mp hrows
    obtain ⟨hgrows, hcanonical⟩ := ih hfirst
    obtain ⟨hgrows', hcanonical'⟩ := ih' hrest
    exact ⟨hgrows.trans hgrows',
      fun hfinal => .moreMethods (hcanonical (hgrows'.trans hfinal)) (hcanonical' hfinal)⟩

end

end Grammar

/-- An accepted program can be written. -/
theorem Program.canonical_of_parse {source : Source} {program : Program}
    (h : parse source = .done program) :
    program.Canonical := by
  obtain ⟨lines, hlines, hblock⟩ := parse_eq_done_iff.mp h
  exact (hblock.canonical (scannable_lines hlines)).2 (.refl _)

end Mint
