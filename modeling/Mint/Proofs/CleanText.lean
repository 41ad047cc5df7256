import Mint.Proofs.WellFormed

/-!
# No backslash, no carriage return

A string literal holds neither of the two characters (`Literal.Scanned`), and no
operation makes one. Texts are joined, and values are shown as texts: by digits, by the
names of classes, by fixed words. So along a whole run no text in a variable or in a
field holds one of them, and none of their bytes is written (`texts_stay_clean`).

What is said of the output is said of bytes. A byte below 128 occurs in the encoding of
one character only (`toNat_of_mem_utf8EncodeChar`), so that a text which is cut off
somewhere is as clean as the whole.
-/

namespace Mint

/-- The text holds neither a backslash nor a carriage return. -/
def CleanText (text : String) : Prop := ∀ c ∈ text.toList, c ≠ '\\' ∧ c ≠ '\r'

instance (text : String) : Decidable (CleanText text) :=
  decidable_of_iff (text.toList.all (fun c => c != '\\' && c != '\r') = true)
    (by simp [CleanText])

/-- None of the bytes is that of a backslash or of a carriage return. -/
def CleanBytes (bytes : ByteArray) : Prop := ∀ b ∈ bytes.data, b ≠ 0x5C ∧ b ≠ 0x0D

/-! ## Bytes -/

/-- A byte below 128 is the character that it is in the encoding of. -/
theorem toNat_of_mem_utf8EncodeChar {c : Char} {b : UInt8}
    (h : b ∈ String.utf8EncodeChar c) (hb : b.toNat < 128) :
    c.toNat = b.toNat := by
  -- In a longer encoding all bytes are at or above 128.
  have high : ∀ {n : Nat}, 128 ≤ n → n < 256 → b ≠ UInt8.ofNat n := by
    rintro n hlow hhigh rfl
    rw [UInt8.toNat_ofNat', Nat.mod_eq_of_lt hhigh] at hb
    omega
  unfold String.utf8EncodeChar at h
  simp only at h
  split at h
  · next hsmall =>
    rw [List.mem_singleton.mp h, UInt8.toNat_ofNat', Nat.mod_eq_of_lt (by omega)]
    rfl
  · exfalso
    split at h
    · simp only [List.mem_cons, List.not_mem_nil, or_false] at h
      rcases h with h | h <;> exact high (by omega) (by omega) h
    · split at h
      · simp only [List.mem_cons, List.not_mem_nil, or_false] at h
        rcases h with h | h | h <;> exact high (by omega) (by omega) h
      · simp only [List.mem_cons, List.not_mem_nil, or_false] at h
        rcases h with h | h | h | h <;> exact high (by omega) (by omega) h

theorem CleanText.toUTF8 {text : String} (h : CleanText text) :
    CleanBytes text.toUTF8 := by
  intro b hb
  rw [← Array.mem_toList_iff, Source.toList_toUTF8] at hb
  obtain ⟨c, hc, hb⟩ := List.mem_flatMap.mp hb
  obtain ⟨hslash, hreturn⟩ := h c hc
  refine ⟨?_, ?_⟩
  · rintro rfl
    exact hslash
      (Char.ext (UInt32.toNat_inj.mp (toNat_of_mem_utf8EncodeChar hb (by decide))))
  · rintro rfl
    exact hreturn
      (Char.ext (UInt32.toNat_inj.mp (toNat_of_mem_utf8EncodeChar hb (by decide))))

namespace CleanBytes

variable {bytes bytes' : ByteArray}

theorem empty : CleanBytes .empty := by
  rintro b ⟨⟨⟩⟩

theorem append (h : CleanBytes bytes) (h' : CleanBytes bytes') :
    CleanBytes (bytes ++ bytes') := by
  intro b hb
  rw [ByteArray.data_append, Array.mem_append] at hb
  exact hb.elim (h b) (h' b)

theorem extract (h : CleanBytes bytes) (start stop : Nat) :
    CleanBytes (bytes.extract start stop) := by
  intro b hb
  rw [ByteArray.data_extract, Array.mem_extract_iff_getElem] at hb
  obtain ⟨k, hk, rfl⟩ := hb
  exact h _ (Array.getElem_mem _)

end CleanBytes

/-! ## Texts of values -/

namespace CleanText

variable {s t : String}

theorem append (hs : CleanText s) (ht : CleanText t) : CleanText (s ++ t) := by
  intro c hc
  rw [String.toList_append] at hc
  exact (List.mem_append.mp hc).elim (hs c) (ht c)

theorem of_digits {base n : Nat} (hbase : 1 < base) :
    ∀ c ∈ Nat.toDigits base n, c ≠ '\\' ∧ c ≠ '\r' := by
  have hdigit : ∀ n, Nat.digitChar n ≠ '\\' ∧ Nat.digitChar n ≠ '\r' :=
    fun n => ⟨Nat.digitChar_ne _ (by decide), Nat.digitChar_ne _ (by decide)⟩
  induction n using Nat.strongRecOn with
  | ind n ih =>
    intro c hc
    rw [Nat.toDigits_eq_if hbase] at hc
    split at hc
    · rw [List.mem_singleton.mp hc]
      exact hdigit n
    · rcases List.mem_append.mp hc with hc | hc
      · exact ih (n / base) (Nat.div_lt_self (by omega) hbase) c hc
      · rw [List.mem_singleton.mp hc]
        exact hdigit _

theorem numberText (value : Int64) : CleanText (numberText value) := by
  have hnatural : ∀ n : Nat, CleanText n.repr := by
    intro n
    rw [CleanText, Nat.toList_repr]
    exact of_digits (by decide)
  rw [Mint.numberText, Int.toString_eq_repr, Int.repr_eq_if]
  split
  · exact hnatural _
  · exact append (by decide) (hnatural _)

theorem address (a : Address) : CleanText (Address.text a) := by
  refine append (by decide) ?_
  rw [CleanText, String.toList_ofList]
  exact of_digits (by decide)

theorem of_isName (h : Token.isName s.toList = true) : CleanText s := by
  intro c hc
  have hpart : Line.isNamePart c = true := by
    unfold Token.isName at h
    split at h
    · cases h
    · next hs =>
      rw [Bool.and_eq_true, Bool.and_eq_true] at h
      rw [hs] at hc
      rcases List.mem_cons.mp hc with rfl | hc
      · exact Line.isNamePart_of_isNameStart h.1.1
      · exact List.all_eq_true.mp h.1.2 c hc
  constructor <;> (rintro rfl; cases hpart)

end CleanText

/-- If the value is a text, it is clean. -/
def Value.Clean (v : Value) : Prop := ∀ text, v = .text text → CleanText text

theorem CleanText.plainText {classes : ClassTable}
    (hnames : ∀ i, CleanText (classes.get i).name) (heap : Heap) {v : Value}
    (h : v.Clean) : CleanText (v.plainText classes heap) := by
  have hnone : CleanText "None" := by decide
  have htrue : CleanText "True" := by decide
  have hfalse : CleanText "False" := by decide
  cases v with
  | none => exact hnone
  | truth value =>
    cases value with
    | true => exact htrue
    | false => exact hfalse
  | number value => exact .numberText value
  | text value => exact h value rfl
  | cls id => exact .append (by decide) (hnames id)
  | inst a =>
    refine .append (.append (.append (.append ?_ (hnames _)) ?_) (.address a))
      ?_ <;> decide

/-! ## Clean machines -/

/-- All texts in fields are clean, and so is what was written since the sink was
`before`. -/
structure Machine.Clean (before : Sink) (m : Machine) : Prop where
  fields : ∀ a name v, m.heap.field? a name = some v → v.Clean
  output : ∃ bytes, m.sink.written = before.written ++ bytes ∧ CleanBytes bytes

/-- All texts in variables are clean, and so is the machine. -/
structure Frame.Clean (before : Sink) (f : Frame) : Prop where
  machine : f.machine.Clean before
  scope : ∀ name v, f.scope.get? name = some v → v.Clean

theorem Frame.clean_start (sink : Sink) : Frame.Clean sink ⟨∅, .start sink⟩ := by
  refine ⟨⟨fun a name v hfield => ?_, .empty, ?_, .empty⟩, fun name v hv => ?_⟩
  · exact absurd (Heap.lt_size_of_field? hfield) (Nat.not_lt_zero a)
  · rw [ByteArray.append_empty]
    rfl
  · cases hv

/-- A sink takes a text or the beginning of it. -/
theorem Machine.Clean.write {before : Sink} {m : Machine} {text : String}
    (h : m.Clean before) (htext : CleanText text) :
    Machine.Clean before { m with sink := (m.sink.write text.toUTF8).2 } := by
  obtain ⟨bytes, hwritten, hbytes⟩ := h.output
  have htaken : CleanBytes (text.toUTF8.extract 0 (m.sink.fitting text.toUTF8.size)) :=
    htext.toUTF8.extract _ _
  refine ⟨h.fields, _, ?_, hbytes.append htaken⟩
  rw [← ByteArray.append_assoc, ← hwritten]
  rfl

/-- Texts are made of clean texts. -/
def Invariant.clean (classes : ClassTable) (hnames : ∀ i, CleanText (classes.get i).name)
    (before : Sink) :
    Invariant classes where
  value _ := Value.Clean
  machine := Machine.Clean before
  later _ h := h
  none := by rintro _ _ ⟨⟩
  truth := by rintro _ _ _ ⟨⟩
  number := by rintro _ _ _ ⟨⟩
  cls := by rintro _ _ _ ⟨⟩
  space := by
    rintro _ _ ⟨⟩
    decide
  lineEnd := by
    rintro _ _ ⟨⟩
    decide
  append hs ht := by
    rintro _ ⟨⟩
    exact (hs _ rfl).append (ht _ rfl)
  plainText _ hv := by
    rintro _ ⟨⟩
    exact .plainText hnames _ hv
  field h _ hfield := h.fields _ _ _ hfield
  allocate cls h := by
    refine ⟨⟨fun a name v hfield => h.fields a name v (Heap.field?_allocate hfield),
      h.output⟩, ?_⟩
    rintro _ ⟨⟩
  setField name h _ hv := by
    refine ⟨fun a field w hfield => ?_, h.output⟩
    rcases Heap.field?_setField hfield with ⟨-, rfl⟩ | hfield
    · exact hv
    · exact h.fields a field w hfield
  write h ht := h.write (ht _ rfl)

/-! ## Constants -/

namespace Node

mutual

/-- The constants of a tree are those among the trees in it. -/
theorem constants_of_subtrees {asked : Literal → Prop} (n : Node)
    (h : ∀ value, .lit value ∈ n.subtrees → asked value) :
    n.Constants asked := by
  cases n with
  | lit value => exact h value List.mem_cons_self
  | none | path | define => trivial
  | assign _ value | setField _ _ value | not value | str value | ret value
  | body value =>
    exact constants_of_subtrees value fun v hv => h v (List.mem_cons_of_mem _ hv)
  | arith _ left right | logic _ left right | compare _ left right | ifThen left right =>
    obtain ⟨hleft, hright⟩ : (∀ v, .lit v ∈ left.subtrees → asked v) ∧
        ∀ v, .lit v ∈ right.subtrees → asked v := by
      simpa [subtrees, or_imp, forall_and] using h
    exact ⟨constants_of_subtrees left hleft, constants_of_subtrees right hright⟩
  | ifElse condition yes no =>
    obtain ⟨hcondition, hyes, hno⟩ : (∀ v, .lit v ∈ condition.subtrees → asked v) ∧
        (∀ v, .lit v ∈ yes.subtrees → asked v) ∧ ∀ v, .lit v ∈ no.subtrees → asked v := by
      simpa [subtrees, or_imp, forall_and] using h
    exact ⟨constants_of_subtrees condition hcondition, constants_of_subtrees yes hyes,
      constants_of_subtrees no hno⟩
  | block nodes | create _ nodes | print nodes =>
    exact allConstants_of_subtrees nodes fun v hv => h v (List.mem_cons_of_mem _ hv)
  | call object _ args =>
    obtain ⟨hobject, hargs⟩ : (∀ v, .lit v ∈ object.subtrees → asked v) ∧
        ∀ v, .lit v ∈ allSubtrees args → asked v := by
      simpa [subtrees, or_imp, forall_and] using h
    exact ⟨constants_of_subtrees object hobject, allConstants_of_subtrees args hargs⟩

theorem allConstants_of_subtrees {asked : Literal → Prop} (ns : List Node)
    (h : ∀ value, .lit value ∈ allSubtrees ns → asked value) : AllConstants asked ns := by
  cases ns with
  | nil => trivial
  | cons first rest =>
    obtain ⟨hfirst, hrest⟩ : (∀ v, .lit v ∈ first.subtrees → asked v) ∧
        ∀ v, .lit v ∈ allSubtrees rest → asked v := by
      simpa [allSubtrees, or_imp, forall_and] using h
    exact ⟨constants_of_subtrees first hfirst, allConstants_of_subtrees rest hrest⟩

end

end Node

/-- The constants of a well-formed program may stand in its trees, and the names of its
classes are clean. -/
theorem Program.WellFormed.clean {program : Program} (h : program.WellFormed)
    (before : Sink) :
    ∃ hnames, (Invariant.clean program.classes hnames before).Classes ∧
      program.body.Constants (Invariant.clean program.classes hnames before).Admits := by
  have hnames : ∀ i, CleanText (program.classes.get i).name := by
    intro i
    by_cases hi : i < program.classes.size
    · exact .of_isName (h.classes i hi).isName
    · rw [ClassTable.get_of_size_le (Nat.not_lt.mp hi)]
      decide
  have hadmits : ∀ {value : Literal},
      value.Scanned → (Invariant.clean program.classes hnames before).Admits value := by
    intro value hvalue heap
    cases value with
    | number | truth => rintro _ ⟨⟩
    | text text =>
      rintro _ ⟨⟩
      exact hvalue
  refine ⟨hnames, fun i method hmethod => ?_, ?_⟩
  · obtain ⟨suite, hbody, -, hproper⟩ := h.proper_of_mem_methods hmethod
    rw [hbody]
    exact Node.constants_of_subtrees suite fun value hvalue =>
      hadmits (hproper _ hvalue).shaped
  · exact Node.allConstants_of_subtrees _ fun value hvalue =>
      hadmits (h.statements _ hvalue).shaped

/-! ## Points of a run -/

namespace Activity

/-- What is in sight when the activity starts. A call and a text are made without
variables. -/
def entry : Activity → Frame
  | .node _ f _ | .statements _ f _ | .arguments _ f _ | .printing _ f _ _ => f
  | .call _ m _ _ _ | .render _ m _ => ⟨∅, m⟩

/-- What is in sight when the activity has ended, in whichever way, unless fuel has run
out. -/
def exit? (classes : ClassTable) : Activity → Option Frame
  | .node fuel f n => (n.exec classes (.within classes fuel) f).state?
  | .statements fuel f ns => (Node.execAll classes (.within classes fuel) ns f).state?
  | .arguments fuel f ns => (Node.evalAll classes (.within classes fuel) ns f).state?
  | .printing fuel f separate ns =>
    (Node.printAll classes (.within classes fuel) separate ns f).state?
  | .call fuel m receiver name args =>
    (callMethod classes fuel receiver name args m).state?.map (Frame.mk ∅)
  | .render fuel m v => (renderValue classes fuel v m).state?.map (Frame.mk ∅)

end Activity

namespace Invariant

variable {classes : ClassTable} {I : Invariant classes} {A : Activity} {f : Frame}

theorem holds_of_machine {m : Machine} (h : I.machine m) : I.Holds ⟨∅, m⟩ :=
  ⟨h, fun _ _ hv => by cases hv⟩

theorem Governs.entry (h : I.Governs A) : I.Holds A.entry := by
  cases A with
  | node | statements | arguments | printing => exact h.1
  | call | render => exact holds_of_machine h.1

theorem Governs.exit (hclasses : I.Classes) (h : I.Governs A)
    (hf : A.exit? classes = some f) : I.Holds f := by
  have hd := dispatches_within hclasses
  cases A with
  | node fuel g n => exact (Node.exec_runs (hd fuel) n h.2 h.1).state hf
  | statements fuel g ns => exact (Node.execAll_runs (hd fuel) ns h.2 h.1).state hf
  | arguments fuel g ns => exact (Node.evalAll_runs (hd fuel) ns h.2 h.1).state hf
  | printing fuel g separate ns =>
    exact (Node.printAll_runs (hd fuel) separate ns h.2 h.1).state hf
  | call fuel m receiver name args =>
    obtain ⟨m', hm', rfl⟩ := Option.map_eq_some_iff.mp hf
    exact holds_of_machine (((hd fuel).call name h.1 h.2.1 h.2.2).state hm')
  | render fuel m v =>
    obtain ⟨m', hm', rfl⟩ := Option.map_eq_some_iff.mp hf
    exact holds_of_machine (((hd fuel).render h.1 h.2).state hm')

end Invariant

/-! ## Programs -/

section

variable {program : Program} {fuel : Nat} {sink : Sink} {m : Machine}

/-- A flush writes nothing. -/
theorem Invariant.acts_flush {classes : ClassTable}
    {hnames : ∀ i, CleanText (classes.get i).name} (hm : m.Clean sink) :
    (clean classes hnames sink).Acts Action.flush m (fun _ _ => True) := by
  have hflushed : Machine.Clean sink { m with sink := m.sink.flush.2 } :=
    ⟨hm.fields, hm.output⟩
  refine ⟨fun hdone => ?_, fun hfailed => ?_⟩
  · simp only [Action.flush] at hdone
    split at hdone
    · next hflush =>
      cases hdone
      rw [hflush] at hflushed
      exact ⟨hflushed, .refl _, trivial⟩
    · cases hdone
  · simp only [Action.flush] at hfailed
    split at hfailed
    · cases hfailed
    · next hflush =>
      cases hfailed
      rw [hflush] at hflushed
      exact ⟨hflushed, .refl _, trivial⟩

/-- A well-formed program leaves a clean machine, and clean variables if it succeeds. -/
theorem Program.WellFormed.run_clean (h : program.WellFormed) :
    (∀ globals m, program.run fuel (.start sink) = .done (globals, m) →
      Frame.Clean sink ⟨globals, m⟩) ∧
    ∀ cause m, program.run fuel (.start sink) = .failed (cause, m) → m.Clean sink := by
  obtain ⟨hnames, hclasses, hbody⟩ := h.clean sink
  have hstart := Frame.clean_start sink
  have hstatements :=
    Node.exec_runs (Invariant.dispatches_within hclasses fuel) program.body hbody
      (f := ⟨∅, .start sink⟩) ⟨hstart.machine, hstart.scope⟩
  have hrun :
      (Invariant.clean program.classes hnames sink).Acts (program.run fuel) (.start sink)
        (Invariant.clean program.classes hnames sink).Binds := by
    refine (Invariant.Acts.inScope hstatements).bind fun r m hm _ hr => ?_
    exact (Invariant.acts_flush hm).bind fun _ m' hm' hext _ =>
      .pure hm' (hr.2.later hext)
  refine ⟨fun globals m hdone => ?_, fun cause m hfailed => (hrun.failed hfailed).1⟩
  obtain ⟨hm, -, hglobals⟩ := hrun.done hdone
  exact ⟨hm, hglobals⟩

/-- Wherever something inside a run of a well-formed program starts or ends, what is in
sight is clean. -/
theorem Program.WellFormed.contains_clean (h : program.WellFormed) {A : Activity}
    (hA : (Activity.node fuel ⟨∅, .start sink⟩ program.body).Contains program.classes A) :
    A.entry.Clean sink ∧ ∀ f, A.exit? program.classes = some f → f.Clean sink := by
  obtain ⟨hnames, hclasses, hbody⟩ := h.clean sink
  have hstart := Frame.clean_start sink
  have hgoverns : (Invariant.clean program.classes hnames sink).Governs A :=
    Invariant.governs_of_contains hclasses hA ⟨⟨hstart.machine, hstart.scope⟩, hbody⟩
  refine ⟨⟨hgoverns.entry.machine, hgoverns.entry.scope⟩, fun f hf => ?_⟩
  have hexit := hgoverns.exit hclasses hf
  exact ⟨hexit.machine, hexit.scope⟩

/-- Whatever the source is and however the run of it ends: no text in a variable, in a
field or in the output holds a backslash or a carriage return, neither at the end nor in
between, where anything in the run starts or ends. -/
theorem texts_stay_clean (source : Source) (fuel : Nat) (sink : Sink) :
    (∀ result m, source.interpret fuel (.start sink) = .done (result, m) →
      Frame.Clean sink ⟨result.globals, m⟩) ∧
    (∀ failure m,
      source.interpret fuel (.start sink) = .failed (failure, m) → m.Clean sink) ∧
    ∀ program, Program.parse source = .done program → ∀ A : Activity,
      (Activity.node fuel ⟨∅, .start sink⟩ program.body).Contains program.classes A →
      A.entry.Clean sink ∧ ∀ f, A.exit? program.classes = some f → f.Clean sink := by
  refine ⟨fun result m hdone => ?_, fun failure m hfailed => ?_,
    fun program hparse A hA => ?_⟩
  · rw [Source.interpret] at hdone
    split at hdone
    · cases hdone
    · cases hdone
    · next program hparse =>
      split at hdone
      · cases hdone
      · cases hdone
      · next hrun =>
        cases hdone
        exact (Program.wellFormed_of_parse hparse).run_clean.1 _ _ hrun
  · rw [Source.interpret] at hfailed
    split at hfailed
    · cases hfailed
    · cases hfailed
      exact (Frame.clean_start sink).machine
    · next program hparse =>
      split at hfailed
      · cases hfailed
      · next hrun =>
        cases hfailed
        exact (Program.wellFormed_of_parse hparse).run_clean.2 _ _ hrun
      · cases hfailed
  · exact (Program.wellFormed_of_parse hparse).contains_clean hA

end

/-- A program that puts texts together from quotes and escapes, in a field, in a method
and in a variable. -/
def quotedTexts : Source := .ofString
  ("class A:\n  def __init__(self):\n    self.t = 'a\\tb'\n" ++
    "  def __str__(self):\n    return self.t + \"'\"\n" ++
    "x = str(A()) + 'c\\n'\nprint x, A\n")

/-- What `quotedTexts` is read as. -/
def quotedTextsProgram : Program where
  statements :=
    [.define 0, .assign "x" (.arith .add (.str (.create 0 [])) (.lit (.text "c\n"))),
      .print [.path ["x"], .path ["A"]]]
  classes := ⟨#[⟨"A", none, [
    ⟨"__init__", [], .body (.block [.setField ["self"] "t" (.lit (.text "a\tb"))])⟩,
    ⟨"__str__", [],
      .body (.block [.ret (.arith .add (.path ["self", "t"]) (.lit (.text "'")))])⟩]⟩]⟩

/-- The variables that `quotedTexts` leaves. -/
def quotedTextsGlobals : Scope := ⟨[("A", .cls 0), ("x", .text "a\tb'c\n")]⟩

/-- The instance that `quotedTexts` leaves, and a sink. -/
def quotedTextsMachine (sink : Sink) : Machine :=
  ⟨⟨#[⟨0, ⟨[("t", .text "a\tb")]⟩⟩]⟩, sink⟩

theorem texts_stay_clean_quotedTexts :
    quotedTexts.interpret 3 (.start .unlimited) =
      .done (⟨quotedTextsGlobals, quotedTextsProgram.classes⟩,
      quotedTextsMachine ⟨"a\tb'c\n Class A\n".toUTF8, none, false, 1⟩) ∧
    Frame.Clean .unlimited ⟨quotedTextsGlobals,
      quotedTextsMachine ⟨"a\tb'c\n Class A\n".toUTF8, none, false, 1⟩⟩ ∧
    quotedTexts.interpret 3 (.start (.make (some 5) false)) =
      .failed (.stopped (.output .full),
        quotedTextsMachine ⟨"a\tb'c".toUTF8, some 5, false, 0⟩) ∧
    (quotedTextsMachine ⟨"a\tb'c".toUTF8, some 5, false, 0⟩).Clean
      (.make (some 5) false) ∧
    Program.parse quotedTexts = .done quotedTextsProgram ∧
    (∀ f, (Activity.node 3 ⟨∅, .start .unlimited⟩ quotedTextsProgram.body).exit?
      quotedTextsProgram.classes = some f →
      f.Clean .unlimited) := by
  have hdone : quotedTexts.interpret 3 (.start .unlimited) =
      .done (⟨quotedTextsGlobals, quotedTextsProgram.classes⟩,
      quotedTextsMachine ⟨"a\tb'c\n Class A\n".toUTF8, none, false, 1⟩) := by
    decide +kernel
  have hfailed : quotedTexts.interpret 3 (.start (.make (some 5) false)) =
      .failed (.stopped (.output .full),
        quotedTextsMachine ⟨"a\tb'c".toUTF8, some 5, false, 0⟩) := by decide +kernel
  have hparse : Program.parse quotedTexts = .done quotedTextsProgram := by decide +kernel
  obtain ⟨hcleanDone, -, hinside⟩ := texts_stay_clean quotedTexts 3 .unlimited
  obtain ⟨-, hcleanFailed, -⟩ := texts_stay_clean quotedTexts 3 (.make (some 5) false)
  exact ⟨hdone, hcleanDone _ _ hdone, hfailed, hcleanFailed _ _ hfailed, hparse,
    (hinside quotedTextsProgram hparse _ .refl).2⟩

end Mint
