import Mathlib.Data.List.Induction
import Mathlib.Data.Nat.Digits.Defs
import Mint.Interpreter
import Mint.Proofs.Arithmetic
import Mint.Proofs.Printing

/-!
# Numbers and their texts

A number is written in decimal digits, with a sign in front if it is negative. A source
has no negative literals: the sign is a token of its own, and a negative number is read
as a difference from zero. So the digits of the least number, which are out of the range
of literals, cannot be read back, and those of every other number can
(`numbers_survive_reading_back`).

What digits mean is said by `decimalValue`, place by place.
-/

namespace Mint

/-! ## Digits -/

/-- The value of decimal digits: the last one counts ones, the one before it tens, and
so on. -/
def decimalValue (digits : List Char) : Nat :=
  Nat.ofDigits 10 (digits.reverse.map fun c => c.toNat - '0'.toNat)

theorem decimalValue_concat (digits : List Char) (c : Char) :
    decimalValue (digits ++ [c]) = 10 * decimalValue digits + (c.toNat - '0'.toNat) := by
  simp only [decimalValue, List.reverse_append, List.reverse_singleton,
    List.singleton_append, List.map_cons, Nat.ofDigits_cons]
  exact Nat.add_comm _ _

/-- Reading digits from the left gives each its place. -/
theorem ofDigitChars_eq_decimalValue (digits : List Char) :
    Nat.ofDigitChars 10 digits 0 = decimalValue digits := by
  induction digits using List.reverseRecOn with
  | nil => rfl
  | append_singleton digits c ih =>
    rw [decimalValue_concat, ← ih, Nat.ofDigitChars_eq_foldl, List.foldl_append,
      Nat.ofDigitChars_eq_foldl]
    rfl

namespace Line

theorem intLiteral_of_le {digits : List Char} (h : decimalValue digits ≤ 2 ^ 63 - 1) :
    ∃ n : Int64, n.toInt = decimalValue digits ∧ intLiteral digits = .ok n := by
  have hlt : decimalValue digits < 2 ^ 63 := by omega
  refine ⟨Int64.ofNat (decimalValue digits), Int64.toInt_ofNat_of_lt hlt, ?_⟩
  rw [intLiteral, ofDigitChars_eq_decimalValue]
  exact if_pos hlt

theorem intLiteral_of_lt {digits : List Char} (h : 2 ^ 63 - 1 < decimalValue digits) :
    intLiteral digits = .error (.intOverflow (String.ofList digits)) := by
  have hge : ¬ decimalValue digits < 2 ^ 63 := by omega
  rw [intLiteral, ofDigitChars_eq_decimalValue]
  exact if_neg hge

/-- The scanner takes a run of digits as one literal. -/
theorem scan_digits {digits rest : List Char} (hne : digits ≠ [])
    (hdigits : ∀ c ∈ digits, c.isDigit = true)
    (hrest : ∀ c ∈ rest.head?, c.isDigit = false) :
    scan 0 (digits ++ rest) =
      (intLiteral digits).bind fun n => (scan 0 rest).map (.number n :: ·) := by
  obtain ⟨c, more, rfl⟩ := List.exists_cons_of_ne_nil hne
  obtain ⟨hc, hmore⟩ := List.forall_mem_cons.mp hdigits
  have hlexeme := lexeme_digits hc hmore hrest
  cases hliteral : intLiteral (c :: more) with
  | ok n =>
    rw [hliteral] at hlexeme
    rw [List.cons_append, scan_of_lexeme (not_special_of_isDigit hc).1 hlexeme,
      List.drop_left]
    rfl
  | error fault =>
    rw [hliteral] at hlexeme
    rw [List.cons_append, scan, if_neg (not_special_of_isDigit hc).1, hlexeme]
    rfl

end Line

/-! ## The tokens of a number -/

/-- Every number but the least has an opposite. -/
theorem toInt_neg_of_ne_minValue {n : Int64} (h : n ≠ Int64.minValue) :
    (-n).toInt = -n.toInt := by
  have hne : n.toInt ≠ -2 ^ 63 := by
    rw [← Int64.toInt_minValue]
    exact mt Int64.toInt_inj.mp h
  have hlow := n.le_toInt
  have hhigh := n.toInt_lt
  rw [Int64.toInt_neg]
  exact Int.bmod_eq_of_le (by omega) (by omega)

theorem numberText_of_neg {n : Int64} (hneg : n.toInt < 0) (hleast : n ≠ Int64.minValue) :
    (numberText n).toList = '-' :: (numberText (-n)).toList := by
  rw [numberText, numberText, toInt_neg_of_ne_minValue hleast, Int.toString_eq_repr,
    Int.toString_eq_repr, Int.repr_eq_if, Int.repr_eq_if, if_neg (by omega),
    if_pos (by omega), String.toList_append]
  rfl

/-- The text of a number is read as these tokens. -/
def numberTokens (n : Int64) : List Token :=
  if 0 ≤ n.toInt then [.number n] else [.char '-', .number (-n)]

/-- These tokens are read as this tree. -/
def numberNode (n : Int64) : Node :=
  if 0 ≤ n.toInt then .lit (.number n)
  else .arith .sub (.lit (.number 0)) (.lit (.number (-n)))

theorem isScannable_numberTokens {n : Int64} (hleast : n ≠ Int64.minValue) :
    ∀ token ∈ numberTokens n, token.isScannable = true := by
  rw [numberTokens]
  split
  · next hnonneg => exact List.forall_mem_singleton.mpr (decide_eq_true hnonneg)
  · next hneg =>
    have hopposite : 0 ≤ (-n).toInt := by
      rw [toInt_neg_of_ne_minValue hleast]
      omega
    exact List.forall_mem_cons.mpr ⟨rfl,
      List.forall_mem_singleton.mpr (decide_eq_true hopposite)⟩

/-- The tokens of a number are spelled without a space. -/
theorem toList_numberText_eq_flatMap {n : Int64} (hleast : n ≠ Int64.minValue) :
    (numberText n).toList = (numberTokens n).flatMap Token.spelling := by
  rw [numberTokens]
  split
  · rw [List.flatMap_singleton, Token.spelling]
  · next hneg =>
    rw [numberText_of_neg (Int.not_le.mp hneg) hleast, List.flatMap_cons,
      List.flatMap_singleton]
    rfl

/-- A minus sign is a token of its own, whatever stands behind it. -/
theorem Line.scan_minus (rest : List Char) :
    scan 0 ('-' :: rest) = (scan 0 rest).map (.char '-' :: ·) := by
  have hsymbol : symbol '-' rest = (.char '-', 0) := by
    unfold symbol
    split
    · next h => cases h
    · rfl
  have hlexeme : lexeme '-' rest = .ok (some (.char '-'), 0) := by
    rw [lexeme_symbol rfl, hsymbol]
  rw [scan_of_lexeme (by decide) hlexeme]
  rfl

theorem Line.scan_numberText {n : Int64} (hleast : n ≠ Int64.minValue) {rest : List Char}
    (hrest : EndsToken rest) :
    scan 0 ((numberText n).toList ++ rest) = (scan 0 rest).map (numberTokens n ++ ·) := by
  have hscannable := isScannable_numberTokens hleast
  rw [toList_numberText_eq_flatMap hleast]
  by_cases hsign : 0 ≤ n.toInt
  · rw [numberTokens, if_pos hsign] at hscannable ⊢
    rw [List.flatMap_singleton, scan_spelling (hscannable _ List.mem_cons_self) hrest]
    rfl
  · rw [numberTokens, if_neg hsign] at hscannable ⊢
    have hnumber :=
      scan_spelling (hscannable _ (List.mem_cons_of_mem _ List.mem_cons_self)) hrest
    rw [List.flatMap_cons, List.flatMap_singleton, List.append_assoc]
    show scan 0 ('-' :: ((Token.number (-n)).spelling ++ rest)) = _
    rw [scan_minus, hnumber]
    cases scan 0 rest <;> rfl

open Grammar in
theorem spells_numberTokens (n : Int64) :
    Spells ∅ (numberTokens n) (.expression .disjunction (numberNode n)) := by
  have hliteral : ∀ value : Int64,
      Derives ∅ [.number value] (.tree .unary (.lit (.number value))) := fun value =>
    .unary (.primary (.literal (.number value)))
  have hunary : Derives ∅ (numberTokens n) (.tree .unary (numberNode n)) := by
    rw [numberTokens, numberNode]
    split
    · exact hliteral n
    · exact .negative (hliteral (-n))
  exact derives_iff_spells.mp
    (.test (.andTest (.notTest (.comparison (.expr (.term hunary))))))

/-- The tree of a number yields that number. -/
theorem exec_numberNode {n : Int64} (hleast : n ≠ Int64.minValue) (classes : ClassTable)
    (d : Dispatch) (frame : Frame) :
    (numberNode n).exec classes d frame = .done (.number n, frame) := by
  rw [numberNode]
  split
  · rw [Node.exec]
    rfl
  · have hvalue : ArithOp.sub.onIntegers (0 : Int64).toInt (-n).toInt = some n.toInt := by
      rw [ArithOp.onIntegers, toInt_neg_of_ne_minValue hleast, Int64.toInt_zero,
        Int.zero_sub, Int.neg_neg]
    have happly : ArithOp.sub.apply 0 (-n) = .ok n := by
      rcases ArithOp.sub.apply_cases 0 (-n) with ⟨m, happly, hm⟩ | ⟨-, hrange⟩
      · rw [hvalue] at hm
        rw [happly, Int64.toInt_inj.mp (Option.some.inj hm)]
      · exact absurd (representable_toInt n) (hrange _ hvalue)
    simp only [Node.exec]
    show Exec.ofAction (d.arith classes .sub (.number 0) (.number (-n))) frame = _
    rw [Dispatch.arith, happly]
    rfl

/-! ## The source -/

/-- The source that assigns the text to `x`. -/
def assignmentTo (text : String) : Source := .ofString ("x = " ++ text ++ "\n")

theorem assignmentTo_eq (text : String) :
    assignmentTo text =
      .ofString (String.ofList ((['x', ' ', '=', ' '] ++ text.toList) ++ ['\n'])) := by
  rw [assignmentTo]
  congr 1
  apply String.toList_inj.mp
  simp

theorem writable_assignment {n : Int64} (hleast : n ≠ Int64.minValue) :
    Row.Writable ⟨0, .id "x" :: .char '=' :: numberTokens n⟩ where
  nonempty := List.cons_ne_nil _ _
  scannable := List.forall_mem_cons.mpr ⟨by decide,
    List.forall_mem_cons.mpr ⟨rfl, isScannable_numberTokens hleast⟩⟩

theorem ofText_assignment {n : Int64} (hleast : n ≠ Int64.minValue) :
    Line.ofText ((['x', ' ', '=', ' '] ++ (numberText n).toList) ++ ['\n']) =
      .ok ⟨0, (.id "x" :: .char '=' :: numberTokens n) ++ [Token.newline]⟩ := by
  have hspaces : ((['x', ' ', '=', ' '] ++ (numberText n).toList) ++ ['\n']).takeWhile
    (· == ' ') = [] := rfl
  have hspelling : (['x', ' ', '=', ' '] ++ (numberText n).toList) ++ ['\n'] =
      spellTokens [.id "x", .char '='] ++ ' ' :: ((numberText n).toList ++ ['\n']) := by
    simp [spellTokens, Token.spelling]
  have hscan : Line.scan 0 ((['x', ' ', '=', ' '] ++ (numberText n).toList) ++ ['\n']) =
      .ok ((.id "x" :: .char '=' :: numberTokens n) ++ [Token.newline]) := by
    rw [hspelling, Line.scan_spellTokens (by decide) (EndsToken.cons_space _),
      Line.scan_space, Line.scan_numberText hleast (EndsToken.cons_newline [])]
    rfl
  simp only [Line.ofText, hspaces, List.length_nil, List.drop_zero, hscan]
  rfl

theorem parse_assignmentTo {n : Int64} (hleast : n ≠ Int64.minValue) :
    Program.parse (assignmentTo (numberText n)) =
      .done ⟨[.assign "x" (numberNode n)], ∅⟩ := by
  have hwritable := writable_assignment hleast
  have hbreak : '\n' ∉ ['x', ' ', '=', ' '] ++ (numberText n).toList := by
    rw [toList_numberText_eq_flatMap hleast, List.mem_append, not_or]
    refine ⟨by decide, fun hmem => ?_⟩
    obtain ⟨token, htoken, hmem⟩ := List.mem_flatMap.mp hmem
    exact Token.newline_not_mem_spelling
      (isScannable_numberTokens hleast token htoken) hmem
  have hplain := Row.plain_eq hwritable
  obtain ⟨found, hlines, hrow⟩ :=
    Program.lines_of_line hbreak (ofText_assignment hleast)
      (by rw [hplain]; exact hwritable.nonempty)
  rw [hplain] at hrow
  rw [assignmentTo_eq]
  refine Program.parse_eq_done_iff.mpr ⟨[found], hlines, ?_⟩
  rw [List.map_singleton, hrow]
  have hassign : Grammar.Simple false ∅ ([.id "x"] ++ .char '=' :: numberTokens n)
      (.assign "x" (numberNode n)) :=
    .assign (Printer.spells_dotted (List.cons_ne_nil "x" [])) (spells_numberTokens n)
  exact .statements (.simple hassign) .noStatements

theorem run_assignment {n : Int64} (hleast : n ≠ Int64.minValue) (fuel : Nat)
    {machine : Machine} (hflush : machine.sink.refusesFlush = false) :
    (⟨[.assign "x" (numberNode n)], ∅⟩ : Program).run fuel machine =
      .done (⟨[("x", .number n)]⟩, { machine with sink := machine.sink.flush.2 }) := by
  have hexec : ∀ frame : Frame,
      (Program.body ⟨[.assign "x" (numberNode n)], ∅⟩).exec ∅ (.within ∅ fuel) frame =
      .done (.none, { frame with scope := frame.scope.insert "x" (.number n) }) := by
    intro frame
    simp only [Program.body, Node.exec, Node.execAll]
    simp only [bind_assoc, pure_bind]
    rw [Run.bind_done (exec_numberNode hleast ∅ (.within ∅ fuel) frame)]
    rfl
  have hscope : Exec.inScope ∅
      ((Program.body ⟨[.assign "x" (numberNode n)], ∅⟩).exec ∅ (.within ∅ fuel)) machine =
      .done ((.none, ⟨[("x", .number n)]⟩), machine) := by
    rw [Exec.inScope, hexec]
    rfl
  have hflushed : Action.flush machine =
      .done ((), { machine with sink := machine.sink.flush.2 }) := by
    simp only [Action.flush, Sink.flush, hflush, Bool.false_eq_true, if_false]
  rw [Program.run, Run.bind_done hscope]
  exact Run.bind_done hflushed

/-- The digits of the least number are not a literal. -/
theorem parse_leastNumber : Program.parse (assignmentTo (numberText Int64.minValue)) =
    .failed (.lexical ⟨1, .scan (.intOverflow "9223372036854775808")⟩) := by
  decide +kernel

theorem renderValue_number (classes : ClassTable) (fuel : Nat) (n : Int64)
    (machine : Machine) :
    renderValue classes fuel (.number n) machine = .done (numberText n, machine) := by
  cases fuel <;> rfl

/-- Whichever number is rendered and its text assigned to `x` in a source of one line:
the source runs and leaves nothing but `x`, bound to that number, on every machine whose
output can be flushed in the end. The least number is the exception: its digits are too
large a literal on line 1, and nothing runs. Wherever the scanner comes to a run of
digits, leading zeros or not, it takes all of them as one literal of their value if that
is at most the greatest number, and else fails with all of them. -/
theorem numbers_survive_reading_back :
    (∀ (n : Int64) classes fuel machine,
      ∃ text, renderValue classes fuel (.number n) machine = .done (text, machine) ∧
      (n ≠ Int64.minValue →
        ∀ (fuel : Nat) (machine : Machine), machine.sink.refusesFlush = false →
        (assignmentTo text).interpret fuel machine =
          .done (⟨⟨[("x", .number n)]⟩, ∅⟩,
            { machine with sink := machine.sink.flush.2 })) ∧
      (n = Int64.minValue →
        ∀ (fuel : Nat) (machine : Machine), (assignmentTo text).interpret fuel machine =
        .failed (.unparsed (.lexical ⟨1, .scan (.intOverflow "9223372036854775808")⟩),
          machine))) ∧
    ∀ digits rest : List Char, digits ≠ [] → (∀ c ∈ digits, c.isDigit = true) →
      (∀ c ∈ rest.head?, c.isDigit = false) →
      (decimalValue digits ≤ 2 ^ 63 - 1 → ∃ n : Int64, n.toInt = decimalValue digits ∧
        Line.scan 0 (digits ++ rest) = (Line.scan 0 rest).map (.number n :: ·)) ∧
      (2 ^ 63 - 1 < decimalValue digits →
        Line.scan 0 (digits ++ rest) = .error (.intOverflow (String.ofList digits))) := by
  constructor
  · intro n classes fuel machine
    refine ⟨numberText n, renderValue_number classes fuel n machine,
      fun hleast fuel machine hflush => ?_, ?_⟩
    · simp only [Source.interpret, parse_assignmentTo hleast,
        run_assignment hleast fuel hflush]
    · rintro rfl fuel machine
      simp only [Source.interpret, parse_leastNumber]
  · intro digits rest hne hdigits hrest
    rw [Line.scan_digits hne hdigits hrest]
    constructor
    · intro hle
      obtain ⟨n, hn, hliteral⟩ := Line.intLiteral_of_le hle
      exact ⟨n, hn, by rw [hliteral]; rfl⟩
    · intro hlt
      rw [Line.intLiteral_of_lt hlt]
      rfl

theorem numbers_survive_reading_back_extremes :
    (∃ text, renderValue ∅ 0 (.number (Int64.minValue + 1)) (.start .unlimited) =
      .done (text, .start .unlimited) ∧
      (assignmentTo text).interpret 0 (.start .unlimited) =
        .done (⟨⟨[("x", .number (Int64.minValue + 1))]⟩, ∅⟩,
          .start { Sink.unlimited with flushes := 1 })) ∧
    (∃ text, renderValue ∅ 0 (.number Int64.minValue) (.start .unlimited) =
      .done (text, .start .unlimited) ∧
      (assignmentTo text).interpret 0 (.start .unlimited) =
        .failed (.unparsed (.lexical ⟨1, .scan (.intOverflow "9223372036854775808")⟩),
          .start .unlimited)) ∧
    (∃ n : Int64, n.toInt = decimalValue "007".toList ∧
      Line.scan 0 ("007".toList ++ "x\n".toList) =
        (Line.scan 0 "x\n".toList).map (.number n :: ·)) ∧
    Line.scan 0 ("009223372036854775808".toList ++ "x\n".toList) =
      .error (.intOverflow "009223372036854775808") := by
  obtain ⟨hnumbers, hdigits⟩ := numbers_survive_reading_back
  refine ⟨?_, ?_, ?_, ?_⟩
  · obtain ⟨text, hrender, hread, -⟩ :=
      hnumbers (Int64.minValue + 1) ∅ 0 (.start .unlimited)
    exact ⟨text, hrender, hread (by decide) 0 _ rfl⟩
  · obtain ⟨text, hrender, -, hleast⟩ := hnumbers Int64.minValue ∅ 0 (.start .unlimited)
    exact ⟨text, hrender, hleast rfl 0 _⟩
  · exact (hdigits "007".toList "x\n".toList (by simp) (by simp) (by simp)).1
      (by decide +kernel)
  · exact (hdigits "009223372036854775808".toList "x\n".toList (by simp) (by simp)
      (by simp)).2 (by decide +kernel)

end Mint
