import Mint.Proofs.Failure

/-!
# Streams that differ in line numbers

Two streams may hold the same tokens on lines of other numbers (`Renumbers`). Since a
parser does nothing with a line number but report it, it does the same on both: it reads
the same program, or it fails with the same error under the other number
(`Program.parse_of_renumbers`). Where a line cannot be read the parser stops, and so the
streams need not correspond behind it.
-/

namespace Mint

variable {number : Nat → Nat}

/-- The second stream is the first with other line numbers, up to the first error of a
line. -/
inductive Renumbers (number : Nat → Nat) : List Reading → List Reading → Prop where
  | nil : Renumbers number [] []
  | token {lexeme rest rest'} (h : Renumbers number rest rest') :
    Renumbers number (.token lexeme :: rest) (.token (lexeme.renumber number) :: rest')
  | fault {e rest rest'} :
    Renumbers number (.fault e :: rest) (.fault (e.renumber number) :: rest')

/-- The states differ in nothing but line numbers and what has been passed. -/
structure ParserState.Renumbered (number : Nat → Nat) (s s' : ParserState) : Prop where
  current : s'.cursor.current = s.cursor.current.renumber number
  classes : s'.classes = s.classes
  ahead : Renumbers number s.cursor.ahead s'.cursor.ahead

/-- Two runs end alike but for line numbers, if the first had enough fuel. -/
inductive EndsRenumbered (number : Nat → Nat) {α : Type} :
    Outcome (ParseError × ParserState) (α × ParserState) →
    Outcome (ParseError × ParserState) (α × ParserState) → Prop where
  | done {a t t'} (h : t.Renumbered number t') :
    EndsRenumbered number (.done (a, t)) (.done (a, t'))
  | failed {e t t'} :
    EndsRenumbered number (.failed (e, t)) (.failed (e.renumber number, t'))
  | starved {y} : EndsRenumbered number .starved y

/-- States that differ in line numbers are led to ends that do. -/
def CarriesNumbers (number : Nat → Nat) {α : Type} (x y : Parser α) : Prop :=
  ∀ s s', s.Renumbered number s' → EndsRenumbered number (x s) (y s')

namespace CarriesNumbers

open Mint.Parser

variable {α β : Type}

theorem pure (a : α) : CarriesNumbers number (Pure.pure a) (Pure.pure a) :=
  fun _ _ h => .done h

theorem bind {x y : Parser α} {f g : α → Parser β} (hx : CarriesNumbers number x y)
    (hf : ∀ a, CarriesNumbers number (f a) (g a)) :
    CarriesNumbers number (x >>= f) (y >>= g) := by
  intro s s' h
  have hends := hx s s' h
  rw [Run.bind_apply, Run.bind_apply]
  generalize x s = outcome at hends
  generalize y s' = outcome' at hends
  cases hends with
  | done h => exact hf _ _ _ h
  | failed => exact .failed
  | starved => exact .starved

/-- Looking at what is the same in both states. -/
theorem gets {f : ParserState → α} (hf : ∀ {s s'}, s.Renumbered number s' → f s' = f s) :
    CarriesNumbers number (Run.gets f) (Run.gets f) := by
  intro s s' h
  rw [Run.gets_apply, Run.gets_apply, hf h]
  exact .done h

theorem line {f g : Nat → Parser α}
    (hf : ∀ n, CarriesNumbers number (f n) (g (number n))) :
    CarriesNumbers number (line >>= f) (line >>= g) := by
  intro s s' h
  have hline : Parser.line s' = .done (number s.cursor.line, s') := by
    rw [Parser.line, Run.gets_apply, Cursor.line_renumber h.current]
  rw [Run.bind_done hline]
  exact hf s.cursor.line s s' h

theorem advance : CarriesNumbers number advance advance := by
  intro s s' h
  obtain ⟨⟨passed, current, ahead⟩, classes⟩ := s
  obtain ⟨⟨passed', current', ahead'⟩, classes'⟩ := s'
  obtain ⟨hcurrent, ⟨⟩, hahead⟩ := h
  cases hahead with
  | nil => exact .done ⟨hcurrent, rfl, .nil⟩
  | token hrest => exact .done ⟨rfl, rfl, hrest⟩
  | fault => exact .failed

theorem check {passes : Cursor → Except LexError α} (hpasses : ∀ {c c' : Cursor},
    c'.current = c.current.renumber number →
      passes c' = (passes c).mapError (LexError.renumber number)) :
    CarriesNumbers number (check passes) (check passes) := by
  intro s s' h
  rw [Parser.check, Parser.check, hpasses h.current]
  cases passes s.cursor with
  | ok a => exact .done h
  | error e => exact .failed

theorem declare (cls : Class) : CarriesNumbers number (declare cls) (declare cls) := by
  intro s s' h
  rw [Parser.declare, Parser.declare, h.classes]
  exact .done ⟨h.current, rfl, h.ahead⟩

theorem congruence (number : Nat → Nat) :
    Parser.Congruence number (CarriesNumbers number) where
  pure a := pure a
  bind hx hf := hx.bind hf
  starve _ := fun _ _ _ => .starved
  fail _ := fun _ _ _ => .failed
  look f := gets fun h => by rw [Cursor.token_renumber h.current]
  line hf := line hf
  latest? name := gets fun h => by rw [h.classes]
  advance := advance
  check hpasses := check hpasses
  declare cls := declare cls

theorem parser (fuel : Nat) :
    CarriesNumbers number (Program.parser fuel) (Program.parser fuel) :=
  bind (((congruence number).statements (Nat.le_refl fuel)).statements _ _) fun _ =>
    bind (gets fun h => h.classes) fun _ => pure _

end CarriesNumbers

namespace Program

theorem parser_ne_starved {c : Cursor} (h : Linked c.stream) :
    parser (parserFuel c.ahead.length) ⟨c, ∅⟩ ≠ .starved := by
  intro hstarved
  rw [parser] at hstarved
  cases hstatements :
    Parser.statements (parserFuel c.ahead.length) (· == Token.eof) false ⟨c, ∅⟩ with
  | starved => exact (runs_statements h).fed hstatements
  | done r =>
    rw [Run.bind_done hstatements] at hstarved
    cases hstarved
  | failed r =>
    rw [Run.bind_failed hstatements] at hstarved
    cases hstarved

/-- Every source is read as a program or found to be none. -/
theorem parse_ne_starved (source : Source) : parse source ≠ .starved := by
  intro hstarved
  rw [parse] at hstarved
  cases hcursor : Cursor.ofSource source with
  | error e =>
    rw [hcursor] at hstarved
    cases hstarved
  | ok c =>
    have hfed := parser_ne_starved (linked_ofSource hcursor)
    simp only [hcursor, ofCursor] at hstarved
    cases houtcome : parser (parserFuel c.ahead.length) ⟨c, ∅⟩ with
    | starved => exact hfed houtcome
    | done r | failed r =>
      rw [houtcome] at hstarved
      cases hstarved

/-- With more fuel than needed nothing else is read. -/
theorem parser_of_le {c : Cursor} (h : Linked c.stream) {fuel : Nat}
    (hle : parserFuel c.ahead.length ≤ fuel) :
    parser fuel ⟨c, ∅⟩ = parser (parserFuel c.ahead.length) ⟨c, ∅⟩ := by
  have hrefines : Run.Refines (parser (parserFuel c.ahead.length)) (parser fuel) :=
    .bind (Parser.refines_statements hle _ _) fun _ => .refl _
  rcases hrefines ⟨c, ∅⟩ with hstarved | hsame
  · exact absurd hstarved (parser_ne_starved h)
  · exact hsame.symm

theorem ofCursor_of_renumbered {c c' : Cursor} (hlinked : Linked c.stream)
    (hlinked' : Linked c'.stream) (h : ParserState.Renumbered number ⟨c, ∅⟩ ⟨c', ∅⟩) :
    ofCursor c' = (ofCursor c).mapCause (ParseError.renumber number) := by
  -- both runs with the greater of the two amounts of fuel
  generalize hfuel : max (parserFuel c.ahead.length) (parserFuel c'.ahead.length) = fuel
  have hends := CarriesNumbers.parser fuel _ _ h
  rw [parser_of_le hlinked (hfuel ▸ Nat.le_max_left ..),
    parser_of_le hlinked' (hfuel ▸ Nat.le_max_right ..)] at hends
  rw [ofCursor, ofCursor]
  generalize houtcome : parser (parserFuel c.ahead.length) ⟨c, ∅⟩ = outcome at hends
  generalize parser (parserFuel c'.ahead.length) ⟨c', ∅⟩ = outcome' at hends
  cases hends with
  | done => rfl
  | failed => rfl
  | starved => exact absurd houtcome (parser_ne_starved hlinked)

/-- Where the stream has other line numbers, parsing gives the same program or the same
error under the other number. -/
theorem parse_of_renumbers {source source' : Source}
    (h : Renumbers number source.readings source'.readings) :
    parse source' = (parse source).mapCause (ParseError.renumber number) := by
  have hlinked := linked_readings source
  have hlinked' := linked_readings source'
  rw [parse, parse, Cursor.ofSource, Cursor.ofSource]
  generalize source.readings = readings at h hlinked
  generalize source'.readings = readings' at h hlinked'
  cases h with
  | nil => cases hlinked
  | fault => rfl
  | @token lexeme rest rest' hrest =>
    have hcursor : Linked (Cursor.stream ⟨[], lexeme, rest⟩) := hlinked
    have hcursor' : Linked (Cursor.stream ⟨[], lexeme.renumber number, rest'⟩) := hlinked'
    exact ofCursor_of_renumbered hcursor hcursor' ⟨rfl, rfl, hrest⟩

end Program

end Mint
