import Mint.Proofs.Layout
import Mint.Proofs.Parser.Moves
import Mint.Program

/-!
# Parsers between lines

Between two statements a parser stands before a line: its stream is `flat` of the lines
still to come, at the depth of the blocks that are open (`ParserState.At`). The lexer's
depth and the blocks of the parser are kept in step by three moves. Passing a line leads
from the depth of that line to the same depth, an indentation adds one, and closing a
block takes one away, whether by a dedentation or at the end of the input.
-/

namespace Mint

theorem Reading.ofLines_closed (lines : List (List UInt8)) (depth count : Nat) :
    ∃ n, (Reading.ofLines depth count lines).getLast? = some (.token ⟨Token.eof, n⟩) := by
  induction lines generalizing depth count with
  | nil => exact ⟨count + 1, rfl⟩
  | cons bytes rest ih =>
    rw [Reading.ofLines]
    split
    · obtain ⟨n, hn⟩ := ih depth count
      exact ⟨n, by rw [List.getLast?_cons, hn]; rfl⟩
    · split
      · obtain ⟨n, hn⟩ := ih depth (count + 1)
        exact ⟨n, by rw [List.getLast?_cons, hn]; rfl⟩
      · next line _ =>
        simp only
        split
        · obtain ⟨n, hn⟩ := ih (if line.isBlank then depth else line.depth) (count + 1)
          exact ⟨n, by rw [List.getLast?_append, hn]; rfl⟩
        · exact ⟨count + 1, by simp [Reading.place]⟩

namespace ParserState

open CodeLine

variable {e : Option LexError} {depth : Nat} {line : CodeLine} {lines : List CodeLine}
  {s t u : ParserState} {ts : List Token}

/-- The parser stands before the lines, inside `depth` blocks. Behind the lines comes
the end of the input, or the error of a line that cannot be read. -/
structure At (e : Option LexError) (depth : Nat) (lines : List CodeLine)
    (s : ParserState) : Prop where
  stream : ∃ tail, Ends e tail ∧ s.cursor.stream = flat depth lines ++ tail
  closed : s.cursor.Closed

/-- The start of a source is before its lines. -/
theorem at_ofSource {source : Source} {cursor : Cursor}
    (h : Cursor.ofSource source = .ok cursor) (classes : ClassTable) :
    cursor.passed = [] ∧ cursor.whole = source.readings ∧
      At (leading 0 source.physicalLines).2 0 (leading 0 source.physicalLines).1
        ⟨cursor, classes⟩ := by
  have hstream : cursor.passed = [] ∧ cursor.stream = source.readings := by
    rw [Cursor.ofSource] at h
    obtain ⟨n, hn⟩ := Reading.ofLines_closed source.physicalLines 0 0
    cases hreadings : source.readings with
    | nil =>
      rw [← Source.readings, hreadings] at hn
      cases hn
    | cons reading rest =>
      rw [hreadings] at h
      cases reading with
      | token lexeme =>
        cases h
        exact ⟨rfl, rfl⟩
      | fault e => cases h
  obtain ⟨hpassed, hstream⟩ := hstream
  obtain ⟨tail, htail, hends⟩ := ofLines_eq_flat (Source.chopped_cut source.bytes) 0 0
  refine ⟨hpassed, by rw [Cursor.whole, hpassed, hstream]; rfl,
    ⟨tail, hends, hstream.trans htail⟩, ?_⟩
  rw [Cursor.Closed, hstream]
  exact Reading.ofLines_closed source.physicalLines 0 0

/-- Before no line at all stands the end of the input. -/
theorem At.token_of_nil (h : s.At e depth []) : s.cursor.token = Token.eof := by
  obtain ⟨tail, hends, hstream⟩ := h.stream
  cases e with
  | none =>
    obtain ⟨n, rfl⟩ := hends
    rw [Cursor.token, Reading.token.inj (List.cons.inj hstream).1]
  | some e =>
    obtain ⟨rest, rfl⟩ := hends
    cases (List.cons.inj hstream).1

theorem At.of_nil (h : s.At e depth []) (depth' : Nat) : s.At e depth' [] :=
  ⟨h.stream, h.closed⟩

/-! ## Marks -/

theorem layoutMarks_deeper {depth depth' : Nat} (h : depth < depth') :
    Reading.layoutMarks depth depth' =
      .layout .indent :: Reading.layoutMarks (depth + 1) depth' := by
  rw [Reading.layoutMarks, if_pos h,
    show depth' - depth = depth' - (depth + 1) + 1 by omega, List.replicate_succ,
    Reading.layoutMarks]
  split
  · rfl
  · rw [show depth' - (depth + 1) = 0 by omega, show depth + 1 - depth' = 0 by omega]
    rfl

theorem layoutMarks_shallower {depth depth' : Nat} (h : depth' ≤ depth) :
    Reading.layoutMarks (depth + 1) depth' =
      .layout .dedent :: Reading.layoutMarks depth depth' := by
  rw [Reading.layoutMarks, if_neg (by omega),
    show depth + 1 - depth' = depth - depth' + 1 by omega,
    List.replicate_succ, Reading.layoutMarks, if_neg (by omega)]

theorem layoutMarks_self (depth : Nat) : Reading.layoutMarks depth depth = [] := by
  rw [Reading.layoutMarks, if_neg (Nat.lt_irrefl _), Nat.sub_self]
  rfl

theorem flat_deeper (h : depth < line.depth) :
    flat depth (line :: lines) =
      .token ⟨.layout .indent, line.number⟩ :: flat (depth + 1) (line :: lines) := by
  rw [flat, layoutMarks_deeper h]
  rfl

theorem flat_shallower (h : line.depth ≤ depth) :
    flat (depth + 1) (line :: lines) =
      .token ⟨.layout .dedent, line.number⟩ :: flat depth (line :: lines) := by
  rw [flat, layoutMarks_shallower h]
  rfl

theorem flat_level (h : line.depth = depth) :
    flat depth (line :: lines) =
      Reading.place line.number (line.tokens ++ [Token.newline]) ++ flat depth lines := by
  rw [flat, h, layoutMarks_self, List.nil_append]

/-! ## Where the parser stands -/

theorem At.token_eq (h : s.At e depth lines) {token : Token} {number : Nat}
    {rest : List Reading} (hflat : flat depth lines = .token ⟨token, number⟩ :: rest) :
    s.cursor.token = token := by
  obtain ⟨tail, -, hstream⟩ := h.stream
  rw [hflat] at hstream
  rw [Cursor.token, Reading.token.inj (List.cons.inj hstream).1]

/-- Before a line of the depth stands the first token of that line. -/
theorem At.token_level (h : s.At e depth (line :: lines)) (hdepth : line.depth = depth) :
    ∃ rest, line.tokens = s.cursor.token :: rest := by
  cases htokens : line.tokens with
  | nil => exact absurd htokens line.nonempty
  | cons token rest =>
    refine ⟨rest, ?_⟩
    rw [h.token_eq (by rw [flat_level hdepth, htokens]; rfl)]

theorem At.line_level (h : s.At e depth (line :: lines)) (hdepth : line.depth = depth) :
    s.cursor.line = line.number := by
  obtain ⟨tail, -, hstream⟩ := h.stream
  rw [flat_level hdepth] at hstream
  cases htokens : line.tokens with
  | nil => exact absurd htokens line.nonempty
  | cons token rest =>
    rw [htokens] at hstream
    rw [Cursor.line, Reading.token.inj (List.cons.inj hstream).1]

theorem At.isLayout_level (h : s.At e depth (line :: lines))
    (hdepth : line.depth = depth) :
    s.cursor.token.isLayout = false := by
  obtain ⟨rest, htokens⟩ := h.token_level hdepth
  exact line.plain _ (by rw [htokens]; exact List.mem_cons_self)

/-- A token that is no mark belongs to a line at the depth of the blocks. -/
theorem At.exists_level (h : s.At e depth lines)
    (htoken : s.cursor.token.isLayout = false) :
    ∃ line rest, lines = line :: rest ∧ line.depth = depth := by
  cases lines with
  | nil =>
    rw [h.token_of_nil] at htoken
    cases htoken
  | cons line rest =>
    refine ⟨line, rest, rfl, ?_⟩
    rcases Nat.lt_trichotomy line.depth depth with hlt | heq | hgt
    · obtain ⟨depth, rfl⟩ : ∃ d, depth = d + 1 := ⟨depth - 1, by omega⟩
      rw [h.token_eq (flat_shallower (Nat.le_of_lt_succ hlt))] at htoken
      cases htoken
    · exact heq
    · rw [h.token_eq (flat_deeper hgt)] at htoken
      cases htoken

theorem At.exists_deeper (h : s.At e depth lines)
    (htoken : s.cursor.token = .layout .indent) :
    ∃ line rest, lines = line :: rest ∧ depth < line.depth := by
  cases lines with
  | nil =>
    rw [h.token_of_nil] at htoken
    cases htoken
  | cons line rest =>
    refine ⟨line, rest, rfl, ?_⟩
    rcases Nat.lt_trichotomy line.depth depth with hlt | heq | hgt
    · obtain ⟨depth, rfl⟩ : ∃ d, depth = d + 1 := ⟨depth - 1, by omega⟩
      rw [h.token_eq (flat_shallower (Nat.le_of_lt_succ hlt))] at htoken
      cases htoken
    · have hplain := h.isLayout_level heq
      rw [htoken] at hplain
      cases hplain
    · exact hgt

/-- A block ends before the end of the input and before a line that is less deep. -/
theorem At.endsBlock_iff (h : s.At e (depth + 1) lines) :
    Parser.endsBlock s.cursor.token = true ↔
    ∀ line ∈ lines.head?, line.depth ≤ depth := by
  cases lines with
  | nil =>
    rw [h.token_of_nil]
    simp [Parser.endsBlock]
  | cons line rest =>
    simp only [List.head?_cons, Option.mem_def, Option.some.injEq, forall_eq']
    rcases Nat.lt_trichotomy line.depth (depth + 1) with hlt | heq | hgt
    · rw [h.token_eq (flat_shallower (Nat.le_of_lt_succ hlt))]
      simp [Parser.endsBlock]
      omega
    · have hplain := h.isLayout_level heq
      constructor
      · intro hends
        simp only [Parser.endsBlock, Bool.or_eq_true, beq_iff_eq] at hends
        rcases hends with htoken | htoken <;> (rw [htoken] at hplain; cases hplain)
      · omega
    · rw [h.token_eq (flat_deeper hgt)]
      simp [Parser.endsBlock]
      omega

/-! ## Moves between lines -/

theorem At.of_steps (h : s.At e depth lines) (hstep : s.Steps t) {token : Token}
    {number depth' : Nat} {lines' : List CodeLine}
    (hflat : flat depth lines = .token ⟨token, number⟩ :: flat depth' lines') :
    t.At e depth' lines' := by
  obtain ⟨tail, hends, hstream⟩ := h.stream
  rw [hstep.stream_eq, hflat, List.cons_append] at hstream
  exact ⟨⟨tail, hends, (List.cons.inj hstream).2⟩, hstep.closed h.closed⟩

/-- An indentation adds a level. -/
theorem At.indent (h : s.At e depth lines) (htakes : s.Takes [.layout .indent] t) :
    t.At e (depth + 1) lines ∧
    ∃ line rest, lines = line :: rest ∧ depth < line.depth := by
  obtain ⟨htoken, t', hstep, hend⟩ := htakes.head
  obtain rfl := hend.eq_of_nil
  obtain ⟨line, rest, rfl, hdepth⟩ := h.exists_deeper htoken
  exact ⟨h.of_steps hstep (flat_deeper hdepth), line, rest, rfl, hdepth⟩

/-- Tokens up to a newline mark that stand where a line stands are those of the line. -/
theorem Takes.line_eq {us : List Token} {number : Nat} {rest : List Reading}
    (htakes : s.Takes (ts ++ [Token.newline]) u) (hts : Plain ts)
    (hstream : s.cursor.stream = Reading.place number (us ++ [Token.newline]) ++ rest)
    (hus : Plain us) : ts = us ∧ u.cursor.stream = rest := by
  induction ts generalizing s us with
  | nil =>
    obtain ⟨htoken, t, hstep, hend⟩ := htakes.head
    obtain rfl := hend.eq_of_nil
    rw [hstep.stream_eq] at hstream
    cases us with
    | nil => exact ⟨rfl, (List.cons.inj hstream).2⟩
    | cons token us =>
      rw [Cursor.token, Reading.token.inj (List.cons.inj hstream).1] at htoken
      have hplain := hus.head
      rw [show token = Token.newline from htoken] at hplain
      cases hplain
  | cons token ts ih =>
    obtain ⟨htoken, t, hstep, htail⟩ := htakes.head
    rw [hstep.stream_eq] at hstream
    cases us with
    | nil =>
      rw [Cursor.token, Reading.token.inj (List.cons.inj hstream).1] at htoken
      have hplain := hts.head
      rw [← show Token.newline = token from htoken] at hplain
      cases hplain
    | cons token' us =>
      rw [Cursor.token, Reading.token.inj (List.cons.inj hstream).1] at htoken
      obtain ⟨hrest, hu⟩ := ih htail hts.tail (List.cons.inj hstream).2 hus.tail
      exact ⟨by rw [hrest, ← show token' = token from htoken], hu⟩

/-- A run of tokens proper that ends in a line end is one line, which stands at the
depth of the blocks. -/
theorem At.takes_line (h : s.At e depth lines)
    (htakes : s.Takes (ts ++ [Token.newline]) u) (hne : ts ≠ []) (hts : Plain ts) :
    ∃ line rest, lines = line :: rest ∧ line.row = ⟨depth, ts⟩ ∧ u.At e depth rest := by
  obtain ⟨token, ts', rfl⟩ := List.exists_cons_of_ne_nil hne
  -- a token proper is next, so no level is lost or gained before the line
  have htoken : s.cursor.token.isLayout = false := by
    rw [htakes.head.1]
    exact hts.head
  obtain ⟨line, rest, rfl, hdepth⟩ := h.exists_level htoken
  obtain ⟨tail, hends, hstream⟩ := h.stream
  rw [flat_level hdepth, List.append_assoc] at hstream
  obtain ⟨htokens, hu⟩ := htakes.line_eq hts hstream line.plain
  exact ⟨line, rest, rfl, by rw [CodeLine.row, hdepth, htokens], ⟨tail, hends, hu⟩,
    htakes.closed h.closed⟩

/-- Closing a block takes a level away. -/
theorem At.closeBlock (h : s.At e (depth + 1) lines)
    (hends : Parser.endsBlock s.cursor.token = true)
    (hclose : Parser.closeBlock s = .done ((), u)) :
    u.At e depth lines ∧ u.classes = s.classes := by
  rw [Parser.closeBlock, Parser.atToken_bind] at hclose
  cases lines with
  | nil =>
    -- the end of the input closes the block and stays for the blocks around it
    rw [h.token_of_nil] at hclose
    cases hclose
    exact ⟨h.of_nil depth, rfl⟩
  | cons line rest =>
    have hdepth : line.depth ≤ depth := h.endsBlock_iff.mp hends line rfl
    have htoken := h.token_eq (flat_shallower hdepth)
    rw [htoken] at hclose
    have hstep := Parser.steps_of_advance h.closed (by rw [htoken]; simp) hclose
    exact ⟨h.of_steps hstep (flat_shallower hdepth), hstep.classes_eq⟩

/-! ## Moves that can be made

Where all lines can be read, a token always follows and no move fails. -/

theorem exists_token_of_flat (depth : Nat) (lines : List CodeLine) (number : Nat) :
    ∃ lexeme rest,
      flat depth lines ++ [.token ⟨Token.eof, number⟩] = .token lexeme :: rest := by
  cases lines with
  | nil => exact ⟨_, _, rfl⟩
  | cons line lines =>
    rw [flat, Reading.place, List.map_append, List.map_append]
    cases Reading.layoutMarks depth line.depth with
    | cons mark marks => exact ⟨_, _, rfl⟩
    | nil =>
      cases line.tokens with
      | cons token tokens => exact ⟨_, _, rfl⟩
      | nil => exact ⟨_, _, rfl⟩

theorem At.exists_steps (h : s.At none depth lines) {token : Token} {number depth' : Nat}
    {lines' : List CodeLine}
    (hflat : flat depth lines = .token ⟨token, number⟩ :: flat depth' lines') :
    ∃ t, s.Takes [token] t ∧ t.At none depth' lines' := by
  obtain ⟨tail, ⟨n, rfl⟩, hstream⟩ := h.stream
  obtain ⟨lexeme, rest, hnext⟩ := exists_token_of_flat depth' lines' n
  rw [hflat, List.cons_append, hnext] at hstream
  have hstep : s.Steps { s with cursor := s.cursor.after lexeme rest } :=
    ⟨lexeme, rest, (List.cons.inj hstream).2, rfl⟩
  exact ⟨_, .of_steps (h.token_eq hflat) hstep, h.of_steps hstep hflat⟩

theorem At.exists_indent (h : s.At none depth (line :: lines))
    (hdepth : depth < line.depth) :
    ∃ t, s.Takes [.layout .indent] t ∧ t.At none (depth + 1) (line :: lines) :=
  h.exists_steps (flat_deeper hdepth)

theorem At.exists_line (h : s.At none depth (line :: lines))
    (hdepth : line.depth = depth) :
    ∃ t, s.Takes (line.tokens ++ [Token.newline]) t ∧ t.At none depth lines := by
  obtain ⟨tail, ⟨n, rfl⟩, hstream⟩ := h.stream
  obtain ⟨lexeme, rest, hnext⟩ := exists_token_of_flat depth lines n
  rw [flat_level hdepth, List.append_assoc, hnext] at hstream
  have hplace : Reading.place line.number (line.tokens ++ [Token.newline]) =
      ((line.tokens ++ [Token.newline]).map
        fun token => (⟨token, line.number⟩ : Lexeme)).map .token := by
    rw [List.map_map]
    rfl
  rw [hplace] at hstream
  obtain ⟨t, htakes, ht⟩ := Takes.of_stream hstream
  have htokens : ((line.tokens ++ [Token.newline]).map
      fun token => (⟨token, line.number⟩ : Lexeme)).map Lexeme.token =
      line.tokens ++ [Token.newline] := by
    rw [List.map_map]
    exact List.map_id _
  rw [htokens] at htakes
  exact ⟨t, htakes, ⟨_, ⟨n, rfl⟩, ht.trans hnext.symm⟩, htakes.closed h.closed⟩

theorem At.exists_closeBlock (h : s.At none (depth + 1) lines)
    (hends : ∀ line ∈ lines.head?, line.depth ≤ depth) :
    ∃ u, Parser.closeBlock s = .done ((), u) ∧ u.At none depth lines ∧
      u.classes = s.classes := by
  cases lines with
  | nil =>
    refine ⟨s, ?_, h.of_nil depth, rfl⟩
    rw [Parser.closeBlock, Parser.atToken_bind, h.token_of_nil]
    rfl
  | cons line lines =>
    have hflat : flat (depth + 1) (line :: lines) = _ := flat_shallower (hends line rfl)
    obtain ⟨t, htakes, ht⟩ := h.exists_steps hflat
    refine ⟨t, ?_, ht, htakes.classes_eq⟩
    obtain ⟨t', hadvance, hend, -⟩ := Parser.advance_of_takes htakes
    obtain rfl := hend.eq_of_nil
    rw [Parser.closeBlock, Parser.atToken_bind, h.token_eq hflat]
    exact hadvance

end ParserState

end Mint
