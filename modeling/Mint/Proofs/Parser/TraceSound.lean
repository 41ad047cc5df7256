import Mint.Proofs.Parser.Log
import Mint.Proofs.Parser.StatementSound

/-!
# What the log tells

A production that keeps a log and succeeds has an account of the lines it has read
(`Logs`). The argument goes by the productions as in the absence of a log, and what they
add to it here is the bookkeeping: each production notes its clause before the first
token of a line, and notes a block around the lines that are one level deeper.
-/

namespace Mint.Traced

open Grammar Event

variable {α β : Type} {fuel : Nat} {s t u : ParserState} {log log' : List Event}
  {inMethod : Bool} {e : Option LexError} {depth : Nat} {lines : List CodeLine}

theorem lift_bind_eq_done_iff {p : Parser α} {f : α → Traced β}
    {r : β × ParserState × List Event} :
    (lift p >>= f) (s, log) = .done r ↔
    ∃ a t, p s = .done (a, t) ∧ f a (t, log) = .done r := by
  rw [Run.bind_eq_done_iff]
  cases hp : p s with
  | done q =>
    obtain ⟨a, t⟩ := q
    simp [lift, hp]
  | failed q => simp [lift, hp]
  | starved => simp [lift, hp]

theorem noteStart_bind (clause : Clause) (f : Unit → Traced α) :
    (noteStart clause >>= f) (s, log) = f () (s, log ++ [.starts clause s.place]) := rfl

theorem place_bind (f : Nat → Traced α) :
    (place >>= f) (s, log) = f s.place (s, log) := rfl

theorem peek_bind (f : Token → Traced α) :
    (lift Parser.peek >>= f) (s, log) = f s.cursor.token (s, log) := rfl

theorem atToken_bind (token : Token) (f : Bool → Traced α) :
    (lift (Parser.atToken token) >>= f) (s, log) =
      f (s.cursor.token == token) (s, log) := rfl

theorem openBlock_logs (hs : s.cursor.Closed)
    (h : openBlock (s, log) = .done ((), u, log')) :
    ∃ t, s.Takes [Token.newline] t ∧ t.Takes [.layout .indent] u ∧
      log' = log ++ [.opens t.place] := by
  simp only [openBlock, place_bind, lift_bind_eq_done_iff] at h
  obtain ⟨_, s₁, hnewline, token, s₂, hcheck, _, s₃, hadvance, heq⟩ := h
  cases heq
  have h₁ := Parser.takes_of_take hs (by simp) hnewline
  exact ⟨s₁, h₁, Parser.indent_sound (h₁.closed hs) hcheck hadvance, rfl⟩

theorem closeBlock_logs (h : closeBlock (s, log) = .done ((), u, log')) :
    Parser.closeBlock s = .done ((), u) ∧ log' = log ++ [.closes s.place] := by
  simp only [closeBlock, place_bind, lift_bind_eq_done_iff] at h
  obtain ⟨_, t, hclose, heq⟩ := h
  cases heq
  exact ⟨hclose, rfl⟩

/-- Statements go on until a token at which they stop. -/
theorem stop_of_statements {stop : Token → Bool} {nodes : List Node}
    (h : statements fuel stop inMethod (s, log) = .done (nodes, u, log')) :
    stop u.cursor.token = true := by
  induction fuel generalizing nodes s log with
  | zero => cases h
  | succ fuel ih =>
    rw [statements, peek_bind] at h
    split at h
    · next hstop =>
      cases h
      exact hstop
    · simp only [Run.bind_eq_done_iff, Run.pure_eq_done_iff] at h
      obtain ⟨first, ⟨s₁, log₁⟩, -, rest, r, hrest, heq⟩ := h
      cases heq
      exact ih hrest

/-- Methods go on until the block ends. -/
theorem endsBlock_of_methods {found : List Method}
    (h : methods fuel (s, log) = .done (found, u, log')) :
    Parser.endsBlock u.cursor.token = true := by
  induction fuel generalizing found s log with
  | zero => cases h
  | succ fuel ih =>
    rw [methods, Run.bind_eq_done_iff] at h
    obtain ⟨first, ⟨s₁, log₁⟩, -, h⟩ := h
    rw [peek_bind] at h
    split at h
    · next hends =>
      cases h
      exact hends
    · simp only [Run.bind_eq_done_iff, Run.pure_eq_done_iff] at h
      obtain ⟨more, r, hmore, heq⟩ := h
      cases heq
      exact ih hmore

/-- Some of the lines were read on the way from one state to the other, and what the log
has gained tells how. -/
def Logs (e : Option LexError) (depth : Nat) (lines : List CodeLine) (s u : ParserState)
    (log log' : List Event) : Prop :=
  ∃ events used rest, log' = log ++ events ∧ lines = used ++ rest ∧ u.At e depth rest ∧
    Account depth s u used events ∧ ElsesAttached (startsFrom depth events)

/-- A line end was passed, and then a block of deeper lines was read. -/
def LogsBlock (s u : ParserState) (log log' : List Event) : Prop :=
  ∃ t, s.Takes [Token.newline] t ∧ ∀ {e depth lines}, t.At e depth lines →
    ∃ events used rest, log' = log ++ events ∧ lines = used ++ rest ∧ u.At e depth rest ∧
      Account depth t u used events ∧
      (∀ start ∈ startsFrom depth events, depth < start.depth) ∧
      ElsesAttached (startsFrom depth events)

theorem logsBlock {s₁ s₂ : ParserState} {log₁ log₂ : List Event} (hs : s.cursor.Closed)
    (hcolon : ∃ s₀ : ParserState, s₀.Takes [.char ':'] s)
    (hopen : openBlock (s, log) = .done ((), s₁, log₁))
    (hinner : ∀ {e depth lines}, s₁.At e depth lines → Logs e depth lines s₁ s₂ log₁ log₂)
    (hends : Parser.endsBlock s₂.cursor.token = true)
    (hclose : closeBlock (s₂, log₂) = .done ((), u, log')) : LogsBlock s u log log' := by
  obtain ⟨t, hnewline, hindent, rfl⟩ := openBlock_logs hs hopen
  obtain ⟨hdedent, rfl⟩ := closeBlock_logs hclose
  refine ⟨t, hnewline, ?_⟩
  intro e depth lines ht
  obtain ⟨hs₁, -⟩ := ht.indent hindent
  obtain ⟨events, used, rest, rfl, rfl, hs₂, haccount, helses⟩ := hinner hs₁
  obtain ⟨hu, -⟩ := hs₂.closeBlock hends hdedent
  obtain ⟨s₀, hcolon⟩ := hcolon
  have hblock :=
    haccount.block (.of_takes hcolon hnewline hindent) hindent hs₂.closed hdedent
  refine ⟨_, used, rest, by simp, rfl, hu, hblock, ?_, ?_⟩
  · rw [startsFrom_block]
    exact haccount.deep
  · rw [startsFrom_block]
    exact helses

/-- What the productions with the given fuel note is an account of the lines before
which they stand. -/
structure LogsAll (fuel : Nat) : Prop where
  statement : ∀ {e depth inMethod lines node s u log log'}, s.At e depth lines →
    statement fuel inMethod (s, log) = .done (node, u, log') →
    Logs e depth lines s u log log'
  statements : ∀ {e depth stop inMethod lines nodes s u log log'}, s.At e depth lines →
    statements fuel stop inMethod (s, log) = .done (nodes, u, log') →
    Logs e depth lines s u log log'
  suite : ∀ {inMethod node s u log log'},
    s.cursor.Closed → (∃ s₀ : ParserState, s₀.Takes [.char ':'] s) →
    suite fuel inMethod (s, log) = .done (node, u, log') → LogsBlock s u log log'
  conditional : ∀ {e depth inMethod lines node s u log log'}, s.At e depth lines →
    s.cursor.token = .keyword .ifKw →
    conditional fuel inMethod (s, log) = .done (node, u, log') →
    Logs e depth lines s u log log'
  declaration : ∀ {e depth lines node s u log log'},
    s.At e depth lines → s.cursor.token = .keyword .classKw →
    declaration fuel (s, log) = .done (node, u, log') → Logs e depth lines s u log log'
  methods : ∀ {e depth lines found s u log log'}, s.At e depth lines →
    methods fuel (s, log) = .done (found, u, log') → Logs e depth lines s u log log'
  method : ∀ {e depth lines found s u log log'}, s.At e depth lines →
    method fuel (s, log) = .done (found, u, log') → Logs e depth lines s u log log'

theorem Logs.nil (hs : s.At e depth lines) : Logs e depth lines s s log log :=
  ⟨[], [], lines, (List.append_nil _).symm, rfl, hs, .nil, elsesAttached_nil⟩

theorem Logs.trans {log'' : List Event} (h : Logs e depth lines s t log log')
    (h' : ∀ {rest}, t.At e depth rest → Logs e depth rest t u log' log'') :
    Logs e depth lines s u log log'' := by
  obtain ⟨events, used, rest, rfl, rfl, ht, haccount, helses⟩ := h
  obtain ⟨events', used', rest', rfl, rfl, hu, haccount', helses'⟩ := h' ht
  refine ⟨events ++ events', used ++ used', rest', ?_, ?_, hu,
    haccount.trans haccount', ?_⟩
  · exact List.append_assoc ..
  · exact (List.append_assoc ..).symm
  · rw [startsFrom_append, haccount.balanced]
    exact helses.append helses'

/-- A line, which is no `else`. -/
theorem Logs.of_line {clause : Clause} {ts : List Token}
    (hclause : ∀ place, clause ≠ .alternative place) (hs : s.At e depth lines)
    (htakes : s.Takes (ts ++ [Token.newline]) u) (hts : Plain ts)
    (hword : ∃ first rest, ts = first :: rest ∧ clause.beginsWith first = true) :
    Logs e depth lines s u log (log ++ [.starts clause s.place]) := by
  obtain ⟨line, rest, rfl, hu, haccount⟩ := Account.exists_line clause hs htakes hts hword
  exact ⟨_, [line], rest, rfl, rfl, hu, haccount, elsesAttached_singleton hclause⟩

/-- A header, which is no `else`, with the block under it. -/
theorem Logs.of_header {clause : Clause} {ts : List Token}
    (hclause : ∀ place, clause ≠ .alternative place) (hs : s.At e depth lines)
    (htakes : s.Takes ts t) (hts : Plain ts)
    (hword : ∃ first rest, ts = first :: rest ∧ clause.beginsWith first = true)
    (hblock : LogsBlock t u (log ++ [.starts clause s.place]) log') :
    Logs e depth lines s u log log' := by
  obtain ⟨t', hnewline, hblock⟩ := hblock
  refine (Logs.of_line hclause hs (htakes.trans hnewline) hts hword).trans ?_
  intro rest ht'
  obtain ⟨events, used, rest', hlog, hlines, hu, haccount, -, helses⟩ := hblock ht'
  exact ⟨events, used, rest', hlog, hlines, hu, haccount, helses⟩

/-- A statement on one line begins with none of the words that other clauses begin
with. -/
theorem exists_word {classes : ClassTable} {ts : List Token} {node : Node}
    (h : Simple inMethod classes ts node) :
    ∃ first rest, ts = first :: rest ∧ Clause.statement.beginsWith first = true := by
  obtain ⟨token, rest, rfl, htoken⟩ := h.starts
  refine ⟨token, rest, rfl, ?_⟩
  rcases htoken with rfl | rfl | htoken
  · rfl
  · rfl
  · cases token with
    | keyword word =>
      cases word with
      | ifKw | elseKw | defKw => cases htoken
      | _ => rfl
    | _ => rfl

theorem statement_logs (ih : LogsAll fuel) {node : Node} (hs : s.At e depth lines)
    (h : statement (fuel + 1) inMethod (s, log) = .done (node, u, log')) :
    Logs e depth lines s u log log' := by
  have other : (do
      noteStart .statement
      let node ← lift (Parser.simple fuel inMethod)
      lift (Parser.take Token.newline)
      return node : Traced Node) (s, log) = .done (node, u, log') →
          Logs e depth lines s u log log' := by
    intro h
    simp only [noteStart_bind, lift_bind_eq_done_iff, Run.pure_eq_done_iff] at h
    obtain ⟨node', s₁, hsimple, _, s₂, hnewline, heq⟩ := h
    cases heq
    obtain ⟨ts, hts, hline⟩ := Parser.simple_sound hs.closed hsimple
    have htakes :=
      hts.trans (Parser.takes_of_take (hts.closed hs.closed) (by simp) hnewline)
    exact .of_line (by simp) hs htakes hline.plain (exists_word hline)
  rw [statement, peek_bind] at h
  cases htoken : s.cursor.token with
  | keyword word =>
    rw [htoken] at h
    cases word with
    | classKw => exact ih.declaration hs htoken h
    | ifKw => exact ih.conditional hs htoken h
    | _ => exact other h
  | _ =>
    rw [htoken] at h
    exact other h

theorem statements_logs (ih : LogsAll fuel) {stop : Token → Bool} {nodes : List Node}
    (hs : s.At e depth lines)
    (h : statements (fuel + 1) stop inMethod (s, log) = .done (nodes, u, log')) :
    Logs e depth lines s u log log' := by
  rw [statements, peek_bind] at h
  split at h
  · cases h
    exact .nil hs
  · simp only [Run.bind_eq_done_iff, Run.pure_eq_done_iff] at h
    obtain ⟨first, ⟨s₁, log₁⟩, hfirst, rest, r, hrest, heq⟩ := h
    cases heq
    exact (ih.statement hs hfirst).trans fun hs₁ => ih.statements hs₁ hrest

theorem suite_logs (ih : LogsAll fuel) {node : Node} (hs : s.cursor.Closed)
    (hcolon : ∃ s₀ : ParserState, s₀.Takes [.char ':'] s)
    (h : suite (fuel + 1) inMethod (s, log) = .done (node, u, log')) :
    LogsBlock s u log log' := by
  simp only [suite, Run.bind_eq_done_iff, Run.pure_eq_done_iff] at h
  obtain ⟨_, ⟨s₁, log₁⟩, hopen, nodes, ⟨s₂, log₂⟩, hnodes, _, r, hclose, heq⟩ := h
  cases heq
  exact logsBlock hs hcolon hopen (fun hs₁ => ih.statements hs₁ hnodes)
    (stop_of_statements hnodes) hclose

theorem methods_logs (ih : LogsAll fuel) {found : List Method} (hs : s.At e depth lines)
    (h : methods (fuel + 1) (s, log) = .done (found, u, log')) :
    Logs e depth lines s u log log' := by
  rw [methods, Run.bind_eq_done_iff] at h
  obtain ⟨first, ⟨s₁, log₁⟩, hfirst, h⟩ := h
  have hlogs := ih.method hs hfirst
  rw [peek_bind] at h
  split at h
  · cases h
    exact hlogs
  · simp only [Run.bind_eq_done_iff, Run.pure_eq_done_iff] at h
    obtain ⟨more, r, hmore, heq⟩ := h
    cases heq
    exact hlogs.trans fun hs₁ => ih.methods hs₁ hmore

theorem method_logs (ih : LogsAll fuel) {found : Method} (hs : s.At e depth lines)
    (h : method (fuel + 1) (s, log) = .done (found, u, log')) :
    Logs e depth lines s u log log' := by
  simp only [method, noteStart_bind, lift_bind_eq_done_iff] at h
  obtain ⟨⟨name, params⟩, s₁, hheader, h⟩ := h
  simp only [Run.bind_eq_done_iff, Run.pure_eq_done_iff] at h
  obtain ⟨body, r, hbody, heq⟩ := h
  cases heq
  have htakes := Parser.methodHeader_sound hs.closed hheader
  have hcolon := htakes.exists_last
    (show _ = some (.char ':') by simp [methodHeader, List.getLast?_cons])
  have hblock := ih.suite (htakes.closed hs.closed) hcolon hbody
  exact .of_header (by simp) hs htakes (Parser.plain_methodHeader name params)
    ⟨_, _, rfl, rfl⟩ hblock

theorem declaration_logs (ih : LogsAll fuel) {node : Node} (hs : s.At e depth lines)
    (htoken : s.cursor.token = .keyword .classKw)
    (h : declaration (fuel + 1) (s, log) = .done (node, u, log')) :
    Logs e depth lines s u log log' := by
  simp only [declaration, noteStart_bind, lift_bind_eq_done_iff] at h
  obtain ⟨_, s₁, hadvance, name, s₂, hid, found, s₃, hparent, _, s₄, hcolon, h⟩ := h
  simp only [Run.bind_eq_done_iff, Run.pure_eq_done_iff] at h
  obtain ⟨_, ⟨s₅, log₅⟩, hopen, methods, ⟨s₆, log₆⟩, hmethods, _, ⟨s₇, log₇⟩, hclose,
    cls, r, hdeclare, heq⟩ := h
  cases heq
  obtain ⟨ts, htakes, -, hplain⟩ :=
    Parser.classHeader_sound hs.closed htoken hadvance hid hparent hcolon
  have hcolon := htakes.exists_last
    (show _ = some (.char ':') by simp [classHeader, List.getLast?_cons])
  have hblock :=
    logsBlock (htakes.closed hs.closed) hcolon hopen (fun hs₅ => ih.methods hs₅ hmethods)
      (endsBlock_of_methods hmethods) hclose
  have hlogs := Logs.of_header (by simp) hs htakes hplain ⟨_, _, rfl, rfl⟩ hblock
  cases hdeclare
  -- the class is put into the table, and the cursor stays where it is
  obtain ⟨events, used, rest, hlog, hlines, hu, haccount, helses⟩ := hlogs
  exact ⟨events, used, rest, hlog, hlines, ⟨hu.stream, hu.closed⟩,
    { haccount with }, helses⟩

theorem conditional_logs (ih : LogsAll fuel) {node : Node} (hs : s.At e depth lines)
    (htoken : s.cursor.token = .keyword .ifKw)
    (h : conditional (fuel + 1) inMethod (s, log) = .done (node, u, log')) :
    Logs e depth lines s u log log' := by
  simp only [conditional, place_bind, noteStart_bind, lift_bind_eq_done_iff] at h
  obtain ⟨_, s₁, hadvance, condition, s₂, hcondition, _, s₃, hcolon, h⟩ := h
  obtain ⟨yes, ⟨s₄, log₄⟩, hyes, h⟩ := Run.bind_eq_done_iff.mp h
  obtain ⟨ts, htakes, -, hplain⟩ :=
    Parser.conditionHeader_sound hs.closed htoken hadvance hcondition hcolon
  have hcolon := htakes.exists_last
    (show _ = some (.char ':') by simp [conditionHeader, List.getLast?_cons])
  have hblock := ih.suite (htakes.closed hs.closed) hcolon hyes
  rw [atToken_bind] at h
  split at h
  · next helse =>
    simp only [noteStart_bind, lift_bind_eq_done_iff] at h
    obtain ⟨_, s₅, hadvance', _, s₆, hcolon', h⟩ := h
    simp only [Run.bind_eq_done_iff, Run.pure_eq_done_iff] at h
    obtain ⟨no, r, hno, heq⟩ := h
    cases heq
    -- four pieces one after the other: the header, its block, the `else` and the block
    -- of that
    obtain ⟨t, hnewline, hblock⟩ := hblock
    obtain ⟨line, rest, rfl, ht, hline⟩ :=
      Account.exists_line .conditional hs (htakes.trans hnewline) hplain ⟨_, _, rfl, rfl⟩
    obtain ⟨events, used, rest', rfl, rfl, hs₄, hyes, hdeep, helses⟩ := hblock ht
    obtain ⟨htakes', hplain'⟩ :=
      Parser.elseHeader_sound hs₄.closed helse hadvance' hcolon'
    have hcolon' := htakes'.exists_last (show _ = some (.char ':') by simp [elseHeader])
    obtain ⟨t', hnewline', hblock'⟩ := ih.suite (htakes'.closed hs₄.closed) hcolon' hno
    obtain ⟨line', rest'', rfl, ht', hline'⟩ :=
      Account.exists_line (.alternative s.place) hs₄ (htakes'.trans hnewline') hplain'
        ⟨_, _, rfl, rfl⟩
    obtain ⟨events', used', rest₃, rfl, rfl, hu, hno, -, helses'⟩ := hblock' ht'
    have hall := (hline.trans hyes).trans (hline'.trans hno)
    refine ⟨_, _, rest₃, by simp, by simp, hu, hall, ?_⟩
    rw [startsFrom_append, startsFrom_append, startsFrom_append,
      (hline.trans hyes).balanced, hline.balanced, hline'.balanced, ← List.append_assoc]
    -- everything between the header and the `else` is deeper than both
    exact (helses.alternative hdeep).append helses'
  · cases h
    exact .of_header (by simp) hs htakes hplain ⟨_, _, rfl, rfl⟩ hblock

theorem logsAll (fuel : Nat) : LogsAll fuel := by
  induction fuel with
  | zero => constructor <;> (intros; contradiction)
  | succ fuel ih =>
    exact {
      statement := statement_logs ih
      statements := statements_logs ih
      suite := suite_logs ih
      conditional := conditional_logs ih
      declaration := declaration_logs ih
      methods := methods_logs ih
      method := method_logs ih }

end Mint.Traced
