import Mint.Proofs.Parser.Steady
import Mint.Proofs.Parser.TraceSound

/-!
# Dedentations and open blocks

A dedentation is never met outside of all blocks, also not on the way to an error
(`Program.meetsInBlocks`). The stream alone is the reason for one half of this: read
from the beginning, it never dedents below the margin (`Source.nested_readings`). The
other half is that the parser passes an indentation only where it opens a block, and a
dedentation only where it closes one, so that its blocks are as many as the levels of
the stream behind it.
-/

namespace Mint

/-- The level behind the token, if `level` is that before it. -/
def Token.levelAfter (level : Nat) : Token → Nat
  | .layout .indent => level + 1
  | .layout .dedent => level - 1
  | _ => level

theorem Token.levelAfter_of_isLevel {token : Token} (h : token.isLevel = true)
    (level : Nat) :
    token.levelAfter level = level := by
  cases token with
  | layout mark =>
    cases mark with
    | indent | dedent => cases h
    | _ => rfl
  | _ => rfl

namespace Reading

/-- Read from the level on, every dedentation has a level to take back. -/
def Nested : Nat → List Reading → Prop
  | _, [] => True
  | level, .fault _ :: rest => Nested level rest
  | level, .token lexeme :: rest =>
    (lexeme.token = .layout .dedent → 0 < level) ∧
      Nested (lexeme.token.levelAfter level) rest

variable {level level' number : Nat} {ts : List Token} {rest : List Reading}

theorem nested_eof : Nested level (place number [Token.eof]) := ⟨by simp, trivial⟩

theorem Nested.place_append (h : Nested level rest)
    (hts : ∀ token ∈ ts, token.isLevel = true) :
    Nested level (place number ts ++ rest) := by
  induction ts with
  | nil => exact h
  | cons token ts ih =>
    obtain ⟨htoken, hts⟩ := List.forall_mem_cons.mp hts
    refine ⟨?_, ?_⟩
    · rintro rfl
      cases htoken
    · rw [Token.levelAfter_of_isLevel htoken]
      exact ih hts

/-- The marks that lead to a level can be put before what is read from that level on. -/
theorem Nested.layoutMarks_append (h : Nested level' rest) :
    Nested level (place number (layoutMarks level level') ++ rest) := by
  by_cases hlt : level < level'
  · obtain ⟨gain, rfl⟩ := Nat.exists_eq_add_of_le (Nat.le_of_lt hlt)
    rw [layoutMarks, if_pos hlt, Nat.add_sub_cancel_left]
    clear hlt
    induction gain generalizing level with
    | zero => exact h
    | succ gain ih =>
      refine ⟨by simp, show Nested (level + 1) _ from ih ?_⟩
      rwa [Nat.add_right_comm]
  · obtain ⟨loss, rfl⟩ := Nat.exists_eq_add_of_le (Nat.not_lt.mp hlt)
    rw [layoutMarks, if_neg hlt, Nat.add_sub_cancel_left]
    clear hlt
    induction loss with
    | zero => exact h
    | succ loss ih => exact ⟨fun _ => Nat.succ_pos _, ih⟩

/-- The tokens of a line, whatever its last token, lead to the depth of the line. -/
theorem Nested.lineTokens_append {line : Line} {terminated terminated' : Bool}
    (htokens : line.tokens = line.plain ++ Line.endMark terminated')
    (h : Nested line.depth rest) :
    Nested level (place number (lineTokens level line terminated) ++ rest) := by
  rw [lineTokens, List.append_assoc, CodeLine.place_append, List.append_assoc]
  refine Nested.layoutMarks_append (h.place_append ?_)
  intro token hmem
  rw [htokens] at hmem
  simp only [List.mem_append] at hmem
  rcases hmem with (hmem | hmem) | hmem
  · exact Token.isLevel_of_isLayout (by simpa using (List.mem_filter.mp hmem).2)
  · cases terminated' <;> simp [Line.endMark] at hmem
    rw [hmem]
    rfl
  · cases terminated <;> simp at hmem
    rw [hmem]
    rfl

theorem nested_ofLines {whole lines : List (List UInt8)} (hwhole : Source.Chopped whole)
    (hsub : ∀ bytes ∈ lines, bytes ∈ whole) (count : Nat) :
    Nested level (ofLines level count lines) := by
  induction lines generalizing level count with
  | nil => exact nested_eof
  | cons bytes rest ih =>
    obtain ⟨hbytes, hrest⟩ := List.forall_mem_cons.mp hsub
    rw [ofLines]
    cases htext : Source.decode? bytes with
    | none => exact ih hrest count
    | some text =>
      simp only
      cases hline : Line.ofText text with
      | error cause => exact ih hrest (count + 1)
      | ok line =>
        obtain ⟨terminated', htokens⟩ := hwhole.tokens_eq hbytes htext hline
        simp only
        -- what the line adds can be put before anything that is read from the level it
        -- leaves
        have hadds : ∀ {tail}, Nested (if line.isBlank then level else line.depth) tail →
            Nested level (place (count + 1)
              (if line.isBlank then []
                else lineTokens level line (Source.isTerminated bytes)) ++ tail) := by
          intro tail htail
          cases hblank : line.isBlank with
          | true =>
            rw [hblank] at htail
            exact htail
          | false =>
            rw [hblank] at htail
            exact Nested.lineTokens_append htokens htail
        split
        · exact hadds (ih hrest (count + 1))
        · rw [CodeLine.place_append]
          exact hadds nested_eof

end Reading

theorem Source.nested_readings (source : Source) : Reading.Nested 0 source.readings :=
  Reading.nested_ofLines (chopped_cut source.bytes) (fun _ => id) 0

/-! ## Levels and blocks -/

/-- The dedentation at the place was met inside a block, which was closed there. -/
def ClosesBlock (log : List Event) (place : Nat) : Prop :=
  ∃ before after, log = before ++ .closes place :: after ∧ 0 < Event.blocks 0 before

theorem ClosesBlock.append {log : List Event} {place : Nat} (h : ClosesBlock log place)
    (events : List Event) :
    ClosesBlock (log ++ events) place := by
  obtain ⟨before, after, rfl, hblocks⟩ := h
  exact ⟨before, after ++ events, by simp, hblocks⟩

/-- Every dedentation that the run met, it met inside a block. The last token that it
met may be one. -/
structure MeetsInBlocks (stream : List Reading) (trace : Trace) : Prop where
  passed : ∀ place < trace.place, Reading.tokenAt stream place = some (.layout .dedent) →
    ClosesBlock trace.log place
  last : Reading.tokenAt stream trace.place = some (.layout .dedent) →
    0 < Event.blocks 0 trace.log

/-- A run that goes on has as many blocks open as there are levels. At the end of the
input blocks are closed without a dedentation, and levels no longer count. -/
structure InStep (stream : List Reading) (r : ParserState × List Event) : Prop where
  whole_eq : r.1.cursor.whole = stream
  closed : r.1.cursor.Closed
  nested : r.1.cursor.token ≠ Token.eof →
    Reading.Nested (Event.blocks 0 r.2) r.1.cursor.stream
  passed : ∀ place < r.1.place,
    Reading.tokenAt stream place = some (.layout .dedent) → ClosesBlock r.2 place

theorem ParserState.tokenAt_place (s : ParserState) :
    Reading.tokenAt s.cursor.whole s.place = some s.cursor.token := by
  have hdrop : (s.cursor.whole.drop s.place)[0]? = s.cursor.whole[s.place]? :=
    List.getElem?_drop
  rw [Reading.tokenAt, ← hdrop, ParserState.place, Cursor.drop_whole]
  rfl

namespace InStep

open Event

variable {stream : List Reading} {s t : ParserState} {log : List Event}

/-- At a dedentation a block is open. -/
theorem blocks_pos (h : InStep stream (s, log))
    (htoken : s.cursor.token = .layout .dedent) : 0 < blocks 0 log := by
  have hnested := h.nested (by rw [htoken]; simp)
  exact hnested.1 htoken

/-- A run that fails leaves its place and its log behind. -/
theorem meetsInBlocks (h : InStep stream (s, log))
    (hpassed : t.cursor.passed = s.cursor.passed) :
    MeetsInBlocks stream (Trace.of (t, log)) := by
  have hplace : t.place = s.place := congrArg List.length hpassed
  refine ⟨?_, ?_⟩
  · intro place hlt
    exact h.passed place (Nat.lt_of_lt_of_eq hlt hplace)
  · intro hlast
    have htoken := s.tokenAt_place
    rw [h.whole_eq, ← hplace] at htoken
    exact h.blocks_pos (Option.some.inj (htoken.symm.trans hlast))

/-- A step with the events that are noted for it. -/
theorem step (h : InStep stream (s, log)) (hstep : s.Steps t)
    (hne : s.cursor.token ≠ Token.eof) (events : List Event)
    (hblocks : blocks (blocks 0 log) events = s.cursor.token.levelAfter (blocks 0 log))
    (hcloses : s.cursor.token = .layout .dedent → events = [.closes s.place]) :
    InStep stream (t, log ++ events) where
  whole_eq := by
    rw [(ParserState.Takes.of_steps rfl hstep).whole_eq]
    exact h.whole_eq
  closed := hstep.closed h.closed
  nested := by
    intro _
    have hnested := h.nested hne
    rw [hstep.stream_eq] at hnested
    rw [blocks_append, hblocks]
    exact hnested.2
  passed := by
    intro place hlt hdedent
    rw [(ParserState.Takes.of_steps rfl hstep).place_eq] at hlt
    rcases Nat.lt_succ_iff_lt_or_eq.mp hlt with hlt | rfl
    · exact (h.passed place hlt hdedent).append events
    · -- the dedentation is the one that the step passes
      rw [← h.whole_eq, ParserState.tokenAt_place] at hdedent
      have htoken := Option.some.inj hdedent
      rw [hcloses htoken]
      exact ⟨log, [], rfl, h.blocks_pos htoken⟩

theorem steady (stream : List Reading) (log : List Event) :
    Steady (fun s => InStep stream (s, log)) fun s =>
      MeetsInBlocks stream (Trace.of (s, log)) where
  step := by
    intro s t h hlevel hstep
    have hne : ∀ mark : Layout, mark ≠ .newline → s.cursor.token ≠ .layout mark := by
      intro mark hmark htoken
      rw [htoken] at hlevel
      exact hmark (beq_iff_eq.mp hlevel)
    have hnext :=
      h.step hstep (hne .eof (by simp)) [] (Token.levelAfter_of_isLevel hlevel _).symm
        fun hdedent => absurd hdedent (hne .dedent (by simp))
    rwa [List.append_nil] at hnext
  failed := fun h hpassed => h.meetsInBlocks hpassed

end InStep

/-! ## The productions -/

namespace Traced

open Event

variable {α : Type} {stream : List Reading} {fuel : Nat} {s : ParserState}
  {log : List Event}

/-- The parser stays in step with the stream, and all that it meets on the way to an
error it meets inside blocks. -/
abbrev StaysInStep (stream : List Reading) (x : Traced α)
    (r : ParserState × List Event) : Prop :=
  Run.Keeps (InStep stream) (fun r => MeetsInBlocks stream (Trace.of r)) x r

/-- What keeps to a line keeps the step. -/
theorem lift_staysInStep {p : Parser α} {r : ParserState × List Event}
    (hp : ∀ {I F : ParserState → Prop}, Steady I F → Run.Keeps I F p r.1) :
    StaysInStep stream (lift p) r where
  done := by
    intro a t h heq
    rw [lift] at heq
    cases hpr : p r.1 with
    | done q =>
      rw [hpr] at heq
      cases heq
      exact (hp (InStep.steady stream r.2)).done h hpr
    | _ =>
      rw [hpr] at heq
      cases heq
  failed := by
    intro e t h heq
    rw [lift] at heq
    cases hpr : p r.1 with
    | failed q =>
      rw [hpr] at heq
      cases heq
      exact (hp (InStep.steady stream r.2)).failed h hpr
    | _ =>
      rw [hpr] at heq
      cases heq

theorem look_staysInStep {β : Type} {f : ParserState → α} {k : α → Traced β}
    {r : ParserState × List Event} (h : StaysInStep stream (k (f r.1)) r) :
    StaysInStep stream (lift (Run.gets f) >>= k) r :=
  ⟨h.done, h.failed⟩

theorem noteStart_staysInStep (clause : Clause) (r : ParserState × List Event) :
    StaysInStep stream (noteStart clause) r where
  done := by
    intro _ t h heq
    cases heq
    refine ⟨h.whole_eq, h.closed, ?_,
      fun place hlt hdedent => (h.passed place hlt hdedent).append _⟩
    intro hne
    rw [blocks_append]
    exact h.nested hne
  failed := by
    intro _ t _ heq
    cases heq

/-- A mark for depth is passed, and then it is noted what became of the blocks. -/
theorem mark_staysInStep {event : Event} (hne : s.cursor.token ≠ Token.eof)
    (hblocks : event.after (blocks 0 log) = s.cursor.token.levelAfter (blocks 0 log))
    (hcloses : s.cursor.token = .layout .dedent → event = .closes s.place) :
    StaysInStep stream (lift Parser.advance >>= fun _ => note event) (s, log) where
  done := by
    intro _ r h heq
    obtain ⟨_, t, hadvance, hnote⟩ := lift_bind_eq_done_iff.mp heq
    cases hnote
    have hstep := Parser.steps_of_advance h.closed hne hadvance
    exact h.step hstep hne [event] hblocks fun hdedent => by rw [hcloses hdedent]
  failed := by
    intro e r h heq
    rw [Run.bind_apply, lift] at heq
    cases hadvance : Parser.advance s with
    | failed q =>
      simp only [hadvance] at heq
      cases heq
      exact h.meetsInBlocks (Parser.passed_of_advance hadvance)
    | _ =>
      simp only [hadvance] at heq
      cases heq

theorem openBlock_staysInStep (r : ParserState × List Event) :
    StaysInStep stream openBlock r := by
  refine .bind (lift_staysInStep fun h => h.take rfl) fun _ ⟨s, log⟩ => .gets ?_
  refine (lift_staysInStep fun h => h.check _).bind_of_done fun _ r hcheck => ?_
  -- the check does not move and shows an indentation
  cases hpasses : Cursor.expect s.cursor (.layout .indent) with
  | error e =>
    simp only [lift, Parser.check, hpasses] at hcheck
    cases hcheck
  | ok token =>
    simp only [lift, Parser.check, hpasses] at hcheck
    cases hcheck
    have htoken := Parser.token_of_expect_indent hpasses
    exact mark_staysInStep (by rw [htoken]; simp) (by rw [htoken]; rfl)
      (by rw [htoken]; simp)

/-- A block is closed at a dedentation, or where the input ends and levels no longer
count. -/
theorem closeBlock_staysInStep (hends : Parser.endsBlock s.cursor.token = true) :
    StaysInStep stream closeBlock (s, log) := by
  refine .gets ?_
  rw [Parser.endsBlock, Bool.or_eq_true, beq_iff_eq, beq_iff_eq] at hends
  rcases hends with hdedent | heof
  · have hclose : Parser.closeBlock s = Parser.advance s := by
      rw [Parser.closeBlock, Parser.atToken_bind, hdedent]
      rfl
    refine .of_eq ?_
      (mark_staysInStep (by rw [hdedent]; simp) (by rw [hdedent]; rfl) fun _ => rfl)
    rw [Run.bind_apply, Run.bind_apply, lift, lift, hclose]
  · have hclose : Parser.closeBlock s = .done ((), s) := by
      rw [Parser.closeBlock, Parser.atToken_bind, heof]
      rfl
    refine ⟨?_, ?_⟩
    · intro _ r h heq
      simp only [lift_bind_eq_done_iff, hclose] at heq
      obtain ⟨_, t, hdone, hnote⟩ := heq
      cases hdone
      cases hnote
      exact ⟨h.whole_eq, h.closed, fun hne => absurd heof hne,
        fun place hlt hdedent => (h.passed place hlt hdedent).append _⟩
    · intro e r _ heq
      rw [Run.bind_apply, lift, hclose] at heq
      cases heq

theorem declare_staysInStep (cls : Class) (r : ParserState × List Event) :
    StaysInStep stream (lift (Parser.declare cls)) r where
  done := by
    intro _ t h heq
    cases heq
    exact ⟨h.whole_eq, h.closed, h.nested, h.passed⟩
  failed := by
    intro _ t _ heq
    cases heq

/-- All productions stay in step with the given fuel. -/
structure AllInStep (stream : List Reading) (fuel : Nat) : Prop where
  statement : ∀ inMethod r, StaysInStep stream (statement fuel inMethod) r
  statements : ∀ stop inMethod r, StaysInStep stream (statements fuel stop inMethod) r
  suite : ∀ inMethod r, StaysInStep stream (suite fuel inMethod) r
  conditional : ∀ inMethod r,
    r.1.cursor.token = .keyword .ifKw → StaysInStep stream (conditional fuel inMethod) r
  declaration :
    ∀ r, r.1.cursor.token = .keyword .classKw → StaysInStep stream (declaration fuel) r
  methods : ∀ r, StaysInStep stream (methods fuel) r
  method : ∀ r, StaysInStep stream (method fuel) r

theorem statement_staysInStep (ih : AllInStep stream fuel) (inMethod : Bool)
    (r : ParserState × List Event) :
    StaysInStep stream (statement (fuel + 1) inMethod) r := by
  have other : StaysInStep stream (do
      noteStart .statement
      let node ← lift (Parser.simple fuel inMethod)
      lift (Parser.take Token.newline)
      return node) r :=
    .bind (noteStart_staysInStep _ r) fun _ _ =>
        .bind (lift_staysInStep fun h => h.simple fuel inMethod) fun _ _ =>
      .bind (lift_staysInStep fun h => h.take rfl) fun _ _ => .pure _
  rw [statement]
  refine look_staysInStep ?_
  cases htoken : r.1.cursor.token with
  | keyword word =>
    cases word with
    | classKw => exact ih.declaration r htoken
    | ifKw => exact ih.conditional inMethod r htoken
    | _ => exact other
  | _ => exact other

theorem statements_staysInStep (ih : AllInStep stream fuel) (stop : Token → Bool)
    (inMethod : Bool) (r : ParserState × List Event) :
    StaysInStep stream (statements (fuel + 1) stop inMethod) r := by
  rw [statements]
  refine look_staysInStep ?_
  split
  · exact .pure _
  · exact .bind (ih.statement inMethod r) fun _ t =>
      .bind (ih.statements stop inMethod t) fun _ _ => .pure _

/-- What is inside a block has come to its end before the block is closed. -/
theorem block_staysInStep {β : Type} {x : Traced α} {k : α → Traced β}
    (hx : ∀ r, StaysInStep stream x r) (hends : ∀ {s log a u log'},
      x (s, log) = .done (a, u, log') → Parser.endsBlock u.cursor.token = true)
    (hk : ∀ a r, StaysInStep stream (k a) r) (r : ParserState × List Event) :
    StaysInStep stream (do
      openBlock
      let a ← x
      closeBlock
      k a) r := by
  refine .bind (openBlock_staysInStep r) fun _ t =>
    (hx t).bind_of_done fun a u hdone => ?_
  exact .bind (closeBlock_staysInStep (hends hdone)) fun _ v => hk a v

theorem suite_staysInStep (ih : AllInStep stream fuel) (inMethod : Bool)
    (r : ParserState × List Event) :
    StaysInStep stream (suite (fuel + 1) inMethod) r := by
  rw [suite]
  exact block_staysInStep (ih.statements _ inMethod) stop_of_statements
    (fun _ _ => .pure _) r

theorem conditional_staysInStep (ih : AllInStep stream fuel) (inMethod : Bool)
    (r : ParserState × List Event) (htoken : r.1.cursor.token = .keyword .ifKw) :
    StaysInStep stream (conditional (fuel + 1) inMethod) r := by
  rw [conditional]
  refine .gets ((noteStart_staysInStep _ r).bind_of_done fun _ t hnote => ?_)
  cases hnote
  refine .bind (lift_staysInStep fun h => h.advance ?_) fun _ _ => ?_
  · rw [htoken]
    rfl
  refine .bind (lift_staysInStep fun h => (h.ofFuel fuel).expression _ _)
    fun condition _ => ?_
  refine .bind (lift_staysInStep fun h => h.takeChar _) fun _ t =>
    .bind (ih.suite inMethod t) fun yes u => ?_
  refine look_staysInStep ?_
  split
  · next helse =>
    refine (noteStart_staysInStep _ u).bind_of_done fun _ v hnote => ?_
    cases hnote
    refine .bind (lift_staysInStep fun h => h.advance ?_) fun _ _ => ?_
    · rw [beq_iff_eq.mp helse]
      rfl
    exact .bind (lift_staysInStep fun h => h.takeChar _) fun _ v =>
      .bind (ih.suite inMethod v) fun _ _ => .pure _
  · exact .pure _

theorem declaration_staysInStep (ih : AllInStep stream fuel)
    (r : ParserState × List Event) (htoken : r.1.cursor.token = .keyword .classKw) :
    StaysInStep stream (declaration (fuel + 1)) r := by
  rw [declaration]
  refine (noteStart_staysInStep _ r).bind_of_done fun _ t hnote => ?_
  cases hnote
  refine .bind (lift_staysInStep fun h => h.advance ?_) fun _ _ => ?_
  · rw [htoken]
    rfl
  refine .bind (lift_staysInStep fun h => h.takeId) fun className _ => ?_
  refine .bind (lift_staysInStep fun h => h.parent) fun parent _ => ?_
  refine .bind (lift_staysInStep fun h => h.takeChar _) fun _ t => ?_
  exact block_staysInStep ih.methods endsBlock_of_methods
    (fun found u => .bind (declare_staysInStep _ u) fun _ _ => .pure _) t

theorem methods_staysInStep (ih : AllInStep stream fuel) (r : ParserState × List Event) :
    StaysInStep stream (methods (fuel + 1)) r := by
  rw [methods]
  refine .bind (ih.method r) fun first t => look_staysInStep ?_
  split
  · exact .pure _
  · exact .bind (ih.methods t) fun _ _ => .pure _

theorem method_staysInStep (ih : AllInStep stream fuel) (r : ParserState × List Event) :
    StaysInStep stream (method (fuel + 1)) r := by
  rw [method]
  refine .bind (noteStart_staysInStep _ r) fun _ _ =>
    .bind (lift_staysInStep fun h => h.methodHeader fuel) fun _ t => ?_
  exact .bind (ih.suite true t) fun _ _ => .pure _

theorem allInStep (stream : List Reading) (fuel : Nat) : AllInStep stream fuel := by
  induction fuel with
  | zero => constructor <;> (intros; exact .starve)
  | succ fuel ih =>
    exact {
      statement := statement_staysInStep ih
      statements := statements_staysInStep ih
      suite := suite_staysInStep ih
      conditional := conditional_staysInStep ih
      declaration := declaration_staysInStep ih
      methods := methods_staysInStep ih
      method := method_staysInStep ih }

theorem program_staysInStep (stream : List Reading) (fuel : Nat)
    (r : ParserState × List Event) :
    StaysInStep stream (program fuel) r :=
  .bind ((allInStep stream fuel).statements _ false r) fun _ _ =>
    look_staysInStep (.pure _)

end Traced

namespace Program

/-- The run on the source ends, with a program or with an error, and leaves the trace. -/
def Leaves (source : Source) (trace : Trace) : Prop :=
  (∃ program, parseTraced source = .done (program, trace)) ∨
    ∃ e, parseTraced source = .failed (e, trace)

theorem leaves_of_error {source : Source} {trace : Trace} {e : LexError}
    (hcursor : Cursor.ofSource source = .error e) (h : Leaves source trace) :
    trace = ⟨0, []⟩ ∧ ∃ rest, source.readings = .fault e :: rest := by
  have htraced : parseTraced source = .failed (.lexical e, ⟨0, []⟩) := by
    rw [parseTraced, hcursor]
  refine ⟨?_, ?_⟩
  · rcases h with ⟨program, h⟩ | ⟨e', h⟩
    · rw [htraced] at h
      cases h
    · rw [htraced] at h
      cases h
      rfl
  · rw [Cursor.ofSource] at hcursor
    cases hreadings : source.readings with
    | nil =>
      rw [hreadings] at hcursor
      cases hcursor
    | cons reading rest =>
      rw [hreadings] at hcursor
      cases reading with
      | token lexeme => cases hcursor
      | fault e' =>
        cases hcursor
        exact ⟨rest, rfl⟩

theorem leaves_of_ok {source : Source} {trace : Trace} {cursor : Cursor}
    (hcursor : Cursor.ofSource source = .ok cursor) (h : Leaves source trace) :
    ∃ r, trace = Trace.of r ∧
      ((∃ program, Traced.program (parserFuel cursor.ahead.length) (⟨cursor, ∅⟩, []) =
        .done (program, r)) ∨
        ∃ e, Traced.program (parserFuel cursor.ahead.length) (⟨cursor, ∅⟩, []) =
          .failed (e, r)) := by
  have htraced : parseTraced source =
      ((Traced.program (parserFuel cursor.ahead.length) (⟨cursor, ∅⟩, [])).map
        fun r => (r.1, Trace.of r.2)).mapCause fun r => (r.1, Trace.of r.2) := by
    rw [parseTraced, hcursor]
  rw [Leaves, htraced] at h
  cases hprogram : Traced.program (parserFuel cursor.ahead.length) (⟨cursor, ∅⟩, []) with
  | starved =>
    rw [hprogram] at h
    rcases h with ⟨_, h⟩ | ⟨_, h⟩ <;> cases h
  | done r =>
    rw [hprogram] at h
    rcases h with ⟨_, h⟩ | ⟨_, h⟩ <;> cases h
    exact ⟨r.2, rfl, .inl ⟨r.1, rfl⟩⟩
  | failed r =>
    rw [hprogram] at h
    rcases h with ⟨_, h⟩ | ⟨_, h⟩ <;> cases h
    exact ⟨r.2, rfl, .inr ⟨r.1, rfl⟩⟩

/-- However a run ends, it has met no dedentation outside of all blocks. -/
theorem meetsInBlocks {source : Source} {trace : Trace} (h : Leaves source trace) :
    MeetsInBlocks source.readings trace := by
  cases hcursor : Cursor.ofSource source with
  | error e =>
    obtain ⟨rfl, rest, hreadings⟩ := leaves_of_error hcursor h
    refine ⟨fun place hlt => absurd hlt (Nat.not_lt_zero place), ?_⟩
    intro hlast
    rw [hreadings] at hlast
    cases hlast
  | ok cursor =>
    obtain ⟨hpassed, hwhole, hat⟩ := ParserState.at_ofSource hcursor ∅
    obtain ⟨r, rfl, hr⟩ := leaves_of_ok hcursor h
    have hstart : InStep source.readings (⟨cursor, ∅⟩, []) := by
      refine ⟨hwhole, hat.closed, fun _ => ?_, ?_⟩
      · have hnested := source.nested_readings
        rw [← hwhole, Cursor.whole, hpassed] at hnested
        exact hnested
      · intro place hlt
        rw [ParserState.place, hpassed] at hlt
        exact absurd hlt (Nat.not_lt_zero place)
    have hkeeps := Traced.program_staysInStep source.readings
      (parserFuel cursor.ahead.length) (⟨cursor, ∅⟩, [])
    rcases hr with ⟨program, hdone⟩ | ⟨e, hfailed⟩
    · exact (hkeeps.done hstart hdone).meetsInBlocks rfl
    · exact hkeeps.failed hstart hfailed

end Program

end Mint
