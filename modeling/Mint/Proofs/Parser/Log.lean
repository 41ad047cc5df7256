import Mathlib.Data.List.Forall2
import Mint.Proofs.Parser.Lines
import Mint.Proofs.Parser.Trace

/-!
# Logs and lines

What the log of a stretch of parsing tells about the stream. A log is read with the
number of blocks that are open before it: from there on its events say how many are open
at every later point (`Event.blocks`) and inside how many of them each clause starts
(`Event.startsFrom`). `Account` lists what holds of a stretch on which as many blocks
were closed as were opened. Stretches put one after the other make a stretch
(`Account.trans`), and so does a stretch with an indentation before it and the closing
of the block behind it (`Account.block`).
-/

namespace Mint

/-- The token of a reading, which is not a fault. -/
def Reading.token? : Reading → Option Token
  | .token lexeme => some lexeme.token
  | .fault _ => none

/-- The token at a place of the stream. -/
def Reading.tokenAt (stream : List Reading) (place : Nat) : Option Token :=
  stream[place]?.bind Reading.token?

/-- A clause that starts a line: its place, and how many blocks were open there. -/
structure Start where
  clause : Clause
  place : Nat
  depth : Nat
deriving DecidableEq

namespace Event

/-- How many blocks are open after the event, if `n` were before. -/
def after (n : Nat) : Event → Nat
  | starts _ _ => n
  | opens _ => n + 1
  | closes _ => n - 1

/-- How many blocks are open after the log, if `n` were before. -/
def blocks (n : Nat) (log : List Event) : Nat := log.foldl after n

/-- The clauses that start in the log, if `n` blocks were open before. -/
def startsFrom : Nat → List Event → List Start
  | _, [] => []
  | n, starts clause place :: log => ⟨clause, place, n⟩ :: startsFrom n log
  | n, opens _ :: log => startsFrom (n + 1) log
  | n, closes _ :: log => startsFrom (n - 1) log

/-- No block is closed while none is open. -/
def Guarded : Nat → List Event → Prop
  | _, [] => True
  | n, starts _ _ :: log => Guarded n log
  | n, opens _ :: log => Guarded (n + 1) log
  | n, closes _ :: log => 0 < n ∧ Guarded (n - 1) log

theorem blocks_append (n : Nat) (log log' : List Event) :
    blocks n (log ++ log') = blocks (blocks n log) log' :=
  List.foldl_append

theorem startsFrom_append (n : Nat) (log log' : List Event) :
    startsFrom n (log ++ log') = startsFrom n log ++ startsFrom (blocks n log) log' := by
  induction log generalizing n with
  | nil => rfl
  | cons event log ih =>
    cases event with
    | starts clause place => exact congrArg (List.cons _) (ih n)
    | opens place => exact ih (n + 1)
    | closes place => exact ih (n - 1)

/-- Inside a block the clauses are one level deeper. -/
theorem startsFrom_block (n place place' : Nat) (log : List Event) :
    startsFrom n (.opens place :: (log ++ [.closes place'])) =
      startsFrom (n + 1) log := by
  show startsFrom (n + 1) (log ++ [.closes place']) = _
  rw [startsFrom_append]
  exact List.append_nil _

theorem guarded_append {n : Nat} {log log' : List Event} :
    Guarded n (log ++ log') ↔ Guarded n log ∧ Guarded (blocks n log) log' := by
  induction log generalizing n with
  | nil => exact ⟨fun h => ⟨trivial, h⟩, fun h => h.2⟩
  | cons event log ih =>
    cases event with
    | starts clause place => exact ih
    | opens place => exact ih
    | closes place => exact (and_congr_right fun _ => ih).trans (and_assoc).symm

/-- Every `else` belongs to the latest `if` before it that starts inside as many
blocks. -/
def ElsesAttached (found : List Start) : Prop :=
  ∀ before start after place,
    found = before ++ start :: after → start.clause = .alternative place →
    ∃ earlier first between,
      before = earlier ++ first :: between ∧ first.clause = .conditional ∧
      first.place = place ∧ first.depth = start.depth ∧
      ∀ x ∈ between, x.clause = .conditional → x.depth ≠ start.depth

theorem elsesAttached_nil : ElsesAttached [] := by
  intro before start after place heq
  simp at heq

theorem ElsesAttached.append {found found' : List Start} (h : ElsesAttached found)
    (h' : ElsesAttached found') :
    ElsesAttached (found ++ found') := by
  intro before start after place heq hclause
  -- the `else` is in the second list or in the first
  rcases List.append_eq_append_iff.mp heq with
    ⟨before', rfl, hfound'⟩ | ⟨after', rfl, hafter⟩
  · obtain ⟨earlier, first, between, rfl, hfirst⟩ :=
      h' before' start after place hfound' hclause
    exact ⟨found ++ earlier, first, between, (List.append_assoc ..).symm, hfirst⟩
  · cases after' with
    | nil =>
      obtain ⟨earlier, first, between, hnil, -⟩ :=
        h' [] start after place hafter.symm hclause
      simp at hnil
    | cons _ after' =>
      obtain ⟨rfl, -⟩ := List.cons.inj hafter
      exact h before start after' place rfl hclause

/-- What is no `else` needs no `if`. -/
theorem elsesAttached_singleton {start : Start}
    (h : ∀ place, start.clause ≠ .alternative place) :
    ElsesAttached [start] := by
  intro before start' after place heq hclause
  cases before with
  | nil =>
    obtain ⟨rfl, -⟩ := List.cons.inj heq
    exact absurd hclause (h place)
  | cons _ before => simp at heq

/-- An `else` can follow an `if` of its depth with nothing but deeper clauses between. -/
theorem ElsesAttached.alternative {found : List Start} (h : ElsesAttached found)
    {place place' depth : Nat} (hdeep : ∀ x ∈ found, depth < x.depth) :
    ElsesAttached (⟨.conditional, place, depth⟩ :: found ++
      [⟨.alternative place, place', depth⟩]) := by
  have hfirst : ElsesAttached (⟨.conditional, place, depth⟩ :: found) :=
    (elsesAttached_singleton (by simp)).append h
  intro before start after place'' heq hclause
  rcases List.eq_nil_or_concat after with rfl | ⟨after, last, rfl⟩
  · -- the last clause is the `else` itself
    obtain ⟨rfl, hlast⟩ := List.append_inj' heq rfl
    obtain rfl := List.singleton_inj.mp hlast
    cases hclause
    refine ⟨[], _, found, rfl, rfl, rfl, rfl, ?_⟩
    intro x hx _ hdepth
    exact Nat.ne_of_gt (hdeep x hx) hdepth
  · rw [List.concat_eq_append, ← List.cons_append, ← List.append_assoc] at heq
    obtain ⟨hfound, -⟩ := List.append_inj' heq rfl
    exact hfirst before start after place'' hfound hclause

end Event

/-! ## Places in the stream -/

theorem Cursor.drop_whole (c : Cursor) : c.whole.drop c.passed.length = c.stream := by
  rw [Cursor.whole]
  exact List.drop_left' (by simp)

namespace ParserState

variable {s t u : ParserState} {ts : List Token}

theorem Takes.place_eq (h : s.Takes ts u) : u.place = s.place + ts.length := by
  obtain ⟨ls, rfl, -, hpassed⟩ := h.lexemes
  rw [place, place, hpassed, List.length_append, List.length_reverse, List.length_map]
  omega

/-- The tokens that are passed are those at the places from here on. -/
theorem Takes.tokenAt_eq (h : s.Takes ts u) {k : Nat} (hk : k < ts.length) :
    Reading.tokenAt s.cursor.whole (s.place + k) = ts[k]? := by
  obtain ⟨ls, rfl, hstream, -⟩ := h.lexemes
  rw [List.length_map] at hk
  rw [Reading.tokenAt, place, ← List.getElem?_drop, Cursor.drop_whole, hstream,
    List.getElem?_append_left (by simpa), List.getElem?_map, List.getElem?_map,
    List.getElem?_eq_getElem hk]
  rfl

end ParserState

/-- At the place is an indentation, directly behind a colon and a line end. -/
def Opening (stream : List Reading) (place : Nat) : Prop :=
  ∃ before, place = before + 2 ∧ Reading.tokenAt stream before = some (.char ':') ∧
    Reading.tokenAt stream (before + 1) = some Token.newline ∧
    Reading.tokenAt stream place = some (.layout .indent)

theorem Opening.of_takes {s s' t t' : ParserState} (hcolon : s.Takes [.char ':'] s')
    (hnewline : s'.Takes [Token.newline] t) (hindent : t.Takes [.layout .indent] t') :
    Opening t.cursor.whole t.place := by
  have htakes := hcolon.trans (hnewline.trans hindent)
  have hplace := (hcolon.trans hnewline).place_eq
  rw [(hcolon.trans hnewline).whole_eq]
  refine ⟨s.place, hplace, htakes.tokenAt_eq (k := 0) (by simp),
    htakes.tokenAt_eq (k := 1) (by simp), ?_⟩
  rw [hplace]
  exact htakes.tokenAt_eq (k := 2) (by simp)

/-- The clause starts with the first token of the line and goes on to its end, and the
line has two spaces for each block around the clause. -/
structure Begins (stream : List Reading) (start : Start) (line : ContentLine) : Prop where
  tokens : Reading.place line.number (line.tokens ++ [Token.newline]) <+:
    stream.drop start.place
  word : ∃ first rest, line.tokens = first :: rest ∧ start.clause.beginsWith first = true
  spaces : line.spaces = 2 * start.depth

/-- The events tell what happened on the way from one state to the other, which begins
and ends inside `depth` blocks and on which the lines were read. -/
structure Account (depth : Nat) (s u : ParserState) (lines : List CodeLine)
    (events : List Event) : Prop where
  whole_eq : u.cursor.whole = s.cursor.whole
  place_le : s.place ≤ u.place
  indents : ∀ place, s.place ≤ place → place < u.place →
    Reading.tokenAt s.cursor.whole place = some (.layout .indent) → .opens place ∈ events
  opening : ∀ place, .opens place ∈ events → Opening s.cursor.whole place
  balanced : Event.blocks depth events = depth
  guarded : Event.Guarded depth events
  starts : List.Forall₂ (Begins s.cursor.whole) (Event.startsFrom depth events)
    (lines.map CodeLine.content)
  deep : ∀ start ∈ Event.startsFrom depth events, depth ≤ start.depth

/-- The closing of a block passes nothing but a dedentation. -/
theorem closing_of_closeBlock {s u : ParserState} (hs : s.cursor.Closed)
    (h : Parser.closeBlock s = .done ((), u)) :
    u.cursor.whole = s.cursor.whole ∧ s.place ≤ u.place ∧
    ∀ place, s.place ≤ place → place < u.place →
      Reading.tokenAt s.cursor.whole place = some (.layout .dedent) := by
  rcases Parser.takes_of_closeBlock hs h with hdedent | rfl
  · have hplace : u.place = s.place + 1 := hdedent.place_eq
    refine ⟨hdedent.whole_eq, by omega, ?_⟩
    intro place hle hlt
    obtain rfl : place = s.place := by omega
    exact hdedent.tokenAt_eq (k := 0) Nat.one_pos
  · exact ⟨rfl, Nat.le_refl _, fun place hle hlt => absurd hlt (Nat.not_lt.mpr hle)⟩

namespace Account

open Event

variable {depth : Nat} {s t u : ParserState} {line : CodeLine}
  {lines lines' : List CodeLine} {events events' : List Event}

theorem nil : Account depth s s [] [] where
  whole_eq := rfl
  place_le := Nat.le_refl _
  indents := fun _ hle hlt => absurd hlt (Nat.not_lt.mpr hle)
  opening := fun _ hmem => absurd hmem List.not_mem_nil
  balanced := rfl
  guarded := trivial
  starts := .nil
  deep := fun _ hmem => absurd hmem List.not_mem_nil

theorem trans (h : Account depth s t lines events)
    (h' : Account depth t u lines' events') :
    Account depth s u (lines ++ lines') (events ++ events') where
  whole_eq := h'.whole_eq.trans h.whole_eq
  place_le := Nat.le_trans h.place_le h'.place_le
  indents := by
    intro place hle hlt hindent
    -- an indentation is told of by the part of the way on which it lies
    by_cases hmid : place < t.place
    · exact List.mem_append_left _ (h.indents place hle hmid hindent)
    · rw [← h.whole_eq] at hindent
      exact List.mem_append_right _ (h'.indents place (Nat.not_lt.mp hmid) hlt hindent)
  opening := by
    intro place hmem
    rcases List.mem_append.mp hmem with hmem | hmem
    · exact h.opening place hmem
    · rw [← h.whole_eq]
      exact h'.opening place hmem
  balanced := by rw [blocks_append, h.balanced, h'.balanced]
  guarded := guarded_append.mpr ⟨h.guarded, by rw [h.balanced]; exact h'.guarded⟩
  starts := by
    have hstarts := h'.starts
    rw [h.whole_eq] at hstarts
    rw [startsFrom_append, h.balanced, List.map_append]
    exact List.rel_append h.starts hstarts
  deep := by
    intro start hmem
    rw [startsFrom_append, h.balanced] at hmem
    rcases List.mem_append.mp hmem with hmem | hmem
    · exact h.deep start hmem
    · exact h'.deep start hmem

/-- A line that was read from its first token on. -/
theorem of_line {e : Option LexError} {rest : List CodeLine} {clause : Clause}
    (hs : s.At e depth (line :: rest)) (hdepth : line.depth = depth)
    (htakes : s.Takes (line.tokens ++ [Token.newline]) u)
    (hword : ∃ first rest, line.tokens = first :: rest ∧ clause.beginsWith first = true) :
    Account depth s u [line] [.starts clause s.place] where
  whole_eq := htakes.whole_eq
  place_le := by rw [htakes.place_eq]; exact Nat.le_add_right _ _
  indents := by
    intro place hle hlt hindent
    rw [htakes.place_eq] at hlt
    obtain ⟨k, rfl⟩ := Nat.exists_eq_add_of_le hle
    rw [htakes.tokenAt_eq (by omega)] at hindent
    -- a line has no mark but the newline mark at its end
    rcases List.mem_append.mp (List.mem_of_getElem? hindent) with hmem | hmem
    · cases line.plain _ hmem
    · simp at hmem
  opening := by simp
  balanced := rfl
  guarded := trivial
  starts := by
    refine .cons ⟨?_, hword, ?_⟩ .nil
    · obtain ⟨tail, -, hstream⟩ := hs.stream
      show _ <+: s.cursor.whole.drop s.cursor.passed.length
      rw [Cursor.drop_whole, hstream, ParserState.flat_level hdepth, List.append_assoc]
      exact List.prefix_append _ _
    · show 2 * line.depth = 2 * depth
      rw [hdepth]
  deep := by
    intro start hmem
    obtain rfl := List.mem_singleton.mp hmem
    exact Nat.le_refl depth

theorem exists_line {e : Option LexError} {ts : List Token} (clause : Clause)
    (hs : s.At e depth lines) (htakes : s.Takes (ts ++ [Token.newline]) u)
    (hts : Plain ts)
    (hword : ∃ first rest, ts = first :: rest ∧ clause.beginsWith first = true) :
    ∃ line rest, lines = line :: rest ∧ u.At e depth rest ∧
      Account depth s u [line] [.starts clause s.place] := by
  have hne : ts ≠ [] := by
    obtain ⟨first, rest, rfl, -⟩ := hword
    exact List.cons_ne_nil first rest
  obtain ⟨line, rest, rfl, hrow, hu⟩ := hs.takes_line htakes hne hts
  obtain ⟨hdepth, rfl⟩ := Row.mk.inj hrow
  exact ⟨line, rest, rfl, hu, .of_line hs hdepth htakes hword⟩

/-- A block: an indentation, lines inside one block more, and the closing of the block. -/
theorem block {t₁ u₁ : ParserState} (hopening : Opening t.cursor.whole t.place)
    (hindent : t.Takes [.layout .indent] t₁) (h : Account (depth + 1) t₁ u₁ lines events)
    (hclosed : u₁.cursor.Closed) (hclose : Parser.closeBlock u₁ = .done ((), u)) :
    Account depth t u lines (.opens t.place :: (events ++ [.closes u₁.place])) := by
  have hwhole : t₁.cursor.whole = t.cursor.whole := hindent.whole_eq
  have hplace : t₁.place = t.place + 1 := hindent.place_eq
  obtain ⟨hwhole', hle', hclosing⟩ := closing_of_closeBlock hclosed hclose
  rw [h.whole_eq, hwhole] at hwhole' hclosing
  have hle := h.place_le
  exact {
    whole_eq := hwhole'
    place_le := by omega
    indents := by
      intro place hlow hhigh hindent
      -- the place is that of the indentation, or lies inside the block, or is that of
      -- the closing
      by_cases hfirst : place = t.place
      · rw [hfirst]
        exact List.mem_cons_self
      · by_cases hinside : place < u₁.place
        · rw [← hwhole] at hindent
          exact List.mem_cons_of_mem
            _ (List.mem_append_left _ (h.indents place (by omega) hinside hindent))
        · rw [hclosing place (Nat.not_lt.mp hinside) hhigh] at hindent
          cases hindent
    opening := by
      intro place hmem
      rcases List.mem_cons.mp hmem with hopens | hmem
      · cases hopens
        exact hopening
      · rw [← hwhole]
        exact h.opening place (by simpa using hmem)
    balanced := by
      show blocks (depth + 1) (events ++ [.closes u₁.place]) = depth
      rw [blocks_append, h.balanced]
      rfl
    guarded := by
      show Guarded (depth + 1) (events ++ [.closes u₁.place])
      rw [guarded_append, h.balanced]
      exact ⟨h.guarded, Nat.succ_pos _, trivial⟩
    starts := by
      have hstarts := h.starts
      rw [hwhole] at hstarts
      rw [startsFrom_block]
      exact hstarts
    deep := by
      intro start hmem
      rw [startsFrom_block] at hmem
      exact Nat.le_of_succ_le (h.deep start hmem) }

end Account

end Mint
