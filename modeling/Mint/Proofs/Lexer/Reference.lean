import Mint.Proofs.Lexer

/-!
# The stream that a lexer goes along

The tokens of a source are those of its good lines, the ones that can be read
(`Source.reference`). The other lines are bad and each has an error (`Source.badLines`).
Neither list says anything about how a lexer works.

The stream of readings is the two lists merged by the places of their lines (`Merged`).
A lexer that is asked anything in any order, and asked again after errors, therefore
goes along the reference one token at a time, and it stops for the bad lines on its way,
each of them once (`Lexer.follows_reference`).
-/

namespace Mint

namespace Source

/-! ## Good lines -/

/-- What stands on a physical line, if it can be read. -/
def line? (bytes : List UInt8) : Option Line :=
  (decode? bytes).bind fun text => (Line.ofText text).toOption

/-- The same, if it is not blank either. -/
def content? (bytes : List UInt8) : Option Line :=
  (line? bytes).filter fun line => !line.isBlank

/-- The good lines that are not blank. Each comes with its place among the physical
lines, which are counted from `place` on. -/
def goodLines (place : Nat) (lines : List (List UInt8)) : List (Line × Nat) :=
  (lines.zipIdx place).filterMap fun line => (content? line.1).map (·, line.2)

/-- A token and the place of the line that holds it. -/
structure Held where
  token : Token
  place : Nat
deriving DecidableEq

/-- The tokens of a line: a mark for every level gained or lost, what stands on it, one
newline mark. -/
def tokensOf (depth : Nat) (line : Line) : List Token :=
  List.replicate (line.depth - depth) (.layout .indent) ++
    List.replicate (depth - line.depth) (.layout .dedent) ++ line.plain ++ [Token.newline]

/-- The tokens of lines, given the depth before them. -/
def held (depth : Nat) : List (Line × Nat) → List Held
  | [] => []
  | (line, place) :: rest =>
    (tokensOf depth line).map (⟨·, place⟩) ++ held line.depth rest

/-- The tokens of good lines, then the end of the input, whose place is behind all
lines. -/
def reference (source : Source) : List Held :=
  held 0 (goodLines 0 source.physicalLines) ++ [⟨Token.eof, source.physicalLines.length⟩]

/-! ## Bad lines -/

/-- Why a physical line cannot be read. -/
def fault? (bytes : List UInt8) : Option LexFault :=
  match decode? bytes with
  | none => some (.unreadable .notUtf8)
  | some text =>
    match Line.ofText text with
    | .error cause => some (.scan cause)
    | .ok _ => none

/-- A line that cannot be read: its place and what is reported. -/
structure Bad where
  place : Nat
  error : LexError
deriving DecidableEq

/-- The lines that cannot be read. Numbers go up from `count`, and lines that are not
UTF-8 do not count. -/
def bad (place count : Nat) : List (List UInt8) → List Bad
  | [] => []
  | bytes :: rest =>
    ((fault? bytes).map fun fault => ⟨place, ⟨count + 1, fault⟩⟩).toList
      ++ bad (place + 1) (if (decode? bytes).isSome then count + 1 else count) rest

/-- The bad lines of a source, in order. -/
def badLines (source : Source) : List Bad := bad 0 0 source.physicalLines

end Source

open Source (Held Bad held bad goodLines)

/-! ## The stream by places -/

/-- The stream has the tokens and the errors of the bad lines, each in order. Of a token
and an error, the one whose line has the smaller place comes first, and behind every
error there is a token. -/
inductive Merged : List Held → List Bad → List Reading → Prop where
  | nil : Merged [] [] []
  | token {h hs bs stream number} (hbad : ∀ b ∈ bs, h.place < b.place)
    (hrest : Merged hs bs stream) :
    Merged (h :: hs) bs (.token ⟨h.token, number⟩ :: stream)
  | fault {hs b bs stream} (hne : hs ≠ []) (hheld : ∀ h ∈ hs, b.place < h.place)
    (hrest : Merged hs bs stream) :
    Merged hs (b :: bs) (.fault b.error :: stream)

namespace Merged

variable {hs : List Held} {bs : List Bad} {stream : List Reading}

/-- The tokens of a line come before the bad lines behind it. -/
theorem line {place : Nat} (hrest : Merged hs bs stream)
    (hbad : ∀ b ∈ bs, place < b.place) (number : Nat) (tokens : List Token) :
    Merged (tokens.map (⟨·, place⟩) ++ hs) bs
      (Reading.place number tokens ++ stream) := by
  induction tokens with
  | nil => exact hrest
  | cons token tokens ih => exact .token (h := ⟨token, place⟩) hbad ih

/-- Tokens at the front of the stream are the first of its tokens. -/
theorem exists_front {lexemes : List Lexeme}
    (h : Merged hs bs (lexemes.map .token ++ stream)) :
    ∃ front rest, hs = front ++ rest ∧ front.map Held.token = lexemes.map Lexeme.token ∧
      Merged rest bs stream := by
  induction lexemes generalizing hs with
  | nil => exact ⟨[], hs, rfl, rfl, h⟩
  | cons lexeme lexemes ih =>
    cases h with
    | token _ hrest =>
      obtain ⟨front, rest, rfl, hfront, hmerged⟩ := ih hrest
      exact ⟨_ :: front, rest, rfl, by rw [List.map_cons, hfront, List.map_cons], hmerged⟩

end Merged

namespace Source

theorem tokensOf_eq (depth : Nat) (line : Line) :
    tokensOf depth line =
      Reading.layoutMarks depth line.depth ++ line.plain ++ [Token.newline] := by
  rw [tokensOf, Reading.layoutMarks]
  split
  · next h =>
      rw [Nat.sub_eq_zero_of_le (Nat.le_of_lt h), List.replicate_zero, List.append_nil]
  · next h =>
      rw [Nat.sub_eq_zero_of_le (Nat.le_of_not_lt h), List.replicate_zero,
        List.nil_append]

theorem goodLines_cons (place : Nat) (bytes : List UInt8) (rest : List (List UInt8)) :
    goodLines place (bytes :: rest) =
      ((content? bytes).map (·, place)).toList ++ goodLines (place + 1) rest := by
  rw [goodLines, List.zipIdx_cons, List.filterMap_cons]
  dsimp only
  cases content? bytes <;> rfl

theorem place_le_of_goodLines {place : Nat} {lines : List (List UInt8)} :
    ∀ line ∈ goodLines place lines, place ≤ line.2 := by
  intro line hline
  obtain ⟨⟨bytes, n⟩, hmem, hmap⟩ := List.mem_filterMap.mp hline
  obtain ⟨found, -, rfl⟩ := Option.map_eq_some_iff.mp hmap
  have hle := List.le_snd_of_mem_zipIdx hmem
  exact hle

theorem place_le_of_held {place depth : Nat} {lines : List (Line × Nat)}
    (h : ∀ line ∈ lines, place ≤ line.2) :
    ∀ token ∈ held depth lines, place ≤ token.place := by
  induction lines generalizing depth with
  | nil => exact fun _ hmem => absurd hmem List.not_mem_nil
  | cons line lines ih =>
    obtain ⟨hline, hlines⟩ := List.forall_mem_cons.mp h
    refine List.forall_mem_append.mpr ⟨?_, ih hlines⟩
    intro token htoken
    obtain ⟨_, -, rfl⟩ := List.mem_map.mp htoken
    exact hline

theorem place_le_of_bad {place count : Nat} {lines : List (List UInt8)} :
    ∀ b ∈ bad place count lines, place ≤ b.place := by
  induction lines generalizing place count with
  | nil => exact fun _ hmem => absurd hmem List.not_mem_nil
  | cons bytes rest ih =>
    refine List.forall_mem_append.mpr ⟨?_, fun b hb => Nat.le_of_succ_le (ih b hb)⟩
    intro b hb
    obtain ⟨_, -, rfl⟩ := Option.map_eq_some_iff.mp (Option.mem_toList.mp hb)
    exact Nat.le_refl _

/-- What a list of physical lines holds, and the end of the input. -/
def heldToEnd (depth place : Nat) (lines : List (List UInt8)) : List Held :=
  held depth (goodLines place lines) ++ [⟨Token.eof, place + lines.length⟩]

theorem place_le_of_heldToEnd {place depth : Nat} {lines : List (List UInt8)} :
    ∀ token ∈ heldToEnd depth place lines, place ≤ token.place := by
  refine List.forall_mem_append.mpr ⟨place_le_of_held place_le_of_goodLines, ?_⟩
  exact List.forall_mem_singleton.mpr (Nat.le_add_right ..)

theorem heldToEnd_of_none {bytes : List UInt8} {rest : List (List UInt8)}
    (h : content? bytes = none) (depth place : Nat) :
    heldToEnd depth place (bytes :: rest) = heldToEnd depth (place + 1) rest := by
  rw [heldToEnd, goodLines_cons, h, heldToEnd, List.length_cons]
  simp only [Option.map_none, Option.toList_none, List.nil_append]
  rw [Nat.add_assoc, Nat.add_comm 1]

theorem heldToEnd_of_some {bytes : List UInt8} {rest : List (List UInt8)} {line : Line}
    (h : content? bytes = some line) (depth place : Nat) :
    heldToEnd depth place (bytes :: rest) =
      (tokensOf depth line).map (⟨·, place⟩) ++
      heldToEnd line.depth (place + 1) rest := by
  rw [heldToEnd, goodLines_cons, h, heldToEnd, List.length_cons]
  simp only [Option.map_some, Option.toList_some, List.cons_append, List.nil_append,
    held, List.append_assoc]
  rw [Nat.add_assoc, Nat.add_comm 1]

/-- A line before the others. -/
theorem merged_cons {bytes : List UInt8} {rest : List (List UInt8)}
    (hmarked : Marked bytes) (hlast : isTerminated bytes = false → rest = [])
    (ih : ∀ place depth count, Merged (heldToEnd depth place rest) (bad place count rest)
      (Reading.ofLines depth count rest))
    (place depth count : Nat) :
    Merged (heldToEnd depth place (bytes :: rest)) (bad place count (bytes :: rest))
      (Reading.ofLines depth count (bytes :: rest)) := by
  have hbad : ∀ {count}, ∀ b ∈ bad (place + 1) count rest, place < b.place :=
    place_le_of_bad
  have hheld : ∀ {depth}, ∀ token ∈ heldToEnd depth (place + 1) rest,
    place < token.place := place_le_of_heldToEnd
  have hne : ∀ depth, heldToEnd depth (place + 1) rest ≠ [] :=
    fun _ => by simp [heldToEnd]
  rw [Reading.ofLines, bad, fault?]
  cases htext : decode? bytes with
  | none =>
    rw [heldToEnd_of_none (by simp [content?, line?, htext])]
    exact .fault (hne depth) hheld (ih ..)
  | some text =>
    cases hline : Line.ofText text with
    | error cause =>
      rw [heldToEnd_of_none (by simp [content?, line?, htext, hline, Except.toOption])]
      simp only [hline]
      exact .fault (hne depth) hheld (ih ..)
    | ok line =>
      have hcontent : content? bytes = if line.isBlank then none else some line := by
        rw [content?, line?, htext, Option.bind_some, hline]
        cases hblank : line.isBlank <;> simp [Except.toOption, Option.filter, hblank]
      simp only [hline, Option.map_none, Option.toList_none, List.nil_append,
        Option.isSome_some, if_true]
      -- behind a line that is not closed there is only the end of the input
      have hend : isTerminated bytes = false →
          ∀ depth, Merged (heldToEnd depth (place + 1) rest) (bad (place + 1)
            (count + 1) rest) (Reading.place (count + 1) [Token.eof]) := by
        intro hterminated depth
        obtain rfl := hlast hterminated
        exact .token (h := ⟨Token.eof, place + 1⟩)
          (fun _ hmem => absurd hmem List.not_mem_nil) .nil
      cases hblank : line.isBlank with
      | true =>
        rw [hblank, if_pos rfl] at hcontent
        rw [heldToEnd_of_none hcontent, if_pos rfl, if_pos rfl]
        cases hterminated : isTerminated bytes with
        | true => exact ih ..
        | false => exact hend hterminated depth
      | false =>
        rw [hblank, if_neg Bool.false_ne_true] at hcontent
        rw [heldToEnd_of_some hcontent, if_neg Bool.false_ne_true,
          if_neg Bool.false_ne_true, CodeLine.lineTokens_eq depth (hmarked htext hline),
          ← tokensOf_eq]
        cases hterminated : isTerminated bytes with
        | true => exact .line (ih ..) hbad (count + 1) _
        | false =>
          rw [if_neg Bool.false_ne_true, CodeLine.place_append]
          exact .line (hend hterminated line.depth) hbad (count + 1) _

/-- The stream of physical lines, by places. -/
theorem merged_ofLines {lines : List (List UInt8)} (h : Chopped lines) :
    ∀ place depth count, Merged (heldToEnd depth place lines) (bad place count lines)
      (Reading.ofLines depth count lines) := by
  refine Chopped.byLine ?_ ?_ h
  · intro place depth count
    exact .token (h := ⟨Token.eof, place⟩)
      (fun _ hmem => absurd hmem List.not_mem_nil) .nil
  · intro bytes rest hmarked hlast _ ih place depth count
    exact merged_cons hmarked hlast ih place depth count

theorem heldToEnd_zero (source : Source) :
    heldToEnd 0 0 source.physicalLines = source.reference := by
  rw [heldToEnd, Nat.zero_add, reference]

end Source

/-! ## Going along -/

namespace Cursor

/-- After `advanced` moves the cursor has taken the tokens `done` and has `todo` and the
bad lines `left` before it. -/
structure Along (done todo : List Held) (left : List Bad) (c : Cursor) (advanced : Nat) :
    Prop where
  taken : done.map Held.token = (c.passed.reverse ++ [c.current]).map Lexeme.token
  ahead : Merged todo left c.ahead
  place : c.passed.length = min advanced ((done ++ todo).length - 1)

namespace Along

variable {done todo : List Held} {left : List Bad} {c : Cursor} {k : Nat}

theorem start {token : Held} {stream : List Reading}
    (h : Merged (token :: todo) left stream) (hstart : Cursor.start stream = .ok c) :
    Along [token] todo left c 0 := by
  cases h with
  | token _ hrest =>
    cases hstart
    exact ⟨rfl, hrest, rfl⟩
  | fault => cases hstart

theorem length_done (h : Along done todo left c k) :
    done.length = c.passed.length + 1 := by
  have hlength := congrArg List.length h.taken
  simpa using hlength

theorem current (h : Along done todo left c k) :
    ((done ++ todo)[min k ((done ++ todo).length - 1)]?).map Held.token =
      some c.token := by
  have hlength := h.length_done
  rw [← h.place, List.getElem?_append_left (by omega), ← List.getElem?_map, h.taken,
    List.map_append, List.getElem?_append_right (by simp)]
  simp

/-- The next token is the first of those to come. -/
theorem getElem?_next {token : Held} (h : Along done (token :: todo) left c k) :
    (done ++ token :: todo)[min (k + 1) ((done ++ token :: todo).length - 1)]? =
      some token := by
  have hlength := h.length_done
  have hplace := h.place
  rw [List.length_append, List.length_cons] at hplace ⊢
  rw [show min (k + 1) (done.length + (todo.length + 1) - 1) = done.length by omega]
  simp

/-- The tokens taken and those to come, after a move that fails only for a bad line. -/
inductive NextSpec (done todo : List Held) (left : List Bad) (k : Nat) :
    EStateM.Result LexError Cursor Token → Prop where
  | moved {done' todo' token c'} (hall : done' ++ todo' = done ++ todo)
    (h : Along done' todo' left c' (k + 1)) (hleft : ∀ b ∈ left, ∀ token ∈
      (done ++ todo)[min (k + 1) ((done ++ todo).length - 1)]?, token.place < b.place) :
    NextSpec done todo left k (.ok token c')
  | blocked {b left' token c'} (hleft : left = b :: left')
    (h : Along done todo left' c' k)
    (hnext : (done ++ todo)[min (k + 1) ((done ++ todo).length - 1)]? = some token)
    (hplace : b.place < token.place) :
    NextSpec done todo left k (.error b.error c')

theorem next (h : Along done todo left c k) :
    NextSpec done todo left k (Cursor.next c) := by
  obtain ⟨passed, current, ahead⟩ := c
  have hlength := h.length_done
  have hplace := h.place
  have hmerged := h.ahead
  simp only at hlength hplace hmerged
  cases hmerged with
  | nil =>
    refine .moved rfl ⟨h.taken, .nil, ?_⟩ fun _ hb => absurd hb List.not_mem_nil
    simp only [List.append_nil] at hplace ⊢
    omega
  | @token token hs bs stream number hbad hrest =>
    have hall : (done ++ [token]) ++ hs = done ++ token :: hs := by simp
    refine .moved hall ⟨?_, hrest, ?_⟩ ?_
    · have htaken := h.taken
      simp only [List.map_append, htaken, List.reverse_cons]
      rfl
    · simp only [List.length_append, List.length_cons, List.length_nil] at hplace ⊢
      omega
    · intro b hb token' htoken'
      rw [h.getElem?_next, Option.mem_some_iff] at htoken'
      exact htoken' ▸ hbad b hb
  | @fault hs b bs stream hne hheld hrest =>
    obtain ⟨token, todo, rfl⟩ := List.exists_cons_of_ne_nil hne
    exact .blocked rfl ⟨h.taken, hrest, hplace⟩ h.getElem?_next
      (hheld token List.mem_cons_self)

end Along

end Cursor

namespace Lexer

open Cursor (Query Along)

/-- How the moves among the queries end. -/
def moves (lexer : Lexer) : List Query → List (Except LexError Unit)
  | [] => []
  | query :: rest =>
    (if query.moves then [lexer.next.1] else []) ++ (lexer.step query).2.moves rest

/-- How many moves succeed. -/
def advances (moves : List (Except LexError Unit)) : Nat := moves.countP Except.isOk

theorem advances_ok_cons (moves : List (Except LexError Unit)) :
    advances (.ok () :: moves) = advances moves + 1 :=
  List.countP_cons_of_pos rfl

theorem advances_error_cons (e : LexError) (moves : List (Except LexError Unit)) :
    advances (.error e :: moves) = advances moves :=
  List.countP_cons_of_neg Bool.false_ne_true

/-- The errors of the others. -/
def errors (moves : List (Except LexError Unit)) : List LexError :=
  moves.filterMap fun
    | .ok _ => none
    | .error e => some e

/-- What holds of a lexer on a source after `advanced` moves and the errors `reported`. -/
structure Follows (source : Source) (lexer : Lexer) (advanced : Nat)
    (reported : List LexError) : Prop where
  /-- The buffer is how the reference begins. -/
  buffer : lexer.buffer.map Lexeme.token <+: source.reference.map Held.token
  inside : lexer.pos < lexer.buffer.length
  /-- Every move goes on by one token, and none goes beyond the last. -/
  current : source.reference[min advanced (source.reference.length - 1)]?.map Held.token =
    some lexer.current.token
  /-- Looking changes nothing. -/
  stays : ∀ query : Query, query.moves = false → (lexer.step query).2 = lexer
  /-- Bad lines are reported in order. -/
  inOrder : reported <+: source.badLines.map Bad.error
  /-- A move fails for the next bad line, and for it if and only if it comes before the
  line of the next token. -/
  blocked :
    ∀ e, lexer.next.1 = .error e ↔ ∃ b token, source.badLines[reported.length]? = some b ∧
    source.reference[min (advanced + 1) (source.reference.length - 1)]? = some token ∧
    b.place < token.place ∧ b.error = e
  /-- A failed move leaves the buffer and the place in it as they were. -/
  unmoved : ∀ e, lexer.next.1 = .error e →
    lexer.next.2.buffer = lexer.buffer ∧ lexer.next.2.pos = lexer.pos

/-- The lexer is some way along the reference and the bad lines. -/
structure OnWay (source : Source) (lexer : Lexer) (advanced : Nat)
    (reported : List LexError) : Prop where
  valid : lexer.Valid
  along : ∃ done todo seen left,
    done ++ todo = source.reference ∧ seen ++ left = source.badLines ∧
    seen.map Bad.error = reported ∧ Along done todo left lexer.cursor advanced

variable {source : Source} {lexer : Lexer} {k : Nat} {reported : List LexError}

theorem OnWay.next_ok (h : lexer.OnWay source k reported)
    (hnext : lexer.next.1 = .ok ()) :
    lexer.next.2.OnWay source (k + 1) reported := by
  obtain ⟨done, todo, seen, left, hall, hbad, hseen, halong⟩ := h.along
  have hspec : lexer.NextSpec (.ok (), lexer.next.2) := hnext ▸ nextSpec h.valid
  have hcursor := halong.next
  rw [hspec.cursor_ok h.valid] at hcursor
  cases hcursor with
  | moved hall' halong' _ =>
    exact ⟨hspec.valid h.valid, _, _, seen, left, hall'.trans hall, hbad, hseen, halong'⟩

theorem OnWay.next_error (h : lexer.OnWay source k reported) {e : LexError}
    (hnext : lexer.next.1 = .error e) :
    lexer.next.2.OnWay source k (reported ++ [e]) := by
  obtain ⟨done, todo, seen, left, hall, hbad, hseen, halong⟩ := h.along
  have hspec : lexer.NextSpec (.error e, lexer.next.2) := hnext ▸ nextSpec h.valid
  have hcursor := halong.next
  rw [hspec.cursor_error h.valid] at hcursor
  cases hcursor with
  | @blocked b left' _ _ hleft halong' =>
    subst hleft
    refine ⟨hspec.valid h.valid, done, todo, seen ++ [b], left', hall,
      by simpa using hbad, ?_, halong'⟩
    rw [List.map_append, hseen]
    rfl

/-- What a query does to the way, and so what any number of them do. -/
theorem OnWay.after (h : lexer.OnWay source k reported) (queries : List Query) :
    (lexer.after queries).OnWay source (k + advances (lexer.moves queries))
      (reported ++ errors (lexer.moves queries)) := by
  induction queries generalizing lexer k reported with
  | nil =>
    show lexer.OnWay source (k + 0) (reported ++ [])
    rwa [Nat.add_zero, List.append_nil]
  | cons query queries ih =>
    rw [Lexer.after, moves, step_snd]
    cases query.moves with
    | false => exact ih h
    | true =>
      simp only [if_true]
      cases hnext : lexer.next.1 with
      | ok =>
        have hrest := ih (h.next_ok hnext)
        rw [Nat.add_assoc, Nat.add_comm 1, ← advances_ok_cons] at hrest
        exact hrest
      | error e =>
        have hrest := ih (h.next_error hnext)
        rw [List.append_assoc, ← advances_error_cons e] at hrest
        exact hrest

theorem OnWay.buffer (h : lexer.OnWay source k reported) :
    lexer.buffer.map Lexeme.token <+: source.reference.map Held.token := by
  obtain ⟨done, todo, seen, left, hall, -, -, halong⟩ := h.along
  obtain ⟨before, here, behind, hbuffer, hpos⟩ := h.valid.exists_split
  have htaken := halong.taken
  have hahead := halong.ahead
  rw [cursor_of_split hbuffer hpos] at htaken hahead
  obtain ⟨front, rest, rfl, hfront, -⟩ := hahead.exists_front
  have hbegin : lexer.buffer.map Lexeme.token = (done ++ front).map Held.token := by
    rw [List.map_append, htaken, hfront, hbuffer]
    simp
  rw [hbegin, ← hall, ← List.append_assoc]
  exact (List.prefix_append _ rest).map _

theorem OnWay.blocked_iff (h : lexer.OnWay source k reported) (e : LexError) :
    lexer.next.1 = .error e ↔ ∃ b token, source.badLines[reported.length]? = some b ∧
      source.reference[min (k + 1) (source.reference.length - 1)]? = some token ∧
      b.place < token.place ∧ b.error = e := by
  obtain ⟨done, todo, seen, left, hall, hbad, hseen, halong⟩ := h.along
  have hfirst : source.badLines[reported.length]? = left.head? := by
    rw [← hbad, ← hseen, List.length_map, List.getElem?_append_right (Nat.le_refl _),
      Nat.sub_self, List.head?_eq_getElem?]
  have hspec := nextSpec h.valid
  have hcursor := halong.next
  rw [hfirst, ← hall]
  generalize lexer.next = moved at hspec
  obtain ⟨result, lexer'⟩ := moved
  cases result with
  | ok =>
    rw [hspec.cursor_ok h.valid] at hcursor
    cases hcursor with
    | moved _ _ hleft =>
      constructor
      · rintro ⟨⟩
      · rintro ⟨b, token, hb, htoken, hplace, -⟩
        have hbehind := hleft b (List.mem_of_mem_head? hb) token htoken
        omega
  | error e' =>
    rw [hspec.cursor_error h.valid] at hcursor
    cases hcursor with
    | @blocked b left' token _ hleft _ hnext hplace =>
      rw [hleft, List.head?_cons]
      constructor
      · rintro ⟨⟩
        exact ⟨b, token, rfl, hnext, hplace, rfl⟩
      · rintro ⟨_, _, ⟨⟩, -, -, rfl⟩
        rfl

theorem OnWay.follows (h : lexer.OnWay source k reported) :
    lexer.Follows source k reported where
  buffer := h.buffer
  inside := h.valid.inside
  current := by
    obtain ⟨done, todo, seen, left, hall, -, -, halong⟩ := h.along
    rw [← hall]
    exact halong.current
  stays := by
    intro query hquery
    rw [step_snd, hquery]
    rfl
  inOrder := by
    obtain ⟨done, todo, seen, left, -, hbad, hseen, -⟩ := h.along
    rw [← hbad, ← hseen, List.map_append]
    exact List.prefix_append ..
  blocked := h.blocked_iff
  unmoved := by
    intro e hnext
    have hspec : lexer.NextSpec (.error e, lexer.next.2) := hnext ▸ nextSpec h.valid
    cases hspec with
    | blocked _ _ h => exact ⟨h.buffer, h.pos⟩

theorem onWay_ofSource (h : (ofSource source).1 = .ok ()) :
    (ofSource source).2.OnWay source 0 [] := by
  have hfirst : ofSource source = (.ok (), (ofSource source).2) := Prod.ext h rfl
  have hmerged := Source.merged_ofLines (Source.chopped_cut source.bytes) 0 0 0
  obtain ⟨token, todo, hall⟩ :=
    List.exists_cons_of_ne_nil (show source.reference ≠ [] by simp [Source.reference])
  have hheld : Source.heldToEnd 0 0 (Source.cut source.bytes) = token :: todo :=
    source.heldToEnd_zero.trans hall
  rw [hheld] at hmerged
  exact ⟨valid_ofSource hfirst, [token], todo, [], source.badLines, hall.symm, rfl, rfl,
    .start hmerged (cursor_ofSource hfirst)⟩

/-- A lexer that was opened follows the reference, whatever it is asked, and it gives
the answers of the cursor. -/
theorem follows_reference (source : Source) (h : (ofSource source).1 = .ok ())
    (queries : List Query) :
    ((ofSource source).2.after queries).Follows source
      (advances ((ofSource source).2.moves queries))
        (errors ((ofSource source).2.moves queries)) ∧
      Cursor.ofSource source = .ok (ofSource source).2.cursor ∧
      (ofSource source).2.cursor.answers queries =
        ((ofSource source).2.answers queries).map fun result =>
          (result.1, result.2.cursor) := by
  have hfirst : ofSource source = (.ok (), (ofSource source).2) := Prod.ext h rfl
  have hway := (onWay_ofSource h).after queries
  rw [Nat.zero_add, List.nil_append] at hway
  exact ⟨hway.follows, cursor_ofSource hfirst,
    (cursor_answers (valid_ofSource hfirst) queries).symm⟩

/-- A block with a blank line, an odd indentation and a byte that is not text behind it,
then a last line that is not closed. -/
def faultyLines : Source :=
  ⟨(Source.ofString "a:\n  b\n\n c\n").bytes ++ [255, Source.lineFeed, 100]⟩

/-- Queries up to the second error and one token beyond it. -/
def faultyQueries : List Query :=
  [.nextThen (.value (.char ':')), .check .id, .next, .nextThen .number, .nextThen .id,
    .token, .next, .next, .line, .next, .nextThen (.kind (.layout .dedent))]

theorem follows_reference_faultyLines :
    (ofSource faultyLines).1 = .ok () ∧
    advances ((ofSource faultyLines).2.moves faultyQueries) = 6 ∧
      errors ((ofSource faultyLines).2.moves faultyQueries) =
        [⟨4, .scan (.oddIndent 1)⟩, ⟨5, .unreadable .notUtf8⟩] ∧
      ((ofSource faultyLines).2.after faultyQueries).Follows faultyLines 6
        [⟨4, .scan (.oddIndent 1)⟩, ⟨5, .unreadable .notUtf8⟩] := by
  have hopen : (ofSource faultyLines).1 = .ok () := by
    have hok : (ofSource faultyLines).1.isOk = true := by decide +kernel
    cases hresult : (ofSource faultyLines).1 with
    | ok => rfl
    | error e =>
      rw [hresult] at hok
      cases hok
  have hadvances : advances ((ofSource faultyLines).2.moves faultyQueries) = 6 := by
    decide +kernel
  have herrors : errors ((ofSource faultyLines).2.moves faultyQueries) =
      [⟨4, .scan (.oddIndent 1)⟩, ⟨5, .unreadable .notUtf8⟩] := by decide +kernel
  have hfollows := (follows_reference faultyLines hopen faultyQueries).1
  rw [hadvances, herrors] at hfollows
  exact ⟨hopen, hadvances, herrors, hfollows⟩

end Lexer

end Mint
