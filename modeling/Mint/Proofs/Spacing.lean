import Mint.Proofs.Scanning

/-!
# Lines in any spacing

What a line can hold and how it can be written. The tokens of a line that is read are
scannable, followed by a newline mark if the line has its line break; and whatever
scannable tokens there are, they are read off the line that spells them, with any spaces
between them, spaces and a comment behind them, at any depth
(`Line.reading_inverts_spelling`).
-/

namespace Mint

namespace Line

/-- The text of a comment, if there is one. -/
def commentText : Option (List Char) → List Char
  | none => []
  | some text => '#' :: text

/-- The end of a line behind its last token: spaces, a comment, a line break. -/
def lineEnd (spaces : Nat) (comment : Option (List Char)) : List Char :=
  List.replicate spaces ' ' ++ commentText comment ++ ['\n']

/-- What a comment takes of the line is the whole comment. -/
theorem scan_comment {comment : Option (List Char)} (h : ∀ text ∈ comment, '\n' ∉ text) :
    scan 0 (commentText comment ++ ['\n']) = .ok [Token.newline] := by
  cases comment with
  | none => rfl
  | some text =>
    have htaken : (text ++ ['\n']).takeWhile (· ≠ '\n') = text := by
      refine takeWhile_append_of_head (fun c hc => decide_eq_true ?_) (fun c hc => ?_)
      · rintro rfl
        exact h text rfl hc
      · cases hc
        rfl
    have hlexeme : lexeme '#' (text ++ ['\n']) = .ok (none, text.length) := by
      rw [lexeme, if_neg (by decide), if_pos rfl, htaken]
    rw [commentText, List.cons_append, scan_of_lexeme (by decide) hlexeme, List.drop_left]
    rfl

theorem scan_lineEnd (spaces : Nat) {comment : Option (List Char)}
    (h : ∀ text ∈ comment, '\n' ∉ text) :
    scan 0 (lineEnd spaces comment) = .ok [Token.newline] := by
  rw [lineEnd, List.append_assoc, scan_spaces, scan_comment h]

theorem endsToken_lineEnd (spaces : Nat) (comment : Option (List Char)) :
    EndsToken (lineEnd spaces comment) := by
  rw [lineEnd, List.append_assoc]
  refine EndsToken.spaces ?_ spaces
  cases comment with
  | none => exact .cons_newline []
  | some text =>
    intro c hc
    cases hc
    exact .inr (.inr rfl)

theorem ofText_spaced (depth : Nat) {first : Token} (hfirst : first.isScannable = true)
    {more : List (Nat × Token)}
    (hmore : ∀ later ∈ more, 0 < later.1 ∧ later.2.isScannable = true) (spaces : Nat)
    {comment : Option (List Char)} (hcomment : ∀ text ∈ comment, '\n' ∉ text) :
    ofText (List.replicate (indentWidth * depth) ' ' ++
      (spellSpaced first more ++ lineEnd spaces comment)) =
      .ok ⟨depth, first :: more.map Prod.snd ++ [Token.newline]⟩ := by
  rw [ofText_indented _ (takeWhile_spellSpaced hfirst more _),
    scan_spellSpaced hfirst hmore (endsToken_lineEnd spaces comment),
    scan_lineEnd spaces hcomment]
  simp [indentWidth, Except.map]

/-- The lines that are read are those of scannable tokens, and spelling such tokens is
undone by reading the line, however they are spaced. -/
theorem reading_inverts_spelling :
    (∀ (body : List Char) (terminated : Bool) (line : Line),
      '\n' ∉ body → ofText (body ++ ending terminated) = .ok line →
      ∃ tokens, line.tokens = tokens ++ endMark terminated ∧ Scannable tokens) ∧
    ∀ (depth : Nat) (first : Token) (more : List (Nat × Token)) (spaces : Nat)
      (comment : Option (List Char)), Scannable (first :: more.map Prod.snd) →
        (∀ later ∈ more, 0 < later.1) → (∀ text ∈ comment, '\n' ∉ text) →
      ofText (List.replicate (indentWidth * depth) ' ' ++ spellSpaced first more ++
        List.replicate spaces ' '
          ++ commentText comment ++ ['\n']) =
        .ok ⟨depth, first :: more.map Prod.snd ++ [Token.newline]⟩ := by
  constructor
  · intro body terminated line hbody hline
    exact ⟨line.plain, ofText_eq_ok hbody hline, scannable_of_ofText hline⟩
  · intro depth first more spaces comment hscannable hgaps hcomment
    obtain ⟨hfirst, htokens⟩ := List.forall_mem_cons.mp hscannable
    have hmore : ∀ later ∈ more, 0 < later.1 ∧ later.2.isScannable = true :=
      fun later hlater => ⟨hgaps later hlater, htokens _ (List.mem_map_of_mem hlater)⟩
    rw [← ofText_spaced depth hfirst hmore spaces hcomment, lineEnd]
    simp only [List.append_assoc]

/-- A literal with quotes and a number sign in it, the halves of a relation apart, the
whole relation, and a reserved word beside a name that begins like it. -/
def spacedTokens : List (Nat × Token) :=
  [(1, .char '='), (3, .char '='), (1, .relation .eq), (2, .keyword .noneKw),
    (1, .id "None_"), (1, .number 0)]

theorem reading_inverts_spelling_quotedComment :
    (∃ tokens, (⟨1, [.id "x", .relation .lessOrEq, .string "#", .char '\r',
      Token.newline]⟩ : Line).tokens =
      tokens ++ endMark true ∧ Scannable tokens) ∧
    ofText "    \"it's\\n \\\"é\\\" #1\" =   = ==  None None_ 0# '\r\n".toList =
      .ok ⟨2,
        .string "it's\n \"é\" #1" :: spacedTokens.map Prod.snd ++ [Token.newline]⟩ := by
  obtain ⟨hread, hspelled⟩ := reading_inverts_spelling
  have hline : ofText ("  x<='#'\r # y".toList ++ ending true) =
      .ok ⟨1, [.id "x", .relation .lessOrEq, .string "#", .char '\r', Token.newline]⟩ :=
    eq_ok_of_toOption (by decide +kernel)
  have hscannable : Scannable (.string "it's\n \"é\" #1" :: spacedTokens.map Prod.snd) :=
    List.all_eq_true.mp (by decide +kernel)
  have hspelling := hspelled 2 _ spacedTokens 0 (some " '\r".toList) hscannable
    (by decide +kernel) (by decide +kernel)
  have htext : List.replicate (indentWidth * 2) ' ' ++
      spellSpaced (.string "it's\n \"é\" #1") spacedTokens ++ List.replicate 0 ' ' ++
      commentText (some " '\r".toList) ++ ['\n'] =
      "    \"it's\\n \\\"é\\\" #1\" =   = ==  None None_ 0# '\r\n".toList := by
    decide +kernel
  rw [htext] at hspelling
  exact ⟨hread _ true _ (by decide +kernel) hline, hspelling⟩

end Line

end Mint
