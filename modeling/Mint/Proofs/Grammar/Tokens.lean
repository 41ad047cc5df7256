import Mint.Proofs.Grammar
import Mint.Proofs.Line
import Mint.Proofs.Parser.Moves

/-!
# The tokens of phrases

What can be told of a phrase by its tokens alone: none of them is a layout mark, the
first of them shows what kind of phrase it is, and the token behind them shows whether
the phrase could go on.
-/

namespace Mint.Grammar

open Mint.Parser (Level)

/-! ## Tokens proper -/

theorem plain_dots (segments : List String) : Plain (dots segments) := by
  induction segments with
  | nil => exact .nil
  | cons segment segments ih => exact .cons rfl (.cons rfl ih)

theorem isLayout_of_join? {level : Level} {op : Token} {join : Node → Node → Node}
    (h : level.join? op = some join) : op.isLayout = false := by
  cases op with
  | layout mark => cases level <;> cases h
  | _ => rfl

theorem isLayout_of_comparator? {op : Token} {comparator : Comparator}
    (h : Parser.comparator? op = some comparator) : op.isLayout = false := by
  cases op with
  | layout mark => cases h
  | _ => rfl

theorem isLayout_of_constant? {token : Token} {node : Node}
    (h : Parser.constant? token = some node) :
    token.isLayout = false := by
  cases token with
  | layout mark => cases h
  | _ => rfl

/-- A constant is a literal or nothing. -/
theorem lit_of_constant? {token : Token} {node : Node}
    (h : Parser.constant? token = some node) :
    (∃ value, node = .lit value) ∨ node = .none := by
  cases token with
  | number value => exact .inl ⟨_, (Option.some.inj h).symm⟩
  | string text => exact .inl ⟨_, (Option.some.inj h).symm⟩
  | keyword word =>
    cases word with
    | trueKw | falseKw => exact .inl ⟨_, (Option.some.inj h).symm⟩
    | noneKw => exact .inr (Option.some.inj h).symm
    | _ => cases h
  | _ => cases h

/-- No phrase holds a layout mark. -/
theorem Spells.plain {classes : ClassTable} {ts : List Token} {phrase : Phrase}
    (h : Spells classes ts phrase) :
    Plain ts := by
  induction h with
  | chainEnd | callsEnd => exact .nil
  | grouped _ _ _ ih ih' | called _ _ ih ih' => exact ih.append ih'
  | chainStep hop _ _ ih ih' => exact .cons (isLayout_of_join? hop) (ih.append ih')
  | comparison hop _ _ ih ih' => exact ih.append (.cons (isLayout_of_comparator? hop) ih')
  | constant h => exact .cons (isLayout_of_constant? h) .nil
  | negation _ ih | negative _ ih | creation _ _ _ ih => exact .cons rfl ih
  | positive _ ih | operand _ ih | lastExpression _ ih => exact ih
  | name => exact .cons rfl (plain_dots _)
  | callsStep _ _ ih ih' => exact .cons rfl (.cons rfl (ih.append ih'))
  | parenthesized _ ih | someArguments _ ih =>
    exact .cons rfl (ih.append (.cons rfl .nil))
  | conversion _ ih => exact .cons rfl (.cons rfl (ih.append (.cons rfl .nil)))
  | methodCall _ ih => exact .cons rfl ((plain_dots _).append ih)
  | noArguments => exact .cons rfl (.cons rfl .nil)
  | moreExpressions _ _ ih ih' => exact ih.append (.cons rfl ih')

/-! ## Where phrases begin and end -/

/-- How loosely a level binds. -/
def height : Level → Nat
  | .sign => 0
  | .product => 1
  | .sum => 2
  | .comparison => 3
  | .negation => 4
  | .conjunction => 5
  | .disjunction => 6

/-- The level at which a token continues an expression that stands before it. -/
def continues? : Token → Option Level
  | .char '.' | .char '(' => some .sign
  | .char '*' | .char '/' => some .product
  | .char '+' | .char '-' => some .sum
  | .char '<' | .char '>' | .relation _ => some .comparison
  | .keyword .andKw => some .conjunction
  | .keyword .orKw => some .disjunction
  | _ => none

/-- The token does not continue an expression of the level. -/
def Stops (level : Level) (token : Token) : Prop :=
  ∀ l ∈ continues? token, height level < height l

/-- The token begins an atom or a name. -/
def startsAtom : Token → Bool
  | .char '(' | .id _ => true
  | token => (Parser.constant? token).isSome

/-- The token begins an expression of the level. -/
def starts (level : Level) (token : Token) : Bool :=
  startsAtom token || token == .char '-' ||
    (token == .keyword .notKw && decide (4 ≤ height level))

theorem height_operand (level : Level) : height level.operand ≤ height level := by
  cases level <;> decide

theorem height_operand_of_groups {level : Level} (h : groups level = true) :
    height level.operand < height level := by
  cases level <;> first | decide | cases h

theorem Stops.mono {level level' : Level} {token : Token} (h : Stops level token)
    (hle : height level' ≤ height level) : Stops level' token :=
  fun l hl => Nat.lt_of_le_of_lt hle (h l hl)

theorem stops_of_none {level : Level} {token : Token} (h : continues? token = none) :
    Stops level token := by
  intro l hl
  rw [h] at hl
  cases hl

theorem continues?_of_join? {level : Level} {token : Token} {join : Node → Node → Node}
    (h : level.join? token = some join) : continues? token = some level := by
  unfold Level.join? at h
  split at h <;> first | rfl | cases h

theorem continues?_of_comparator? {token : Token} {comparator : Comparator}
    (h : Parser.comparator? token = some comparator) :
    continues? token = some .comparison := by
  unfold Parser.comparator? at h
  split at h <;> first | rfl | cases h

theorem Stops.join?_eq_none {level : Level} {token : Token} (h : Stops level token) :
    level.join? token = none := by
  cases hjoin : level.join? token with
  | none => rfl
  | some join => exact absurd (h level (continues?_of_join? hjoin)) (Nat.lt_irrefl _)

theorem Stops.comparator?_eq_none {token : Token} (h : Stops .comparison token) :
    Parser.comparator? token = none := by
  cases hop : Parser.comparator? token with
  | none => rfl
  | some op =>
    exact absurd (h .comparison (continues?_of_comparator? hop)) (Nat.lt_irrefl _)

theorem Stops.isChar_eq_false {level : Level} {token : Token} {c : Char}
    (h : Stops level token) (hc : continues? (.char c) = some .sign) :
    token.isChar c = false := by
  cases hchar : token.isChar c with
  | false => rfl
  | true =>
    rw [Parser.isChar_iff.mp hchar] at h
    exact absurd (h .sign hc) (Nat.not_lt_zero _)

/-- What is known of the first token of a phrase. -/
def Phrase.Starts (ts : List Token) : Phrase → Prop
  | .expression level _ => ∃ token rest, ts = token :: rest ∧ starts level token = true
  | .atom _ => ∃ token rest, ts = token :: rest ∧ startsAtom token = true
  | .arguments _ => ∃ rest, ts = .char '(' :: rest
  | .expressions _ => ∃ token rest, ts = token :: rest ∧ starts .disjunction token = true
  | .chain _ _ _ | .calls _ _ => True

theorem starts_mono {level level' : Level} {token : Token} (h : starts level token = true)
    (hle : height level ≤ height level') : starts level' token = true := by
  simp only [starts, Bool.or_eq_true, Bool.and_eq_true, decide_eq_true_eq] at h ⊢
  rcases h with h | ⟨h, h'⟩
  · exact .inl h
  · exact .inr ⟨h, Nat.le_trans h' hle⟩

theorem starts_of_startsAtom {level : Level} {token : Token}
    (h : startsAtom token = true) :
    starts level token = true := by
  simp [starts, h]

theorem Spells.starts {classes : ClassTable} {ts : List Token} {phrase : Phrase}
    (h : Spells classes ts phrase) :
    phrase.Starts ts := by
  induction h with
  | grouped _ _ _ ih _ =>
    obtain ⟨token, rest, rfl, htoken⟩ := ih
    exact ⟨token, _, rfl, starts_mono htoken (height_operand _)⟩
  | chainEnd | chainStep | callsEnd | callsStep => trivial
  | negation | negative => exact ⟨_, _, rfl, rfl⟩
  | positive _ ih | operand _ ih =>
    obtain ⟨token, rest, rfl, htoken⟩ := ih
    exact ⟨token, _, rfl, starts_mono htoken (by decide)⟩
  | comparison _ _ _ ih _ =>
    obtain ⟨token, rest, rfl, htoken⟩ := ih
    exact ⟨token, _, rfl, starts_mono htoken (by decide)⟩
  | name => exact ⟨_, _, rfl, rfl⟩
  | called _ _ ih _ =>
    obtain ⟨token, rest, rfl, htoken⟩ := ih
    exact ⟨token, _, rfl, starts_of_startsAtom htoken⟩
  | @constant token node h => 
    refine ⟨token, [], rfl, ?_⟩
    unfold startsAtom
    split
    · rfl
    · rfl
    · rw [h]; rfl
  | parenthesized | methodCall | conversion | creation => exact ⟨_, _, rfl, rfl⟩
  | noArguments | someArguments => exact ⟨_, rfl⟩
  | lastExpression _ ih => exact ih
  | moreExpressions _ _ ih _ =>
    obtain ⟨token, rest, rfl, htoken⟩ := ih
    exact ⟨token, _, rfl, htoken⟩

end Mint.Grammar
