import Mint.Proofs.Parser.Congruence
import Mint.Proofs.Parser.Ending

/-!
# What parsing does not depend on

Two streams may begin alike and go on in different ways. As long as a parser has not
left what they share, it does the same on both, and once it has, everything it meets is
on a later line than the shared part (`Local`). An error on a line of the shared part is
therefore found on both streams.
-/

namespace Mint

/-- The state has nothing before it but lines behind `limit`. -/
structure Beyond (limit : Nat) (s : ParserState) : Prop where
  current : limit < s.cursor.line
  ahead : ∀ reading ∈ s.cursor.ahead, limit < reading.line

/-- The run has ended behind `limit`: if it failed, either the token it stands on is
there or its error is. -/
def EndsBeyond (limit : Nat) {α : Type} :
    Outcome (ParseError × ParserState) (α × ParserState) → Prop
  | .done (_, t) => Beyond limit t
  | .failed (e, t) => limit < e.line ∨ limit < t.cursor.line
  | .starved => True

/-- What two streams share ends in an error, or in the end of both, or where the first
goes on behind `limit`. -/
def Shared (limit : Nat) (shared rest rest' : List Reading) : Prop :=
  (∃ e, Reading.fault e ∈ shared) ∨ (rest = [] ∧ rest' = []) ∨
    rest ≠ [] ∧ ∀ reading ∈ rest, limit < reading.line

theorem Shared.tail {limit : Nat} {lexeme : Lexeme} {shared rest rest' : List Reading}
    (h : Shared limit (.token lexeme :: shared) rest rest') :
    Shared limit shared rest rest' := by
  refine h.imp_left ?_
  rintro ⟨e, he⟩
  rcases List.mem_cons.mp he with heq | hmem
  · cases heq
  · exact ⟨e, hmem⟩

/-- The states differ in nothing but the rest of their streams. -/
structure Alike (limit : Nat) (rest rest' : List Reading) (s s' : ParserState) :
    Prop where
  passed : s'.cursor.passed = s.cursor.passed
  current : s'.cursor.current = s.cursor.current
  classes : s'.classes = s.classes
  ahead : ∃ shared, s.cursor.ahead = shared ++ rest ∧ s'.cursor.ahead = shared ++ rest' ∧
    Shared limit shared rest rest'

/-- Two runs end alike, or the first has gone beyond the limit. -/
inductive EndsAlike (limit : Nat) (rest rest' : List Reading) {α : Type} :
    Outcome (ParseError × ParserState) (α × ParserState) →
    Outcome (ParseError × ParserState) (α × ParserState) → Prop where
  | done {a t t'} (h : Alike limit rest rest' t t') :
    EndsAlike limit rest rest' (.done (a, t)) (.done (a, t'))
  | failed {e t t'} : EndsAlike limit rest rest' (.failed (e, t)) (.failed (e, t'))
  | beyond {x y} (h : EndsBeyond limit x) : EndsAlike limit rest rest' x y

/-- Alike states are led to alike ends, as long as the first does not go beyond the
limit. -/
structure Local (limit : Nat) (rest rest' : List Reading) {α : Type} (x y : Parser α) :
    Prop where
  alike : ∀ {s s'}, Alike limit rest rest' s s' → EndsAlike limit rest rest' (x s) (y s')
  beyond : ∀ {s}, Beyond limit s → EndsBeyond limit (x s)

namespace Local

open Mint.Parser

variable {limit : Nat} {rest rest' : List Reading} {α β : Type}

theorem endsBeyond_bind {x : Parser α} {f : α → Parser β} {s : ParserState}
    (hx : EndsBeyond limit (x s))
    (hf : ∀ a {t}, Beyond limit t → EndsBeyond limit (f a t)) :
    EndsBeyond limit ((x >>= f) s) := by
  cases hxs : x s with
  | done r =>
    rw [hxs] at hx
    rw [Run.bind_done hxs]
    exact hf r.1 hx
  | failed r =>
    rw [hxs] at hx
    rw [Run.bind_failed hxs]
    exact hx
  | starved =>
    rw [Run.bind_starved hxs]
    trivial

theorem bind {x y : Parser α} {f g : α → Parser β} (hx : Local limit rest rest' x y)
    (hf : ∀ a, Local limit rest rest' (f a) (g a)) :
    Local limit rest rest' (x >>= f) (y >>= g) where
  alike := by
    intro s s' h
    have hends := hx.alike h
    rw [Run.bind_apply y]
    generalize y s' = outcome at hends
    cases hxs : x s with
    | starved =>
      rw [Run.bind_starved hxs]
      exact .beyond trivial
    | failed r =>
      rw [Run.bind_failed hxs]
      rw [hxs] at hends
      cases hends with
      | failed => exact .failed
      | beyond h => exact .beyond h
    | done r =>
      obtain ⟨a, t⟩ := r
      rw [Run.bind_done hxs]
      rw [hxs] at hends
      cases hends with
      | done h => exact (hf a).alike h
      | beyond h => exact .beyond ((hf a).beyond h)
  beyond := fun h => endsBeyond_bind (hx.beyond h) fun a _ ht => (hf a).beyond ht

theorem pure (a : α) : Local limit rest rest' (Pure.pure a) (Pure.pure a) :=
  ⟨fun h => .done h, fun h => h⟩

theorem starve (y : Parser α) : Local limit rest rest' Run.starve y :=
  ⟨fun _ => .beyond trivial, fun _ => trivial⟩

theorem fail (e : ParseError) :
    Local limit rest rest' (Run.fail e : Parser α) (Run.fail e) :=
  ⟨fun _ => .failed, fun h => .inr h.current⟩

/-- Looking at what alike states have in common. -/
theorem gets {f : ParserState → α}
    (hf : ∀ {s s'}, Alike limit rest rest' s s' → f s' = f s) :
    Local limit rest rest' (Run.gets f) (Run.gets f) where
  alike := by
    intro s s' h
    show EndsAlike limit rest rest' (.done (f s, s)) (.done (f s', s'))
    rw [hf h]
    exact .done h
  beyond := fun h => h

theorem check {passes : Cursor → Except LexError α}
    (hpasses : ∀ {c c'}, c.current = c'.current → passes c = passes c') :
    Local limit rest rest' (check passes) (check passes) where
  alike := by
    intro s s' h
    rw [Parser.check, Parser.check, hpasses h.current]
    cases passes s.cursor with
    | ok a => exact .done h
    | error e => exact .failed
  beyond := by
    intro s h
    rw [Parser.check]
    cases passes s.cursor with
    | ok a => exact h
    | error e => exact .inr h.current

theorem declare (cls : Class) : Local limit rest rest' (declare cls) (declare cls) where
  alike := by
    intro s s' h
    show EndsAlike limit rest rest'
      (.done (s.classes.size, { s with classes := s.classes.push cls }))
      (.done (s'.classes.size, { s' with classes := s'.classes.push cls }))
    rw [h.classes]
    exact .done ⟨h.passed, h.current, rfl, h.ahead⟩
  beyond := fun h => ⟨h.current, h.ahead⟩

/-- A move behind the limit leads on behind it. -/
theorem advance_beyond {s : ParserState}
    (h : ∀ reading ∈ s.cursor.ahead, limit < reading.line)
    (hne : s.cursor.ahead = [] → limit < s.cursor.line) :
    EndsBeyond limit (advance s) := by
  obtain ⟨⟨passed, current, ahead⟩, classes⟩ := s
  cases ahead with
  | nil => exact ⟨hne rfl, h⟩
  | cons reading ahead =>
    obtain ⟨hreading, hahead⟩ := List.forall_mem_cons.mp h
    cases reading with
    | token lexeme => exact ⟨hreading, hahead⟩
    | fault e => exact .inl hreading

theorem advance : Local limit rest rest' advance advance where
  alike := by
    intro s s' h
    obtain ⟨⟨passed, current, ahead⟩, classes⟩ := s
    obtain ⟨⟨_, _, ahead'⟩, _⟩ := s'
    obtain ⟨⟨⟩, ⟨⟩, ⟨⟩, shared, ⟨⟩, ⟨⟩, hshared⟩ := h
    cases shared with
    | nil =>
      rcases hshared with ⟨e, he⟩ | ⟨rfl, rfl⟩ | ⟨hne, hrest⟩
      · cases he
      · exact .done ⟨rfl, rfl, rfl, [], rfl, rfl, .inr (.inl ⟨rfl, rfl⟩)⟩
      · exact .beyond (advance_beyond hrest fun hnil => absurd hnil hne)
    | cons reading shared =>
      cases reading with
      | fault e => exact .failed
      | token lexeme => exact .done ⟨rfl, rfl, rfl, shared, rfl, rfl, hshared.tail⟩
  beyond := fun h => advance_beyond h.ahead fun _ => h.current

theorem congruence (limit : Nat) (rest rest' : List Reading) :
    Parser.Congruence id (Local limit rest rest') where
  pure a := pure a
  bind hx hf := hx.bind hf
  starve y := starve y
  fail e := by
    rw [ParseError.renumber_id]
    exact fail e
  look f := gets fun h => by rw [Cursor.token, h.current]
  line hf := (gets fun h => by rw [Cursor.line, h.current]).bind hf
  latest? name := gets fun h => by rw [h.classes]
  advance := advance
  check h :=
    check fun hcurrent => ((h hcurrent.symm).trans (LexError.mapError_renumber_id _)).symm
  declare cls := declare cls

theorem statements (fuel : Nat) (stop : Token → Bool) (inMethod : Bool) :
    Local limit rest rest' (statements fuel stop inMethod)
      (statements fuel stop inMethod) :=
  ((congruence limit rest rest').statements (Nat.le_refl fuel)).statements stop inMethod

end Local

end Mint
