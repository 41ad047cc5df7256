import Mint.Proofs.Eval.Congruence

/-!
# A full sink only truncates

Code cannot see its output. A run on a sink of limited capacity therefore does what the
run on an unlimited sink does, step by step, until a write does not fit; from there on
it fails with that one error, and what it leaves behind is the beginning of what the
unlimited run writes.

`Run.Truncates` relates the two runs. The limited run keeps step as long as the output
fits. Where it does not fit any more the unlimited run may still go on, and it matters
only that it never takes back a byte.
-/

namespace Mint

namespace Sink

/-- The sink with another capacity and another way to meet a flush. -/
def onto (sink : Sink) (capacity : Option Nat) (refusesFlush : Bool) : Sink :=
  { sink with capacity, refusesFlush }

/-- What was written is no more than a capacity. -/
def Within (sink : Sink) (capacity : Option Nat) : Prop :=
  ∀ n, capacity = some n → sink.written.size ≤ n

/-- `sink` has outgrown a capacity, and `short` holds as much of it as the capacity
admits. -/
def CutShort (capacity : Option Nat) (sink short : Sink) : Prop :=
  ∃ n, capacity = some n ∧ n < sink.written.size ∧
    short.written = sink.written.extract 0 n ∧
    short.flushes = sink.flushes

/-- Nothing but writing happened between two states of a sink. -/
structure Grew (before after : Sink) : Prop where
  written : ∃ more, after.written = before.written ++ more
  capacity : after.capacity = before.capacity
  refusesFlush : after.refusesFlush = before.refusesFlush
  flushes : after.flushes = before.flushes

theorem Grew.refl (sink : Sink) : Grew sink sink := ⟨⟨.empty, by simp⟩, rfl, rfl, rfl⟩

theorem Grew.trans {s t u : Sink} (h : Grew s t) (k : Grew t u) : Grew s u := by
  obtain ⟨more, hmore⟩ := h.written
  obtain ⟨rest, hrest⟩ := k.written
  refine ⟨⟨more ++ rest, ?_⟩, k.capacity.trans h.capacity,
    k.refusesFlush.trans h.refusesFlush, k.flushes.trans h.flushes⟩
  rw [hrest, hmore, ByteArray.append_assoc]

/-- What was cut short stays so however much more is written. -/
theorem CutShort.grew {capacity : Option Nat} {s t short : Sink}
    (h : CutShort capacity s short) (k : Grew s t) : CutShort capacity t short := by
  obtain ⟨n, hn, hlt, hshort, hflushes⟩ := h
  obtain ⟨more, hmore⟩ := k.written
  refine ⟨n, hn, ?_, ?_, hflushes.trans k.flushes.symm⟩
  · rw [hmore, ByteArray.size_append]
    omega
  · have hzero : n - s.written.size = 0 := by omega
    rw [hshort, hmore, ByteArray.extract_append, hzero, Nat.zero_sub,
      ByteArray.extract_same, ByteArray.append_empty]

/-- A write that fits is taken whole. -/
theorem write_of_fits (sink : Sink) (bytes : ByteArray)
    (h : ∀ n, sink.capacity = some n → sink.written.size + bytes.size ≤ n) :
    sink.write bytes = (none, { sink with written := sink.written ++ bytes }) := by
  have hfitting : sink.fitting bytes.size = bytes.size := by
    unfold fitting
    split
    · rfl
    · next n hn =>
      have := h n hn
      omega
  simp [write, hfitting]

/-- A write that does not fit fills the sink and fails. -/
theorem write_of_exceeds (sink : Sink) (bytes : ByteArray) {n : Nat}
    (h : sink.capacity = some n) (hsize : sink.written.size ≤ n)
    (hexceeds : n < sink.written.size + bytes.size) :
    sink.write bytes =
      (some .full, { sink with written := (sink.written ++ bytes).extract 0 n }) := by
  have hmin : min bytes.size (n - sink.written.size) = n - sink.written.size := by omega
  have hlt : n - sink.written.size < bytes.size := by omega
  have hwhole : sink.written.extract 0 n = sink.written := by
    have : max n sink.written.size = n := by omega
    rw [← this, ByteArray.extract_zero_max_size]
  simp [write, fitting, h, hmin, hlt, ByteArray.extract_append, hwhole]

end Sink

/-! ## Two runs -/

/-- Where a state keeps its sink, the same state on the other sink, and the error of a
full sink. -/
structure Outlet (ε σ : Type) where
  sink : σ → Sink
  onto : σ → σ
  full : ε

section

variable {ε σ α β : Type}

/-- How the run on the limited sink ends, given how the run on the unlimited one does. -/
inductive Cut (o : Outlet ε σ) (capacity : Option Nat) :
    Outcome (ε × σ) (α × σ) → Outcome (ε × σ) (α × σ) → Prop where
  /-- Nothing is said about runs that starve. -/
  | starved {y} : Cut o capacity .starved y
  | done {a s} (h : (o.sink s).Within capacity) :
    Cut o capacity (.done (a, s)) (.done (a, o.onto s))
  | failed {e s} (h : (o.sink s).Within capacity) :
    Cut o capacity (.failed (e, s)) (.failed (e, o.onto s))
  | doneShort {a s t} (h : Sink.CutShort capacity (o.sink s) (o.sink t)) :
    Cut o capacity (.done (a, s)) (.failed (o.full, t))
  | failedShort {e s t} (h : Sink.CutShort capacity (o.sink s) (o.sink t)) :
    Cut o capacity (.failed (e, s)) (.failed (o.full, t))

namespace Cut

variable {o : Outlet ε σ} {capacity : Option Nat} {a : α} {e : ε} {s : σ} {n : Nat}
  {y : Outcome (ε × σ) (α × σ)}

theorem eq_done (h : Cut o capacity (.done (a, s)) y) (hw : (o.sink s).Within capacity) :
    y = .done (a, o.onto s) := by
  cases h with
  | done _ => rfl
  | doneShort hshort =>
    obtain ⟨n, hn, hlt, -⟩ := hshort
    exact absurd (hw n hn) (Nat.not_le.mpr hlt)

theorem eq_failed (h : Cut o capacity (.failed (e, s)) y)
    (hw : (o.sink s).Within capacity) :
    y = .failed (e, o.onto s) := by
  cases h with
  | failed _ => rfl
  | failedShort hshort =>
    obtain ⟨n, hn, hlt, -⟩ := hshort
    exact absurd (hw n hn) (Nat.not_le.mpr hlt)

theorem full_of_done (h : Cut o (some n) (.done (a, s)) y)
    (hlt : n < (o.sink s).written.size) :
    ∃ t, y = .failed (o.full, t) ∧
      (o.sink t).written = (o.sink s).written.extract 0 n := by
  cases h with
  | done hw => exact absurd (hw n rfl) (Nat.not_le.mpr hlt)
  | doneShort hshort =>
    obtain ⟨k, hk, -, hwritten, -⟩ := hshort
    cases hk
    exact ⟨_, rfl, hwritten⟩

theorem full_of_failed (h : Cut o (some n) (.failed (e, s)) y)
    (hlt : n < (o.sink s).written.size) :
    ∃ t, y = .failed (o.full, t) ∧
      (o.sink t).written = (o.sink s).written.extract 0 n := by
  cases h with
  | failed hw => exact absurd (hw n rfl) (Nat.not_le.mpr hlt)
  | failedShort hshort =>
    obtain ⟨k, hk, -, hwritten, -⟩ := hshort
    cases hk
    exact ⟨_, rfl, hwritten⟩

end Cut

/-- `y` on the limited sink does what `x` does on the unlimited one, as far as the
capacity goes. -/
structure Run.Truncates (o : Outlet ε σ) (capacity : Option Nat) (x y : Run ε σ α) :
    Prop where
  cut : ∀ s, (o.sink s).capacity = none → (o.sink s).Within capacity →
    Cut o capacity (x s) (y (o.onto s))
  doneGrew : ∀ {s a s'}, x s = .done (a, s') → (o.sink s).Grew (o.sink s')
  failedGrew : ∀ {s e s'}, x s = .failed (e, s') → (o.sink s).Grew (o.sink s')

namespace Run.Truncates

variable {o : Outlet ε σ} {capacity : Option Nat}

theorem starve (y : Run ε σ α) : Run.Truncates o capacity Run.starve y where
  cut _ _ _ := .starved
  doneGrew h := by cases h
  failedGrew h := by cases h

/-- Code that yields a value, leaves the sink alone and does not look at it. -/
theorem quietDone {x : Run ε σ α} (a : σ → α) (next : σ → σ)
    (h : ∀ s, x s = .done (a s, next s)) (hsink : ∀ s, o.sink (next s) = o.sink s)
    (hvalue : ∀ s, a (o.onto s) = a s) (hnext : ∀ s, next (o.onto s) = o.onto (next s)) :
    Run.Truncates o capacity x x where
  cut s _ hs := by
    rw [h, h, hvalue, hnext]
    exact .done (by rwa [hsink])
  doneGrew hd := by
    rw [h] at hd
    cases hd
    rw [hsink]
    exact .refl _
  failedGrew hf := by
    rw [h] at hf
    cases hf

/-- Code that fails, leaves the sink alone and does not look at it. -/
theorem fail (e : ε) :
    Run.Truncates o capacity (Run.fail e : Run ε σ α) (Run.fail e) where
  cut _ _ hs := .failed hs
  doneGrew h := by cases h
  failedGrew h := by
    cases h
    exact .refl _

theorem bind {x y : Run ε σ α} {f g : α → Run ε σ β} (h : Run.Truncates o capacity x y)
    (k : ∀ a, Run.Truncates o capacity (f a) (g a)) :
    Run.Truncates o capacity (x >>= f) (y >>= g) where
  cut s hs hw := by
    have hcut := h.cut s hs hw
    cases hx : x s with
    | starved =>
      rw [Run.bind_starved hx]
      exact .starved
    | failed r =>
      obtain ⟨e, s'⟩ := r
      rw [hx] at hcut
      rw [Run.bind_failed hx]
      generalize hy : y (o.onto s) = r at hcut
      cases hcut with
      | failed hw' =>
        rw [Run.bind_failed hy]
        exact .failed hw'
      | failedShort hshort =>
        rw [Run.bind_failed hy]
        exact .failedShort hshort
    | done r =>
      obtain ⟨a, s'⟩ := r
      have hs' : (o.sink s').capacity = none := (h.doneGrew hx).capacity.trans hs
      rw [hx] at hcut
      rw [Run.bind_done hx]
      generalize hy : y (o.onto s) = r at hcut
      cases hcut with
      | done hw' =>
        rw [Run.bind_done hy]
        exact (k a).cut s' hs' hw'
      | doneShort hshort =>
        -- the limited run is over; the other one goes on and only adds to its output
        rw [Run.bind_failed hy]
        cases hf : f a s' with
        | starved => exact .starved
        | done r => exact .doneShort (hshort.grew ((k a).doneGrew hf))
        | failed r => exact .failedShort (hshort.grew ((k a).failedGrew hf))
  doneGrew {s b s'} hb := by
    cases hx : x s with
    | starved =>
      rw [Run.bind_starved hx] at hb
      cases hb
    | failed r =>
      rw [Run.bind_failed hx] at hb
      cases hb
    | done r =>
      obtain ⟨a, t⟩ := r
      rw [Run.bind_done hx] at hb
      exact (h.doneGrew hx).trans ((k a).doneGrew hb)
  failedGrew {s e s'} he := by
    cases hx : x s with
    | starved =>
      rw [Run.bind_starved hx] at he
      cases he
    | failed r =>
      rw [Run.bind_failed hx] at he
      cases he
      exact h.failedGrew hx
    | done r =>
      obtain ⟨a, t⟩ := r
      rw [Run.bind_done hx] at he
      exact (h.doneGrew hx).trans ((k a).failedGrew he)

end Run.Truncates

end

/-! ## Actions and code -/

/-- The sink of a machine. -/
def Machine.outlet (capacity : Option Nat) (refusesFlush : Bool) :
    Outlet EvalError Machine where
  sink m := m.sink
  onto m := { m with sink := m.sink.onto capacity refusesFlush }
  full := .output .full

/-- The sink of the machine that code in a scope runs on. -/
def Frame.outlet (capacity : Option Nat) (refusesFlush : Bool) : Outlet Signal Frame where
  sink f := f.machine.sink
  onto f := { f with machine := (Machine.outlet capacity refusesFlush).onto f.machine }
  full := .error (.output .full)

/-- Truncation of actions. -/
abbrev Action.Truncates (capacity : Option Nat) (refusesFlush : Bool) {α : Type}
    (x y : Action α) : Prop :=
  Run.Truncates (Machine.outlet capacity refusesFlush) capacity x y

/-- Truncation of code in a scope. -/
abbrev Exec.Truncates (capacity : Option Nat) (refusesFlush : Bool) {α : Type}
    (x y : Exec α) : Prop :=
  Run.Truncates (Frame.outlet capacity refusesFlush) capacity x y

section

variable {capacity : Option Nat} {refusesFlush : Bool} {α : Type}

theorem Sink.grew_write (sink : Sink) (bytes : ByteArray) :
    sink.Grew (sink.write bytes).2 :=
  ⟨⟨_, rfl⟩, rfl, rfl, rfl⟩

theorem Action.write_done {m : Machine} {text : String} {sink : Sink}
    (h : m.sink.write text.toUTF8 = (none, sink)) :
    Action.write text m = .done ((), { m with sink }) := by
  simp only [Action.write, h]

theorem Action.write_failed {m : Machine} {text : String} {fault : Sink.Fault}
    {sink : Sink} (h : m.sink.write text.toUTF8 = (some fault, sink)) :
    Action.write text m = .failed (.output fault, { m with sink }) := by
  simp only [Action.write, h]

theorem Action.write_truncates (text : String) :
    Action.Truncates capacity refusesFlush (Action.write text) (Action.write text) where
  cut m hm hw := by
    have hnone :
        ∀ n, m.sink.capacity = some n → m.sink.written.size + text.toUTF8.size ≤ n := by
      intro n hn
      rw [show m.sink.capacity = none from hm] at hn
      cases hn
    rw [Action.write_done (Sink.write_of_fits _ _ hnone)]
    by_cases hfits : ∀ n, capacity = some n → m.sink.written.size + text.toUTF8.size ≤ n
    · have hy := Sink.write_of_fits (m.sink.onto capacity refusesFlush) text.toUTF8 hfits
      rw [Action.write_done (m := (Machine.outlet capacity refusesFlush).onto m) hy]
      refine .done (o := Machine.outlet capacity refusesFlush) fun n hn => ?_
      show (m.sink.written ++ text.toUTF8).size ≤ n
      rw [ByteArray.size_append]
      exact hfits n hn
    · obtain ⟨n, hn, hlt⟩ :
          ∃ n, capacity = some n ∧ n < m.sink.written.size + text.toUTF8.size := by
        simpa using hfits
      have hy := Sink.write_of_exceeds (m.sink.onto capacity refusesFlush) text.toUTF8 hn
        (hw n hn) hlt
      rw [Action.write_failed (m := (Machine.outlet capacity refusesFlush).onto m) hy]
      refine .doneShort (o := Machine.outlet capacity refusesFlush) ⟨n, hn, ?_, rfl, rfl⟩
      show n < (m.sink.written ++ text.toUTF8).size
      rw [ByteArray.size_append]
      exact hlt
  doneGrew {m a m'} h := by
    have hg := m.sink.grew_write text.toUTF8
    simp only [Action.write] at h
    split at h
    · next sink hs =>
      cases h
      rw [hs] at hg
      exact hg
    · cases h
  failedGrew {m e m'} h := by
    have hg := m.sink.grew_write text.toUTF8
    simp only [Action.write] at h
    split at h
    · cases h
    · next fault sink hs =>
      cases h
      rw [hs] at hg
      exact hg

theorem Exec.ofAction_truncates {x y : Action α}
    (h : Action.Truncates capacity refusesFlush x y) :
    Exec.Truncates capacity refusesFlush (Exec.ofAction x) (Exec.ofAction y) where
  cut f hf hw := by
    have hcut := h.cut f.machine hf hw
    show Cut _ _ (Exec.ofAction x f) (Exec.ofAction y ⟨f.scope, _⟩)
    simp only [Exec.ofAction]
    generalize hx : x f.machine = rx at hcut
    generalize hy : y ((Machine.outlet capacity refusesFlush).onto f.machine) = ry at hcut
    cases hcut with
    | starved => exact .starved
    | done hs => exact .done (o := Frame.outlet capacity refusesFlush) hs
    | failed hs => exact .failed (o := Frame.outlet capacity refusesFlush) hs
    | doneShort hs => exact .doneShort (o := Frame.outlet capacity refusesFlush) hs
    | failedShort hs => exact .failedShort (o := Frame.outlet capacity refusesFlush) hs
  doneGrew {f a f'} hd := by
    simp only [Exec.ofAction] at hd
    split at hd
    · next hx =>
      cases hd
      exact h.doneGrew hx
    · cases hd
    · cases hd
  failedGrew {f e f'} hd := by
    simp only [Exec.ofAction] at hd
    split at hd
    · cases hd
    · next hx =>
      cases hd
      exact h.failedGrew hx
    · cases hd

theorem Exec.catchReturn_truncates {x y : Exec Value}
    (h : Exec.Truncates capacity refusesFlush x y) :
    Exec.Truncates capacity refusesFlush (Exec.catchReturn x) (Exec.catchReturn y) where
  cut f hf hw := by
    have hcut := h.cut f hf hw
    simp only [Exec.catchReturn]
    generalize hx : x f = rx at hcut
    generalize hy : y ((Frame.outlet capacity refusesFlush).onto f) = ry at hcut
    cases hcut with
    | starved => exact .starved
    | done hs => exact .done hs
    | @failed e s hs =>
      cases e with
      | returned v => exact .done hs
      | error cause => exact .failed hs
    | doneShort hs => exact .doneShort hs
    | @failedShort e s t hs =>
      cases e with
      | returned v => exact .doneShort hs
      | error cause => exact .failedShort hs
  doneGrew {f a f'} hd := by
    simp only [Exec.catchReturn] at hd
    split at hd
    · next hx =>
      cases hd
      exact h.failedGrew hx
    · next hx => exact h.doneGrew hd
  failedGrew {f e f'} hd := by
    simp only [Exec.catchReturn] at hd
    split at hd
    · cases hd
    · exact h.failedGrew hd

theorem Exec.inScope_truncates {x y : Exec α} (scope : Scope)
    (h : Exec.Truncates capacity refusesFlush x y) :
    Action.Truncates capacity refusesFlush (Exec.inScope scope x)
      (Exec.inScope scope y) where
  cut m hm hw := by
    have hcut := h.cut ⟨scope, m⟩ hm hw
    simp only [Exec.inScope]
    generalize hx : x ⟨scope, m⟩ = rx at hcut
    generalize hy : y ((Frame.outlet capacity refusesFlush).onto ⟨scope, m⟩) = ry at hcut
    have hy' : y ⟨scope, (Machine.outlet capacity refusesFlush).onto m⟩ = ry := hy
    rw [hy']
    cases hcut with
    | starved => exact .starved
    | done hs => exact .done (o := Machine.outlet capacity refusesFlush) hs
    | failed hs => exact .failed (o := Machine.outlet capacity refusesFlush) hs
    | doneShort hs => exact .doneShort (o := Machine.outlet capacity refusesFlush) hs
    | failedShort hs => exact .failedShort (o := Machine.outlet capacity refusesFlush) hs
  doneGrew {m a m'} hd := by
    simp only [Exec.inScope] at hd
    split at hd
    · next hx =>
      cases hd
      exact h.doneGrew hx
    · cases hd
    · cases hd
  failedGrew {m e m'} hd := by
    simp only [Exec.inScope] at hd
    split at hd
    · cases hd
    · next hx =>
      cases hd
      exact h.failedGrew hx
    · cases hd

theorem Node.ofLookup_truncates (lookup : Heap → Scope → Except EvalError α) :
    Exec.Truncates capacity refusesFlush (Node.ofLookup lookup)
      (Node.ofLookup lookup) where
  cut f _ hw := by
    show Cut _ _ (Node.ofLookup lookup f) (Node.ofLookup lookup ⟨f.scope, _⟩)
    simp only [Node.ofLookup, Machine.outlet]
    split
    · exact .done hw
    · exact .failed hw
  doneGrew {f a f'} hd := by
    simp only [Node.ofLookup] at hd
    split at hd
    · cases hd
      exact .refl _
    · cases hd
  failedGrew {f e f'} hd := by
    simp only [Node.ofLookup] at hd
    split at hd
    · cases hd
    · cases hd
      exact .refl _

end

/-- All code truncates, whether or not a `return` may come out of it. -/
theorem truncates_congruence (capacity : Option Nat) (refusesFlush : Bool) :
    CallCongruence (Action.Truncates capacity refusesFlush)
      (fun _ => Exec.Truncates capacity refusesFlush) true where
  actionPure a :=
    .quietDone (fun _ => a) id (fun _ => rfl) (fun _ => rfl) (fun _ => rfl) (fun _ => rfl)
  actionBind h k := .bind h k
  actionFail _ := .fail _
  heap := .quietDone (fun m => m.heap) id (fun _ => rfl) (fun _ => rfl) (fun _ => rfl)
    (fun _ => rfl)
  allocate cls := .quietDone (fun m => .inst m.heap.size) (fun m =>
    { m with heap := m.heap.allocate cls }) (fun _ => rfl) (fun _ => rfl) (fun _ => rfl)
    (fun _ => rfl)
  setField a field v :=
    .quietDone (fun _ => ()) (fun m => { m with heap := m.heap.setField a field v })
      (fun _ => rfl) (fun _ => rfl) (fun _ => rfl) (fun _ => rfl)
  write text := Action.write_truncates text
  codePure a :=
    .quietDone (fun _ => a) id (fun _ => rfl) (fun _ => rfl) (fun _ => rfl) (fun _ => rfl)
  codeBind h k := .bind h k
  ofAction h := Exec.ofAction_truncates h
  ofLookup _ := Node.ofLookup_truncates _
  bindName name v :=
    .quietDone (fun _ => ()) (fun f => { f with scope := f.scope.insert name v })
      (fun _ => rfl) (fun _ => rfl) (fun _ => rfl) (fun _ => rfl)
  returned _ := .fail _
  catchReturn h := Exec.catchReturn_truncates h
  inScope scope h := Exec.inScope_truncates scope h
  starve y := .starve y

/-! ## Programs -/

/-- How a run that does not starve ends: with a value or a cause, and in a state. -/
def Run.Ends {ε σ α : Type} (x : Run ε σ α) (s : σ) (result : Except ε α)
    (s' : σ) : Prop :=
  x s = match result with
    | .ok a => .done (a, s')
    | .error e => .failed (e, s')

namespace Program

variable (program : Program) (fuel : Nat)

/-- The statements of a program, run in a scope of their own. -/
def statementsRun : Action (Value × Scope) :=
  Exec.inScope ∅
    (program.body.exec program.classes (Dispatch.within program.classes fuel))

/-- What becomes of the result of a program on a sink that does or does not refuse to be
flushed. -/
def flushed (refusesFlush : Bool) : Except EvalError Scope → Except EvalError Scope
  | .ok globals => if refusesFlush then .error (.output .flushRefused) else .ok globals
  | .error e => .error e

theorem statementsRun_truncates (capacity : Option Nat) (refusesFlush : Bool) :
    Action.Truncates capacity refusesFlush (program.statementsRun fuel)
      (program.statementsRun fuel) := by
  have c := truncates_congruence capacity refusesFlush
  have hd : (Dispatch.within program.classes fuel).Related
      (Action.Truncates capacity refusesFlush) (Dispatch.within program.classes fuel) :=
    Dispatch.within_related c (fun _ _ _ => rfl) (Nat.le_refl fuel)
  exact Exec.inScope_truncates ∅
    (Node.exec_related c.toCongruence hd true program.body rfl)

variable {program fuel}

/-- Statements that fail end the program. -/
theorem run_of_failed {m m' : Machine} {e : EvalError}
    (h : program.statementsRun fuel m = .failed (e, m')) :
    (program.run fuel).Ends m (.error e) m' :=
  Run.bind_failed h

/-- After statements that succeed comes a flush, and that is the only one. -/
theorem run_of_done {m m' : Machine} {v : Value} {globals : Scope}
    (h : program.statementsRun fuel m = .done ((v, globals), m')) :
    (program.run fuel).Ends m (flushed m'.sink.refusesFlush (.ok globals))
      { m' with sink := { m'.sink with flushes := m'.sink.flushes + 1 } } := by
  have hrun : program.run fuel m = (do Action.flush; return globals : Action Scope) m' :=
    Run.bind_done h
  unfold Run.Ends
  rw [hrun]
  cases hr : m'.sink.refusesFlush with
  | false =>
    have hf : Action.flush m' = .done ((), { m' with sink := { m'.sink with
        flushes := m'.sink.flushes + 1 } }) := by
      simp [Action.flush, Sink.flush, hr]
    rw [Run.bind_done hf]
    rfl
  | true =>
    have hf :
        Action.flush m' = .failed (.output .flushRefused, { m' with sink := { m'.sink with
        flushes := m'.sink.flushes + 1 } }) := by
      simp [Action.flush, Sink.flush, hr]
    rw [Run.bind_failed hf]
    rfl

/-- How a run ended tells how its statements did. -/
theorem statementsRun_of_ends {m m' : Machine} {result : Except EvalError Scope}
    (h : (program.run fuel).Ends m result m') :
    (∃ v globals m₁, program.statementsRun fuel m = .done ((v, globals), m₁) ∧
      result = flushed m₁.sink.refusesFlush (.ok globals) ∧
      m' = { m₁ with sink := { m₁.sink with flushes := m₁.sink.flushes + 1 } }) ∨
    (∃ e, program.statementsRun fuel m = .failed (e, m') ∧ result = .error e) := by
  unfold Run.Ends at h
  cases hs : program.statementsRun fuel m with
  | starved =>
    have hrun : program.run fuel m = .starved := Run.bind_starved hs
    rw [hrun] at h
    cases result <;> cases h
  | failed r =>
    obtain ⟨e, m₁⟩ := r
    have hrun : program.run fuel m = .failed (e, m₁) := run_of_failed hs
    rw [hrun] at h
    cases result <;> cases h
    exact .inr ⟨e, rfl, rfl⟩
  | done r =>
    obtain ⟨⟨v, globals⟩, m₁⟩ := r
    refine .inl ⟨v, globals, m₁, rfl, ?_⟩
    have hrun := run_of_done hs
    unfold Run.Ends at hrun
    rw [hrun] at h
    cases result <;> cases hf :
      flushed m₁.sink.refusesFlush (.ok globals) <;> rw [hf] at h <;> cases h
    · exact ⟨rfl, rfl⟩
    · exact ⟨rfl, rfl⟩

/-- The statements on another sink, which holds nothing yet. -/
theorem statementsRun_cut (program : Program) (fuel : Nat) (capacity : Option Nat)
    (refusesFlush : Bool) :
    Cut (Machine.outlet capacity refusesFlush) capacity
      (program.statementsRun fuel (Machine.start (.make none false)))
      (program.statementsRun fuel (Machine.start (.make capacity refusesFlush))) :=
  (program.statementsRun_truncates fuel capacity refusesFlush).cut _ rfl fun _ _ =>
    Nat.zero_le _

/-- On a sink that holds the whole output nothing changes but the answer to the flush. -/
theorem run_of_within {result : Except EvalError Scope} {m : Machine}
    (h : (program.run fuel).Ends (Machine.start (.make none false)) result m)
    {capacity : Option Nat} (refusesFlush : Bool) (hw : m.sink.Within capacity) :
    (program.run fuel).Ends (Machine.start (.make capacity refusesFlush))
      (flushed refusesFlush result)
        { m with sink := m.sink.onto capacity refusesFlush } := by
  have hcut := statementsRun_cut program fuel capacity refusesFlush
  obtain ⟨v, globals, m₁, hs, rfl, rfl⟩ | ⟨e, hs, rfl⟩ := statementsRun_of_ends h
  · have hrefuses : m₁.sink.refusesFlush = false :=
      ((program.statementsRun_truncates fuel none false).doneGrew hs).refusesFlush
    rw [hs] at hcut
    rw [hrefuses]
    exact run_of_done (hcut.eq_done hw)
  · rw [hs] at hcut
    exact run_of_failed (hcut.eq_failed hw)

/-- On a smaller sink the statements fail, so that there is no flush either. -/
theorem run_of_exceeds {result : Except EvalError Scope} {m : Machine}
    (h : (program.run fuel).Ends (Machine.start (.make none false)) result m) {n : Nat}
    (refusesFlush : Bool) (hlt : n < m.sink.written.size) :
    ∃ m', (program.run fuel).Ends (Machine.start (.make (some n) refusesFlush))
      (.error (.output .full)) m' ∧
      m'.sink.written = m.sink.written.extract 0 n := by
  have hcut := statementsRun_cut program fuel (some n) refusesFlush
  obtain ⟨v, globals, m₁, hs, rfl, rfl⟩ | ⟨e, hs, rfl⟩ := statementsRun_of_ends h
  · rw [hs] at hcut
    obtain ⟨m', hy, hwritten⟩ := hcut.full_of_done hlt
    exact ⟨m', run_of_failed hy, hwritten⟩
  · rw [hs] at hcut
    obtain ⟨m', hy, hwritten⟩ := hcut.full_of_failed hlt
    exact ⟨m', run_of_failed hy, hwritten⟩

/-- A program flushes once if its statements succeed, and else never. -/
theorem flushes_of_ends {sink : Sink} {result : Except EvalError Scope} {m : Machine}
    (h : (program.run fuel).Ends (Machine.start sink) result m) :
    m.sink.flushes ≤ sink.flushes + 1 ∧
    (sink.flushes < m.sink.flushes →
      ∃ v f, program.body.exec program.classes (Dispatch.within program.classes fuel)
        ⟨∅, Machine.start sink⟩ = .done (v, f)) := by
  have ht := program.statementsRun_truncates fuel none false
  obtain ⟨v, globals, m₁, hs, rfl, rfl⟩ | ⟨e, hs, rfl⟩ := statementsRun_of_ends h
  · have hflushes : m₁.sink.flushes = sink.flushes := (ht.doneGrew hs).flushes
    refine ⟨?_, fun _ => ?_⟩
    · show m₁.sink.flushes + 1 ≤ sink.flushes + 1
      omega
    · simp only [statementsRun, Exec.inScope] at hs
      split at hs
      · next hx => exact ⟨_, _, hx⟩
      · cases hs
      · cases hs
  · have hflushes : m.sink.flushes = sink.flushes := (ht.failedGrew hs).flushes
    exact ⟨by omega, fun hlt => by omega⟩

/-- Let a program end on a sink that takes everything. On every sink that holds its
output it ends in the same way, except that a refused flush takes the place of success.
On every smaller sink it fails because the sink is full, and what it leaves is the
beginning of its output. On no sink is there more than one flush, and there is none
unless the statements succeed. A tree by itself is run as the program with that one
statement. -/
theorem run_on_every_sink {result : Except EvalError Scope} {m : Machine}
    (h : (program.run fuel).Ends (Machine.start (.make none false)) result m) :
    (∀ capacity refusesFlush, m.sink.Within capacity →
      (program.run fuel).Ends (Machine.start (.make capacity refusesFlush))
        (flushed refusesFlush result)
          { m with sink := m.sink.onto capacity refusesFlush }) ∧
    (∀ n refusesFlush, n < m.sink.written.size →
      ∃ m', (program.run fuel).Ends (Machine.start (.make (some n) refusesFlush))
        (.error (.output .full)) m' ∧
        m'.sink.written = m.sink.written.extract 0 n) ∧
    (∀ sink result' m', (program.run fuel).Ends (Machine.start sink) result' m' →
      m'.sink.flushes ≤ sink.flushes + 1 ∧
      (sink.flushes < m'.sink.flushes →
        ∃ v f, program.body.exec program.classes (Dispatch.within program.classes fuel)
          ⟨∅, Machine.start sink⟩ = .done (v, f))) :=
  ⟨fun _ refusesFlush hw => run_of_within h refusesFlush hw,
    fun _ refusesFlush hlt => run_of_exceeds h refusesFlush hlt,
    fun _ _ _ h' => flushes_of_ends h'⟩

/-- Two lines of output on a sink with room for all but the last byte. -/
theorem run_on_every_sink_two_lines :
    let program : Program := ⟨[.print [.lit (.text "ab")], .print [.lit (.text "c")]], ∅⟩
    let m : Machine := ⟨∅, ⟨"ab\nc\n".toUTF8, none, false, 1⟩⟩
    (program.run 0).Ends (Machine.start (.make none false)) (.ok ∅) m ∧
    ∃ m', (program.run 0).Ends (Machine.start (.make (some 4) false))
      (.error (.output .full)) m' ∧
      m'.sink.written = "ab\nc".toUTF8 := by
  intro program m
  have h : (program.run 0).Ends (Machine.start (.make none false)) (.ok ∅) m := rfl
  exact ⟨h, (run_on_every_sink h).2.1 4 false (by decide)⟩

end Program

end Mint
