import Mint.Proofs.Eval.Activity

/-!
# The parts of a run in order

`Activity.Part` says what an activity is made of, in no order. `Activity.parts` lists
the same activities as they follow one another (`Activity.mem_parts`). A part that
starts in the state which another has left is on the list only if that one is done, so
the list ends where the activity does.
-/

namespace Mint

/-- What goes on after a step, if the step is done. -/
def Outcome.andThen {ε α σ : Type} (o : Outcome ε (α × σ))
    (next : α → σ → List Activity) : List Activity :=
  match o with
  | .done (a, s) => next a s
  | .failed _ | .starved => []

@[simp] theorem Outcome.andThen_done {ε α σ : Type} (a : α) (s : σ)
    (next : α → σ → List Activity) :
    (done (a, s) : Outcome ε (α × σ)).andThen next = next a s := rfl

theorem Outcome.mem_andThen {ε α σ : Type} {o : Outcome ε (α × σ)}
    {next : α → σ → List Activity} {A : Activity} :
    A ∈ o.andThen next ↔ ∃ a s, o = .done (a, s) ∧ A ∈ next a s := by
  cases o with
  | done r =>
    constructor
    · exact fun h => ⟨r.1, r.2, rfl, h⟩
    · rintro ⟨a, s, ⟨⟩, h⟩
      exact h
  | failed | starved => simp [andThen]

theorem Outcome.andThen_nil {ε α σ : Type} (o : Outcome ε (α × σ)) :
    o.andThen (fun _ _ => []) = [] := by
  cases o <;> rfl

section

variable (classes : ClassTable) (fuel : Nat)

/-- The call that a sum makes. -/
def ArithOp.calls (op : ArithOp) (l r : Value) (m : Machine) : List Activity :=
  if op = .add ∧ r ≠ .none ∧ l.understands classes m.heap Special.add 1 = true then
    [.call fuel m l Special.add [r]]
  else []

/-- The call that the order of two values takes. -/
def Value.orderCalls (l r : Value) (m : Machine) : List Activity :=
  if l.understands classes m.heap Special.lt 1 = true then
    [.call fuel m l Special.lt [r]] else []

/-- The call that the equality of two values takes. -/
def Value.equalityCalls : Value → Value → Machine → List Activity
  | .inst a, .inst b, m => [.call fuel m (.inst a) Special.eq [.inst b]]
  | _, _, _ => []

/-- The calls that a comparison makes. Equality is asked for after order has answered
no. -/
def Comparator.calls (op : Comparator) (l r : Value) (m : Machine) : List Activity :=
  match op with
  | .equal | .notEqual => l.equalityCalls fuel r m
  | .less | .greaterOrEqual => l.orderCalls classes fuel r m
  | .greater | .lessOrEqual =>
    l.orderCalls classes fuel r m ++
        ((Dispatch.within classes fuel).less classes l r m).andThen fun answer m' =>
      if answer then [] else l.equalityCalls fuel r m'

/-- What the execution of a node is directly made of, in the order in which it goes on. -/
def Node.parts (f : Frame) : Node → List Activity
  | .lit _ | .none | .path _ | .define _ => []
  | .assign _ value | .not value | .ret value | .body value => [.node fuel f value]
  | .setField object field value =>
    match Path.target classes f.machine.heap f.scope object field with
    | .ok _ => [.node fuel f value]
    | .error _ => []
  | .arith op left right =>
    .node fuel f left :: (left.exec classes (.within classes fuel) f).andThen fun l g =>
      .node fuel g right ::
          (right.exec classes (.within classes fuel) g).andThen fun r h =>
        op.calls classes fuel l r h.machine
  | .logic _ left right =>
    .node fuel f left :: (left.exec classes (.within classes fuel) f).andThen fun _ g =>
      [.node fuel g right]
  | .compare op left right =>
    .node fuel f left :: (left.exec classes (.within classes fuel) f).andThen fun l g =>
      .node fuel g right ::
          (right.exec classes (.within classes fuel) g).andThen fun r h =>
        op.calls classes fuel l r h.machine
  | .ifThen condition yes =>
    .node fuel f condition ::
        (condition.exec classes (.within classes fuel) f).andThen fun v g =>
      if v.isTrue then [.node fuel g yes] else []
  | .ifElse condition yes no =>
    .node fuel f condition ::
        (condition.exec classes (.within classes fuel) f).andThen fun v g =>
      [.node fuel g (if v.isTrue then yes else no)]
  | .block nodes => [.statements fuel f nodes]
  | .create cls args =>
    if classes.hasMethod cls Special.init args.length then
      .arguments fuel (f.allocate cls) args ::
        (Node.evalAll classes (.within classes fuel) args (f.allocate cls)).andThen
          fun values g =>
          [.call fuel g.machine (.inst f.machine.heap.size) Special.init values]
    else []
  | .print args => [.printing fuel f false args]
  | .str operand =>
    .node fuel f operand :: (operand.exec classes (.within classes fuel) f).andThen
      fun v g => [.render fuel g.machine v]
  | .call object method args =>
    .node fuel f object ::
        (object.exec classes (.within classes fuel) f).andThen fun receiver g =>
      if receiver.understands classes g.machine.heap method args.length then
        .arguments fuel g args ::
            (Node.evalAll classes (.within classes fuel) args g).andThen fun values h =>
          [.call fuel h.machine receiver method values]
      else []

end

namespace Activity

/-- What the activity is directly made of, in the order in which it goes on. -/
def parts (classes : ClassTable) : Activity → List Activity
  | .node fuel f n => n.parts classes fuel f
  | .statements _ _ [] | .arguments _ _ [] | .printing _ _ _ [] => []
  | .statements fuel f (n :: ns) =>
    .node fuel f n :: (n.exec classes (.within classes fuel) f).andThen fun _ g =>
      [.statements fuel g ns]
  | .arguments fuel f (n :: ns) =>
    .node fuel f n :: (n.exec classes (.within classes fuel) f).andThen fun _ g =>
      [.arguments fuel g ns]
  | .printing fuel f separate (n :: ns) =>
    .node fuel f n :: (n.exec classes (.within classes fuel) f).andThen fun v g =>
      ((if separate then Action.write " " else pure ()) g.machine).andThen fun _ m =>
        .render fuel m v :: (renderValue classes fuel v m).andThen fun text m' =>
          (Action.write text m').andThen fun _ m'' =>
            [.printing fuel ⟨g.scope, m''⟩ true ns]
  | .call 0 _ _ _ _ | .render 0 _ _ => []
  | .call (fuel + 1) m receiver name args =>
    match receiver.methodFor classes m.heap name args.length with
    | .ok method => [.node fuel ⟨method.frame receiver args, m⟩ method.body]
    | .error _ => []
  | .render (fuel + 1) m v =>
    if v.understands classes m.heap Special.str 0 then
      .call fuel m v Special.str [] ::
          (callMethod classes fuel v Special.str [] m).andThen fun result m' =>
        [.render fuel m' result]
    else []

variable {classes : ClassTable} {fuel : Nat} {f : Frame} {m : Machine} {l r : Value}
  {A B : Activity}

theorem mem_arithCalls {op : ArithOp} : B ∈ op.calls classes fuel l r m ↔
    op = .add ∧ r ≠ .none ∧ l.understands classes m.heap Special.add 1 = true ∧
    B = .call fuel m l Special.add [r] := by
  rw [ArithOp.calls]
  split <;> simp_all

theorem mem_equalityCalls : B ∈ l.equalityCalls fuel r m ↔
    (∃ a, l = .inst a) ∧ (∃ b, r = .inst b) ∧ B = .call fuel m l Special.eq [r] := by
  unfold Value.equalityCalls
  split <;> simp_all

theorem mem_orderCalls : B ∈ l.orderCalls classes fuel r m ↔
    l.understands classes m.heap Special.lt 1 = true ∧
    B = .call fuel m l Special.lt [r] := by
  rw [Value.orderCalls]
  split <;> simp_all

theorem mem_comparisonCalls {op : Comparator} : B ∈ op.calls classes fuel l r m ↔
    ∃ m' name, op.Calls classes (.within classes fuel) l r m m' name ∧
      B = .call fuel m' l name [r] := by
  constructor
  · intro h
    have order : op ≠ .equal ∧ op ≠ .notEqual → B ∈ l.orderCalls classes fuel r m →
        ∃ m' name, op.Calls classes (.within classes fuel) l r m m' name ∧
          B = .call fuel m' l name [r] := by
      intro hop h
      obtain ⟨hmethod, rfl⟩ := mem_orderCalls.mp h
      exact ⟨m, _, .less hop hmethod, rfl⟩
    have equality : op = .equal ∨ op = .notEqual → B ∈ l.equalityCalls fuel r m →
        ∃ m' name, op.Calls classes (.within classes fuel) l r m m' name ∧
          B = .call fuel m' l name [r] := by
      intro hop h
      obtain ⟨⟨a, ha⟩, ⟨b, hb⟩, rfl⟩ := mem_equalityCalls.mp h
      exact ⟨m, _, .equal hop ha hb, rfl⟩
    have both : op = .greater ∨ op = .lessOrEqual →
        B ∈ Comparator.calls classes fuel .greater l r m →
        ∃ m' name, op.Calls classes (.within classes fuel) l r m m' name ∧
          B = .call fuel m' l name [r] := by
      intro hop h
      rcases List.mem_append.mp h with h | h
      · exact order (by rcases hop with rfl | rfl <;> decide) h
      · obtain ⟨answer, m', hanswer, h⟩ := Outcome.mem_andThen.mp h
        cases answer with
        | true => cases h
        | false =>
          obtain ⟨⟨a, ha⟩, ⟨b, hb⟩, rfl⟩ := mem_equalityCalls.mp h
          exact ⟨m', _, .notLess hop ha hb hanswer, rfl⟩
    cases op with
    | equal => exact equality (.inl rfl) h
    | notEqual => exact equality (.inr rfl) h
    | less | greaterOrEqual => exact order (by decide) h
    | greater => exact both (.inl rfl) h
    | lessOrEqual => exact both (.inr rfl) h
  · rintro ⟨m', name, hcalls, rfl⟩
    cases hcalls with
    | less hop hmethod =>
      have horder : call fuel m l Special.lt [r] ∈ l.orderCalls classes fuel r m :=
        mem_orderCalls.mpr ⟨hmethod, rfl⟩
      cases op with
      | equal => exact absurd rfl hop.1
      | notEqual => exact absurd rfl hop.2
      | less | greaterOrEqual => exact horder
      | greater | lessOrEqual => exact List.mem_append_left _ horder
    | equal hop ha hb =>
      rcases hop with rfl | rfl <;> exact mem_equalityCalls.mpr ⟨⟨_, ha⟩, ⟨_, hb⟩, rfl⟩
    | notLess hop ha hb hanswer =>
      have hequality : call fuel m' l Special.eq [r] ∈ l.equalityCalls fuel r m' :=
        mem_equalityCalls.mpr ⟨⟨_, ha⟩, ⟨_, hb⟩, rfl⟩
      rcases hop with rfl | rfl <;>
        exact List.mem_append_right _ (Outcome.mem_andThen.mpr ⟨_, _, hanswer, hequality⟩)

theorem part_of_mem_node {n : Node} (h : B ∈ n.parts classes fuel f) :
    (node fuel f n).Part classes B := by
  cases n with
  | lit | none | path | define => cases h
  | assign | not | ret | body =>
    obtain rfl := List.mem_singleton.mp h
    exact .first rfl
  | setField object field value =>
    rw [Node.parts] at h
    split at h
    · next htarget =>
      obtain rfl := List.mem_singleton.mp h
      exact .stored htarget
    · cases h
  | arith op left right =>
    rcases List.mem_cons.mp h with rfl | h
    · exact .first rfl
    · obtain ⟨l, g, hl, h⟩ := Outcome.mem_andThen.mp h
      rcases List.mem_cons.mp h with rfl | h
      · exact .second rfl hl
      · obtain ⟨r, g', hr, h⟩ := Outcome.mem_andThen.mp h
        obtain ⟨rfl, hne, hmethod, rfl⟩ := mem_arithCalls.mp h
        cases l with
        | inst a => exact .add hl hr hne hmethod
        | _ => cases hmethod
  | logic op left right =>
    rcases List.mem_cons.mp h with rfl | h
    · exact .first rfl
    · obtain ⟨l, g, hl, h⟩ := Outcome.mem_andThen.mp h
      obtain rfl := List.mem_singleton.mp h
      exact .second rfl hl
  | compare op left right =>
    rcases List.mem_cons.mp h with rfl | h
    · exact .first rfl
    · obtain ⟨l, g, hl, h⟩ := Outcome.mem_andThen.mp h
      rcases List.mem_cons.mp h with rfl | h
      · exact .second rfl hl
      · obtain ⟨r, g', hr, h⟩ := Outcome.mem_andThen.mp h
        obtain ⟨m', name, hcalls, rfl⟩ := mem_comparisonCalls.mp h
        exact .compare hl hr hcalls
  | ifThen condition yes =>
    rcases List.mem_cons.mp h with rfl | h
    · exact .first rfl
    · obtain ⟨v, g, hv, h⟩ := Outcome.mem_andThen.mp h
      split at h
      · next htrue =>
        obtain rfl := List.mem_singleton.mp h
        exact .yes hv htrue
      · cases h
  | ifElse condition yes no =>
    rcases List.mem_cons.mp h with rfl | h
    · exact .first rfl
    · obtain ⟨v, g, hv, h⟩ := Outcome.mem_andThen.mp h
      obtain rfl := List.mem_singleton.mp h
      exact .either hv
  | block nodes =>
    obtain rfl := List.mem_singleton.mp h
    exact .block
  | create cls args =>
    rw [Node.parts] at h
    split at h
    · next hmethod =>
      rcases List.mem_cons.mp h with rfl | h
      · exact .initArguments hmethod
      · obtain ⟨values, g, hvalues, h⟩ := Outcome.mem_andThen.mp h
        obtain rfl := List.mem_singleton.mp h
        exact .init hmethod hvalues
    · cases h
  | print args =>
    obtain rfl := List.mem_singleton.mp h
    exact .print
  | str operand =>
    rcases List.mem_cons.mp h with rfl | h
    · exact .first rfl
    · obtain ⟨v, g, hv, h⟩ := Outcome.mem_andThen.mp h
      obtain rfl := List.mem_singleton.mp h
      exact .str hv
  | call object method args =>
    rcases List.mem_cons.mp h with rfl | h
    · exact .first rfl
    · obtain ⟨receiver, g, hreceiver, h⟩ := Outcome.mem_andThen.mp h
      split at h
      · next hmethod =>
        rcases List.mem_cons.mp h with rfl | h
        · exact .callArguments hreceiver hmethod
        · obtain ⟨values, g', hvalues, h⟩ := Outcome.mem_andThen.mp h
          obtain rfl := List.mem_singleton.mp h
          exact .call hreceiver hmethod hvalues
      · cases h

theorem part_of_mem (h : B ∈ A.parts classes) : A.Part classes B := by
  cases A with
  | node => exact part_of_mem_node h
  | statements fuel f ns =>
    cases ns with
    | nil => cases h
    | cons n ns =>
      rcases List.mem_cons.mp h with rfl | h
      · exact .firstStatement
      · obtain ⟨v, g, hv, h⟩ := Outcome.mem_andThen.mp h
        obtain rfl := List.mem_singleton.mp h
        exact .laterStatements hv
  | arguments fuel f ns =>
    cases ns with
    | nil => cases h
    | cons n ns =>
      rcases List.mem_cons.mp h with rfl | h
      · exact .firstArgument
      · obtain ⟨v, g, hv, h⟩ := Outcome.mem_andThen.mp h
        obtain rfl := List.mem_singleton.mp h
        exact .laterArguments hv
  | printing fuel f separate ns =>
    cases ns with
    | nil => cases h
    | cons n ns =>
      rcases List.mem_cons.mp h with rfl | h
      · exact .firstPrinted
      · obtain ⟨v, g, hv, h⟩ := Outcome.mem_andThen.mp h
        obtain ⟨_, m, hspace, h⟩ := Outcome.mem_andThen.mp h
        rcases List.mem_cons.mp h with rfl | h
        · exact .rendered hv hspace
        · obtain ⟨text, m', htext, h⟩ := Outcome.mem_andThen.mp h
          obtain ⟨_, m'', hwrite, h⟩ := Outcome.mem_andThen.mp h
          obtain rfl := List.mem_singleton.mp h
          exact .laterPrinted hv hspace htext hwrite
  | call fuel m receiver name args =>
    cases fuel with
    | zero => cases h
    | succ fuel =>
      rw [parts] at h
      split at h
      · next hmethod =>
        obtain rfl := List.mem_singleton.mp h
        exact .body hmethod
      · cases h
  | render fuel m v =>
    cases fuel with
    | zero => cases h
    | succ fuel =>
      rw [parts] at h
      split at h
      · next hmethod =>
        rcases List.mem_cons.mp h with rfl | h
        · exact .text hmethod
        · obtain ⟨result, m', hresult, h⟩ := Outcome.mem_andThen.mp h
          obtain rfl := List.mem_singleton.mp h
          exact .textAgain hmethod hresult
      · cases h

theorem mem_of_part (h : A.Part classes B) : B ∈ A.parts classes := by
  cases h with
  | @first fuel f n child hn =>
    cases n with
    | assign | not | ret | body | arith | logic | compare | ifThen | ifElse
    | str | call =>
      cases hn
      exact List.mem_cons_self
    | _ => cases hn
  | @second fuel f n left right l g hn hleft =>
    cases n with
    | arith | compare | logic =>
      cases hn
      exact List.mem_cons_of_mem
        _ (Outcome.mem_andThen.mpr ⟨l, g, hleft, List.mem_cons_self⟩)
    | _ => cases hn
  | stored htarget => simp [parts, Node.parts, htarget]
  | yes hcondition hv => simp [parts, Node.parts, hcondition, hv]
  | either hcondition => simp [parts, Node.parts, hcondition]
  | block | print => exact List.mem_cons_self
  | str hoperand => simp [parts, Node.parts, hoperand]
  | add hleft hright hr hmethod =>
    simp [parts, Node.parts, hleft, hright, mem_arithCalls, hr, hmethod]
  | compare hleft hright hcalls =>
    have hmem := mem_comparisonCalls.mpr ⟨_, _, hcalls, rfl⟩
    simp [parts, Node.parts, hleft, hright, hmem]
  | initArguments hmethod => simp [parts, Node.parts, hmethod]
  | init hmethod hargs => simp [parts, Node.parts, hmethod, hargs]
  | callArguments hobject hmethod => simp [parts, Node.parts, hobject, hmethod]
  | call hobject hmethod hargs => simp [parts, Node.parts, hobject, hmethod, hargs]
  | firstStatement | firstArgument | firstPrinted => exact List.mem_cons_self
  | laterStatements hfirst | laterArguments hfirst => simp [parts, hfirst]
  | rendered hfirst hspace => simp [parts, hfirst, hspace]
  | laterPrinted hfirst hspace htext hwrite => simp [parts, hfirst, hspace, htext, hwrite]
  | body hmethod => simp [parts, hmethod]
  | text hmethod => simp [parts, hmethod]
  | textAgain hmethod hcall => simp [parts, hmethod, hcall]

/-- The list holds the parts. -/
theorem mem_parts : B ∈ A.parts classes ↔ A.Part classes B := ⟨part_of_mem, mem_of_part⟩

end Activity

end Mint
