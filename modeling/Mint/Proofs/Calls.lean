import Mathlib.Data.List.Nodup
import Mint.Proofs.Eval.Invariant

/-!
# What a method starts with

A call runs the body of the method in a scope of its own: the receiver is bound to
`self` and then every parameter to its argument. The parser takes any names for
parameters, `self` and repetitions among them, and a name that is bound once more loses
what it was bound to. So the receiver and all arguments are in sight exactly when the
parameters are distinct and none of them is called `self`
(`call_binds_receiver_and_parameters`).
-/

namespace Mint

/-- The scope binds the receiver to `self`, every parameter to the argument at its
place, and nothing else. -/
structure Scope.BindsCall (scope : Scope) (receiver : Value) (params : List String)
    (args : List Value) : Prop where
  receiver : scope.get? Method.receiverName = some receiver
  parameters : params.map scope.get? = args.map some
  rest : ∀ name, name ≠ Method.receiverName → name ∉ params → scope.get? name = none

namespace Method

variable {method : Method} {receiver : Value} {args : List Value}

theorem lookup_zip_of_not_mem {params : List String} {name : String} (h : name ∉ params) :
    (params.zip args).reverse.lookup name = none := by
  refine List.lookup_eq_none_iff.mpr fun binding hbinding => ?_
  have hmem : binding.1 ∈ params := (List.of_mem_zip (List.mem_reverse.mp hbinding)).1
  exact bne_iff_ne.mpr fun heq => h (heq ▸ hmem)

/-- Each of several distinct parameters is bound to its own argument, whatever was bound
before. -/
theorem map_get?_of_nodup {params : List String} (scope : Scope) (hparams : params.Nodup)
    (hlength : args.length = params.length) :
    params.map ((params.zip args).foldl
      (fun scope (param, arg) => scope.insert param arg) scope).get? =
      args.map some := by
  induction params generalizing args scope with
  | nil =>
    rw [List.length_eq_zero_iff.mp hlength]
    rfl
  | cons param params ih =>
    cases args with
    | nil => cases hlength
    | cons arg args =>
      obtain ⟨hnew, hparams⟩ := List.nodup_cons.mp hparams
      rw [List.zip_cons_cons, List.foldl_cons, List.map_cons, List.map_cons,
        ih (scope.insert param arg) hparams (Nat.succ.inj hlength),
        Scope.get?_foldl_insert, lookup_zip_of_not_mem hnew,
        Option.none_or, Scope.get?_insert_self]

/-- Distinct parameters none of which is `self` do not get in each other's way. -/
theorem bindsCall_of_nodup (hparams : method.params.Nodup)
    (hself : receiverName ∉ method.params)
    (hlength : args.length = method.params.length) :
    (method.frame receiver args).BindsCall receiver method.params args where
  receiver := by rw [get?_frame, lookup_zip_of_not_mem hself, Option.none_or, if_pos rfl]
  parameters := map_get?_of_nodup _ hparams hlength
  rest name hname hmem := by
    rw [get?_frame, lookup_zip_of_not_mem hmem, Option.none_or, if_neg hname]

/-- If each of some different arguments is in sight, no parameter has the name of
another. -/
theorem nodup_of_bindsCall {scope : Scope} {params : List String}
    (h : scope.BindsCall receiver params args) (hargs : args.Nodup) : params.Nodup := by
  have hmap : (params.map scope.get?).Nodup := by
    rw [h.parameters]
    exact hargs.map fun _ _ => Option.some.inj
  exact hmap.of_map

/-- If the receiver is in sight and is no argument, no parameter is called `self`. -/
theorem receiverName_not_mem_of_bindsCall {scope : Scope} {params : List String}
    (h : scope.BindsCall receiver params args) (hargs : receiver ∉ args) :
    receiverName ∉ params := by
  intro hmem
  have hreceiver : some receiver ∈ params.map scope.get? := by
    rw [← h.receiver]
    exact List.mem_map_of_mem hmem
  rw [h.parameters] at hreceiver
  obtain ⟨arg, harg, heq⟩ := List.mem_map.mp hreceiver
  exact hargs (Option.some.inj heq ▸ harg)

/-- The receiver and all arguments are in sight, whatever the arguments are, exactly if
the parameters are distinct and none is called `self`. -/
theorem forall_bindsCall_iff (a : Address) :
    (∀ args : List Value, args.length = method.params.length →
      (method.frame (.inst a) args).BindsCall (.inst a) method.params args) ↔
    method.params.Nodup ∧ receiverName ∉ method.params := by
  constructor
  · intro h
    -- as many different arguments as there are parameters, and the receiver is none of
    -- them
    have hbinds := h ((List.range method.params.length).map Value.cls)
      (by rw [List.length_map, List.length_range])
    refine ⟨nodup_of_bindsCall hbinds ?_, receiverName_not_mem_of_bindsCall hbinds ?_⟩
    · exact List.nodup_range.map fun i j heq => Value.cls.inj heq
    · intro hmem
      obtain ⟨i, -, hi⟩ := List.mem_map.mp hmem
      cases hi
  · rintro ⟨hparams, hself⟩ args hlength
    exact bindsCall_of_nodup hparams hself hlength

end Method

theorem ClassTable.length_of_methodTaking? {classes : ClassTable} {cls : ClassId}
    {name : String} {arity : Nat} {method : Method}
    (h : classes.methodTaking? cls name arity = some method) :
    method.params.length = arity :=
  beq_iff_eq.mp (Option.filter_eq_some_iff.mp h).2

theorem Action.heap_bind {α : Type} (g : Heap → Action α) (m : Machine) :
    (Action.heap >>= g) m = g m.heap m := rfl

/-- A call runs the body of the method in a scope of its own. -/
theorem callMethod_of_methodTaking? {classes : ClassTable} {m : Machine} {a : Address}
    {name : String} {args : List Value} {method : Method}
    (h : classes.methodTaking? (m.heap.classOf a) name args.length = some method)
    (fuel : Nat) :
    callMethod classes (fuel + 1) (.inst a) name args m =
      (Prod.fst <$> Exec.inScope (method.frame (.inst a) args)
        (method.body.exec classes (.within classes fuel))) m := by
  have hfound : (Value.inst a).methodFor classes m.heap name args.length =
      .ok method := by
    rw [Value.methodFor, h]
  rw [callMethod, Action.heap_bind, hfound]
  rfl

/-- A call of a method that the class of the receiver has for that many arguments runs
its body in the scope `Method.frame`. There a name means the last parameter of that
name; without such a parameter `self` means the receiver, and any other name means
nothing. So the receiver and every argument are in sight, whatever the arguments are,
exactly if the parameters are distinct and none of them is called `self`. -/
theorem call_binds_receiver_and_parameters {classes : ClassTable} {m : Machine}
    {a : Address} {name : String} {args : List Value} {method : Method}
    (h : classes.methodTaking? (m.heap.classOf a) name args.length = some method) :
    args.length = method.params.length ∧
    (∀ fuel, callMethod classes (fuel + 1) (.inst a) name args m =
      (Prod.fst <$> Exec.inScope (method.frame (.inst a) args)
        (method.body.exec classes (.within classes fuel))) m) ∧
    (∀ key, (method.frame (.inst a) args).get? key =
      ((method.params.zip args).reverse.lookup key).or
        (if key = Method.receiverName then some (.inst a) else none)) ∧
    ((∀ args : List Value, args.length = method.params.length →
        (method.frame (.inst a) args).BindsCall (.inst a) method.params args) ↔
      method.params.Nodup ∧ Method.receiverName ∉ method.params) :=
  ⟨(ClassTable.length_of_methodTaking? h).symm, callMethod_of_methodTaking? h,
    method.get?_frame _ _, Method.forall_bindsCall_iff a⟩

/-- A method with two parameters, one with a parameter called `self`, and calls of
both. -/
def namesakeParameters : Source := .ofString
  ("class A:\n  def f(self, x, y):\n    return self\n" ++
    "  def g(self, self):\n    return self\n" ++
    "x = A()\ny = x.f(1, 2)\nz = x.g(5)\n")

/-- The method with two parameters. -/
def pairMethod : Method := ⟨"f", ["x", "y"], .body (.block [.ret (.path ["self"])])⟩

/-- The method with a parameter called `self`. -/
def selfMethod : Method := ⟨"g", ["self"], .body (.block [.ret (.path ["self"])])⟩

/-- The program of `namesakeParameters`. -/
def namesakeProgram : Program where
  statements := [.define 0, .assign "x" (.create 0 []),
    .assign "y" (.call (.path ["x"]) "f" [.lit (.number 1), .lit (.number 2)]),
    .assign "z" (.call (.path ["x"]) "g" [.lit (.number 5)])]
  classes := ⟨#[⟨"A", none, [pairMethod, selfMethod]⟩]⟩

/-- A machine with one instance of `A`. -/
def namesakeMachine : Machine := ⟨⟨#[⟨0, ∅⟩]⟩, .unlimited⟩

theorem call_binds_receiver_and_parameters_pair :
    Program.parse namesakeParameters = .done namesakeProgram ∧
    namesakeProgram.classes.methodTaking? 0 "f" 2 = some pairMethod ∧
    (pairMethod.frame (.inst 0) [.number 1, .number 2]).BindsCall (.inst 0) ["x", "y"]
      [.number 1, .number 2] ∧
    callMethod namesakeProgram.classes 1 (.inst 0) "f"
      [.number 1, .number 2] namesakeMachine =
      .done (.inst 0, namesakeMachine) := by
  have hmethod :
      namesakeProgram.classes.methodTaking? (namesakeMachine.heap.classOf 0) "f"
        [Value.number 1, Value.number 2].length = some pairMethod := by decide
  obtain ⟨-, hcall, -, hbinds⟩ := call_binds_receiver_and_parameters hmethod
  refine ⟨by decide +kernel, by decide, hbinds.mpr (by decide) _ rfl, ?_⟩
  rw [hcall]
  decide +kernel

/-- The argument takes the place of the receiver, and the variable `z` ends up as the
number instead of the instance. -/
theorem parameter_hides_receiver :
    Program.parse namesakeParameters = .done namesakeProgram ∧
    namesakeProgram.classes.methodTaking? 0 "g" 1 = some selfMethod ∧
    (selfMethod.frame (.inst 0) [.number 5]).get? Method.receiverName = some (.number 5) ∧
    ¬(selfMethod.frame (.inst 0) [.number 5]).BindsCall (.inst 0) selfMethod.params
      [.number 5] ∧
    (namesakeProgram.run 1 (.start .unlimited)).map Prod.fst =
      .done ⟨[("A", .cls 0), ("x", .inst 0), ("y", .inst 0), ("z", .number 5)]⟩ := by
  refine ⟨by decide +kernel, by decide, by decide, fun h => ?_, by decide +kernel⟩
  have hreceiver : some (Value.number 5) = some (.inst 0) := h.receiver
  cases hreceiver

end Mint
