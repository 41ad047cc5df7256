import Mint.Proofs.Parse

/-!
# The order of classes

A class enters the table when its last method has been read. So the classes of an
accepted program are sorted: a class is mentioned by later ones only, as a parent or in
a method (`ClassTable.Sorted`). The order is what the recursion of constructors goes
down along.
-/

namespace Mint

/-! ## Trees inside a tree -/

namespace Node

mutual

/-- The tree and all trees in it, in the order in which they are written. Methods of the
classes that the tree names are not part of it. -/
def subtrees : Node → List Node
  | .lit value => [.lit value]
  | .none => [.none]
  | .path segments => [.path segments]
  | .assign name value => .assign name value :: value.subtrees
  | .setField object field value => .setField object field value :: value.subtrees
  | .arith op left right => .arith op left right :: (left.subtrees ++ right.subtrees)
  | .logic op left right => .logic op left right :: (left.subtrees ++ right.subtrees)
  | .not operand => .not operand :: operand.subtrees
  | .compare op left right => .compare op left right :: (left.subtrees ++ right.subtrees)
  | .ifThen condition yes => .ifThen condition yes :: (condition.subtrees ++ yes.subtrees)
  | .ifElse condition yes no =>
    .ifElse condition yes no :: (condition.subtrees ++ (yes.subtrees ++ no.subtrees))
  | .block nodes => .block nodes :: allSubtrees nodes
  | .ret value => .ret value :: value.subtrees
  | .body inner => .body inner :: inner.subtrees
  | .define cls => [.define cls]
  | .create cls args => .create cls args :: allSubtrees args
  | .print args => .print args :: allSubtrees args
  | .str operand => .str operand :: operand.subtrees
  | .call object method args =>
    .call object method args :: (object.subtrees ++ allSubtrees args)

/-- All trees in the trees of a list. -/
def allSubtrees : List Node → List Node
  | [] => []
  | first :: rest => first.subtrees ++ allSubtrees rest

end

/-- The class that a node names. -/
def mentioned? : Node → Option ClassId
  | .define cls | .create cls _ => some cls
  | _ => Option.none

/-- All classes that are named in the trees come before class `bound`. -/
def MentionBelow (bound : ClassId) (trees : List Node) : Prop :=
  ∀ t ∈ trees, ∀ cls, t.mentioned? = some cls → cls < bound

namespace MentionBelow

variable {bound bound' : ClassId} {trees trees' : List Node} {node : Node}

theorem nil : MentionBelow bound [] := by
  rintro t ⟨⟩

theorem append (h : MentionBelow bound trees) (h' : MentionBelow bound trees') :
    MentionBelow bound (trees ++ trees') :=
  List.forall_mem_append.mpr ⟨h, h'⟩

theorem cons (hnode : ∀ cls, node.mentioned? = some cls → cls < bound)
    (h : MentionBelow bound trees) :
    MentionBelow bound (node :: trees) := List.forall_mem_cons.mpr ⟨hnode, h⟩

/-- Most nodes name no class themselves. -/
theorem under (hnode : node.mentioned? = Option.none) (h : MentionBelow bound trees) :
    MentionBelow bound (node :: trees) := by
  refine cons (fun cls hcls => ?_) h
  rw [hnode] at hcls
  cases hcls

theorem mono (h : MentionBelow bound trees) (hle : bound ≤ bound') :
    MentionBelow bound' trees :=
  fun t ht cls hcls => Nat.lt_of_lt_of_le (h t ht cls hcls) hle

end MentionBelow

end Node

/-- Whatever a class mentions comes before it: its parent, and the classes named in its
methods. -/
structure ClassTable.Sorted (classes : ClassTable) : Prop where
  parent_lt : ∀ i j, (classes.get i).parent = some j → j < i
  mention_lt :
    ∀ i, ∀ method ∈ (classes.get i).methods, Node.MentionBelow i method.body.subtrees

/-! ## Sorted tables -/

namespace ClassTable

variable {classes : ClassTable}

theorem sorted_empty : (∅ : ClassTable).Sorted := by
  refine ⟨fun i j h => ?_, fun i method h => ?_⟩
  · cases h
  · cases h

theorem Sorted.push (h : classes.Sorted) {cls : Class}
    (hparent : ∀ j, cls.parent = some j → j < classes.size)
    (hmethods : ∀ method ∈ cls.methods,
      Node.MentionBelow classes.size method.body.subtrees) :
    (classes.push cls).Sorted := by
  refine ⟨fun i j hj => ?_, fun i method hmethod => ?_⟩
  · rw [get_push] at hj
    split at hj
    · next hi =>
      rw [hi]
      exact hparent j hj
    · exact h.parent_lt i j hj
  · rw [get_push] at hmethod
    split at hmethod
    · next hi =>
      rw [hi]
      exact hmethods method hmethod
    · exact h.mention_lt i method hmethod

end ClassTable

namespace Grammar

open Node (MentionBelow subtrees allSubtrees)

/-- Every class that the trees of a phrase name has been declared, provided that it is
so with the tree which the phrase is put after. -/
def Phrase.MentionBelow (bound : ClassId) : Phrase → Prop
  | .expression _ node | .atom node => Node.MentionBelow bound node.subtrees
  | .chain _ left node | .calls left node =>
    Node.MentionBelow bound left.subtrees → Node.MentionBelow bound node.subtrees
  | .arguments nodes | .expressions nodes =>
    Node.MentionBelow bound (Node.allSubtrees nodes)

theorem mentionBelow_of_join? {level : Parser.Level} {op : Token}
    {join : Node → Node → Node} {left right : Node} {bound : ClassId}
    (hop : level.join? op = some join) (hleft : MentionBelow bound left.subtrees)
    (hright : MentionBelow bound right.subtrees) :
    MentionBelow bound (join left right).subtrees := by
  unfold Parser.Level.join? at hop
  split at hop <;> cases hop <;> exact .under rfl (hleft.append hright)

theorem mentionBelow_of_constant? {token : Token} {node : Node} {bound : ClassId}
    (h : Parser.constant? token = some node) : MentionBelow bound node.subtrees := by
  rcases lit_of_constant? h with ⟨value, rfl⟩ | rfl
  · exact .under rfl .nil
  · exact .under rfl .nil

theorem Spells.mentionBelow {classes : ClassTable} {ts : List Token} {phrase : Phrase}
    (h : Spells classes ts phrase) :
    phrase.MentionBelow classes.size := by
  induction h with
  | grouped _ _ _ ih ih' | called _ _ ih ih' => exact ih' ih
  | chainEnd | callsEnd => exact id
  | chainStep hop _ _ ih ih' =>
    intro hleft
    exact ih' (mentionBelow_of_join? hop hleft ih)
  | positive _ ih | operand _ ih | parenthesized _ ih | someArguments _ ih => exact ih
  | negation _ ih | conversion _ ih => exact .under rfl ih
  | comparison _ _ _ ih ih' => exact .under rfl (ih.append ih')
  | negative _ ih => exact .under rfl (.under rfl ih)
  | name => exact .under rfl .nil
  | noArguments => exact .nil
  | callsStep _ _ ih ih' =>
    intro hobject
    exact ih' (.under rfl (hobject.append ih))
  | constant h => exact mentionBelow_of_constant? h
  | methodCall _ ih => exact .under rfl (.under rfl ih)
  | creation _ hcls _ ih =>
    refine .cons (fun i hi => ?_) ih
    cases hi
    exact ClassTable.lt_of_latest? hcls
  | lastExpression _ ih => exact ih.append .nil
  | moreExpressions _ _ ih ih' => exact ih.append ih'

theorem Simple.mentionBelow {inMethod : Bool} {classes : ClassTable} {ts : List Token}
    {node : Node} (h : Simple inMethod classes ts node) :
    MentionBelow classes.size node.subtrees := by
  cases h with
  | returnNone => exact .under rfl (.under rfl .nil)
  | printNothing => exact .under rfl .nil
  | returnValue _ h => exact .under rfl h.mentionBelow
  | printValues h => exact .under rfl h.mentionBelow
  | assign _ h | setField _ _ h => exact .under rfl h.mentionBelow
  | expression h => exact h.mentionBelow

/-- Every class that a part names has been declared. -/
def Part.MentionBelow (bound : ClassId) : Part → Prop
  | .statement node => Node.MentionBelow bound node.subtrees
  | .statements nodes => Node.MentionBelow bound (allSubtrees nodes)
  | .method found => Node.MentionBelow bound found.body.subtrees
  | .methods found => ∀ method ∈ found, Node.MentionBelow bound method.body.subtrees

/-- Reading a part adds classes, the table stays sorted, and what the part names has
been declared. -/
theorem Block.sorted {inMethod : Bool} {depth : Nat} {classes classes' : ClassTable}
    {rows : List Row} {part : Part}
    (h : Block inMethod depth classes rows part classes') :
    classes.size ≤ classes'.size ∧ part.MentionBelow classes'.size ∧
    (classes.Sorted → classes'.Sorted) := by
  induction h with
  | simple h => exact ⟨Nat.le_refl _, h.mentionBelow, id⟩
  | ifThen hcondition _ _ ih =>
    obtain ⟨hle, hyes, hsorted⟩ := ih
    refine ⟨hle, .under rfl ?_, hsorted⟩
    exact (hcondition.mentionBelow.mono hle).append (.under rfl hyes)
  | ifElse hcondition _ _ _ _ ih ih' =>
    obtain ⟨hle, hyes, hsorted⟩ := ih
    obtain ⟨hle', hno, hsorted'⟩ := ih'
    refine ⟨Nat.le_trans hle hle', .under rfl ?_, fun h => hsorted' (hsorted h)⟩
    refine (hcondition.mentionBelow.mono (Nat.le_trans hle hle')).append (.append ?_ ?_)
    · exact .under rfl (hyes.mono hle')
    · exact .under rfl hno
  | declaration hparent _ ih =>
    obtain ⟨hle, hmethods, hsorted⟩ := ih
    rw [ClassTable.size_push]
    refine ⟨Nat.le_succ_of_le hle, .cons (fun i hi => ?_) .nil,
      fun h => (hsorted h).push (fun j hj => ?_) hmethods⟩
    · cases hi
      exact Nat.lt_succ_self _
    · cases hparent with
      | root => cases hj
      | child hcls =>
        cases hj
        exact Nat.lt_of_lt_of_le (ClassTable.lt_of_latest? hcls) hle
  | noStatements => exact ⟨Nat.le_refl _, .nil, id⟩
  | statements _ _ ih ih' =>
    obtain ⟨hle, hfirst, hsorted⟩ := ih
    obtain ⟨hle', hrest, hsorted'⟩ := ih'
    exact ⟨Nat.le_trans hle hle', (hfirst.mono hle').append hrest,
      fun h => hsorted' (hsorted h)⟩
  | method _ _ ih =>
    obtain ⟨hle, hbody, hsorted⟩ := ih
    exact ⟨hle, .under rfl (.under rfl hbody), hsorted⟩
  | lastMethod _ ih =>
    obtain ⟨hle, hmethod, hsorted⟩ := ih
    exact ⟨hle, List.forall_mem_singleton.mpr hmethod, hsorted⟩
  | moreMethods _ _ ih ih' =>
    obtain ⟨hle, hfirst, hsorted⟩ := ih
    obtain ⟨hle', hrest, hsorted'⟩ := ih'
    exact ⟨Nat.le_trans hle hle', List.forall_mem_cons.mpr ⟨hfirst.mono hle', hrest⟩,
      fun h => hsorted' (hsorted h)⟩

end Grammar

/-- The classes of an accepted program are sorted, and its statements name classes of
the table. -/
theorem Program.sorted_of_parse {source : Source} {program : Program}
    (h : parse source = .done program) :
    program.classes.Sorted ∧
    Node.MentionBelow program.classes.size (Node.allSubtrees program.statements) := by
  obtain ⟨lines, -, hblock⟩ := parse_eq_done_iff.mp h
  obtain ⟨-, hstatements, hsorted⟩ := hblock.sorted
  exact ⟨hsorted ClassTable.sorted_empty, hstatements⟩

end Mint
