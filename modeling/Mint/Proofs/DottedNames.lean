import Mathlib.Data.List.Induction
import Mint.Eval

/-!
# What dotted names lead to

A dotted name leads from a variable through the fields of instances, and what it leads
to is told from its beginning on: its first segment is bound in the scope, and each
later one is a field of the instance that the segments before it lead to (`Path.Leads`).
`dotted_names_lead_through_fields` says that resolving a name follows this and nothing
else, that it leaves everything as it is, and which error names that lead nowhere end
in. That depends on the longest part of the name, from its beginning on, that leads
somewhere (`Path.Blames`).

The heap may be cyclic. Nothing here looks at which instances a name goes through, or
how often.
-/

namespace Mint.Path

/-- A field of a value. Only instances have fields. -/
def fieldOf? (heap : Heap) (value : Value) (field : String) : Option Value :=
  match value with
  | .inst a => heap.field? a field
  | _ => none

/-- What a dotted name leads to: the value of the variable, and from there on one field
after the other. -/
def value? (heap : Heap) (scope : Scope) : List String → Option Value
  | [] => none
  | first :: rest =>
    (scope.get? first).bind fun value => rest.foldlM (fieldOf? heap) value

/-- The dotted name leads to the value. -/
inductive Leads (heap : Heap) (scope : Scope) : List String → Value → Prop where
  | bound {name v} (hname : scope.get? name = some v) : Leads heap scope [name] v
  | field {path a name v} (hpath : Leads heap scope path (.inst a))
    (hfield : heap.field? a name = some v) :
    Leads heap scope (path ++ [name]) v

/-- Among the parts of the dotted name `path` from its beginning on, those up to `found`
lead somewhere, and no others. -/
structure LeadsUpTo (heap : Heap) (scope : Scope) (path found : List String) : Prop where
  found_prefix : found <+: path
  leads_iff :
    ∀ part, part <+: path → ((∃ v, Leads heap scope part v) ↔ part ≠ [] ∧ part <+: found)

/-- The error of the dotted name `path`, of which no more than `found` leads somewhere:
a missing variable or field is reported by the whole name, and a value that is no
instance by the segment that leads to it and by its type as well. -/
inductive Blames (classes : ClassTable) (heap : Heap) (scope : Scope)
    (path : List String) :
    List String → EvalError → Prop where
  | unbound : Blames classes heap scope path [] (.undefined path)
  | missing {found a} (hfound : Leads heap scope found (.inst a)) :
    Blames classes heap scope path found (.undefined path)
  | notInstance {before segment v} (hfound : Leads heap scope (before ++ [segment]) v)
    (hv : ∀ a, v ≠ .inst a) :
    Blames classes heap scope path (before ++ [segment])
    (.invalidPath path segment (v.typeName classes heap))

variable {classes : ClassTable} {heap : Heap} {scope : Scope}
  {path found whole rest : List String} {last field : String} {value v : Value}

/-! ## Names that lead somewhere -/

theorem fieldOf?_eq_some_iff : fieldOf? heap value field = some v ↔
    ∃ a, value = .inst a ∧ heap.field? a field = some v := by
  cases value <;> simp [fieldOf?]

theorem value?_append (hpath : path ≠ []) (rest : List String) :
    value? heap scope (path ++ rest) =
      (value? heap scope path).bind fun value => rest.foldlM (fieldOf? heap) value := by
  cases path with
  | nil => exact absurd rfl hpath
  | cons first path =>
    rw [List.cons_append, value?, value?, Option.bind_assoc]
    simp only [List.foldlM_append]
    rfl

theorem value?_concat (hpath : path ≠ []) (field : String) :
    value? heap scope (path ++ [field]) =
      (value? heap scope path).bind fun value => fieldOf? heap value field := by
  simp only [value?_append hpath, List.foldlM_cons, List.foldlM_nil, bind_pure]

theorem leads_iff_value? : Leads heap scope path v ↔ value? heap scope path = some v := by
  constructor
  · intro h
    induction h with
    | @bound name v hname =>
      rw [value?, hname]
      rfl
    | @field path a name v hpath hfield ih =>
      have hne : path ≠ [] := by
        rintro rfl
        cases ih
      rw [value?_concat hne, ih]
      exact hfield
  · intro h
    induction path using List.reverseRecOn generalizing v with
    | nil => cases h
    | append_singleton path name ih =>
      by_cases hpath : path = []
      · subst hpath
        rw [List.nil_append, value?] at h
        exact .bound (by simpa using h)
      · rw [value?_concat hpath] at h
        obtain ⟨value, hvalue, hfield⟩ := Option.bind_eq_some_iff.mp h
        obtain ⟨a, rfl, hfield⟩ := fieldOf?_eq_some_iff.mp hfield
        exact .field (ih hvalue) hfield

theorem toOption_follow : (follow classes heap whole last value rest).toOption =
    rest.foldlM (fieldOf? heap) value := by
  induction rest generalizing last value with
  | nil => rfl
  | cons name rest ih =>
    rw [List.foldlM_cons]
    cases value with
    | inst a =>
      rw [follow, fieldOf?]
      cases heap.field? a name with
      | none => rfl
      | some next => exact ih
    | _ => rfl

/-- Resolving a name is the fold of reading fields. -/
theorem toOption_resolve (classes : ClassTable) :
    (resolve classes heap scope path).toOption = value? heap scope path := by
  cases path with
  | nil => rfl
  | cons first rest =>
    rw [resolve, value?]
    cases scope.get? first with
    | none => rfl
    | some value => exact toOption_follow

theorem resolve_eq_ok_iff : resolve classes heap scope path = .ok v ↔
    Leads heap scope path v := by
  rw [leads_iff_value?, ← toOption_resolve classes]
  cases resolve classes heap scope path <;> simp [Except.toOption]

/-! ## Names that lead nowhere -/

theorem follow_append {before : List String} {next : Value}
    (h : before.foldlM (fieldOf? heap) value = some next) :
    follow classes heap whole last value (before ++ rest) =
      follow classes heap whole
        ((last :: before).getLast (List.cons_ne_nil last before)) next rest := by
  induction before generalizing last value with
  | nil =>
    cases h
    rfl
  | cons name before ih =>
    rw [List.foldlM_cons] at h
    obtain ⟨read, hread, hbefore⟩ := Option.bind_eq_some_iff.mp h
    obtain ⟨a, rfl, hname⟩ := fieldOf?_eq_some_iff.mp hread
    simp only [List.cons_append, follow, hname]
    exact ih hbefore

/-- Behind a part that leads somewhere a name is followed from there on. -/
theorem resolve_append (hne : found ≠ []) (hfound : value? heap scope found = some v) :
    resolve classes heap scope (found ++ rest) =
      follow classes heap (found ++ rest) (found.getLast hne) v rest := by
  cases found with
  | nil => exact absurd rfl hne
  | cons first before =>
    obtain ⟨value, hfirst, hbefore⟩ := Option.bind_eq_some_iff.mp hfound
    rw [List.cons_append, resolve, hfirst]
    exact follow_append hbefore

/-- A name that leads nowhere has a longest part that leads somewhere, or none at all. -/
theorem exists_stop (hpath : path ≠ []) (h : value? heap scope path = none) :
    ∃ found field rest,
      path = found ++ field :: rest ∧ value? heap scope (found ++ [field]) = none ∧
      (found ≠ [] → ∃ v, value? heap scope found = some v) := by
  induction path using List.reverseRecOn with
  | nil => exact absurd rfl hpath
  | append_singleton before field ih =>
    by_cases hbefore : before ≠ [] ∧ value? heap scope before = none
    · obtain ⟨found, name, rest, rfl, hstop⟩ := ih hbefore.1 hbefore.2
      exact ⟨found, name, rest ++ [field],
        by rw [List.append_assoc, List.cons_append], hstop⟩
    · refine ⟨before, field, [], rfl, h, fun hne => ?_⟩
      exact Option.ne_none_iff_exists'.mp fun hnone => hbefore ⟨hne, hnone⟩

/-- With a longer part every shorter one leads somewhere, and beyond a part that leads
nowhere none does. -/
theorem leadsUpTo_of_stop {field : String} {rest : List String}
    (hstop : value? heap scope (found ++ [field]) = none)
    (hfound : found ≠ [] → ∃ v, value? heap scope found = some v) :
    LeadsUpTo heap scope (found ++ field :: rest) found where
  found_prefix := List.prefix_append _ _
  leads_iff part hpart := by
    simp only [leads_iff_value?]
    constructor
    · rintro ⟨v, hv⟩
      have hne : part ≠ [] := by
        rintro rfl
        cases hv
      refine ⟨hne, ?_⟩
      rcases List.prefix_or_prefix_of_prefix hpart
        (List.prefix_append found (field :: rest)) with hshort | hlong
      · exact hshort
      · obtain ⟨extra, rfl⟩ := hlong
        rw [List.prefix_append_right_inj, List.prefix_cons_iff] at hpart
        rcases hpart with rfl | ⟨extra, rfl, -⟩
        · exact ⟨[], by rw [List.append_nil, List.append_nil]⟩
        · -- a part beyond `found` has the missing segment in it
          rw [← List.singleton_append, ← List.append_assoc, value?_append (by simp),
            hstop] at hv
          cases hv
    · rintro ⟨hne, rest, rfl⟩
      obtain ⟨v, hv⟩ := hfound (by simp [hne])
      rw [value?_append hne] at hv
      obtain ⟨w, hw, -⟩ := Option.bind_eq_some_iff.mp hv
      exact ⟨w, hw⟩

/-- The error blames what the longest part of the name leads to. -/
theorem blames_of_stop {field : String} {rest : List String} {e : EvalError}
    (hstop : value? heap scope (found ++ [field]) = none)
    (hfound : found ≠ [] → ∃ v, value? heap scope found = some v)
    (h : resolve classes heap scope (found ++ field :: rest) = .error e) :
    Blames classes heap scope (found ++ field :: rest) found e := by
  by_cases hne : found = []
  · subst hne
    have hfield : scope.get? field = none := by simpa [value?] using hstop
    rw [List.nil_append, resolve, hfield] at h
    cases h
    exact .unbound
  · obtain ⟨v, hv⟩ := hfound hne
    have hleads := leads_iff_value?.mpr hv
    rw [value?_concat hne, hv] at hstop
    rw [resolve_append hne hv] at h
    cases v with
    | inst a =>
      rw [follow, show heap.field? a field = none from hstop] at h
      cases h
      exact .missing hleads
    | _ =>
      cases h
      have hsplit := List.dropLast_concat_getLast hne
      rw [← hsplit] at hleads
      have hblames : Blames classes heap scope (found ++ field :: rest)
          (found.dropLast ++ [found.getLast hne]) _ :=
        .notInstance hleads (by simp)
      rwa [hsplit] at hblames

end Mint.Path

namespace Mint

open Mint.Path

/-- A dotted name is resolved without changing anything. It leads to a value exactly if
its first segment is a variable and each later one a field of the instance that the
segments before it lead to; this is the fold of reading fields, so one more segment
reads one more field. Otherwise it has a longest part, from its beginning on, that leads
somewhere, or no part at all does, and the error is the one that this part is to blame
for. -/
theorem dotted_names_lead_through_fields (classes : ClassTable) (heap : Heap)
    (scope : Scope) {path : List String} (hpath : path ≠ []) :
    (∀ d sink, (Node.path path).exec classes d ⟨scope, heap, sink⟩ =
      match resolve classes heap scope path with
      | .ok v => .done (v, ⟨scope, heap, sink⟩)
      | .error e => .failed (.error e, ⟨scope, heap, sink⟩)) ∧
    (∀ v, resolve classes heap scope path = .ok v ↔ Leads heap scope path v) ∧
    (resolve classes heap scope path).toOption =
      (path.head?.bind scope.get?).bind (path.tail.foldlM (fieldOf? heap)) ∧
    (∀ field v, resolve classes heap scope (path ++ [field]) = .ok v ↔
      ∃ a,
        resolve classes heap scope path = .ok (.inst a) ∧ heap.field? a field = some v) ∧
    ∀ e, resolve classes heap scope path = .error e →
      ∃ found, found ≠ path ∧ LeadsUpTo heap scope path found ∧
        Blames classes heap scope path found e := by
  refine ⟨fun d sink => ?_, fun v => resolve_eq_ok_iff, ?_, fun field v => ?_,
    fun e he => ?_⟩
  · rw [Node.exec, Node.ofLookup]
    cases resolve classes heap scope path <;> rfl
  · rw [toOption_resolve classes]
    cases path with
    | nil => exact absurd rfl hpath
    | cons first rest => rfl
  · simp only [resolve_eq_ok_iff, leads_iff_value?, value?_concat hpath,
      Option.bind_eq_some_iff, fieldOf?_eq_some_iff]
    constructor
    · rintro ⟨_, hvalue, a, rfl, hfield⟩
      exact ⟨a, hvalue, hfield⟩
    · rintro ⟨a, hvalue, hfield⟩
      exact ⟨_, hvalue, a, rfl, hfield⟩
  · have hnone : value? heap scope path = none := by
      rw [← toOption_resolve classes, he]
      rfl
    obtain ⟨found, field, rest, rfl, hstop, hfound⟩ := exists_stop hpath hnone
    exact ⟨found, by simp, leadsUpTo_of_stop hstop hfound, blames_of_stop hstop hfound he⟩

/-- A ring of one link, `next`, with a text on it. -/
def ringHeap : Heap := ⟨#[⟨0, ⟨[("next", .inst 0), ("label", .text "ring")]⟩⟩]⟩

/-- The ring is called `x`. -/
def ringScope : Scope := ⟨[("x", .inst 0)]⟩

/-- `x.next.next.label` is a text. `x.next.label.size` goes wrong at `label`, and
`x.next.size.next` behind `x.next`. -/
theorem dotted_names_lead_through_fields_ring :
    Leads ringHeap ringScope ["x", "next", "next", "label"] (.text "ring") ∧
    (∃ found, found ≠ ["x", "next", "label", "size"] ∧
      LeadsUpTo ringHeap ringScope ["x", "next", "label", "size"] found ∧
      Blames ∅ ringHeap ringScope ["x", "next", "label", "size"] found
        (.invalidPath ["x", "next", "label", "size"] "label" "String")) ∧
    ∃ found, found ≠ ["x", "next", "size", "next"] ∧
      LeadsUpTo ringHeap ringScope ["x", "next", "size", "next"] found ∧
      Blames ∅ ringHeap ringScope ["x", "next", "size", "next"] found
        (.undefined ["x", "next", "size", "next"]) := by
  refine ⟨?_, ?_, ?_⟩
  · exact ((dotted_names_lead_through_fields ∅ ringHeap ringScope
      (List.cons_ne_nil _ _)).2.1 _).mp rfl
  · exact (dotted_names_lead_through_fields ∅ ringHeap ringScope
      (List.cons_ne_nil _ _)).2.2.2.2 _ rfl
  · exact (dotted_names_lead_through_fields ∅ ringHeap ringScope
      (List.cons_ne_nil _ _)).2.2.2.2 _ rfl

end Mint
