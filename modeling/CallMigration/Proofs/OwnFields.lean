import CallMigration.Proofs.Evaluation
import CallMigration.Proofs.Lookup
import CallMigration.Proofs.Names
import Mathlib.Data.List.Find

/-!
# Fields of the own object

Behind `this` stands a field of the innermost type around it. A resolver looks for the field among those
of all types around, the innermost first, and if it finds no type, it reads the whole receiver as the
name of a type. So the answer is that of the field of the innermost type whenever that has a type; else
it can be the type of a field further out, or a type that is called like the receiver.

* `Tree.ownNodes`, `Tree.outerNodes` : the nodes around a place that belong to the innermost type, and
  the others.
* `Scope.fieldIn?` : the innermost field of a name in some nodes.
* `Scope.lookup?_fields` : a lookup of fields, in terms of it.
* `Resolver.ownerOf?_thisField` : what a call on a field of the own object is dispatched on.
-/

namespace CallMigration

open Element

/-! ## Bodies of types -/

namespace Site

/-- A node of no special kind that starts with a brace. -/
def isBody (x : Site) : Bool :=
  (tree x).isNode && kind x == .node && (significantChildren x).head?.any (isTokenText "\x7b")

/-- The bodies in a node that declares a type or creates an object. The constants of an enumeration
stand in its body and can have bodies of their own. -/
def bodies (x : Site) : List Site :=
  let own := (children x).filter isBody
  match kind x with
  | .classDeclaration | .interfaceDeclaration | .recordDeclaration | .annotationTypeDeclaration
  | .objectCreationExpression => own
  | .enumDeclaration =>
    own ++ ((own.flatMap fun body => children body).flatMap fun constant => children constant).filter
      isBody
  | _ => []

end Site

namespace Tree

def bodies (root : Tree) : List Span :=
  ((Site.root root).nodes.flatMap Site.bodies).map Site.span

/-- How many of the nodes around a place belong to the innermost type around it: those up to its body,
and a record itself, which has its components. -/
def ownDepth (root : Tree) (place : Site) : Nat :=
  match place.around.findIdx? fun s => root.bodies.contains s with
  | none => 0
  | some i => if (place.around[i + 1]?).any (·.kind == .recordDeclaration) then i + 2 else i + 1

/-- The nodes around a place that belong to the innermost type around it. -/
def ownNodes (root : Tree) (place : Site) : List Span :=
  place.around.take (root.ownDepth place)

def outerNodes (root : Tree) (place : Site) : List Span :=
  place.around.drop (root.ownDepth place)

theorem ownNodes_append_outerNodes (root : Tree) (place : Site) :
    root.ownNodes place ++ root.outerNodes place = place.around :=
  List.take_append_drop _ _

end Tree

/-! ## Fields -/

namespace Declaration

/-- A field is declared in the node that it belongs to, or it is a component of a record. It is visible
everywhere. -/
theorem field_of_ofNode {x : Site} {d : Declaration} (h : d ∈ ofNode x) (hfield : d.isField = true) :
    d.visibleFrom = none ∧ (kind x = .fieldDeclaration ∧ x.around[0]? = some d.owner ∨
      d.owner.kind = .recordDeclaration) := by
  cases madeBy_of_mem h with
  | declarator hkind howner =>
    subst hfield
    exact ⟨rfl, .inl ⟨hkind, howner⟩⟩
  | parameter => exact ⟨rfl, .inr (beq_iff_eq.mp hfield)⟩
  | lambda => cases hfield
  | pattern => cases hfield

end Declaration

namespace Scope

/-- The innermost field of a name in some nodes. -/
def fieldIn? (scope : Scope) (owners : List Span) (name : String) : Option Declaration :=
  (owners.filterMap fun owner => scope.binding? owner name).find? (·.isField)

theorem fieldIn?_append (scope : Scope) (inner outer : List Span) (name : String) :
    scope.fieldIn? (inner ++ outer) name =
      (scope.fieldIn? inner name).or (scope.fieldIn? outer name) := by
  rw [fieldIn?, List.filterMap_append, List.find?_append]
  rfl

theorem exists_of_binding? {scope : Scope} {owner : Span} {name : String} {d : Declaration}
    (h : scope.binding? owner name = some d) :
    ∃ first ∈ scope.declarations, first.owner = owner ∧ first.name = name ∧
      ∃ declared, (declared = first.declared ∨ declared = .ambiguous) ∧
        d = { first with declared } := by
  unfold binding? at h
  cases hcollected : scope.declarations.filter fun d => d.owner == owner && d.name == name with
  | nil =>
    rw [hcollected] at h
    cases h
  | cons first rest =>
    have hfirst : first ∈ scope.declarations.filter fun d => d.owner == owner && d.name == name := by
      rw [hcollected]
      exact List.mem_cons_self
    obtain ⟨hmem, hsame⟩ := List.mem_filter.mp hfirst
    rw [Bool.and_eq_true, beq_iff_eq, beq_iff_eq] at hsame
    obtain ⟨declared, hdeclared, hcombine⟩ := combine_cons first rest
    rw [hcollected, hcombine] at h
    exact ⟨first, hmem, hsame.1, hsame.2, declared, hdeclared, (Option.some.inj h).symm⟩

/-- What is found in nodes of a unit is a field that one of the nodes declares, or a component of one of
them, under the name that is looked for. Its type is the one that it is declared with, or it is ambiguous
because there are several. -/
theorem exists_of_fieldIn? {root : Tree} {owners : List Span} {name : String} {d : Declaration}
    (h : (collect root).fieldIn? owners name = some d) :
    d.owner ∈ owners ∧ d.name = name ∧ d.visibleFrom = none ∧
      ∃ x ∈ (Site.root root).nodes, ∃ declared,
        { d with declared } ∈ Declaration.ofNode x ∧
        (d.declared = declared ∨ d.declared = .ambiguous) ∧
        (kind x = .fieldDeclaration ∧ x.around[0]? = some d.owner ∨
          d.owner.kind = .recordDeclaration) := by
  have hfield := List.find?_some h
  obtain ⟨owner, howner, hbinding⟩ := List.mem_filterMap.mp (List.mem_of_find?_eq_some h)
  obtain ⟨first, hmem, rfl, rfl, declared, hdeclared, rfl⟩ := exists_of_binding? hbinding
  obtain ⟨x, hx, hmade⟩ := List.mem_flatMap.mp hmem
  obtain ⟨hvisible, hplace⟩ := Declaration.field_of_ofNode hmade hfield
  exact ⟨howner, rfl, hvisible, x, hx, first.declared, hmade, hdeclared, hplace⟩

/-- **A lookup of fields finds the innermost field**, wherever it is declared. -/
theorem lookup?_fields (root : Tree) (name : String) (place : Site) :
    (collect root).lookup? name place true =
      ((collect root).fieldIn? place.around name).map (·.declared) := by
  have hvisible (d : Declaration) (owner : Span) (h : (collect root).binding? owner name = some d)
      (hfield : d.isField = true) : isVisible place.start d = true := by
    obtain ⟨first, hmem, -, -, declared, -, rfl⟩ := exists_of_binding? h
    obtain ⟨x, -, hmade⟩ := List.mem_flatMap.mp hmem
    have hnone : first.visibleFrom = none := (Declaration.field_of_ofNode hmade hfield).1
    simp only [isVisible, hnone]
  rw [lookup?, fieldIn?]
  congr 1
  refine List.find?_congr fun d hd => ?_
  obtain ⟨owner, -, hbinding⟩ := List.mem_filterMap.mp hd
  cases hfield : d.isField with
  | false => rfl
  | true => rw [hvisible d owner hbinding hfield]; rfl

end Scope

/-! ## Receivers that could be type names -/

namespace SimpleName

variable {name : String} (h : SimpleName name)

theorem chars_this (name : String) :
    TypeName.chars ⟨"this." ++ name⟩ = 't' :: 'h' :: 'i' :: 's' :: '.' :: name.toList :=
  String.toList_append

include h

theorem erased_this : TypeName.Erased ⟨"this." ++ name⟩ := by
  have hthis : "this.".toList.all isErased = true := by decide +kernel
  intro c hc
  rw [TypeName.chars, String.toList_append] at hc
  exact (List.mem_append.mp hc).elim (List.all_eq_true.mp hthis c) (h.erased c)

theorem dimensions_this :
    (TypeName.ofWritten ("this." ++ name)).dimensions = (0, ⟨"this." ++ name⟩) := by
  rw [TypeName.ofWritten_text h.erased_this]
  refine TypeName.dimensions_of_isArray ?_
  by_contra harray
  rw [Bool.not_eq_false, TypeName.isArray, List.isSuffixOf_iff_suffix, chars_this] at harray
  have hbracket := harray.subset (show ']' ∈ "[]".toList by decide)
  refine not_mem_of_isIdentifier h.identifier (c := ']') (by decide) ?_
  simpa using hbracket

theorem lookedUp?_this : lookedUp? ("this." ++ name) = some "this" := by
  have hother : ∀ word ∈ "var" :: primitiveTypes, "this." ++ name ≠ word := by
    have hdot : ∀ word ∈ "var" :: primitiveTypes, '.' ∉ word.toList := by decide +kernel
    rintro word hword rfl
    refine hdot _ hword ?_
    rw [String.toList_append]
    exact List.mem_append_left _ (by decide)
  have hprimitive : TypeName.isPrimitive ⟨"this." ++ name⟩ = false := by
    rw [TypeName.isPrimitive, Bool.eq_false_iff, ne_eq, List.contains_iff_mem]
    exact fun hmem => hother _ (List.mem_cons_of_mem _ hmem) rfl
  have hvar : ("this." ++ name == "var") = false :=
    beq_eq_false_iff_ne.mpr (hother _ List.mem_cons_self)
  rw [lookedUp?, h.dimensions_this]
  simp only [hprimitive, hvar, Bool.or_false, Bool.false_eq_true, if_false]
  rw [TypeName.head, chars_this]
  rfl

theorem isQualified_this :
    TypeName.isQualified ⟨"this." ++ name⟩ = Text.startsUppercase name.toList := by
  have hdot : ∀ c ∈ name.toList, (c == '.') = false := fun c hc =>
    beq_eq_false_iff_ne.mpr fun heq => not_mem_of_isIdentifier h.identifier (by decide) (heq ▸ hc)
  have hsegments : Text.segments (TypeName.chars ⟨"this." ++ name⟩) =
      [['t', 'h', 'i', 's'], name.toList] := by
    rw [chars_this, Text.segments, List.splitOn_eq_splitOnP]
    show List.splitOnP (· == '.') (['t', 'h', 'i', 's'] ++ '.' :: name.toList) = _
    rw [List.splitOnP_append_cons _ _ rfl, List.splitOnP_eq_singleton hdot]
    rfl
  have hlower : Text.startsUppercase ['t', 'h', 'i', 's'] = false := by decide +kernel
  rw [TypeName.isQualified, TypeName.package?, hsegments]
  cases hupper : Text.startsUppercase name.toList <;> simp [hlower, hupper]

/-- A receiver behind `this` is read as the name of a type if it is capitalised, unless `this` itself is
the name of one. -/
theorem resolve?_this (r : Resolver) (hthis : r.resolveHead? "this" = none) :
    r.resolve? ("this." ++ name) =
      if Text.startsUppercase name.toList then some ⟨"this." ++ name⟩ else none := by
  rw [r.resolve?_eq h.lookedUp?_this, h.dimensions_this, hthis, TypeName.meaning?,
    h.isQualified_this]
  split <;> rfl

end SimpleName

/-! ## Calls on fields of the own object -/

def Site.thisField? (access : Site) : Option Site :=
  match access.element, significantChildren access with
  | .node .fieldAccess _, [object, _, field] =>
    if kind object == .thisReference && significantText access == "this." ++ significantText field
    then some field
    else none
  | _, _ => none

theorem Site.of_thisField? {access field : Site} (h : access.thisField? = some field) :
    (∃ cs, access.element = .node .fieldAccess cs) ∧
      (∃ object dot, significantChildren access = [object, dot, field] ∧
        kind object = .thisReference) ∧
      significantText access = "this." ++ significantText field := by
  unfold Site.thisField? at h
  split at h
  next cs object dot field' helement hparts =>
    rw [Option.ite_none_right_eq_some, Bool.and_eq_true, beq_iff_eq, beq_iff_eq] at h
    obtain ⟨⟨hthis, htext⟩, hfield⟩ := h
    cases hfield
    exact ⟨⟨cs, helement⟩, ⟨object, dot, hparts, hthis⟩, htext⟩
  next => cases h

/-- The calls of a unit on fields of the own object, each with the name of the field. -/
def Tree.thisFieldCalls (root : Tree) : List (Site × Site) :=
  ((Site.root root).nodes.filter Call.isCall).filterMap fun call =>
    ((Call.receiver? call).bind Site.thisField?).map fun field => (call, field)

theorem Tree.exists_of_mem_thisFieldCalls {root : Tree} {call field : Site}
    (h : (call, field) ∈ root.thisFieldCalls) :
    ∃ access, Call.receiver? call = some access ∧ access.thisField? = some field := by
  obtain ⟨call', -, hmade⟩ := List.mem_filterMap.mp h
  obtain ⟨field', hfield, heq⟩ := Option.map_eq_some_iff.mp hmade
  cases heq
  exact Option.bind_eq_some_iff.mp hfield

namespace Resolver

/-- The type that a declaration gives a name that calls are made on. -/
def typeOfDeclaration? (r : Resolver) (d : Declaration) : Option TypeName :=
  r.declaredType? (r.typeWithin? (stepLimit - 1)) d.declared

/-- The type of a field of the own object is that of the innermost field. -/
theorem typeOf?_thisField (table : TypeTable) (root : Tree) {access field : Site}
    (h : access.thisField? = some field) :
    (ofTree table root).typeOf? access =
      (((Scope.collect root).fieldIn? (root.ownNodes field) (significantText field)).or
        ((Scope.collect root).fieldIn? (root.outerNodes field) (significantText field))).bind
          (ofTree table root).typeOfDeclaration? := by
  obtain ⟨⟨cs, helement⟩, ⟨object, dot, hparts, hthis⟩, -⟩ := Site.of_thisField? h
  rw [← Scope.fieldIn?_append, Tree.ownNodes_append_outerNodes]
  change (ofTree table root).typeBy? ((ofTree table root).typeWithin? (stepLimit - 1))
    ((ofTree table root).typeWithin? (stepLimit - 2)) access = _
  simp only [typeBy?, helement, hparts, hthis, beq_self_eq_true, if_true]
  show ((Scope.collect root).lookup? (significantText field) field true).bind _ = _
  rw [Scope.lookup?_fields, Option.bind_map]
  rfl

theorem ownerOf?_fieldAccess (r : Resolver) {call access : Site} {cs : List Tree}
    (hcall : Call.receiver? call = some access) (haccess : access.element = .node .fieldAccess cs) :
    r.ownerOf? call = (r.typeOf? access).or (r.resolve? (significantText access)) := by
  simp only [ownerOf?, ownerWithin?, ownerBy?, hcall, haccess, typeOf?]
  cases r.typeWithin? stepLimit access <;> simp

/-- **What a call on a field of the own object is dispatched on.** It is the type of the innermost field
of that name among those of all types around, or else the type that `this.f` names. So the answer is the
type of a field of the innermost type around the call or none, exactly if that type has a field with a
type, or if `this.f` names no type and the innermost field of that name, if it is further out, has no
type. What counts as a field of the innermost type is declared in its body, or is a component of a
record; `this.f` names a type if `f` is capitalised. -/
theorem ownerOf?_thisField (table : TypeTable) (root : Tree) {call field : Site}
    (hcall : (call, field) ∈ root.thisFieldCalls) :
    let r := ofTree table root
    let name := significantText field
    let own? := r.scope.fieldIn? (root.ownNodes field) name
    let outer? := r.scope.fieldIn? (root.outerNodes field) name
    let named? := r.resolve? ("this." ++ name)
    r.ownerOf? call = ((own?.or outer?).bind r.typeOfDeclaration?).or named? ∧
    ((∀ t, r.ownerOf? call = some t → own?.bind r.typeOfDeclaration? = some t) ↔
      (own?.bind r.typeOfDeclaration?).isSome = true ∨
        named? = none ∧ (own?.isSome = true ∨ outer?.bind r.typeOfDeclaration? = none)) ∧
    (∀ d, own? = some d → d.owner ∈ root.ownNodes field ∧ d.name = name ∧ d.visibleFrom = none ∧
      ∃ x ∈ (Site.root root).nodes, ∃ declared, { d with declared } ∈ Declaration.ofNode x ∧
        (d.declared = declared ∨ d.declared = .ambiguous) ∧
        (kind x = .fieldDeclaration ∧ x.around[0]? = some d.owner ∨
          d.owner.kind = .recordDeclaration)) ∧
    (SimpleName name → r.resolveHead? "this" = none →
      named? = if Text.startsUppercase name.toList then some ⟨"this." ++ name⟩ else none) := by
  intro r name own? outer? named?
  have howner : r.ownerOf? call = ((own?.or outer?).bind r.typeOfDeclaration?).or named? := by
    obtain ⟨access, hreceiver, hfield⟩ := Tree.exists_of_mem_thisFieldCalls hcall
    obtain ⟨⟨cs, haccess⟩, -, htext⟩ := Site.of_thisField? hfield
    rw [r.ownerOf?_fieldAccess hreceiver haccess, typeOf?_thisField table root hfield, htext]
    rfl
  refine ⟨howner, ?_, fun d hd => Scope.exists_of_fieldIn? hd, fun hname => hname.resolve?_this r⟩
  rw [howner]
  cases hown : own? with
  | some d =>
    -- The field of the innermost type hides all fields further out.
    rw [Option.some_or, Option.bind_some]
    cases htype : r.typeOfDeclaration? d with
    | some t => simp
    | none => simp [Option.eq_none_iff_forall_ne_some]
  | none =>
    rw [Option.none_or, Option.bind_none]
    simp only [reduceCtorEq, imp_false, Option.isSome_none, Bool.false_eq_true, false_or]
    rw [← Option.eq_none_iff_forall_ne_some, Option.or_eq_none_iff, and_comm]

/-- A field of a class, and a component and an anonymous class with a field of the same name. -/
def ownFieldsSource : String :=
  "class A \x7b p.B b; record R(p.C b) \x7b void g() \x7b this.b.f(); " ++
    "new Object() \x7b p.D b; void h() \x7b this.b.f(); \x7d \x7d; \x7d \x7d \x7d"

/-- The call in `g` is made on the component, and the call in `h` on the field of the anonymous class. -/
theorem ownerOf?_thisField_record :
    ∃ u, JavaUnit.parse ownFieldsSource = .ok u ∧
      u.tree.thisFieldCalls.map (fun x => (ofTree .empty u.tree).ownerOf? x.1) =
        [some ⟨"p.C"⟩, some ⟨"p.D"⟩] ∧
      ∀ x ∈ u.tree.thisFieldCalls, ∀ t, (ofTree .empty u.tree).ownerOf? x.1 = some t →
        ((Scope.collect u.tree).fieldIn? (u.tree.ownNodes x.2) (significantText x.2)).bind
          (ofTree .empty u.tree).typeOfDeclaration? = some t := by
  have hcheck : (JavaUnit.parse ownFieldsSource).toOption.any (fun u => decide (
      u.tree.thisFieldCalls.map (fun x => (ofTree .empty u.tree).ownerOf? x.1) =
        [some ⟨"p.C"⟩, some ⟨"p.D"⟩] ∧
      ∀ x ∈ u.tree.thisFieldCalls,
        (((Scope.collect u.tree).fieldIn? (u.tree.ownNodes x.2) (significantText x.2)).bind
          (ofTree .empty u.tree).typeOfDeclaration?).isSome = true)) = true := by
    rw [JavaUnit.parse_eq]
    decide +kernel
  obtain ⟨u, hparse, hfacts⟩ := exists_ok_of_any hcheck
  obtain ⟨howners, htyped⟩ := of_decide_eq_true hfacts
  refine ⟨u, hparse, howners, ?_⟩
  rintro ⟨call, field⟩ hx
  have hown := htyped (call, field) hx
  exact (ownerOf?_thisField .empty u.tree hx).2.1.mpr (.inl hown)

/-- A call in an inner class that has no field of the name, and one on a field that no type has. -/
def otherFieldsSource : String :=
  "class A \x7b p.B b; class C extends D \x7b void g() \x7b this.b.f(); this.F.f(); \x7d \x7d \x7d"

/-- The first call gets the type of the outer field, and the second one the name of the field as its
type. -/
theorem thisField_mistaken :
    ∃ u, JavaUnit.parse otherFieldsSource = .ok u ∧
      u.tree.thisFieldCalls.map (fun x => significantText x.2) = ["b", "F"] ∧
      u.tree.thisFieldCalls.map (fun x => (ofTree .empty u.tree).ownerOf? x.1) =
        [some ⟨"p.B"⟩, some ⟨"this.F"⟩] ∧
      ∀ x ∈ u.tree.thisFieldCalls,
        (Scope.collect u.tree).fieldIn? (u.tree.ownNodes x.2) (significantText x.2) = none := by
  have hcheck : (JavaUnit.parse otherFieldsSource).toOption.any (fun u => decide (
      u.tree.thisFieldCalls.map (fun x => significantText x.2) = ["b", "F"] ∧
      u.tree.thisFieldCalls.map (fun x => (ofTree .empty u.tree).ownerOf? x.1) =
        [some ⟨"p.B"⟩, some ⟨"this.F"⟩] ∧
      ∀ x ∈ u.tree.thisFieldCalls,
        (Scope.collect u.tree).fieldIn? (u.tree.ownNodes x.2) (significantText x.2) = none)) =
          true := by
    rw [JavaUnit.parse_eq]
    decide +kernel
  obtain ⟨u, hparse, hfacts⟩ := exists_ok_of_any hcheck
  exact ⟨u, hparse, of_decide_eq_true hfacts⟩

end Resolver

end CallMigration
