import CallMigration.Proofs.Evaluation
import CallMigration.Proofs.Introductions
import CallMigration.Proofs.Slots
import CallMigration.Resolve.Resolver

/-!
# Shadowing

A use of a name belongs to the innermost construct around it that introduces the name visibly. What
the resolver makes of the use is decided there, or the construct is passed over as if it introduced
nothing.

* `Tree.firstRecorded?` : the introduction that a construct binds a name by.
* `Resolver.typeOf?_innermost` : the type of a use is decided by the innermost construct that introduces
  its name, exactly if the first introduction that is recorded there is visible.
-/

namespace CallMigration

open Element

/-! ## Uses of names -/

/-- The first variable of a name that a construct introduces in a form that is recorded. -/
def Tree.firstRecorded? (t : Tree) (construct : Span) (name : String) : Option Introduction :=
  t.introductions.find? fun i => i.isRecorded && (i.construct == construct && i.name == name)

theorem Tree.mem_of_firstRecorded? {t : Tree} {construct : Span} {name : String} {i : Introduction}
    (h : t.firstRecorded? construct name = some i) :
    i ∈ t.introductions ∧ i.construct = construct ∧ i.name = name := by
  have hi := List.find?_some h
  simp only [Bool.and_eq_true, beq_iff_eq] at hi
  exact ⟨List.mem_of_find?_eq_some h, hi.2⟩

namespace Scope

/-- Declarations of one name taken together are the first one, with its type or without. -/
theorem combine_cons (d : Declaration) (ds : List Declaration) :
    ∃ declared, (declared = d.declared ∨ declared = .ambiguous) ∧
      combine (d :: ds) = some { d with declared := declared } := by
  simp only [combine]
  split
  · exact ⟨d.declared, .inl rfl, rfl⟩
  · exact ⟨.ambiguous, .inr rfl, rfl⟩

variable {t : Tree} (h : t.PlainDeclarations) (construct : Span) (name : String)

include h

theorem filter_declarations :
    ((Scope.collect t).declarations.filter fun d => d.owner == construct && d.name == name) =
      ((t.introductions.filter fun i =>
        i.isRecorded && (i.construct == construct && i.name == name))).map Introduction.declaration := by
  rw [collect_declarations h, List.filter_map, List.filter_filter]
  congr 2
  funext i
  simp [Introduction.declaration, Bool.and_comm]

/-- What a construct binds a name to is decided by the first introduction of it that is recorded. -/
theorem binding?_of_firstRecorded? {i : Introduction}
    (hi : t.firstRecorded? construct name = some i) :
    ∃ declared, (declared = i.type ∨ declared = .ambiguous) ∧
      (Scope.collect t).binding? construct name =
        some { i.declaration with declared := declared } := by
  unfold Tree.firstRecorded? at hi
  rw [← List.head?_filter] at hi
  obtain ⟨rest, hrest⟩ := List.head?_eq_some_iff.mp hi
  rw [binding?, filter_declarations h, hrest, List.map_cons]
  obtain ⟨declared, hdeclared, hcombine⟩ :=
    combine_cons i.declaration (rest.map Introduction.declaration)
  refine ⟨declared, ?_, hcombine⟩
  rcases hdeclared with rfl | rfl
  · exact i.recordedType_cases
  · exact .inr rfl

theorem binding?_of_firstRecorded?_eq_none (hnone : t.firstRecorded? construct name = none) :
    (Scope.collect t).binding? construct name = none := by
  unfold Tree.firstRecorded? at hnone
  rw [← List.head?_filter, List.head?_eq_none_iff] at hnone
  rw [binding?, filter_declarations h, hnone]
  rfl

/-- A binding is hidden if the first introduction that is recorded is. -/
theorem isVisible_of_binding? {offset : Nat}
    (hhidden : ∀ i, t.firstRecorded? construct name = some i → i.isVisible offset = false)
    {d : Declaration} (hd : (Scope.collect t).binding? construct name = some d) :
    isVisible offset d = false := by
  cases hfirst : t.firstRecorded? construct name with
  | none =>
    rw [binding?_of_firstRecorded?_eq_none h construct name hfirst] at hd
    cases hd
  | some i =>
    obtain ⟨declared, -, hbinding⟩ := binding?_of_firstRecorded? h construct name hfirst
    rw [hbinding] at hd
    cases hd
    rw [i.isVisible_declaration]
    exact hhidden i hfirst

omit h

/-- A construct that binds a name to nothing that is visible is passed over. -/
theorem lookup?_cons_of_hidden (scope : Scope) (element : Tree) (start : Nat) (outer : List Span)
    (hhidden : ∀ d, scope.binding? construct name = some d → isVisible start d = false) :
    scope.lookup? name ⟨element, start, construct :: outer⟩ false =
      scope.lookup? name ⟨element, start, outer⟩ false := by
  cases hbinding : scope.binding? construct name with
  | none => simp [lookup?, hbinding]
  | some d => simp [lookup?, hbinding, hhidden d hbinding]

theorem lookup?_append_of_hidden (scope : Scope) (element : Tree) (start : Nat)
    (inner outer : List Span)
    (hhidden : ∀ construct ∈ inner, ∀ d, scope.binding? construct name = some d →
      isVisible start d = false) :
    scope.lookup? name ⟨element, start, inner ++ outer⟩ false =
      scope.lookup? name ⟨element, start, outer⟩ false := by
  induction inner with
  | nil => rfl
  | cons construct inner ih =>
    rw [List.cons_append, lookup?_cons_of_hidden construct name scope element start _
      (hhidden construct List.mem_cons_self)]
    exact ih fun c hc => hhidden c (List.mem_cons_of_mem construct hc)

theorem lookup?_cons_of_visible (scope : Scope) (element : Tree) (start : Nat) (outer : List Span)
    {d : Declaration} (hbinding : scope.binding? construct name = some d)
    (hvisible : isVisible start d = true) :
    scope.lookup? name ⟨element, start, construct :: outer⟩ false = some d.declared := by
  simp [lookup?, hbinding, hvisible]

end Scope

namespace Resolver

theorem typeOf?_identifier (r : Resolver) {e : Site} {name : String}
    (he : e.element = .token .identifier name) :
    r.typeOf? e =
      (r.scope.lookup? name e false).bind (r.declaredType? (r.typeWithin? (stepLimit - 1))) := by
  change r.typeBy? (r.typeWithin? (stepLimit - 1)) (r.typeWithin? (stepLimit - 2)) e = _
  simp only [typeBy?, he]

/-- A call on a name that is bound is dispatched on the type of the name. -/
theorem ownerOf?_of_lookup? (r : Resolver) {e call : Site} {name : String} {declared : Declared}
    (he : e.element = .token .identifier name) (hcall : Call.receiver? call = some e)
    (hlookup : r.scope.lookup? name e false = some declared) : r.ownerOf? call = r.typeOf? e := by
  rw [r.typeOf?_identifier he, hlookup]
  simp only [ownerOf?, ownerWithin?, ownerBy?, hcall, he, hlookup, Option.bind_some]

/-- **The innermost introduction of a name decides its type.** Let no construct inside of `construct`
introduce `name` visibly at the use. If the first introduction of the name into `construct` that is
recorded is visible, the use has its type or none, and so has a call on it. Else `construct` is passed
over, whatever it introduces. -/
theorem typeOf?_innermost (table : TypeTable) {t : Tree} (hplain : t.PlainDeclarations) {e : Site}
    {name : String} (he : e.element = .token .identifier name) {inner outer : List Span}
    {construct : Span} (haround : e.around = inner ++ construct :: outer)
    (hinner : ∀ i ∈ t.introductions, i.name = name → i.construct ∈ inner →
      i.isVisible e.start = false) :
    let r := ofTree table t
    (∀ i, t.firstRecorded? construct name = some i → i.isVisible e.start = true →
      (r.typeOf? e = none ∨
        r.typeOf? e = r.declaredType? (r.typeWithin? (stepLimit - 1)) i.type) ∧
      ∀ call, Call.receiver? call = some e → r.ownerOf? call = r.typeOf? e) ∧
    ((∀ i, t.firstRecorded? construct name = some i → i.isVisible e.start = false) →
      r.typeOf? e = r.typeOf? { e with around := outer }) := by
  intro r
  have hskip : r.scope.lookup? name e false =
      r.scope.lookup? name { e with around := construct :: outer } false := by
    have hpass := Scope.lookup?_append_of_hidden name r.scope e.element e.start inner
      (construct :: outer) fun c hc d hd => Scope.isVisible_of_binding? hplain c name (fun i hi => by
        obtain ⟨hmem, hconstruct, hname⟩ := Tree.mem_of_firstRecorded? hi
        exact hinner i hmem hname (hconstruct ▸ hc)) hd
    rwa [← haround] at hpass
  constructor
  · intro i hfirst hvisible
    obtain ⟨declared, hdeclared, hbinding⟩ :=
      Scope.binding?_of_firstRecorded? hplain construct name hfirst
    have hlookup : r.scope.lookup? name e false = some declared :=
      hskip.trans (Scope.lookup?_cons_of_visible construct name r.scope e.element e.start outer
        hbinding (by rw [i.isVisible_declaration, hvisible]))
    refine ⟨?_, fun call hcall => r.ownerOf?_of_lookup? he hcall hlookup⟩
    rw [r.typeOf?_identifier he, hlookup, Option.bind_some]
    rcases hdeclared with rfl | rfl
    · exact .inr rfl
    · exact .inl rfl
  · intro hpassed
    have houter : ({ e with around := outer } : Site).element = .token .identifier name := he
    rw [r.typeOf?_identifier he, r.typeOf?_identifier houter, hskip]
    rw [Scope.lookup?_cons_of_hidden construct name r.scope e.element e.start outer fun d hd =>
      Scope.isVisible_of_binding? hplain construct name hpassed hd]

/-- What calls of a unit are made on, in document order. -/
def receivers (t : Tree) : List Site :=
  ((Site.root t).nodes.filter Call.isCall).filterMap Call.receiver?

/-- A field that a parameter of `f` and a `catch` parameter in `h` hide. -/
def hidingSource : String :=
  "class A \x7b p.B b; void f(p.C b) \x7b b.g(); \x7d " ++
    "void h() \x7b try \x7b \x7d catch (p.E b) \x7b b.g(); \x7d \x7d \x7d"

def fieldOfA : Introduction :=
  ⟨.field, ⟨.node, 8, 89⟩, "b", .written "p.B", none⟩

def parameterOfF : Introduction :=
  ⟨.formalParameter, ⟨.methodDeclaration, 17, 41⟩, "b", .written "p.C", none⟩

def caughtInH : Introduction :=
  ⟨.catchParameter, ⟨.node, 61, 85⟩, "b", .written "p.E", none⟩

def useInF : Site :=
  ⟨.token .identifier "b", 33, [⟨.methodInvocation, 33, 38⟩, ⟨.expressionStatement, 33, 39⟩,
    ⟨.block, 31, 41⟩, ⟨.methodDeclaration, 17, 41⟩, ⟨.node, 8, 89⟩, ⟨.classDeclaration, 0, 89⟩,
    ⟨.program, 0, 89⟩]⟩

/-- The receiver of the call in the `catch` clause of `h`. -/
def useInH : Site :=
  ⟨.token .identifier "b", 77, [⟨.methodInvocation, 77, 82⟩, ⟨.expressionStatement, 77, 83⟩,
    ⟨.block, 75, 85⟩, ⟨.node, 61, 85⟩, ⟨.node, 53, 85⟩, ⟨.block, 51, 87⟩,
    ⟨.methodDeclaration, 42, 87⟩, ⟨.node, 8, 89⟩, ⟨.classDeclaration, 0, 89⟩, ⟨.program, 0, 89⟩]⟩

theorem exists_hidingUnit :
    ∃ u, JavaUnit.parse hidingSource = .ok u ∧ u.tree.PlainDeclarations ∧
      u.tree.introductions = [fieldOfA, parameterOfF, caughtInH] ∧
      receivers u.tree = [useInF, useInH] ∧
      (ofTree .empty u.tree).typeOf? useInH = some ⟨"p.B"⟩ := by
  have hcheck : (JavaUnit.parse hidingSource).toOption.any (fun u =>
      decide (u.tree.PlainDeclarations ∧
        u.tree.introductions = [fieldOfA, parameterOfF, caughtInH] ∧
        receivers u.tree = [useInF, useInH] ∧
        (ofTree .empty u.tree).typeOf? useInH = some ⟨"p.B"⟩)) = true := by
    rw [JavaUnit.parse_eq]
    decide +kernel
  obtain ⟨u, hparse, hfacts⟩ := exists_ok_of_any hcheck
  exact ⟨u, hparse, of_decide_eq_true hfacts⟩

/-- The call in `f` is made on the parameter, and the `catch` clause in `h` is passed over. -/
theorem typeOf?_innermost_hiding :
    ∃ u, JavaUnit.parse hidingSource = .ok u ∧
      ((ofTree .empty u.tree).typeOf? useInF = none ∨
        (ofTree .empty u.tree).typeOf? useInF = (ofTree .empty u.tree).resolve? "p.C") ∧
      (ofTree .empty u.tree).typeOf? useInH =
        (ofTree .empty u.tree).typeOf? { useInH with around := useInH.around.drop 4 } := by
  obtain ⟨u, hparse, hplain, hintroductions, -⟩ := exists_hidingUnit
  refine ⟨u, hparse, ?_, ?_⟩
  · have haround : useInF.around =
        useInF.around.take 3 ++ parameterOfF.construct :: useInF.around.drop 4 := by decide
    refine ((typeOf?_innermost .empty hplain rfl haround ?_).1 parameterOfF ?_ (by decide)).1
    · rw [hintroductions]
      decide
    · rw [Tree.firstRecorded?, hintroductions]
      decide
  · have haround : useInH.around =
        useInH.around.take 3 ++ caughtInH.construct :: useInH.around.drop 4 := by decide
    have hnone : u.tree.firstRecorded? caughtInH.construct "b" = none := by
      rw [Tree.firstRecorded?, hintroductions]
      decide
    refine (typeOf?_innermost .empty hplain rfl haround ?_).2 fun i hi => ?_
    · rw [hintroductions]
      decide
    · rw [hnone] at hi
      cases hi

/-- In the `catch` clause that introduces `b` as `p.E`, a use of `b` gets the type of the field. -/
theorem catch_parameter_passed_over :
    ∃ u inner outer, JavaUnit.parse hidingSource = .ok u ∧ useInH ∈ receivers u.tree ∧
      useInH.element = .token .identifier "b" ∧
      useInH.around = inner ++ caughtInH.construct :: outer ∧
      (∀ i ∈ u.tree.introductions, i.name = "b" → i.construct ∈ inner →
        i.isVisible useInH.start = false) ∧
      caughtInH ∈ u.tree.introductions ∧ caughtInH.isVisible useInH.start = true ∧
      fieldOfA ∈ u.tree.introductions ∧ fieldOfA.construct ∈ outer ∧
      (ofTree .empty u.tree).typeOf? useInH = some ⟨"p.B"⟩ := by
  obtain ⟨u, hparse, -, hintroductions, hreceivers, htype⟩ := exists_hidingUnit
  refine ⟨u, useInH.around.take 3, useInH.around.drop 4, hparse, ?_, rfl, by decide, ?_, ?_,
    by decide, ?_, by decide, htype⟩
  · rw [hreceivers]
    exact List.mem_cons_of_mem _ List.mem_cons_self
  · rw [hintroductions]
    decide
  · rw [hintroductions]
    decide
  · rw [hintroductions]
    decide

end Resolver

end CallMigration
