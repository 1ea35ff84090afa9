import CallMigration.Proofs.Correspondence
import CallMigration.Proofs.Registry

/-!
# Two units in which the same types are found

The resolver of a unit looks at an expression, its parts, the declarations of its names and the text
of a few of its parts. A `Simulation` says that two resolvers see the same in all of these at places
that belong together; then they give the same answers there.

* `Alike` : two answers that cannot be told apart by what follows from them.
* `Simulation` : what two resolvers have to see alike.
* `Simulation.typeOf?_eq`, `Simulation.ownerOf?_alike` : they answer alike.
* `Simulation.find?_eq` : calls whose arguments belong together match the same signature.
-/

namespace CallMigration

open Element

/-! ## Types that no table knows -/

namespace TypeTable

theorem returnType?_of_get?_eq_none {table : TypeTable} {t : TypeName} (h : table.get? t = none)
    (name : String) (arity : Nat) : table.returnType? t name arity = none := by
  have hnone : table.declaredReturns t name arity = [] := by
    rw [declaredReturns, h]
  rw [returnType?, ancestry_of_get?_eq_none h, List.map_singleton, hnone]
  rfl

/-- What a call returns is what a method of its name returns. -/
theorem exists_method_of_returnType? {table : TypeTable} {owner t : TypeName} {name : String}
    {arity : Nat} (h : table.returnType? owner name arity = some t) :
    ∃ info ∈ table.types, ∃ m ∈ info.methods, m.name = name ∧ m.returns = t := by
  obtain ⟨returns, hfind, hagreed⟩ := Option.bind_eq_some_iff.mp h
  obtain ⟨declarer, -, hreturns⟩ := List.mem_map.mp (List.mem_of_find?_eq_some hfind)
  have hmem : t ∈ returns := by
    cases returns with
    | nil => cases hagreed
    | cons first rest =>
      rw [agreed?, Option.ite_none_right_eq_some] at hagreed
      cases hagreed.2
      exact List.mem_cons_self
  rw [← hreturns, declaredReturns] at hmem
  split at hmem
  next info hinfo =>
    obtain ⟨m, hm, rfl⟩ := List.mem_map.mp hmem
    obtain ⟨hmethod, hname⟩ := List.mem_filter.mp hm
    rw [Bool.and_eq_true, beq_iff_eq] at hname
    exact ⟨info, List.mem_of_find?_eq_some hinfo, m, hmethod, hname.1, rfl⟩
  next => cases hmem

end TypeTable

/-- What a written type means depends on the meaning of its first segment. -/
theorem Resolver.resolve?_of_heads {r r' : Resolver}
    (h : ∀ head, r'.resolveHead? head = r.resolveHead? head) (written : String) :
    r'.resolve? written = r.resolve? written := by
  simp only [resolve?, resolveElement?, h]

/-- Two answers are the same, or both name nothing but `foreign` types. -/
def Alike (foreign : TypeName → Prop) (o o' : Option TypeName) : Prop :=
  o' = o ∨ (∀ t ∈ o, foreign t) ∧ ∀ t ∈ o', foreign t

/-! ## Simulations -/

/-- Literals whose type depends on how they are written. -/
def isNumber (k : Kind) : Bool :=
  k == .integerLiteral || k == .floatingPointLiteral

/-- The position of the part of an expression that is read for its text. -/
def spelledPart? : Kind → Option Nat
  | .binaryExpression => some 1
  | .unaryExpression => some 0
  | .fieldAccess => some 2
  | _ => none

/-- Two resolvers see the same at places that belong together: the same declarations, names of types
with the same meaning, and the same texts wherever texts are read. -/
structure Simulation (c : Correspondence) (rel : Site → Site → Prop) (foreign : TypeName → Prop)
    (r r' : Resolver) : Prop extends SiteRelation c rel where
  table : r'.table = r.table
  resolve : ∀ written, r'.resolve? written = r.resolve? written
  declarations : List.Forall₂ (DeclarationRel c rel) r.scope.declarations r'.scope.declarations
  owners : ∀ d ∈ r.scope.declarations, c.Alone d.owner
  unknown : ∀ {t}, foreign t → r.table.get? t = none
  argumentCount : ∀ {x x'}, rel x x' → Element.kind x = .methodInvocation →
    (Call.arguments x').length = (Call.arguments x).length
  numberText : ∀ {x x'}, rel x x' → isNumber (Element.kind x) = true →
    significantText x' = significantText x
  spelled : ∀ {x x' i}, rel x x' → spelledPart? (Element.kind x) = some i →
    (significantChildren x')[i]?.map significantText = (significantChildren x)[i]?.map significantText
  reference : ∀ {x x'}, rel x x' → Element.kind x = .fieldAccess →
    Alike foreign (r.resolve? (significantText x)) (r.resolve? (significantText x'))

namespace Simulation

variable {c : Correspondence} {rel : Site → Site → Prop} {foreign : TypeName → Prop}
  {r r' : Resolver} (hs : Simulation c rel foreign r r') {x x' : Site}

include hs

/-! ## Names -/

section

variable {infer infer' : Site → Option TypeName}
  (hinfer : ∀ {y y'}, rel y y' → infer' y' = infer y)

include hinfer

theorem declaredType?_eq {d d' : Declared} (hd : DeclaredRel rel d d') :
    r'.declaredType? infer' d' = r.declaredType? infer d := by
  cases hd with
  | written type => exact hs.resolve type
  | inferred hx => exact hinfer hx
  | ambiguous => rfl

/-- A name is declared in both units, with the same type, or in none of them. -/
theorem lookup?_cases (h : rel x x') (name : String) (fieldsOnly : Bool)
    (huse : fieldsOnly = true ∨ x.element.isNode = false) :
    (r.scope.lookup? name x fieldsOnly = none ∧ r'.scope.lookup? name x' fieldsOnly = none) ∨
      ∃ d d', r.scope.lookup? name x fieldsOnly = some d ∧
        r'.scope.lookup? name x' fieldsOnly = some d' ∧
        r'.declaredType? infer' d' = r.declaredType? infer d := by
  have hlookup := rel_lookup? hs.declarations hs.owners (hs.around h)
    (huse.imp_right (hs.use h)) name
  rcases Rel.cases hlookup with hnone | ⟨d, d', hx, hx', hd⟩
  · exact .inl hnone
  · exact .inr ⟨d, d', hx, hx', hs.declaredType?_eq hinfer hd⟩

theorem lookup?_bind_eq (h : rel x x') (name : String) (fieldsOnly : Bool)
    (huse : fieldsOnly = true ∨ x.element.isNode = false) :
    (r'.scope.lookup? name x' fieldsOnly).bind (r'.declaredType? infer') =
      (r.scope.lookup? name x fieldsOnly).bind (r.declaredType? infer) := by
  rcases hs.lookup?_cases hinfer h name fieldsOnly huse with ⟨hx, hx'⟩ | ⟨d, d', hx, hx', hd⟩ <;>
    rw [hx, hx']
  · rw [Option.bind_none, Option.bind_none]
  · rw [Option.bind_some, Option.bind_some, hd]

end

/-! ## Owners -/

theorem name?_eq (h : rel x x') (hk : Element.kind x ≠ .argumentList) :
    Call.name? x' = Call.name? x := by
  have hparts := forall₂_takeWhile (p := fun y => Element.kind y != .argumentList)
    (q := fun y => Element.kind y != .argumentList) (fun _ _ hab => by rw [hs.kind hab])
    (hs.parts h hk)
  unfold Call.name?
  rw [filterMap_eq_of_forall₂ (fun a a' hab => ?_) hparts]
  rw [hs.kind hab]
  exact congrArg (ite _ · none) (hs.tokenText hab).symm

theorem receiver? (h : rel x x') (hk : Element.kind x ≠ .argumentList) :
    Option.Rel rel (Call.receiver? x) (Call.receiver? x') := by
  unfold Call.receiver?
  rcases forall₂_cases (hs.parts h hk) with
    ⟨hx, hx'⟩ | ⟨first, rest, first', rest', hx, hx', hfirst, hrest⟩ <;> rw [hx, hx']
  · exact .none
  · rcases forall₂_cases hrest with
      ⟨rfl, rfl⟩ | ⟨second, _, second', _, rfl, rfl, hsecond, -⟩
    · exact .none
    · simp only [hs.kind hsecond]
      split
      · exact .some hfirst
      · exact .none

section

variable {infer infer' inferInit inferInit' : Site → Option TypeName}
  (hinfer : ∀ {y y'}, rel y y' → infer' y' = infer y)
  (hinit : ∀ {y y'}, rel y y' → inferInit' y' = inferInit y)

include hinfer hinit

/-- Calls that belong together are dispatched on types that are alike. -/
theorem ownerBy?_alike (h : rel x x') (hk : Element.kind x ≠ .argumentList) :
    Alike foreign (r.ownerBy? infer inferInit x) (r'.ownerBy? infer' inferInit' x') := by
  unfold Resolver.ownerBy?
  rcases Rel.cases (hs.receiver? h hk) with ⟨hx, hx'⟩ | ⟨y, y', hx, hx', hy⟩ <;> rw [hx, hx']
  · exact .inl rfl
  · simp only
    rcases hs.elements hy with ⟨k, name, he, he'⟩ | ⟨k, cs, cs', he, he'⟩ <;> rw [he, he']
    · by_cases hname : k = .identifier
      · subst hname
        left
        have htoken : y.element.isNode = false := by
          rw [he]
          rfl
        rcases hs.lookup?_cases hinit hy name false (.inr htoken) with
          ⟨hd, hd'⟩ | ⟨d, d', hd, hd', heq⟩ <;> simp only [hd, hd']
        · exact hs.resolve name
        · exact heq
      · rw [hinfer hy]
        cases k <;> first | exact absurd rfl hname | exact .inl rfl
    · by_cases hfield : k = .fieldAccess
      · subst hfield
        simp only [hinfer hy]
        cases infer y with
        | some t => exact .inl rfl
        | none =>
          simp only [hs.resolve]
          exact hs.reference hy (congrArg Tree.kind he)
      · rw [hinfer hy]
        cases k <;> first | exact absurd rfl hfield | exact .inl rfl

/-! ## Types -/

omit hinfer hinit in
/-- No table knows a foreign owner, and no method of it returns anything. -/
theorem returnType?_of_foreign {owner? : Option TypeName} (ho : ∀ t ∈ owner?, foreign t)
    (name? : Option String) (count : Nat) :
    (match owner?, name? with
      | some owner, some name => r.table.returnType? owner name count
      | _, _ => none) = none := by
  split
  next owner name =>
    exact TypeTable.returnType?_of_get?_eq_none (hs.unknown (ho _ rfl)) _ _
  next => rfl

variable {cs cs' : List Tree}

theorem typeBy?_call (h : rel x x') (he : x.element = .node .methodInvocation cs)
    (he' : x'.element = .node .methodInvocation cs') :
    r'.typeBy? infer' inferInit' x' = r.typeBy? infer inferInit x := by
  have hk : Element.kind x = .methodInvocation := congrArg Tree.kind he
  have hne : Element.kind x ≠ .argumentList := by
    rw [hk]
    decide
  unfold Resolver.typeBy?
  rw [he, he', hs.table, hs.name?_eq h hne, hs.argumentCount h hk]
  simp only
  -- The owners may differ, but then they are foreign.
  rcases hs.ownerBy?_alike hinfer hinit h hne with heq | ⟨ho, ho'⟩
  · rw [heq]
  · exact (hs.returnType?_of_foreign ho' _ _).trans (hs.returnType?_of_foreign ho _ _).symm

omit hinit in
theorem typeBy?_field (h : rel x x') (he : x.element = .node .fieldAccess cs)
    (he' : x'.element = .node .fieldAccess cs') :
    r'.typeBy? infer' inferInit' x' = r.typeBy? infer inferInit x := by
  have hk : Element.kind x = .fieldAccess := congrArg Tree.kind he
  have htext := hs.spelled h (i := 2) (by rw [hk]; rfl)
  unfold Resolver.typeBy?
  rw [he, he']
  simp only
  rcases forall₂_cases (hs.parts h (by rw [hk]; decide)) with
    ⟨hx, hx'⟩ | ⟨object, rest, object', rest', hx, hx', hobject, hrest⟩ <;>
    rw [hx, hx'] at htext ⊢
  rcases forall₂_cases hrest with ⟨rfl, rfl⟩ | ⟨dot, rest, dot', rest', rfl, rfl, -, hrest⟩
  · rfl
  rcases forall₂_cases hrest with ⟨rfl, rfl⟩ | ⟨field, _, field', _, rfl, rfl, hfield, -⟩
  · rfl
  have hname : significantText field' = significantText field := by simpa using htext
  simp only [hs.kind hobject, hname, hs.lookup?_bind_eq hinfer hfield _ true (.inl rfl)]

omit hinit in
theorem typeBy?_binary (h : rel x x') (he : x.element = .node .binaryExpression cs)
    (he' : x'.element = .node .binaryExpression cs') :
    r'.typeBy? infer' inferInit' x' = r.typeBy? infer inferInit x := by
  have hk : Element.kind x = .binaryExpression := congrArg Tree.kind he
  have htext := hs.spelled h (i := 1) (by rw [hk]; rfl)
  unfold Resolver.typeBy?
  rw [he, he']
  simp only
  rcases forall₂_cases (hs.parts h (by rw [hk]; decide)) with
    ⟨hx, hx'⟩ | ⟨left, rest, left', rest', hx, hx', hleft, hrest⟩ <;> rw [hx, hx'] at htext ⊢
  rcases forall₂_cases hrest with
    ⟨rfl, rfl⟩ | ⟨operator, rest, operator', rest', rfl, rfl, -, hrest⟩
  · rfl
  rcases forall₂_cases hrest with ⟨rfl, rfl⟩ | ⟨right, _, right', _, rfl, rfl, hright, -⟩
  · rfl
  have hoperator : significantText operator' = significantText operator := by simpa using htext
  simp only [hoperator, hinfer hleft, hinfer hright]

omit hinit in
theorem typeBy?_unary (h : rel x x') (he : x.element = .node .unaryExpression cs)
    (he' : x'.element = .node .unaryExpression cs') :
    r'.typeBy? infer' inferInit' x' = r.typeBy? infer inferInit x := by
  have hk : Element.kind x = .unaryExpression := congrArg Tree.kind he
  have htext := hs.spelled h (i := 0) (by rw [hk]; rfl)
  unfold Resolver.typeBy?
  rw [he, he']
  simp only
  rcases forall₂_cases (hs.parts h (by rw [hk]; decide)) with
    ⟨hx, hx'⟩ | ⟨operator, rest, operator', rest', hx, hx', -, hrest⟩ <;>
    rw [hx, hx'] at htext ⊢
  rcases forall₂_cases hrest with ⟨rfl, rfl⟩ | ⟨operand, _, operand', _, rfl, rfl, hoperand, -⟩
  · rfl
  have hoperator : significantText operator' = significantText operator := by simpa using htext
  simp only [hoperator, hinfer hoperand]

omit hinfer hinit in
/-- A cast and the creation of an object have the type that is written. -/
theorem declared_resolve?_eq (h : rel x x') (hk : Element.kind x ≠ .argumentList) :
    ((CallMigration.declaredType? x').bind fun type => r'.resolve? (significantText type)) =
      (CallMigration.declaredType? x).bind fun type => r.resolve? (significantText type) := by
  rcases Rel.cases (hs.declaredType? h hk) with ⟨hx, hx'⟩ | ⟨type, type', hx, hx', htype⟩ <;>
    rw [hx, hx']
  · rw [Option.bind_none, Option.bind_none]
  · rw [Option.bind_some, Option.bind_some, hs.resolve,
      hs.typeText htype (SiteRelation.isType_of_declaredType? hx)]

/-- Expressions that belong together have the same type, if their parts do. -/
theorem typeBy?_eq (h : rel x x') :
    r'.typeBy? infer' inferInit' x' = r.typeBy? infer inferInit x := by
  have hkind := hs.kind h
  rcases hs.elements h with ⟨k, name, he, he'⟩ | ⟨k, cs, cs', he, he'⟩
  · unfold Resolver.typeBy?
    rw [he, he']
    by_cases hname : k = .identifier
    · subst hname
      refine hs.lookup?_bind_eq hinfer h name false (.inr ?_)
      rw [he]
      rfl
    · cases k <;> first | exact absurd rfl hname | rfl
  · have hk : Element.kind x = k := congrArg Tree.kind he
    have hnumber (hn : isNumber k = true) : significantText x' = significantText x :=
      hs.numberText h (hk ▸ hn)
    cases k with
    | methodInvocation => exact hs.typeBy?_call hinfer hinit h he he'
    | fieldAccess => exact hs.typeBy?_field hinfer h he he'
    | binaryExpression => exact hs.typeBy?_binary hinfer h he he'
    | unaryExpression => exact hs.typeBy?_unary hinfer h he he'
    | castExpression | objectCreationExpression =>
      unfold Resolver.typeBy?
      rw [he, he']
      exact hs.declared_resolve?_eq h (by rw [hk]; decide)
    | parenthesizedExpression =>
      unfold Resolver.typeBy?
      rw [he, he']
      simp only
      have hinner := rel_find?
        (p := fun y => Element.kind y != .leftParen && Element.kind y != .rightParen)
        (q := fun y => Element.kind y != .leftParen && Element.kind y != .rightParen)
        (fun _ _ hab => by rw [hs.kind hab]) (hs.parts h (by rw [hk]; decide))
      rcases Rel.cases hinner with ⟨hx, hx'⟩ | ⟨y, y', hx, hx', hy⟩ <;> rw [hx, hx']
      · rw [Option.bind_none, Option.bind_none]
      · exact hinfer hy
    | integerLiteral | floatingPointLiteral =>
      unfold Resolver.typeBy?
      rw [he, he', hnumber rfl]
    | stringLiteral | characterLiteral | trueLiteral | falseLiteral =>
      unfold Resolver.typeBy?
      rw [he, he']
      rfl
    | _ =>
      unfold Resolver.typeBy?
      rw [he, he']

end

theorem typeWithin?_eq (steps : Nat) :
    (∀ {y y'}, rel y y' → r'.typeWithin? steps y' = r.typeWithin? steps y) ∧
      ∀ {y y'}, rel y y' → r'.typeWithin? (steps + 1) y' = r.typeWithin? (steps + 1) y := by
  induction steps with
  | zero =>
    refine ⟨fun _ => ?_, fun h => ?_⟩
    · rw [Resolver.typeWithin?, Resolver.typeWithin?]
    · exact hs.typeBy?_eq (fun _ => rfl) (fun _ => rfl) h
  | succ steps ih => exact ⟨ih.2, hs.typeBy?_eq ih.2 ih.1⟩

theorem typeOf?_eq (h : rel x x') : r'.typeOf? x' = r.typeOf? x :=
  (hs.typeWithin?_eq Resolver.stepLimit).1 h

/-- Calls that belong together are dispatched on types that are alike. -/
theorem ownerOf?_alike (h : rel x x') (hk : Element.kind x ≠ .argumentList) :
    Alike foreign (r.ownerOf? x) (r'.ownerOf? x') :=
  hs.ownerBy?_alike (hs.typeWithin?_eq _).1 (hs.typeWithin?_eq _).1 h hk

/-! ## Matches -/

theorem matching_eq (m : Matcher) (name : String) (owner : TypeName) (types : List TypeName) :
    m.matching r' name owner types = m.matching r name owner types := by
  unfold Matcher.matching Matcher.accepts
  rw [Resolver.typeResolver_isSubtype, Resolver.typeResolver_isSubtype, hs.table]

theorem matching_of_foreign {m : Matcher} (hm : ∀ s ∈ m.signatures, ¬ foreign s.owner)
    (name : String) {owner : TypeName} (ho : foreign owner) (types : List TypeName) :
    m.matching r name owner types = [] := by
  rw [List.eq_nil_iff_forall_not_mem]
  intro s hmem
  obtain ⟨hs', -, -, howner⟩ := Matcher.mem_matching_iff.mp hmem
  have heq : owner = s.owner := by
    rcases howner with heq | ⟨-, hsub⟩
    · exact heq
    · exact (TypeTable.isSubtype_of_get?_eq_none (hs.unknown ho)).mp hsub
  exact hm s hs' (heq ▸ ho)

theorem head?_matching_of_foreign {m : Matcher} (hm : ∀ s ∈ m.signatures, ¬ foreign s.owner)
    {owner? : Option TypeName} (ho : ∀ t ∈ owner?, foreign t) (name? : Option String)
    (types? : Option (List TypeName)) :
    (match name?, owner?, types? with
      | some name, some owner, some types => (m.matching r name owner types).head?
      | _, _, _ => none) = none := by
  split
  next name owner types =>
    rw [hs.matching_of_foreign hm name (ho _ rfl) types]
    rfl
  next => rfl

theorem find?_eq {m : Matcher} (hm : ∀ s ∈ m.signatures, ¬ foreign s.owner) (h : rel x x')
    (hk : Element.kind x ≠ .argumentList)
    (harguments : List.Forall₂ rel (Call.arguments x) (Call.arguments x')) :
    m.find? r' x' = m.find? r x := by
  have htypes : (Call.arguments x).mapM r.typeOf? = (Call.arguments x').mapM r'.typeOf? := by
    refine mapM_eq_of_forall₂ ?_ harguments
    intro y y' hy
    exact (hs.typeOf?_eq hy).symm
  rw [Matcher.find?_eq_head?, Matcher.find?_eq_head?, hs.name?_eq h hk]
  simp only [Resolver.typeResolver_typeOf?, Resolver.typeResolver_ownerOf?, hs.matching_eq, ← htypes]
  rcases hs.ownerOf?_alike h hk with heq | ⟨ho, ho'⟩
  · rw [heq]
  · exact (hs.head?_matching_of_foreign hm ho' _ _).trans
      (hs.head?_matching_of_foreign hm ho _ _).symm

end Simulation

end CallMigration
