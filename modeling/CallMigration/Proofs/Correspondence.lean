import CallMigration.Proofs.Basic
import CallMigration.Resolve.Resolver
import Mathlib.Data.List.Forall2

/-!
# Corresponding places of two units

When a unit is edited, the byte offsets of everything behind the edit change, and with them the spans
by which the owners of declarations are told apart. A `Correspondence` says which spans and which
offsets of the two units belong together; what the units declare is then found in both in the same
way.

* `Correspondence` : spans that belong together, and offsets that do in order.
* `Correspondence.Alone` : a span that can be told from the others in both units.
* `Correspondence.Around` : the nodes around two places, where the second may have fresh ones.
* `SiteRelation` : places that belong together look alike, as far as declarations can tell.
* `SiteRelation.ofNode` : nodes that belong together make the same declarations.
* `SiteRelation.lookup?` : a name is looked up in both units with the same answer.
-/

namespace CallMigration

open Element

/-! ## Lists of related elements -/

section Lists

variable {α β : Type} {R : α → β → Prop} {p : α → Bool} {q : β → Bool}

theorem forall₂_filter (hpq : ∀ a b, R a b → p a = q b) {as : List α} {bs : List β}
    (h : List.Forall₂ R as bs) : List.Forall₂ R (as.filter p) (bs.filter q) := by
  induction h with
  | nil => exact .nil
  | cons hab _ ih =>
    rw [List.filter_cons, List.filter_cons, hpq _ _ hab]
    split
    · exact .cons hab ih
    · exact ih

theorem forall₂_takeWhile (hpq : ∀ a b, R a b → p a = q b) {as : List α} {bs : List β}
    (h : List.Forall₂ R as bs) : List.Forall₂ R (as.takeWhile p) (bs.takeWhile q) := by
  induction h with
  | nil => exact .nil
  | cons hab _ ih =>
    rw [List.takeWhile_cons, List.takeWhile_cons, hpq _ _ hab]
    split
    · exact .cons hab ih
    · exact .nil

theorem forall₂_dropWhile (hpq : ∀ a b, R a b → p a = q b) {as : List α} {bs : List β}
    (h : List.Forall₂ R as bs) : List.Forall₂ R (as.dropWhile p) (bs.dropWhile q) := by
  induction h with
  | nil => exact .nil
  | cons hab hrest ih =>
    rw [List.dropWhile_cons, List.dropWhile_cons, hpq _ _ hab]
    split
    · exact ih
    · exact .cons hab hrest

theorem rel_find? (hpq : ∀ a b, R a b → p a = q b) {as : List α} {bs : List β}
    (h : List.Forall₂ R as bs) : Option.Rel R (as.find? p) (bs.find? q) := by
  induction h with
  | nil => exact .none
  | cons hab _ ih =>
    rw [List.find?_cons, List.find?_cons, hpq _ _ hab]
    split
    · exact .some hab
    · exact ih

theorem rel_getElem? {as : List α} {bs : List β} (h : List.Forall₂ R as bs) (i : Nat) :
    Option.Rel R as[i]? bs[i]? := by
  induction h generalizing i with
  | nil => exact .none
  | cons hab _ ih =>
    cases i with
    | zero => exact .some hab
    | succ i => exact ih i

theorem rel_getLast? {as : List α} {bs : List β} (h : List.Forall₂ R as bs) :
    Option.Rel R as.getLast? bs.getLast? := by
  rw [List.getLast?_eq_getElem?, List.getLast?_eq_getElem?, h.length_eq]
  exact rel_getElem? h _

theorem any_eq_of_forall₂ (hpq : ∀ a b, R a b → p a = q b) {as : List α} {bs : List β}
    (h : List.Forall₂ R as bs) : as.any p = bs.any q := by
  induction h with
  | nil => rfl
  | cons hab _ ih => rw [List.any_cons, List.any_cons, hpq _ _ hab, ih]

theorem all_eq_of_forall₂ (hpq : ∀ a b, R a b → p a = q b) {as : List α} {bs : List β}
    (h : List.Forall₂ R as bs) : as.all p = bs.all q := by
  induction h with
  | nil => rfl
  | cons hab _ ih => rw [List.all_cons, List.all_cons, hpq _ _ hab, ih]

theorem filterMap_eq_of_forall₂ {γ : Type} {f : α → Option γ} {g : β → Option γ}
    (hfg : ∀ a b, R a b → f a = g b) {as : List α} {bs : List β} (h : List.Forall₂ R as bs) :
    as.filterMap f = bs.filterMap g := by
  induction h with
  | nil => rfl
  | cons hab _ ih => rw [List.filterMap_cons, List.filterMap_cons, hfg _ _ hab, ih]

theorem map_eq_of_forall₂ {γ : Type} {f : α → γ} {g : β → γ} {as : List α} {bs : List β}
    (hfg : ∀ a b, a ∈ as → R a b → f a = g b) (h : List.Forall₂ R as bs) : as.map f = bs.map g := by
  induction h with
  | nil => rfl
  | cons hab _ ih =>
    rw [List.map_cons, List.map_cons, hfg _ _ List.mem_cons_self hab,
      ih fun a b ha => hfg a b (List.mem_cons_of_mem _ ha)]

theorem mapM_eq_of_forall₂ {γ : Type} {f : α → Option γ} {g : β → Option γ}
    (hfg : ∀ a b, R a b → f a = g b) {as : List α} {bs : List β} (h : List.Forall₂ R as bs) :
    as.mapM f = bs.mapM g := by
  induction h with
  | nil => rw [List.mapM_nil, List.mapM_nil]
  | cons hab _ ih => rw [List.mapM_cons, List.mapM_cons, hfg _ _ hab, ih]

theorem exists_left_of_forall₂ {as : List α} {bs : List β} (h : List.Forall₂ R as bs) {b : β}
    (hb : b ∈ bs) : ∃ a ∈ as, R a b := by
  induction h with
  | nil => cases hb
  | cons hab _ ih =>
    rcases List.mem_cons.mp hb with rfl | hb
    · exact ⟨_, List.mem_cons_self, hab⟩
    · obtain ⟨a, ha, hr⟩ := ih hb
      exact ⟨a, List.mem_cons_of_mem _ ha, hr⟩

theorem forall₂_cases {as : List α} {bs : List β} (h : List.Forall₂ R as bs) :
    (as = [] ∧ bs = []) ∨
      ∃ a as' b bs', as = a :: as' ∧ bs = b :: bs' ∧ R a b ∧ List.Forall₂ R as' bs' := by
  cases h with
  | nil => exact .inl ⟨rfl, rfl⟩
  | cons hab hrest => exact .inr ⟨_, _, _, _, rfl, rfl, hab, hrest⟩

theorem Rel.cases {o : Option α} {o' : Option β} (h : Option.Rel R o o') :
    (o = none ∧ o' = none) ∨ ∃ a b, o = some a ∧ o' = some b ∧ R a b := by
  cases h with
  | none => exact .inl ⟨rfl, rfl⟩
  | some hab => exact .inr ⟨_, _, rfl, rfl, hab⟩

end Lists

/-! ## Corresponding spans and offsets -/

/-- Which spans and which offsets of two units belong together. -/
structure Correspondence where
  spans : Span → Span → Prop
  /-- The offsets at which elements start. -/
  offsets : Nat → Nat → Prop
  /-- The offsets at which tokens start. -/
  uses : Nat → Nat → Prop
  spans_kind : ∀ {a a'}, spans a a' → a'.kind = a.kind
  offsets_iff : ∀ {a a' b b'}, offsets a a' → uses b b' → (a ≤ b ↔ a' ≤ b')

namespace Correspondence

/-- A span can be told from the others in both units. -/
def Alone (c : Correspondence) (a : Span) : Prop :=
  ∀ {a' b b'}, c.spans a a' → c.spans b b' → (a = b ↔ a' = b')

/-- The span of a node that only the second unit has. -/
def Fresh (c : Correspondence) (b : Span) : Prop :=
  (∀ a, ¬ c.spans a b) ∧ Declaration.ownsPatterns b.kind = false

/-- The nodes around two places that belong together. -/
inductive Around (c : Correspondence) : List Span → List Span → Prop
  | nil : Around c [] []
  | node {a a' : Span} {as as' : List Span} : c.spans a a' → Around c as as' →
      Around c (a :: as) (a' :: as')
  | fresh {b : Span} {as as' : List Span} : c.Fresh b → Around c as as' → Around c as (b :: as')

theorem Around.find? {c : Correspondence} {as as' : List Span} (h : c.Around as as') :
    Option.Rel c.spans (as.find? fun s => Declaration.ownsPatterns s.kind)
      (as'.find? fun s => Declaration.ownsPatterns s.kind) := by
  induction h with
  | nil => exact .none
  | node ha _ ih =>
    rw [List.find?_cons, List.find?_cons, c.spans_kind ha]
    split
    · exact .some ha
    · exact ih
  | fresh hb _ ih =>
    rw [List.find?_cons, hb.2]
    exact ih

end Correspondence

/-! ## Corresponding declarations -/

/-- As much is known of the types of two names. -/
inductive DeclaredRel (rel : Site → Site → Prop) : Declared → Declared → Prop
  | written (type : String) : DeclaredRel rel (.written type) (.written type)
  | inferred {x x' : Site} : rel x x' → DeclaredRel rel (.inferred x) (.inferred x')
  | ambiguous : DeclaredRel rel .ambiguous .ambiguous

/-- Two declarations belong together. -/
structure DeclarationRel (c : Correspondence) (rel : Site → Site → Prop) (d d' : Declaration) :
    Prop where
  owner : c.spans d.owner d'.owner
  name : d'.name = d.name
  declared : DeclaredRel rel d.declared d'.declared
  visibleFrom : Option.Rel c.offsets d.visibleFrom d'.visibleFrom
  isField : d'.isField = d.isField
  /-- Fields are visible everywhere. -/
  field : d.isField = true → d.visibleFrom = none

section Lookup

variable {c : Correspondence} {rel : Site → Site → Prop}

theorem agree_eq {a a' b b' : Declared} (ha : DeclaredRel rel a a') (hb : DeclaredRel rel b b') :
    Scope.agree a b = Scope.agree a' b' := by
  cases ha <;> cases hb <;> rfl

theorem rel_combine {ds ds' : List Declaration} (h : List.Forall₂ (DeclarationRel c rel) ds ds') :
    Option.Rel (DeclarationRel c rel) (Scope.combine ds) (Scope.combine ds') := by
  cases h with
  | nil => exact .none
  | cons hd hds =>
    rw [Scope.combine, Scope.combine,
      all_eq_of_forall₂ (fun _ _ he => agree_eq hd.declared he.declared) hds]
    split
    · exact .some hd
    · exact .some ⟨hd.owner, hd.name, .ambiguous, hd.visibleFrom, hd.isField, hd.field⟩

variable {s s' : Scope} (hs : List.Forall₂ (DeclarationRel c rel) s.declarations s'.declarations)

include hs

theorem rel_binding? (howners : ∀ d ∈ s.declarations, c.Alone d.owner) {a a' : Span}
    (ha : c.spans a a') (name : String) :
    Option.Rel (DeclarationRel c rel) (s.binding? a name) (s'.binding? a' name) := by
  have halone := (List.forall₂_and_left _ _).mpr ⟨howners, hs⟩
  refine rel_combine ((forall₂_filter ?_ halone).imp fun _ _ hd => hd.2)
  intro d d' hd
  have howner : (d.owner == a) = (d'.owner == a') := by
    rw [Bool.eq_iff_iff, beq_iff_eq, beq_iff_eq]
    exact hd.1 hd.2.owner ha
  rw [howner, hd.2.name]

theorem binding?_fresh {b : Span} (hb : c.Fresh b) (name : String) : s'.binding? b name = none := by
  have hnone : (s'.declarations.filter fun d => d.owner == b && d.name == name) = [] := by
    rw [List.filter_eq_nil_iff]
    intro d' hd'
    obtain ⟨d, -, hd⟩ := exists_left_of_forall₂ hs hd'
    have hne : d'.owner ≠ b := fun heq => hb.1 d.owner (heq ▸ hd.owner)
    simp [hne]
  rw [Scope.binding?, hnone]
  rfl

theorem forall₂_bindings (howners : ∀ d ∈ s.declarations, c.Alone d.owner) {as as' : List Span}
    (h : c.Around as as') (name : String) :
    List.Forall₂ (DeclarationRel c rel) (as.filterMap fun o => s.binding? o name)
      (as'.filterMap fun o => s'.binding? o name) := by
  induction h with
  | nil => exact .nil
  | node ha _ ih =>
    rw [List.filterMap_cons, List.filterMap_cons]
    rcases Rel.cases (rel_binding? hs howners ha name) with ⟨h, h'⟩ | ⟨d, d', h, h', hd⟩ <;> rw [h, h']
    · exact ih
    · exact .cons hd ih
  | fresh hb _ ih =>
    rw [List.filterMap_cons, binding?_fresh hs hb name]
    exact ih

/-- A name is looked up at two places with the same answer. Where a field stands does not matter. -/
theorem rel_lookup? (howners : ∀ d ∈ s.declarations, c.Alone d.owner) {x x' : Site}
    (haround : c.Around x.around x'.around) {fieldsOnly : Bool}
    (hstart : fieldsOnly = true ∨ c.uses x.start x'.start) (name : String) :
    Option.Rel (DeclaredRel rel) (s.lookup? name x fieldsOnly) (s'.lookup? name x' fieldsOnly) := by
  have hvisible (d d' : Declaration) (hd : DeclarationRel c rel d d') :
      ((!fieldsOnly || d.isField) && Scope.isVisible x.start d) =
        ((!fieldsOnly || d'.isField) && Scope.isVisible x'.start d') := by
    rw [hd.isField, Scope.isVisible, Scope.isVisible]
    rcases Rel.cases hd.visibleFrom with ⟨h, h'⟩ | ⟨v, v', h, h', hv⟩ <;> rw [h, h']
    rcases hstart with rfl | hstart
    · have hlocal : d.isField = false := by
        by_contra hfield
        rw [hd.field (by simpa using hfield)] at h
        cases h
      rw [hlocal]
      rfl
    · exact congrArg _ (decide_eq_decide.mpr (c.offsets_iff hv hstart))
  rw [Scope.lookup?, Scope.lookup?]
  rcases Rel.cases (rel_find? hvisible (forall₂_bindings hs howners haround name)) with
    ⟨h, h'⟩ | ⟨d, d', h, h', hd⟩ <;> rw [h, h']
  · exact .none
  · exact .some hd.declared

end Lookup

/-! ## Corresponding places -/

/-- Declarations of which the node directly around is the owner. -/
def ownedByParent (k : Kind) : Bool :=
  k == .fieldDeclaration || k == .localVariableDeclaration || k == .catchFormalParameter

/-- Declarations that stand in a list of their owner. -/
def ownedByGrandparent (k : Kind) : Bool :=
  k == .formalParameter || k == .resource

/-- Places that belong together look alike, as far as declarations can tell: their kinds, the texts
of tokens, names and types, their significant parts, and the nodes around them. -/
structure SiteRelation (c : Correspondence) (rel : Site → Site → Prop) : Prop where
  start : ∀ {x x'}, rel x x' → c.offsets x.start x'.start
  use : ∀ {x x'}, rel x x' → x.element.isNode = false → c.uses x.start x'.start
  span : ∀ {x x'}, rel x x' → x.element.isNode = true → c.spans x.span x'.span
  around : ∀ {x x'}, rel x x' → c.Around x.around x'.around
  kind : ∀ {x x'}, rel x x' → kind x' = kind x
  tokenText : ∀ {x x'}, rel x x' → x'.element.tokenText? = x.element.tokenText?
  parts : ∀ {x x'}, rel x x' → Element.kind x ≠ .argumentList →
    List.Forall₂ rel (significantChildren x) (significantChildren x')
  typeText : ∀ {x x'}, rel x x' → (Element.kind x).isType = true →
    significantText x' = significantText x
  nameText : ∀ {x x'}, rel x x' → Element.kind x = .identifier →
    significantText x' = significantText x
  parent : ∀ {x x'}, rel x x' → ownedByParent (Element.kind x) = true →
    Option.Rel c.spans x.around[0]? x'.around[0]?
  grandparent : ∀ {x x'}, rel x x' → ownedByGrandparent (Element.kind x) = true →
    Option.Rel c.spans x.around[1]? x'.around[1]?

theorem isNode_eq_isNone_tokenText? (t : Tree) : t.isNode = t.tokenText?.isNone := by
  cases t <;> rfl

/-- Looking for nodes of a significant kind among the parts is looking for them among the children. -/
theorem filter_children_eq (x : Site) {k : Kind} (hk : k.isTrivia = false) :
    ((children x).filter fun y => (tree y).isNode && kind y == k) =
      (significantChildren x).filter fun y => (tree y).isNode && kind y == k := by
  rw [significantChildren, List.filter_filter]
  apply List.filter_congr
  intro y _
  by_cases hy : kind y = k
  · rw [isSignificant, hy, hk, Bool.not_false, Bool.and_true]
  · rw [beq_eq_false_iff_ne.mpr hy, Bool.and_false, Bool.false_and]

namespace SiteRelation

variable {c : Correspondence} {rel : Site → Site → Prop} (hrel : SiteRelation c rel)
  {x x' : Site}

include hrel

theorem isNode (h : rel x x') : x'.element.isNode = x.element.isNode := by
  rw [isNode_eq_isNone_tokenText?, isNode_eq_isNone_tokenText?, hrel.tokenText h]

/-- Both are the same token, or both are nodes of one kind. -/
theorem elements (h : rel x x') :
    (∃ k s, x.element = .token k s ∧ x'.element = .token k s) ∨
      ∃ k cs cs', x.element = .node k cs ∧ x'.element = .node k cs' := by
  have hkind : x'.element.kind = x.element.kind := hrel.kind h
  have htext := hrel.tokenText h
  cases he : x.element with
  | token k s =>
    cases he' : x'.element with
    | token k' s' =>
      rw [he, he'] at hkind htext
      cases hkind
      cases htext
      exact .inl ⟨_, _, rfl, rfl⟩
    | node k' cs' =>
      rw [he, he'] at htext
      cases htext
  | node k cs =>
    cases he' : x'.element with
    | token k' s' =>
      rw [he, he'] at htext
      cases htext
    | node k' cs' =>
      rw [he, he'] at hkind
      cases hkind
      exact .inr ⟨_, _, _, rfl, rfl⟩

theorem isTokenText (h : rel x x') (s : String) : isTokenText s x' = isTokenText s x := by
  show (x'.element.tokenText? == some s) = (x.element.tokenText? == some s)
  rw [hrel.tokenText h]

theorem declaredType? (h : rel x x') (hk : Element.kind x ≠ .argumentList) :
    Option.Rel rel (CallMigration.declaredType? x) (CallMigration.declaredType? x') :=
  rel_find? (fun _ _ hab => by rw [hrel.kind hab]) (hrel.parts h hk)

omit hrel in
theorem isType_of_declaredType? {type : Site} (h : CallMigration.declaredType? x = some type) :
    (Element.kind type).isType = true :=
  List.find?_some (p := fun y => (Element.kind y).isType) h

theorem fromType (h : rel x x') (hk : Element.kind x ≠ .argumentList) :
    List.Forall₂ rel (Declaration.fromType x) (Declaration.fromType x') :=
  forall₂_dropWhile (fun _ _ hab => by rw [hrel.kind hab]) (hrel.parts h hk)

omit hrel in
theorem isType_of_fromType {type : Site} {rest : List Site}
    (h : Declaration.fromType x = type :: rest) : (Element.kind type).isType = true := by
  have hhead := List.head?_dropWhile_not (fun part => !(Element.kind part).isType)
    (significantChildren x)
  rw [show (significantChildren x).dropWhile (fun part => !(Element.kind part).isType) =
    type :: rest from h] at hhead
  simpa using hhead

theorem ofDeclarator (type : String) {ps ps' : List Site} (h : List.Forall₂ rel ps ps') :
    DeclaredRel rel (Declaration.ofDeclarator type ps) (Declaration.ofDeclarator type ps') := by
  have hequals (a a' : Site) (ha : rel a a') : (!Element.isTokenText "=" a) =
      (!Element.isTokenText "=" a') := by
    rw [hrel.isTokenText ha]
  have hinit : Option.Rel rel (Declaration.initializer? ps) (Declaration.initializer? ps') :=
    rel_getElem? (forall₂_dropWhile hequals h) 1
  have harray : ((Declaration.beforeEquals ps).any fun y => Element.kind y == .node) =
      (Declaration.beforeEquals ps').any fun y => Element.kind y == .node :=
    any_eq_of_forall₂ (fun a a' ha => by rw [hrel.kind ha]) (forall₂_takeWhile hequals h)
  unfold Declaration.ofDeclarator
  rw [harray]
  split
  · rcases Rel.cases hinit with ⟨h, h'⟩ | ⟨y, y', h, h', hy⟩ <;> rw [h, h']
    · exact .ambiguous
    · exact .inferred hy
  · split
    · exact .written _
    · exact .written _

theorem declarators (h : rel x x') (hk : Element.kind x ≠ .argumentList) :
    List.Forall₂ (fun d d' => rel d d' ∧ Element.kind d ≠ .argumentList)
      ((children x).filter fun y => (tree y).isNode && Element.kind y == .variableDeclarator)
      ((children x').filter fun y => (tree y).isNode && Element.kind y == .variableDeclarator) := by
  rw [filter_children_eq x rfl, filter_children_eq x' rfl]
  have hparts : List.Forall₂ rel
      ((significantChildren x).filter fun y =>
        (tree y).isNode && Element.kind y == .variableDeclarator)
      ((significantChildren x').filter fun y =>
        (tree y).isNode && Element.kind y == .variableDeclarator) := by
    refine forall₂_filter (fun a a' ha => ?_) (hrel.parts h hk)
    rw [hrel.kind ha]
    exact congrArg (· && _) (hrel.isNode ha).symm
  refine ((List.forall₂_and_left _ _).mpr ⟨?_, hparts⟩).imp fun _ _ hd => ⟨hd.2, hd.1⟩
  intro d hd
  have hkind := (List.mem_filter.mp hd).2
  rw [Bool.and_eq_true, beq_iff_eq] at hkind
  rw [hkind.2]
  decide

theorem declarator (isField : Bool) {type : String} {a a' : Span} (ha : c.spans a a')
    (h : rel x x') (hk : Element.kind x ≠ .argumentList) :
    Option.Rel (DeclarationRel c rel)
      (match significantChildren x with
        | name :: parts =>
          if Element.kind name == .identifier then
            some ⟨a, significantText name, Declaration.ofDeclarator type parts,
              if isField then none else some x.start, isField⟩
          else none
        | [] => none)
      (match significantChildren x' with
        | name :: parts =>
          if Element.kind name == .identifier then
            some ⟨a', significantText name, Declaration.ofDeclarator type parts,
              if isField then none else some x'.start, isField⟩
          else none
        | [] => none) := by
  rcases forall₂_cases (hrel.parts h hk) with
    ⟨hx, hx'⟩ | ⟨name, parts, name', parts', hx, hx', hname, hparts⟩ <;> rw [hx, hx']
  · exact .none
  · simp only [hrel.kind hname]
    split
    next hidentifier =>
      refine .some ⟨ha, hrel.nameText hname (beq_iff_eq.mp hidentifier),
        hrel.ofDeclarator type hparts, ?_, rfl, fun hfield => if_pos hfield⟩
      cases isField with
      | true => exact .none
      | false => exact .some (hrel.start h)
    next => exact .none

theorem variablesOf (isField : Bool) (h : rel x x') (hk : Element.kind x ≠ .argumentList)
    (howner : Option.Rel c.spans x.around[0]? x'.around[0]?) :
    List.Forall₂ (DeclarationRel c rel) (Declaration.variablesOf isField x)
      (Declaration.variablesOf isField x') := by
  have hdeclarators := hrel.declarators h hk
  unfold Declaration.variablesOf
  rcases Rel.cases (hrel.declaredType? h hk) with ⟨ht, ht'⟩ | ⟨type, type', ht, ht', htype⟩ <;>
    rw [ht, ht']
  · cases x.around <;> cases x'.around <;> exact .nil
  · cases hx : x.around with
    | nil =>
      rw [hx] at howner
      cases hx' : x'.around with
      | nil => exact .nil
      | cons a' as' =>
        rw [hx'] at howner
        cases howner
    | cons a as =>
      rw [hx] at howner
      cases hx' : x'.around with
      | nil =>
        rw [hx'] at howner
        cases howner
      | cons a' as' =>
        rw [hx'] at howner
        cases howner with
        | some ha =>
          simp only [hrel.typeText htype (isType_of_declaredType? ht)]
          refine List.rel_filterMap ?_ hdeclarators
          intro d d' hd
          exact hrel.declarator isField ha hd.1 hd.2

theorem parameter {owner? owner?' : Option Span} (howner : Option.Rel c.spans owner? owner?')
    (h : rel x x') (hk : Element.kind x ≠ .argumentList) :
    List.Forall₂ (DeclarationRel c rel) (Declaration.parameter owner? x)
      (Declaration.parameter owner?' x') := by
  unfold Declaration.parameter
  rcases Rel.cases howner with ⟨rfl, rfl⟩ | ⟨a, a', rfl, rfl, ha⟩
  · exact .nil
  · rcases forall₂_cases (hrel.fromType h hk) with
      ⟨hx, hx'⟩ | ⟨type, rest, type', rest', hx, hx', htype, hrest⟩ <;> rw [hx, hx']
    · exact .nil
    · have hname := rel_find? (p := fun part => Element.kind part == .identifier)
        (q := fun part => Element.kind part == .identifier)
        (fun _ _ hpart => by rw [hrel.kind hpart]) hrest
      have htext : significantText type' = significantText type :=
        hrel.typeText htype (isType_of_fromType hx)
      rcases Rel.cases hname with ⟨hn, hn'⟩ | ⟨name, name', hn, hn', hname⟩ <;>
        simp only [hn, hn']
      · exact .nil
      · have hidentifier : Element.kind name = .identifier := by
          simpa using List.find?_some hn
        refine .cons ⟨ha, hrel.nameText hname hidentifier, ?_, .none, ?_, fun _ => rfl⟩ .nil
        · rw [htext]
          split
          · exact .ambiguous
          · exact .written _
        · rw [c.spans_kind ha]

theorem lambdaNames (h : rel x x') (hk : Element.kind x ≠ .argumentList) :
    Declaration.lambdaNames x' = Declaration.lambdaNames x := by
  unfold Declaration.lambdaNames
  rcases forall₂_cases (hrel.parts h hk) with
    ⟨hx, hx'⟩ | ⟨first, rest, first', rest', hx, hx', hfirst, -⟩ <;> rw [hx, hx']
  simp only
  rcases hrel.elements hfirst with ⟨k, s, he, he'⟩ | ⟨k, cs, cs', he, he'⟩ <;> rw [he, he']
  · cases k <;> rfl
  · by_cases hinferred : k = .inferredParameters
    · subst hinferred
      have hkind : Element.kind first = .inferredParameters := congrArg Tree.kind he
      have hnames := forall₂_filter (p := fun y => Element.kind y == .identifier)
        (q := fun y => Element.kind y == .identifier) (fun _ _ hab => by rw [hrel.kind hab])
        (hrel.parts hfirst (by rw [hkind]; decide))
      refine (map_eq_of_forall₂ ?_ hnames).symm
      intro a a' ha hab
      have hidentifier : Element.kind a = .identifier := by simpa using (List.mem_filter.mp ha).2
      exact (hrel.nameText hab hidentifier).symm
    · cases k <;> first | rfl | exact absurd rfl hinferred

theorem lambda (h : rel x x') (hk : Element.kind x ≠ .argumentList)
    (hnode : x.element.isNode = true) :
    List.Forall₂ (DeclarationRel c rel) (Declaration.lambda x) (Declaration.lambda x') := by
  rw [Declaration.lambda, Declaration.lambda, hrel.lambdaNames h hk]
  rw [List.forall₂_map_left_iff, List.forall₂_map_right_iff, List.forall₂_same]
  intro name _
  exact ⟨hrel.span h hnode, rfl, .ambiguous, .none, rfl, fun _ => rfl⟩

theorem pattern (h : rel x x') (hk : Element.kind x ≠ .argumentList)
    (hnode : x.element.isNode = true) :
    List.Forall₂ (DeclarationRel c rel) (Declaration.pattern x) (Declaration.pattern x') := by
  have hname := rel_find? (p := fun part => Element.kind part == .identifier)
    (q := fun part => Element.kind part == .identifier)
    (fun _ _ hpart => by rw [hrel.kind hpart]) (List.forall₂_drop 1 (hrel.fromType h hk))
  have howner := (Correspondence.Around.node (hrel.span h hnode) (hrel.around h)).find?
  unfold Declaration.pattern
  rcases Rel.cases hname with ⟨hn, hn'⟩ | ⟨name, name', hn, hn', hname⟩ <;> rw [hn, hn']
  · exact .nil
  · rcases Rel.cases howner with ⟨ho, ho'⟩ | ⟨a, a', ho, ho', ha⟩ <;> rw [ho, ho']
    · exact .nil
    · have hidentifier : Element.kind name = .identifier := by
        simpa using List.find?_some hn
      exact .cons ⟨ha, hrel.nameText hname hidentifier, .ambiguous, .some (hrel.start h), rfl,
        fun hfield => (nomatch hfield)⟩ .nil

theorem ofNode (h : rel x x') (hnode : x.element.isNode = true) :
    List.Forall₂ (DeclarationRel c rel) (Declaration.ofNode x) (Declaration.ofNode x') := by
  have hkind := hrel.kind h
  unfold Declaration.ofNode
  rw [hkind]
  split
  next hk => exact hrel.variablesOf true h (by rw [hk]; decide) (hrel.parent h (by rw [hk]; rfl))
  next hk => exact hrel.variablesOf false h (by rw [hk]; decide) (hrel.parent h (by rw [hk]; rfl))
  next hk => exact hrel.parameter (hrel.grandparent h (by rw [hk]; rfl)) h (by rw [hk]; decide)
  next hk => exact hrel.parameter (hrel.grandparent h (by rw [hk]; rfl)) h (by rw [hk]; decide)
  next hk => exact hrel.parameter (hrel.parent h (by rw [hk]; rfl)) h (by rw [hk]; decide)
  next hk => exact hrel.parameter (.some (hrel.span h hnode)) h (by rw [hk]; decide)
  next hk => exact hrel.lambda h (by rw [hk]; decide) hnode
  next hk => exact hrel.pattern h (by rw [hk]; decide) hnode
  next => exact .nil

end SiteRelation

end CallMigration
