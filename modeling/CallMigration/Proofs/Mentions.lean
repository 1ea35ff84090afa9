import CallMigration.Proofs.Declarations
import CallMigration.Proofs.Simulation

/-!
# Where the types of a table are named

A resolver finds a type of its table only because the unit names one: a declaration writes it, a call is
made on its name, or it is the type of a cast or of an object creation. Everything else passes types on.
A call returns a type of the table only if it is made on one, and a variable or a parenthesis has the
type of another expression.

* `Site.In` : an element of a unit at its place.
* `mentions` : the places that name a type, declarations apart.
* `Resolver.exists_ownerSource`, `Resolver.typeSource_of_typeBy?` : all that a resolver can take a type from.
* `Resolver.Named` : a type of the table is named somewhere in the unit.
* `Resolver.named_of_typeWithin?`, `Resolver.named_of_ownerOf?` : whatever is found goes back to a name.
-/

namespace CallMigration

open Element

/-! ## Elements of a unit -/

namespace Site

theorem nodes_subset_nodesAtAll {x : Site} {around : List Span} :
    ∀ {ts : List Tree} {start : Nat}, x ∈ place around start ts →
      ∀ y ∈ x.nodes, y ∈ nodesAtAll around start ts
  | [], _, hx, _, _ => by cases hx
  | t :: ts, start, hx, y, hy => by
    rw [place, List.mem_cons] at hx
    rw [nodesAtAll, List.mem_append]
    rcases hx with rfl | hx
    · exact .inl hy
    · exact .inr (nodes_subset_nodesAtAll hx y hy)

theorem nodes_subset_of_child {x y : Site} (hx : x ∈ y.children) : ∀ z ∈ x.nodes, z ∈ y.nodes := by
  obtain ⟨t, start, around⟩ := y
  cases t with
  | token k s => cases hx
  | node k cs =>
    intro z hz
    exact List.mem_cons_of_mem _ (nodes_subset_nodesAtAll hx z hz)

theorem around_of_mem_place {x : Site} {around : List Span} {ts : List Tree} {start : Nat}
    (h : x ∈ place around start ts) : x.around = around := by
  induction ts generalizing start with
  | nil => cases h
  | cons t ts ih =>
    rw [place, List.mem_cons] at h
    rcases h with rfl | h
    · rfl
    · exact ih h

theorem parentKind?_of_child {x y : Site} (h : x ∈ y.children) : x.parentKind? = some (kind y) := by
  rw [parentKind?, around_of_mem_place h]
  rfl

mutual
/-- The nodes in a node of an element are nodes in the element. -/
theorem nodes_subset_nodesAt {z : Site} : ∀ {t : Tree} {around : List Span} {start : Nat},
    z ∈ nodesAt around start t → ∀ x ∈ z.nodes, x ∈ nodesAt around start t
  | .token _ _, _, _, hz, _, _ => by cases hz
  | .node k cs, around, start, hz, x, hx => by
    rw [nodesAt, List.mem_cons] at hz
    rcases hz with rfl | hz
    · exact hx
    · rw [nodesAt]
      exact List.mem_cons_of_mem _ (nodes_subset_of_mem_nodesAtAll hz x hx)
theorem nodes_subset_of_mem_nodesAtAll {z : Site} :
    ∀ {ts : List Tree} {around : List Span} {start : Nat},
      z ∈ nodesAtAll around start ts → ∀ x ∈ z.nodes, x ∈ nodesAtAll around start ts
  | [], _, _, hz, _, _ => by cases hz
  | t :: ts, around, start, hz, x, hx => by
    rw [nodesAtAll, List.mem_append] at hz ⊢
    rcases hz with hz | hz
    · exact .inl (nodes_subset_nodesAt hz x hx)
    · exact .inr (nodes_subset_of_mem_nodesAtAll hz x hx)
end

theorem mem_nodes_self {x : Site} (h : x.element.isNode = true) : x ∈ x.nodes := by
  obtain ⟨t, start, around⟩ := x
  cases t with
  | token k s => cases h
  | node k cs => exact List.mem_cons_self

theorem isNode_of_child {x y : Site} (h : y ∈ x.children) : x.element.isNode = true := by
  obtain ⟨t, start, around⟩ := x
  cases t with
  | token k s => cases h
  | node k cs => rfl

/-- An element of a unit at its place: the root, or a child of a node. -/
def In (root : Tree) (x : Site) : Prop :=
  x = Site.root root ∨ ∃ y ∈ (Site.root root).nodes, x ∈ y.children

variable {root : Tree} {x y : Site}

mutual
/-- A node in an element is the element itself or a child of such a node. -/
theorem exists_parent_of_mem_nodesAt : ∀ {t : Tree} {around : List Span} {start : Nat},
    x ∈ nodesAt around start t →
      x = ⟨t, start, around⟩ ∨ ∃ y ∈ nodesAt around start t, x ∈ y.children
  | .token _ _, _, _, hx => by cases hx
  | .node k cs, around, start, hx => by
    rw [nodesAt, List.mem_cons] at hx
    rw [nodesAt]
    rcases hx with rfl | hx
    · exact .inl rfl
    · right
      rcases exists_parent_of_mem_nodesAtAll hx with hplace | ⟨y, hy, hchild⟩
      · exact ⟨_, List.mem_cons_self, hplace⟩
      · exact ⟨y, List.mem_cons_of_mem _ hy, hchild⟩
theorem exists_parent_of_mem_nodesAtAll : ∀ {ts : List Tree} {around : List Span} {start : Nat},
    x ∈ nodesAtAll around start ts →
      x ∈ place around start ts ∨ ∃ y ∈ nodesAtAll around start ts, x ∈ y.children
  | [], _, _, hx => by cases hx
  | t :: ts, around, start, hx => by
    rw [nodesAtAll, List.mem_append] at hx
    rw [place, nodesAtAll]
    rcases hx with hx | hx
    · rcases exists_parent_of_mem_nodesAt hx with rfl | ⟨y, hy, hchild⟩
      · exact .inl List.mem_cons_self
      · exact .inr ⟨y, List.mem_append_left _ hy, hchild⟩
    · rcases exists_parent_of_mem_nodesAtAll hx with hplace | ⟨y, hy, hchild⟩
      · exact .inl (List.mem_cons_of_mem _ hplace)
      · exact .inr ⟨y, List.mem_append_right _ hy, hchild⟩
end

theorem in_of_mem_nodes (h : x ∈ (Site.root root).nodes) : x.In root :=
  exists_parent_of_mem_nodesAt h

theorem In.nodes_subset (h : x.In root) : ∀ z ∈ x.nodes, z ∈ (Site.root root).nodes := by
  rcases h with rfl | ⟨y, hy, hx⟩
  · exact fun z hz => hz
  · intro z hz
    exact nodes_subset_nodesAt hy z (nodes_subset_of_child hx z hz)

theorem In.child (h : x.In root) (hy : y ∈ x.children) : y.In root :=
  .inr ⟨x, h.nodes_subset x (mem_nodes_self (isNode_of_child hy)), hy⟩

theorem In.significantChild (h : x.In root) (hy : y ∈ significantChildren x) : y.In root :=
  h.child (List.mem_of_mem_filter hy)

end Site

/-! ## Declarations -/

theorem mem_of_initializer? {parts : List Site} {init : Site}
    (h : Declaration.initializer? parts = some init) : init ∈ parts :=
  (List.dropWhile_sublist _).subset (List.mem_of_getElem? h)

theorem initializer?_of_ofDeclarator {type : String} {parts : List Site} {init : Site}
    (h : Declaration.ofDeclarator type parts = .inferred init) :
    Declaration.initializer? parts = some init := by
  unfold Declaration.ofDeclarator at h
  split at h
  next =>
    split at h
    next found hfound =>
      cases h
      exact hfound
    next => cases h
  next => split at h <;> cases h

/-- A declaration has its type from an element of the unit, if it has it from an initial value. -/
theorem in_of_ofNode {root : Tree} {x init : Site} (hx : x.In root) {d : Declaration}
    (hd : d ∈ Declaration.ofNode x) (hinit : d.declared = .inferred init) : init.In root := by
  cases Declaration.madeBy_of_mem hd with
  | declarator _ _ _ hdeclarator _ hparts =>
    refine (hx.child hdeclarator).significantChild ?_
    rw [hparts]
    exact List.mem_cons_of_mem _ (mem_of_initializer? (initializer?_of_ofDeclarator hinit))
  | parameter =>
    simp only at hinit
    split at hinit <;> cases hinit
  | lambda => cases hinit
  | pattern => cases hinit

namespace Scope

variable {scope : Scope} {name : String} {place : Site} {fieldsOnly : Bool}

/-- What is found for a name is the binding of some owner. -/
theorem exists_binding_of_lookup? {declared : Declared}
    (h : scope.lookup? name place fieldsOnly = some declared) :
    ∃ owner d, scope.binding? owner name = some d ∧ d.declared = declared := by
  obtain ⟨d, hd, hdeclared⟩ := Option.map_eq_some_iff.mp h
  obtain ⟨owner, -, hbinding⟩ := List.mem_filterMap.mp (List.mem_of_find?_eq_some hd)
  exact ⟨owner, d, hbinding, hdeclared⟩

/-- A binding comes from a declaration, which has the same type unless it is ambiguous. -/
theorem exists_declaration_of_binding? {owner : Span} {d : Declaration}
    (h : scope.binding? owner name = some d) :
    ∃ first ∈ scope.declarations, first.owner = owner ∧ first.name = name ∧
      (d.declared = first.declared ∨ d.declared = .ambiguous) := by
  unfold binding? combine at h
  split at h
  next => cases h
  next first rest hfilter =>
    have hmem : first ∈ scope.declarations.filter fun d => d.owner == owner && d.name == name := by
      rw [hfilter]
      exact List.mem_cons_self
    obtain ⟨hfirst, hsame⟩ := List.mem_filter.mp hmem
    rw [Bool.and_eq_true, beq_iff_eq, beq_iff_eq] at hsame
    refine ⟨first, hfirst, hsame.1, hsame.2, ?_⟩
    split at h <;> cases h
    · exact .inl rfl
    · exact .inr rfl

theorem mem_declaredTypes_iff {written : String} :
    written ∈ scope.declaredTypes ↔ ∃ d ∈ scope.declarations,
      (scope.binding? d.owner d.name).map (·.declared) = some (.written written) := by
  rw [declaredTypes, List.mem_filterMap]
  constructor
  · rintro ⟨⟨owner, name⟩, hpair, hwritten⟩
    obtain ⟨d, hd, heq⟩ := List.mem_map.mp (List.mem_eraseDups.mp hpair)
    cases heq
    refine ⟨d, hd, ?_⟩
    simp only at hwritten
    split at hwritten
    next hbinding =>
      cases hwritten
      rw [hbinding]
      rfl
    next => cases hwritten
  · rintro ⟨d, hd, hwritten⟩
    refine ⟨(d.owner, d.name), List.mem_eraseDups.mpr (List.mem_map_of_mem hd), ?_⟩
    obtain ⟨⟨_, _, declared, _, _⟩, hbinding, hdeclared⟩ := Option.map_eq_some_iff.mp hwritten
    cases hdeclared
    simp only [hbinding]

/-- A written type that is found for a name counts as a type of a declaration. -/
theorem mem_declaredTypes_of_lookup? {written : String}
    (h : scope.lookup? name place fieldsOnly = some (.written written)) :
    written ∈ scope.declaredTypes := by
  obtain ⟨owner, d, hbinding, hdeclared⟩ := exists_binding_of_lookup? h
  obtain ⟨first, hfirst, howner, hname, -⟩ := exists_declaration_of_binding? hbinding
  refine mem_declaredTypes_iff.mpr ⟨first, hfirst, ?_⟩
  rw [howner, hname, hbinding, Option.map_some, hdeclared]

/-- An initial value that a name has its type from stands in the unit. -/
theorem in_of_lookup? {root : Tree} {init : Site}
    (h : (collect root).lookup? name place fieldsOnly = some (.inferred init)) : init.In root := by
  obtain ⟨owner, d, hbinding, hdeclared⟩ := exists_binding_of_lookup? h
  obtain ⟨first, hfirst, -, -, hsame⟩ := exists_declaration_of_binding? hbinding
  rw [hdeclared] at hsame
  obtain ⟨x, hx, hmade⟩ := List.mem_flatMap.mp hfirst
  rcases hsame with hsame | hsame
  · exact in_of_ofNode (Site.in_of_mem_nodes hx) hmade hsame.symm
  · cases hsame

end Scope

/-! ## Types that literals and operators have -/

def basicTypes : List TypeName :=
  [⟨"int"⟩, ⟨"long"⟩, ⟨"float"⟩, ⟨"double"⟩, ⟨"boolean"⟩, ⟨"char"⟩, ⟨"java.lang.String"⟩]

theorem literalType?_basic {k : Kind} {text : String} {t : TypeName}
    (h : literalType? k text = some t) : t ∈ basicTypes := by
  have hint : TypeName.ofWritten "int" ∈ basicTypes := by decide +kernel
  have hlong : TypeName.ofWritten "long" ∈ basicTypes := by decide +kernel
  have hfloat : TypeName.ofWritten "float" ∈ basicTypes := by decide +kernel
  have hdouble : TypeName.ofWritten "double" ∈ basicTypes := by decide +kernel
  have hboolean : TypeName.ofWritten "boolean" ∈ basicTypes := by decide +kernel
  have hchar : TypeName.ofWritten "char" ∈ basicTypes := by decide +kernel
  have hstring : TypeName.ofWritten "java.lang.String" ∈ basicTypes := by decide +kernel
  unfold literalType? at h
  split at h
  · rw [← Option.some.inj h]
    split
    · exact hlong
    · exact hint
  · rw [← Option.some.inj h]
    split
    · exact hfloat
    · exact hdouble
  · exact Option.some.inj h ▸ hboolean
  · exact Option.some.inj h ▸ hboolean
  · exact Option.some.inj h ▸ hchar
  · exact Option.some.inj h ▸ hstring
  · cases h

theorem numericType_basic (rank : Nat) : numericType rank ∈ basicTypes := by
  have hall : ∀ rank ≤ 3, numericType rank ∈ basicTypes := by decide +kernel
  by_cases hrank : rank ≤ 3
  · exact hall rank hrank
  · have hlast : numericType rank = numericType 3 := by
      have hlength : (["int", "long", "float"] : List String).length ≤ rank := by
        simp only [List.length_cons, List.length_nil]
        omega
      rw [numericType, List.getD_eq_getElem?_getD, List.getElem?_eq_none hlength]
      rfl
    rw [hlast]
    exact hall 3 (Nat.le_refl 3)

theorem promote?_basic {left right t : TypeName} (h : promote? left right = some t) :
    t ∈ basicTypes := by
  obtain ⟨a, -, h⟩ := Option.bind_eq_some_iff.mp h
  obtain ⟨b, -, h⟩ := Option.bind_eq_some_iff.mp h
  rw [← Option.some.inj h]
  exact numericType_basic _

theorem binaryType?_basic {operator : String} {left right t : TypeName}
    (h : binaryType? operator left right = some t) : t ∈ basicTypes := by
  have hstring : TypeName.ofWritten "java.lang.String" ∈ basicTypes := by decide +kernel
  unfold binaryType? at h
  simp only at h
  split at h
  next =>
    cases h
    exact hstring
  next =>
    split at h
    next => exact promote?_basic h
    next =>
      split at h
      next => exact promote?_basic h
      next => cases h

theorem unaryType?_basic {operator : String} {operand t : TypeName}
    (h : unaryType? operator operand = some t) : t ∈ basicTypes := by
  have hboolean : TypeName.ofWritten "boolean" ∈ basicTypes := by decide +kernel
  unfold unaryType? at h
  split at h
  next =>
    cases h
    exact hboolean
  next =>
    split at h
    next => exact promote?_basic h
    next => cases h

/-! ## Names -/

theorem Call.mem_of_receiver? {call receiver : Site} (h : Call.receiver? call = some receiver) :
    receiver ∈ significantChildren call := by
  unfold Call.receiver? at h
  split at h
  next first second rest hparts =>
    rw [Option.ite_none_right_eq_some] at h
    cases h.2
    rw [hparts]
    exact List.mem_cons_self
  next => cases h

def mayNameType (x : Site) : Bool :=
  match x.element with
  | .token .identifier _ => true
  | .node .fieldAccess _ => true
  | _ => false

/-- The names of types in the parts of a node: what a call is made on, and what is written in a cast or
in an object creation. -/
def mentionsOf (e : Site) : List Site :=
  match kind e with
  | .methodInvocation => (Call.receiver? e).toList.filter mayNameType
  | .castExpression | .objectCreationExpression => (declaredType? e).toList
  | _ => []

/-- The places of a unit that name a type, declarations apart. -/
def mentions (root : Tree) : List Site :=
  (Site.root root).nodes.flatMap mentionsOf

/-- A mention is a part of a call, a cast or an object creation of the unit. -/
theorem exists_parent_of_mention {root : Tree} {x : Site} (h : x ∈ mentions root) :
    ∃ e ∈ (Site.root root).nodes, x ∈ e.children ∧
      kind e ∈ [Kind.methodInvocation, .castExpression, .objectCreationExpression] := by
  obtain ⟨e, he, hx⟩ := List.mem_flatMap.mp h
  refine ⟨e, he, ?_⟩
  have hdeclared (htype : x ∈ (declaredType? e).toList) : x ∈ e.children :=
    List.mem_of_mem_filter (List.mem_of_find?_eq_some (Option.mem_toList.mp htype))
  unfold mentionsOf at hx
  split at hx
  next hkind =>
    have hreceiver := Call.mem_of_receiver? (Option.mem_toList.mp (List.mem_of_mem_filter hx))
    exact ⟨List.mem_of_mem_filter hreceiver, by rw [hkind]; decide⟩
  next hkind => exact ⟨hdeclared hx, by rw [hkind]; decide⟩
  next hkind => exact ⟨hdeclared hx, by rw [hkind]; decide⟩
  next => cases hx

namespace Resolver

/-! ## Where types come from -/

section

variable {r : Resolver} {infer inferInit : Site → Option TypeName}

/-- Where the type comes from that a call on `receiver` is dispatched on. -/
inductive OwnerSource (r : Resolver) (infer inferInit : Site → Option TypeName) (receiver : Site)
    (t : TypeName) : Prop
  | lookup {name : String} {declared : Declared}
    (hlookup : r.scope.lookup? name receiver false = some declared)
    (h : r.declaredType? inferInit declared = some t)
  | name (hname : mayNameType receiver = true) (h : r.resolve? (significantText receiver) = some t)
  | receiver (h : infer receiver = some t)

/-- **The type that a call is dispatched on** is that of a variable, one that is named, or that of the
receiver. -/
theorem exists_ownerSource {call : Site} {t : TypeName} (h : r.ownerBy? infer inferInit call = some t) :
    ∃ receiver, Call.receiver? call = some receiver ∧ OwnerSource r infer inferInit receiver t := by
  unfold ownerBy? at h
  split at h
  next => cases h
  next receiver hreceiver =>
    refine ⟨receiver, hreceiver, ?_⟩
    split at h
    next name helement =>
      split at h
      next declared hlookup => exact .lookup hlookup h
      next =>
        have htext : significantText receiver = name := by
          rw [significantText, show tree receiver = _ from helement]
          rfl
        have hname : mayNameType receiver = true := by rw [mayNameType, helement]
        have hresolve : r.resolve? (significantText receiver) = some t := by
          rw [htext]
          exact h
        exact .name hname hresolve
    next cs helement =>
      split at h
      next found hfound =>
        cases h
        exact .receiver hfound
      next =>
        have hname : mayNameType receiver = true := by rw [mayNameType, helement]
        exact .name hname h
    next => exact .receiver h

/-- Where the type of an expression comes from. -/
inductive TypeSource (r : Resolver) (infer inferInit : Site → Option TypeName) (e : Site)
    (t : TypeName) : Prop
  | basic (h : t ∈ basicTypes)
  | lookup {name : String} {place : Site} {fieldsOnly : Bool} {declared : Declared}
    (hlookup : r.scope.lookup? name place fieldsOnly = some declared)
    (h : r.declaredType? infer declared = some t)
  | part {inner : Site} (hinner : inner ∈ significantChildren e) (h : infer inner = some t)
  | written {type : Site} (hnode : e.element.isNode = true) (htype : type ∈ mentionsOf e)
    (h : r.resolve? (significantText type) = some t)
  | call {owner : TypeName} {name : String} (hnode : e.element.isNode = true)
    (hkind : kind e = .methodInvocation) (howner : r.ownerBy? infer inferInit e = some owner)
    (h : r.table.returnType? owner name (Call.arguments e).length = some t)

/-- **The type of an expression** is one that it has of itself, that of a variable or of a part, one that it
writes, or what a call returns. -/
theorem typeSource_of_typeBy? {e : Site} {t : TypeName} (h : r.typeBy? infer inferInit e = some t) :
    TypeSource r infer inferInit e t := by
  unfold typeBy? at h
  split at h
  next =>
    obtain ⟨declared, hlookup, h⟩ := Option.bind_eq_some_iff.mp h
    exact .lookup hlookup h
  next => exact .basic (literalType?_basic h)
  next k cs helement =>
    have hnode : e.element.isNode = true := by
      rw [helement]
      rfl
    have hkind : kind e = k := by
      rw [kind, show tree e = _ from helement]
      rfl
    split at h
    case h_7 =>
      obtain ⟨inner, hinner, h⟩ := Option.bind_eq_some_iff.mp h
      exact .part (List.mem_of_find?_eq_some hinner) h
    case h_8 | h_9 =>
      obtain ⟨type, htype, h⟩ := Option.bind_eq_some_iff.mp h
      refine .written hnode ?_ h
      rw [mentionsOf, hkind]
      simp [htype]
    case h_10 =>
      split at h
      next owner name howner _ => exact .call hnode hkind howner h
      next => cases h
    case h_11 =>
      split at h
      next =>
        split at h
        next =>
          obtain ⟨declared, hlookup, h⟩ := Option.bind_eq_some_iff.mp h
          exact .lookup hlookup h
        next => cases h
      next => cases h
    case h_12 =>
      split at h
      next =>
        split at h
        next =>
          cases h
          exact .basic (by decide +kernel)
        next =>
          split at h
          next => exact .basic (binaryType?_basic h)
          next => cases h
      next => cases h
    case h_13 =>
      split at h
      next =>
        obtain ⟨operand, -, h⟩ := Option.bind_eq_some_iff.mp h
        exact .basic (unaryType?_basic h)
      next => cases h
    case h_14 => cases h
    all_goals exact .basic (literalType?_basic h)

end

/-! ## Types that are named -/

def knows (r : Resolver) (written : String) : Bool :=
  (r.resolve? written).any r.table.contains

/-- The unit names a type of the table. -/
def Named (r : Resolver) (root : Tree) : Prop :=
  (∃ written ∈ r.scope.declaredTypes, r.knows written = true) ∨
    ∃ x ∈ mentions root, r.knows (significantText x) = true

theorem knows_of_resolve? {r : Resolver} {written : String} {t : TypeName}
    (h : r.resolve? written = some t) (ht : r.table.contains t = true) : r.knows written = true := by
  rw [knows, h]
  exact ht

section

variable {table : TypeTable} {root : Tree}

/-- Answers of the table are given only if the unit names a type of it. -/
def Infers (table : TypeTable) (root : Tree) (infer : Site → Option TypeName) : Prop :=
  ∀ e t, e.In root → infer e = some t → table.contains t = true → (ofTree table root).Named root

variable {infer inferInit : Site → Option TypeName}

theorem named_of_lookup? (hinfer : Infers table root infer) {name : String} {place : Site}
    {fieldsOnly : Bool} {declared : Declared} {t : TypeName}
    (hlookup : (ofTree table root).scope.lookup? name place fieldsOnly = some declared)
    (h : (ofTree table root).declaredType? infer declared = some t)
    (ht : table.contains t = true) : (ofTree table root).Named root := by
  cases declared with
  | written type => exact .inl ⟨type, Scope.mem_declaredTypes_of_lookup? hlookup, knows_of_resolve? h ht⟩
  | inferred init => exact hinfer init t (Scope.in_of_lookup? hlookup) h ht
  | ambiguous => cases h

theorem mem_mentions_receiver {call receiver : Site} (hcall : call ∈ (Site.root root).nodes)
    (hkind : kind call = .methodInvocation) (hreceiver : Call.receiver? call = some receiver)
    (hname : mayNameType receiver = true) : receiver ∈ mentions root := by
  refine List.mem_flatMap.mpr ⟨call, hcall, ?_⟩
  rw [mentionsOf, hkind]
  simp [hreceiver, hname]

/-- A call is made on a type of the table only if the unit names one. -/
theorem named_of_ownerBy? (hinfer : Infers table root infer) (hinit : Infers table root inferInit)
    {call : Site} (hcall : call ∈ (Site.root root).nodes) (hkind : kind call = .methodInvocation)
    {t : TypeName} (h : (ofTree table root).ownerBy? infer inferInit call = some t)
    (ht : table.contains t = true) : (ofTree table root).Named root := by
  obtain ⟨receiver, hreceiver, hsource⟩ := exists_ownerSource h
  have hin := (Site.in_of_mem_nodes hcall).significantChild (Call.mem_of_receiver? hreceiver)
  cases hsource with
  | lookup hlookup h => exact named_of_lookup? hinit hlookup h ht
  | name hname h =>
    exact .inr ⟨receiver, mem_mentions_receiver hcall hkind hreceiver hname, knows_of_resolve? h ht⟩
  | receiver h => exact hinfer receiver t hin h ht

theorem contains_of_returnType? {owner t : TypeName} {name : String} {arity : Nat}
    (h : table.returnType? owner name arity = some t) : table.contains owner = true := by
  rw [TypeTable.contains]
  by_contra hnone
  rw [Bool.not_eq_true, Option.isSome_eq_false_iff, Option.isNone_iff_eq_none] at hnone
  rw [TypeTable.returnType?_of_get?_eq_none hnone] at h
  cases h

variable (hbasic : ∀ t ∈ basicTypes, table.contains t = false)

include hbasic

/-- An expression has a type of the table only if the unit names one. -/
theorem named_of_typeBy? (hinfer : Infers table root infer) (hinit : Infers table root inferInit)
    {e : Site} (he : e.In root) {t : TypeName}
    (h : (ofTree table root).typeBy? infer inferInit e = some t) (ht : table.contains t = true) :
    (ofTree table root).Named root := by
  have hmem (hnode : e.element.isNode = true) : e ∈ (Site.root root).nodes :=
    he.nodes_subset e (Site.mem_nodes_self hnode)
  cases typeSource_of_typeBy? h with
  | basic h =>
    rw [hbasic t h] at ht
    cases ht
  | lookup hlookup h => exact named_of_lookup? hinfer hlookup h ht
  | part hinner h => exact hinfer _ t (he.significantChild hinner) h ht
  | written hnode htype h =>
    exact .inr ⟨_, List.mem_flatMap.mpr ⟨e, hmem hnode, htype⟩, knows_of_resolve? h ht⟩
  | call hnode hkind howner h =>
    -- What a call returns is of the table only if the call is made on a type of the table.
    exact named_of_ownerBy? hinfer hinit (hmem hnode) hkind howner (contains_of_returnType? h)

/-- However many steps are followed, what is found goes back to a name. -/
theorem named_of_typeWithin? :
    ∀ steps, Infers table root ((ofTree table root).typeWithin? steps)
  | 0 => by
    intro e t _ h _
    cases h
  | 1 => by
    have hnothing : Infers table root fun _ => none := fun _ _ _ h => nomatch h
    intro e t he h ht
    exact named_of_typeBy? hbasic hnothing hnothing he h ht
  | steps + 2 => by
    intro e t he h ht
    exact named_of_typeBy? hbasic (named_of_typeWithin? (steps + 1)) (named_of_typeWithin? steps)
      he h ht

/-- A call of the unit is made on a type of the table only if the unit names one. -/
theorem named_of_ownerOf? {call : Site} (hcall : call ∈ (Site.root root).nodes)
    (hkind : kind call = .methodInvocation) {t : TypeName}
    (h : (ofTree table root).ownerOf? call = some t) (ht : table.contains t = true) :
    (ofTree table root).Named root :=
  named_of_ownerBy? (named_of_typeWithin? hbasic _) (named_of_typeWithin? hbasic _) hcall hkind h ht

end

end Resolver

end CallMigration
