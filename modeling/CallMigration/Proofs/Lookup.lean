import CallMigration.Proofs.Declarations
import CallMigration.Proofs.Evaluation
import CallMigration.Proofs.Paths
import CallMigration.Proofs.Shadowing

/-!
# What a lookup finds

A scope keeps the declarations of a unit by the kind and the range of the node that they belong to.
Where these tell the owners apart, a lookup can be said in terms of the tree: it is decided by the
innermost node around the place that owns a declaration of the name of which the first one collected is
visible, and by nothing else in the unit.

* `Tree.declarationsOf` : the declarations of a name that belong to the node at a path.
* `Bindings.collect` : the bindings that are filled while declarations are collected.
* `Scope.lookup?_innermost` : what a lookup finds.
-/

namespace CallMigration

open Element

/-! ## Owners of declarations -/

namespace Declaration

/-- How far above a declaring node the node stands that its declarations belong to. -/
def rise (x : Site) : Nat :=
  match kind x with
  | .fieldDeclaration | .localVariableDeclaration | .catchFormalParameter => 1
  | .formalParameter | .resource => 2
  | .instanceofExpression => (x.span :: x.around).findIdx fun s => ownsPatterns s.kind
  | _ => 0

theorem getElem?_findIdx {α : Type} (q : α → Bool) (l : List α) : l[l.findIdx q]? = l.find? q := by
  induction l with
  | nil => rfl
  | cons a l ih =>
    rw [List.findIdx_cons, List.find?_cons]
    cases q a with
    | true => rfl
    | false => exact ih

/-- The node that a declaration belongs to is the declaring node or stands above it. -/
theorem owner_of_ofNode {x : Site} {d : Declaration} (h : d ∈ ofNode x) :
    (x.span :: x.around)[rise x]? = some d.owner := by
  cases madeBy_of_mem h with
  | @declarator isField _ _ _ _ _ hkind howner =>
    have hrise : rise x = 1 := by cases isField <;> simp [rise, hkind]
    rw [hrise]
    exact howner
  | @parameter above _ _ _ _ hkind howner =>
    have hrise : ∀ pair ∈ parameterOwners, kind x = pair.1 → rise x = pair.2 := by
      simp +contextual [parameterOwners, rise]
    rw [hrise _ hkind rfl]
    exact howner
  | lambda hkind => simp [rise, hkind]
  | pattern hkind _ howner =>
    simp only [rise, hkind]
    rw [getElem?_findIdx]
    exact howner

/-- A local variable is visible from its declarator on and the variable of a pattern from its
`instanceof` on; everything else is visible everywhere in its owner. -/
theorem visibleFrom_of_ofNode {x : Site} {d : Declaration} (h : d ∈ ofNode x) :
    (kind x = .localVariableDeclaration →
      ∃ declarator ∈ children x, kind declarator = .variableDeclarator ∧
        d.visibleFrom = some declarator.start) ∧
    (kind x = .instanceofExpression → d.visibleFrom = some x.start) ∧
    (kind x ≠ .localVariableDeclaration → kind x ≠ .instanceofExpression →
      d.visibleFrom = none) := by
  cases madeBy_of_mem h with
  | @declarator isField _ _ declarator _ _ hkind _ _ hchild hdeclarator =>
    cases isField with
    | true => simp [hkind]
    | false => simpa [hkind] using ⟨declarator, hchild, hdeclarator, rfl⟩
  | parameter hkind =>
    have hother : ∀ pair ∈ parameterOwners, pair.1 ≠ .localVariableDeclaration ∧
        pair.1 ≠ .instanceofExpression := by decide
    obtain ⟨hlocal, hpattern⟩ := hother _ hkind
    simp [hlocal, hpattern]
  | lambda hkind => simp [hkind]
  | pattern hkind => simp [hkind]

end Declaration

namespace Tree

/-- The declarations of a unit in the order in which they are collected, each with the path of the
node that it belongs to. -/
def ownedDeclarations (root : Tree) : List (List Nat × Declaration) :=
  (Site.located root).flatMap fun (p, x) =>
    (Declaration.ofNode x).map fun d => (p.drop (Declaration.rise x), d)

/-- The declarations of a name that belong to the node at a path, in the order in which they are
collected. -/
def declarationsOf (root : Tree) (path : List Nat) (name : String) : List Declaration :=
  (root.ownedDeclarations.filter fun o => o.1 == path && o.2.name == name).map Prod.snd

theorem map_snd_ownedDeclarations (root : Tree) :
    root.ownedDeclarations.map Prod.snd = (Scope.collect root).declarations := by
  show _ = (Site.root root).nodes.flatMap Declaration.ofNode
  rw [← Site.map_snd_located, List.flatMap_map, ownedDeclarations, List.map_flatMap]
  congr 1
  funext o
  rw [List.map_map]
  exact List.map_id _

/-- The node that a declaration belongs to stands at the path that is given for it. -/
theorem exists_owner {root : Tree} {q : List Nat} {d : Declaration}
    (h : (q, d) ∈ root.ownedDeclarations) :
    ∃ y, (q, y) ∈ Site.located root ∧ y.span = d.owner := by
  obtain ⟨⟨p, x⟩, hx, hmade⟩ := List.mem_flatMap.mp h
  obtain ⟨d', hd, hpair⟩ := List.mem_map.mp hmade
  cases hpair
  obtain ⟨hdescend, hnode⟩ := Site.mem_located_iff.mp hx
  obtain ⟨y, hy, hnode, hspan⟩ :=
    Site.exists_above rfl hdescend hnode (Declaration.owner_of_ofNode hd)
  exact ⟨y, Site.mem_located_iff.mpr ⟨hy, hnode⟩, hspan⟩

/-- If no other node has the kind and the range of a node that owns a declaration, the declarations that
are kept for the span of a node are those that belong to the node. -/
theorem filter_ownedDeclarations {root : Tree}
    (halone : ∀ d ∈ (Scope.collect root).declarations,
      ((Site.root root).nodes.map Site.span).count d.owner ≤ 1)
    {a : List Nat} {y : Site} (hy : (a, y) ∈ Site.located root) (name : String)
    (keep : List Nat × Declaration → Bool) :
    ((root.ownedDeclarations.filter keep).map Prod.snd).filter
        (fun d => d.owner == y.span && d.name == name) =
      ((root.ownedDeclarations.filter keep).filter
        fun o => o.1 == a && o.2.name == name).map Prod.snd := by
  rw [List.filter_map]
  congr 1
  refine List.filter_congr fun (q, d) hmem => ?_
  have howned := (List.mem_filter.mp hmem).1
  obtain ⟨z, hz, hspan⟩ := exists_owner howned
  have hcollected : d ∈ (Scope.collect root).declarations := by
    rw [← map_snd_ownedDeclarations]
    exact List.mem_map_of_mem (f := Prod.snd) howned
  have hsame : d.owner = y.span ↔ q = a := by
    rw [← hspan]
    constructor
    · intro heq
      exact Site.path_eq_of_span_eq hz hy heq.symm (hspan ▸ halone d hcollected)
    · rintro rfl
      have hzy := (Site.mem_located_iff.mp hz).1.symm.trans (Site.mem_located_iff.mp hy).1
      rw [Option.some.inj hzy]
  show (d.owner == y.span && d.name == name) = (q == a && d.name == name)
  rw [Bool.eq_iff_iff, Bool.and_eq_true, Bool.and_eq_true, beq_iff_eq, hsame, beq_iff_eq (a := q)]

end Tree

/-! ## Bindings -/

/-- What names are bound to, owner by owner. -/
abbrev Bindings := Span → String → Option Declaration

namespace Bindings

/-- Binds one more declaration: the first one of a name stays, and loses its type to a further one that
does not write the same type. -/
def bind (bindings : Bindings) (d : Declaration) : Bindings := fun owner name =>
  if d.owner == owner && d.name == name then
    match bindings owner name with
    | some before =>
      if Scope.agree before.declared d.declared then some before
      else some { before with declared := .ambiguous }
    | none => some d
  else bindings owner name

def collect (ds : List Declaration) : Bindings :=
  ds.foldl bind fun _ _ => none

/-- The innermost binding of a name that is visible at a place. -/
def lookup? (bindings : Bindings) (name : String) (place : Site) : Option Declared :=
  ((place.around.filterMap fun owner => bindings owner name).find? fun d =>
    Scope.isVisible place.start d).map (·.declared)

def absorb (before : Declaration) (ds : List Declaration) : Declaration :=
  if ds.all fun d => Scope.agree before.declared d.declared then before
  else { before with declared := .ambiguous }

theorem absorb_cons_of_agree {before d : Declaration}
    (h : Scope.agree before.declared d.declared = true) (ds : List Declaration) :
    absorb before (d :: ds) = absorb before ds := by
  rw [absorb, List.all_cons, h, Bool.true_and]
  rfl

theorem absorb_cons_of_not_agree {before d : Declaration}
    (h : Scope.agree before.declared d.declared = false) (ds : List Declaration) :
    absorb before (d :: ds) = absorb { before with declared := .ambiguous } ds := by
  rw [absorb, absorb, List.all_cons, h, Bool.false_and, if_neg Bool.false_ne_true]
  exact (ite_self _).symm

/-- What a fold makes of a binding: it takes in the declarations of its owner and its name. -/
theorem foldl_bind (ds : List Declaration) (owner : Span) (name : String) (bindings : Bindings) :
    ds.foldl bind bindings owner name =
      match bindings owner name with
      | some before => some (absorb before (ds.filter fun d => d.owner == owner && d.name == name))
      | none => Scope.combine (ds.filter fun d => d.owner == owner && d.name == name) := by
  induction ds generalizing bindings with
  | nil => cases h : bindings owner name <;> simp [h, absorb, Scope.combine]
  | cons d ds ih =>
    rw [List.foldl_cons, ih]
    cases hmine : d.owner == owner && d.name == name with
    | false =>
      have hsame : bindings.bind d owner name = bindings owner name := by
        rw [bind, hmine, if_neg Bool.false_ne_true]
      have hskip := List.filter_cons_of_neg (p := fun d => d.owner == owner && d.name == name)
        (l := ds) (Bool.not_eq_true _ ▸ hmine)
      rw [hsame, hskip]
    | true =>
      have htake := List.filter_cons_of_pos (p := fun d => d.owner == owner && d.name == name)
        (l := ds) hmine
      rw [htake]
      cases hbefore : bindings owner name with
      | none =>
        have hnew : bindings.bind d owner name = some d := by
          rw [bind, hmine, if_pos rfl, hbefore]
        rw [hnew]
        simp only [Scope.combine, absorb]
        split <;> rfl
      | some before =>
        cases hagree : Scope.agree before.declared d.declared with
        | true =>
          have hkept : bindings.bind d owner name = some before := by
            simp [bind, hmine, hbefore, hagree]
          rw [hkept]
          exact congrArg some (absorb_cons_of_agree hagree _).symm
        | false =>
          have hlost : bindings.bind d owner name =
              some { before with declared := .ambiguous } := by
            simp [bind, hmine, hbefore, hagree]
          rw [hlost]
          exact congrArg some (absorb_cons_of_not_agree hagree _).symm

/-- The bindings that are filled while declarations are collected are those of the scope. -/
theorem collect_eq_binding? (scope : Scope) (owner : Span) (name : String) :
    collect scope.declarations owner name = scope.binding? owner name :=
  foldl_bind scope.declarations owner name fun _ _ => none

end Bindings

/-! ## Lookups -/

def Declaration.Unanimous (ds : List Declaration) : Prop :=
  ds.length = 1 ∨
    ∃ type, ∀ d ∈ ds, ∃ written, d.declared = .written written ∧ TypeName.ofWritten written = type

namespace Scope

open Declaration (Unanimous)

theorem agree_iff {a b : Declared} :
    agree a b = true ↔ ∃ v w, a = .written v ∧ b = .written w ∧
      TypeName.ofWritten w = TypeName.ofWritten v := by
  cases a with
  | written v =>
    cases b with
    | written w =>
      constructor
      · intro h
        exact ⟨v, w, rfl, rfl, (beq_iff_eq.mp h).symm⟩
      · rintro ⟨_, _, hv, hw, hsame⟩
        cases hv
        cases hw
        exact beq_iff_eq.mpr hsame.symm
    | inferred init => simp [agree]
    | ambiguous => simp [agree]
  | inferred init => simp [agree]
  | ambiguous => simp [agree]

theorem all_agree_iff {first : Declaration} {rest : List Declaration} :
    (rest.all fun d => agree first.declared d.declared) = true ↔ Unanimous (first :: rest) := by
  cases rest with
  | nil => exact iff_of_true rfl (.inl rfl)
  | cons second rest =>
    rw [List.all_eq_true]
    constructor
    · intro hall
      obtain ⟨v, -, hfirst, -, -⟩ := agree_iff.mp (hall second List.mem_cons_self)
      refine .inr ⟨TypeName.ofWritten v, fun d hd => ?_⟩
      rcases List.mem_cons.mp hd with rfl | hd
      · exact ⟨v, hfirst, rfl⟩
      · obtain ⟨v', w, hv', hw, hsame⟩ := agree_iff.mp (hall d hd)
        rw [hfirst] at hv'
        cases hv'
        exact ⟨w, hw, hsame⟩
    · rintro (hlength | ⟨type, hall⟩) d hd
      · cases hlength
      · obtain ⟨v, hv, rfl⟩ := hall first List.mem_cons_self
        obtain ⟨w, hw, hsame⟩ := hall d (List.mem_cons_of_mem first hd)
        exact agree_iff.mpr ⟨v, w, hv, hw, hsame⟩

theorem combine_of_unanimous {first : Declaration} {rest : List Declaration}
    (h : Unanimous (first :: rest)) : combine (first :: rest) = some first := by
  rw [combine, if_pos (all_agree_iff.mpr h)]

theorem combine_of_not_unanimous {first : Declaration} {rest : List Declaration}
    (h : ¬ Unanimous (first :: rest)) :
    combine (first :: rest) = some { first with declared := .ambiguous } := by
  rw [combine, if_neg (fun hall => h (all_agree_iff.mp hall))]

theorem isVisible_combine {offset : Nat} {ds : List Declaration}
    (hhidden : ∀ d ∈ ds.head?, isVisible offset d = false) {d : Declaration}
    (hd : combine ds = some d) : isVisible offset d = false := by
  cases ds with
  | nil => cases hd
  | cons first rest =>
    obtain ⟨declared, -, hcombine⟩ := combine_cons first rest
    rw [hcombine] at hd
    cases hd
    exact hhidden first rfl

theorem lookup?_congr {scope scope' : Scope} {name : String} {e : Site}
    (h : ∀ s ∈ e.around, scope'.binding? s name = scope.binding? s name) :
    scope'.lookup? name e false = scope.lookup? name e false := by
  rw [lookup?, lookup?, List.filterMap_congr h]

variable {root : Tree}

/-- What is around a place is the span of a node at an end of its path. -/
theorem exists_located_of_mem_around {i : Nat} {p : List Nat} {e : Site}
    (he : Site.descend? (.root root) (i :: p) = some e) {s : Span} (hs : s ∈ e.around) :
    ∃ b z, b <:+ p ∧ (b, z) ∈ Site.located root ∧ z.span = s := by
  rw [← List.append_nil p] at he
  obtain ⟨between, y, hy, hnode, haround, hbetween⟩ := Site.exists_around he
  rw [haround, List.mem_append, List.mem_cons] at hs
  rcases hs with hs | rfl | hs
  · obtain ⟨b, z, hb, -, hz, hnode, hspan⟩ := hbetween s hs
    rw [List.append_nil] at hb
    exact ⟨b, z, hb, Site.mem_located_iff.mpr ⟨hz, hnode⟩, hspan⟩
  · exact ⟨[], y, List.nil_suffix, Site.mem_located_iff.mpr ⟨hy, hnode⟩, rfl⟩
  · cases hy
    cases hs

variable (halone : ∀ d ∈ (Scope.collect root).declarations,
    ((Site.root root).nodes.map Site.span).count d.owner ≤ 1)

include halone

theorem binding?_located {a : List Nat} {y : Site} (hy : (a, y) ∈ Site.located root)
    (name : String) :
    (Scope.collect root).binding? y.span name = combine (root.declarationsOf a name) := by
  have hfilter := Tree.filter_ownedDeclarations halone hy name fun _ => true
  rw [List.filter_true, Tree.map_snd_ownedDeclarations] at hfilter
  rw [binding?, hfilter, Tree.declarationsOf]

theorem isVisible_binding? {b : List Nat} {z : Site} (hz : (b, z) ∈ Site.located root)
    {name : String} {offset : Nat}
    (hhidden : ∀ d ∈ (root.declarationsOf b name).head?, isVisible offset d = false)
    {d : Declaration} (hd : (Scope.collect root).binding? z.span name = some d) :
    isVisible offset d = false := by
  rw [binding?_located halone hz] at hd
  exact isVisible_combine hhidden hd

/-- Only declarations that belong to nodes around a place take part in a lookup there. -/
theorem lookup?_owned {i : Nat} {p : List Nat} {e : Site}
    (he : Site.descend? (.root root) (i :: p) = some e) (name : String) :
    ({ Scope.collect root with
        declarations := (root.ownedDeclarations.filter fun o => o.1.isSuffixOf p).map Prod.snd } :
      Scope).lookup? name e false = (Scope.collect root).lookup? name e false := by
  refine lookup?_congr fun s hs => ?_
  obtain ⟨b, z, hb, hz, rfl⟩ := exists_located_of_mem_around he hs
  rw [binding?_located halone hz, binding?, Tree.filter_ownedDeclarations halone hz,
    List.filter_filter, Tree.declarationsOf]
  congr 2
  refine List.filter_congr fun o _ => ?_
  by_cases howner : o.1 = b
  · rw [howner, List.isSuffixOf_iff_suffix.mpr hb, Bool.and_true]
  · rw [beq_eq_false_iff_ne.mpr howner, Bool.false_and, Bool.false_and]

/-- **A lookup finds the innermost visible declaration and nothing else.** Let no other node of the unit
have the kind and the range of a node that owns a declaration. Then the innermost node around a place
decides that owns a declaration of the name of which the first one collected is visible: the lookup
finds this first declaration, or, if there are several that do not all write the same type, that the
type is ambiguous. If there is no such node, nothing is found. Declarations that belong to nodes which
are not around the place take no part; and the answer is that of the bindings which are filled, one
declaration after the other, while the unit is scanned. Local variables are visible from their
declarators on, the variables of patterns from their `instanceof` on, and all else everywhere. -/
theorem lookup?_innermost {i : Nat} {p : List Nat} {e : Site}
    (he : Site.descend? (.root root) (i :: p) = some e) (name : String) :
    let scope := Scope.collect root
    (∀ a first rest, a <:+ p → root.declarationsOf a name = first :: rest →
      isVisible e.start first = true →
      (∀ b, b <:+ p → a.length < b.length →
        ∀ d ∈ (root.declarationsOf b name).head?, isVisible e.start d = false) →
      (Unanimous (first :: rest) → scope.lookup? name e false = some first.declared) ∧
      (¬ Unanimous (first :: rest) → scope.lookup? name e false = some .ambiguous)) ∧
    ((∀ a, a <:+ p → ∀ d ∈ (root.declarationsOf a name).head?, isVisible e.start d = false) →
      scope.lookup? name e false = none) ∧
    ({ scope with
        declarations := (root.ownedDeclarations.filter fun o => o.1.isSuffixOf p).map Prod.snd } :
      Scope).lookup? name e false = scope.lookup? name e false ∧
    (Bindings.collect scope.declarations).lookup? name e = scope.lookup? name e false ∧
    (∀ x ∈ (Site.root root).nodes, ∀ d ∈ Declaration.ofNode x,
      (kind x = .localVariableDeclaration →
        ∃ declarator ∈ children x, kind declarator = .variableDeclarator ∧
          d.visibleFrom = some declarator.start) ∧
      (kind x = .instanceofExpression → d.visibleFrom = some x.start) ∧
      (kind x ≠ .localVariableDeclaration → kind x ≠ .instanceofExpression →
        d.visibleFrom = none)) := by
  intro scope
  refine ⟨?_, ?_, lookup?_owned halone he name, ?_,
    fun x _ d hd => Declaration.visibleFrom_of_ofNode hd⟩
  · rintro a first rest ⟨inner, rfl⟩ hfirst hvisible hinner
    obtain ⟨between, y, hy, hnode, haround, hbetween⟩ := Site.exists_around he
    have hbinding := binding?_located halone (Site.mem_located_iff.mpr ⟨hy, hnode⟩) name
    -- The nodes between the place and the owner bind nothing that is visible.
    have hpass : scope.lookup? name e false =
        scope.lookup? name { e with around := y.span :: y.around } false := by
      have happend := lookup?_append_of_hidden name scope e.element e.start between
        (y.span :: y.around) fun s hs d hd => by
          obtain ⟨b, z, hb, hlength, hz, hznode, rfl⟩ := hbetween s hs
          exact isVisible_binding? halone (Site.mem_located_iff.mpr ⟨hz, hznode⟩)
            (hinner b hb hlength) hd
      rwa [← haround] at happend
    rw [hpass]
    rw [hfirst] at hbinding
    constructor
    · intro hsame
      rw [combine_of_unanimous hsame] at hbinding
      exact lookup?_cons_of_visible y.span name scope e.element e.start y.around hbinding hvisible
    · intro hdiffer
      rw [combine_of_not_unanimous hdiffer] at hbinding
      exact lookup?_cons_of_visible y.span name scope e.element e.start y.around hbinding hvisible
  · intro hhidden
    have happend := lookup?_append_of_hidden name scope e.element e.start e.around []
      fun s hs d hd => by
        obtain ⟨b, z, hb, hz, rfl⟩ := exists_located_of_mem_around he hs
        exact isVisible_binding? halone hz (hhidden b hb) hd
    rwa [List.append_nil] at happend
  · unfold Bindings.lookup? lookup?
    simp only [Bindings.collect_eq_binding?, Bool.not_false, Bool.true_or, Bool.true_and]

omit halone

/-- A field, a parameter, a local variable of an inner block, and a local variable that is declared twice
behind its first use. -/
def layeredSource : String :=
  "class A \x7b p.B b; void f(p.C b) \x7b \x7b p.D b; \x7d b.g(); p.E b; p.E b; b.h(); \x7d \x7d"

def layeredParameter : Declaration :=
  ⟨⟨.methodDeclaration, 17, 73⟩, "b", .written "p.C", none, false⟩

/-- The local variable that is declared in the block of `f` from a byte on. -/
def layeredLocal (start : Nat) : Declaration :=
  ⟨⟨.block, 31, 73⟩, "b", .written "p.E", some start, false⟩

def layers : List (List Nat × Declaration) :=
  [([4, 0], ⟨⟨.node, 8, 75⟩, "b", .written "p.B", none, true⟩), ([4, 4, 0], layeredParameter),
    ([2, 5, 4, 4, 0], ⟨⟨.block, 33, 43⟩, "b", .written "p.D", some 39, false⟩),
    ([5, 4, 4, 0], layeredLocal 55), ([5, 4, 4, 0], layeredLocal 62)]

/-- Where the receivers of the calls of `g` and of `h` stand in `layeredSource`. -/
def pathOfG : List Nat := [0, 4, 5, 4, 4, 0]
def pathOfH : List Nat := [0, 10, 5, 4, 4, 0]

theorem exists_layeredUnit :
    ∃ u g h, JavaUnit.parse layeredSource = .ok u ∧
      (∀ d ∈ (Scope.collect u.tree).declarations,
        ((Site.root u.tree).nodes.map Site.span).count d.owner ≤ 1) ∧
      u.tree.ownedDeclarations = layers ∧
      Site.descend? (.root u.tree) (0 :: pathOfG) = some g ∧ g.start = 44 ∧
      Site.descend? (.root u.tree) (0 :: pathOfH) = some h ∧ h.start = 65 := by
  have hcheck : (JavaUnit.parse layeredSource).toOption.any (fun u : JavaUnit =>
      decide ((∀ d ∈ (Scope.collect u.tree).declarations,
          ((Site.root u.tree).nodes.map Site.span).count d.owner ≤ 1) ∧
        u.tree.ownedDeclarations = layers) &&
      (Site.descend? (.root u.tree) (0 :: pathOfG)).any (·.start == 44) &&
      (Site.descend? (.root u.tree) (0 :: pathOfH)).any (·.start == 65)) = true := by
    rw [JavaUnit.parse_eq]
    decide +kernel
  obtain ⟨u, hparse, hfacts⟩ := exists_ok_of_any hcheck
  simp only [Bool.and_eq_true, decide_eq_true_eq, Option.any_eq_true, beq_iff_eq] at hfacts
  obtain ⟨⟨⟨halone, howned⟩, g, hg, hgstart⟩, h, hh, hhstart⟩ := hfacts
  exact ⟨u, g, h, hparse, halone, howned, hg, hgstart, hh, hhstart⟩

/-- At the call of `g` the local variable is not visible yet, so the parameter is found; at the call of
`h` both declarations of the local variable agree. -/
theorem lookup?_innermost_layered :
    ∃ u g h, JavaUnit.parse layeredSource = .ok u ∧
      Site.descend? (.root u.tree) (0 :: pathOfG) = some g ∧
      (Scope.collect u.tree).lookup? "b" g false = some (.written "p.C") ∧
      Site.descend? (.root u.tree) (0 :: pathOfH) = some h ∧
      (Scope.collect u.tree).lookup? "b" h false = some (.written "p.E") := by
  obtain ⟨u, g, h, hparse, halone, howned, hg, hgstart, hh, hhstart⟩ := exists_layeredUnit
  refine ⟨u, g, h, hparse, hg, ?_, hh, ?_⟩
  · have hinner : ∀ b ∈ pathOfG.tails, [4, 4, 0].length < b.length →
        ∀ d ∈ (u.tree.declarationsOf b "b").head?, isVisible g.start d = false := by
      rw [hgstart]
      unfold Tree.declarationsOf
      rw [howned]
      decide
    refine ((lookup?_innermost halone hg "b").1 [4, 4, 0] layeredParameter [] (by decide) ?_ ?_
      fun b hb => hinner b ((List.mem_tails _ _).mpr hb)).1 (.inl rfl)
    · unfold Tree.declarationsOf
      rw [howned]
      rfl
    · rw [hgstart]
      rfl
  · have hinner : ∀ b ∈ pathOfH.tails, [5, 4, 4, 0].length < b.length →
        ∀ d ∈ (u.tree.declarationsOf b "b").head?, isVisible h.start d = false := by
      rw [hhstart]
      unfold Tree.declarationsOf
      rw [howned]
      decide
    refine ((lookup?_innermost halone hh "b").1 [5, 4, 4, 0] (layeredLocal 55) [layeredLocal 62]
      (by decide) ?_ ?_ fun b hb => hinner b ((List.mem_tails _ _).mpr hb)).1 (.inr ⟨⟨"p.E"⟩, ?_⟩)
    · unfold Tree.declarationsOf
      rw [howned]
      rfl
    · rw [hhstart]
      rfl
    · intro d hd
      simp only [List.mem_cons, List.not_mem_nil, or_false] at hd
      rcases hd with rfl | rfl <;> exact ⟨"p.E", rfl, by decide⟩

end Scope

end CallMigration
