import CallMigration.Proofs.Reference

/-!
# The unit that a run leaves behind

A run that is not skipped leaves the grown unit, perhaps with an import among its elements. The
resolver of what it leaves behind answers at every place as the resolver of the unit before would, had
it known the imports that are there now.

* `Spread` : the elements of a unit before and after a run.
* `Spread.aligned` : the nodes of both units.
* `Resolver.withImports` : a resolver that knows other imports.
* `Spread.simulation` : it answers alike at counterparts.
-/

namespace CallMigration

open Element

/-! ## Nodes at their places -/

mutual
theorem map_element_nodesAt : ∀ (t : Tree) (around : List Span) (start : Nat),
    (Site.nodesAt around start t).map Site.element = t.nodes
  | .token _ _, _, _ => rfl
  | .node k cs, around, start => by
    rw [Site.nodesAt, List.map_cons, map_element_nodesAtAll cs, Tree.nodes]
theorem map_element_nodesAtAll : ∀ (ts : List Tree) (around : List Span) (start : Nat),
    (Site.nodesAtAll around start ts).map Site.element = Tree.nodesOf ts
  | [], _, _ => rfl
  | t :: ts, around, start => by
    rw [Site.nodesAtAll, List.map_append, map_element_nodesAt t, map_element_nodesAtAll ts,
      Tree.nodesOf]
end

/-! ## Imports among elements -/

theorem mem_importsFrom {i : ImportDecl} {position : Nat} {ts : List Tree}
    (h : i ∈ Tree.importsFrom position ts) :
    ∃ t ∈ ts, t.isImport = true ∧ ∃ p, i = ImportDecl.ofTree p t := by
  induction ts generalizing position with
  | nil => cases h
  | cons t ts ih =>
    rw [Tree.importsFrom] at h
    split at h
    next ht =>
      rcases List.mem_cons.mp h with rfl | h
      · exact ⟨t, List.mem_cons_self, ht, position, rfl⟩
      · obtain ⟨u, hu, himport⟩ := ih h
        exact ⟨u, List.mem_cons_of_mem _ hu, himport⟩
    next =>
      obtain ⟨u, hu, himport⟩ := ih h
      exact ⟨u, List.mem_cons_of_mem _ hu, himport⟩

theorem exists_mem_importsFrom {t : Tree} {ts : List Tree} (ht : t ∈ ts) (h : t.isImport = true)
    (position : Nat) : ∃ p, ImportDecl.ofTree p t ∈ Tree.importsFrom position ts := by
  induction ts generalizing position with
  | nil => cases ht
  | cons u ts ih =>
    rw [Tree.importsFrom]
    rcases List.mem_cons.mp ht with rfl | ht
    · exact ⟨position, by rw [if_pos h]; exact List.mem_cons_self⟩
    · obtain ⟨p, hp⟩ := ih ht (position + 1)
      refine ⟨p, ?_⟩
      split
      · exact List.mem_cons_of_mem _ hp
      · exact hp

/-- Two imports name the same, wherever they stand. -/
structure ImportDecl.SameName (i j : ImportDecl) : Prop where
  path : i.path = j.path
  isStatic : i.isStatic = j.isStatic
  isWildcard : i.isWildcard = j.isWildcard

theorem ImportDecl.ofTree_position (p q : Nat) (t : Tree) :
    ImportDecl.ofTree p t = { ImportDecl.ofTree q t with position := p } := by
  unfold ImportDecl.ofTree
  simp only
  split <;> rfl

/-- The import of the type of timeouts, as it is read back. -/
theorem ofTree_timeout (p : Nat) :
    ImportDecl.ofTree p (importDeclaration UseTimeout.timeout) =
      ⟨UseTimeout.timeout.text, false, false, p⟩ := by
  have hzero : ImportDecl.ofTree 0 (importDeclaration UseTimeout.timeout) =
      ⟨UseTimeout.timeout.text, false, false, 0⟩ := by decide +kernel
  rw [ImportDecl.ofTree_position p 0, hzero]

theorem isPath_timeout : isPath UseTimeout.timeout.text = true := by
  decide +kernel

theorem scopedIdentifier_added (segments : List (List Char)) :
    ∀ n ∈ (scopedIdentifier segments).nodes, Overlay.IsAdded n := by
  fun_induction scopedIdentifier segments with
  | case1 => simp [Tree.nodes]
  | case2 => simp [Tree.nodes]
  | case3 last rest _ ih =>
    intro n hn
    simp only [Tree.nodes, Tree.nodesOf, List.append_nil, List.mem_cons] at hn
    rcases hn with rfl | hn
    · exact .name _
    · exact ih n hn

theorem importDeclaration_added (symbol : TypeName) :
    ∀ n ∈ (importDeclaration symbol).nodes, Overlay.IsAdded n := by
  intro n hn
  simp only [importDeclaration, Tree.nodes, Tree.nodesOf, List.append_nil, List.nil_append,
    List.mem_cons] at hn
  rcases hn with rfl | hn
  · exact .declaration _
  · exact scopedIdentifier_added _ n hn

namespace Growth

theorem isImport_after (g : Growth) : g.after.isImport = g.before.isImport := by
  cases g <;> rfl

theorem isPackage_after (g : Growth) : g.after.isPackage = g.before.isPackage := by
  cases g <;> rfl

theorem after_of_isImport {g : Growth} (h : g.before.Regular) (hi : g.before.isImport = true) :
    g.after = g.before := by
  rw [Tree.isImport, Bool.and_eq_true, beq_iff_eq] at hi
  exact after_of_isSpelled h (by rw [hi.2]; rfl)

theorem after_of_isPackage {g : Growth} (h : g.before.Regular) (hp : g.before.isPackage = true) :
    g.after = g.before := by
  rw [Tree.isPackage, Bool.and_eq_true, beq_iff_eq] at hp
  exact after_of_isSpelled h (by rw [hp.2]; rfl)

theorem importsFrom_afters {gs : List Growth} (h : ∀ g ∈ gs, g.before.Regular) (position : Nat) :
    Tree.importsFrom position (afters gs) = Tree.importsFrom position (befores gs) := by
  induction gs generalizing position with
  | nil => rfl
  | cons g gs ih =>
    have hrest := ih (fun e he => h e (List.mem_cons_of_mem _ he)) (position + 1)
    rw [afters, befores, Tree.importsFrom, Tree.importsFrom, isImport_after, hrest]
    split
    next hi => rw [after_of_isImport (h g List.mem_cons_self) hi]
    next => rfl

theorem find?_isPackage {gs : List Growth} (h : ∀ g ∈ gs, g.before.Regular) :
    (afters gs).find? Tree.isPackage = (befores gs).find? Tree.isPackage := by
  induction gs with
  | nil => rfl
  | cons g gs ih =>
    rw [afters, befores, List.find?_cons, List.find?_cons, isPackage_after,
      ih fun e he => h e (List.mem_cons_of_mem _ he)]
    split
    next hp => rw [after_of_isPackage (h g List.mem_cons_self) hp]
    next => rfl

end Growth

/-! ## The elements of a unit -/

/-- The elements of a unit before and after a run; `extra` are those of an added import. -/
structure Spread (r : Resolver) (t t' : Tree) (pres posts : List Growth) (extra : List Tree) :
    Prop where
  shaped : SourceShaped t
  before : t = .node .program (Growth.befores (pres ++ posts))
  after : t' = .node .program (Growth.afters pres ++ extra ++ Growth.afters posts)
  placed : (Growth.node .program (pres ++ posts)).Placed r [] 0
  added : extra = [] ∨ ∃ text, extra = [importDeclaration UseTimeout.timeout, space text] ∨
    extra = [space text, importDeclaration UseTimeout.timeout]

def Overlay.ofRun (r : Resolver) (pres posts : List Growth) (extra : List Tree) : Overlay where
  insertions := Growth.insertionsOf 0 pres ++
    ⟨Tree.byteLengthOf (Growth.befores pres), Tree.byteLengthOf extra⟩ ::
      Growth.insertionsOf (Tree.byteLengthOf (Growth.befores pres)) posts
  size := Tree.byteLengthOf (Growth.befores (pres ++ posts))
  size' := Tree.byteLengthOf (Growth.afters pres ++ extra ++ Growth.afters posts)
  resolver := r

def Resolver.withImports (r : Resolver) (imports : List ImportDecl) : Resolver :=
  { r with scope := { r.scope with imports } }

namespace Spread

variable {r : Resolver} {t t' : Tree} {pres posts : List Growth} {extra : List Tree}
  (h : Spread r t t' pres posts extra)

include h

theorem children_eq : t.children = Growth.befores (pres ++ posts) := by
  rw [h.before]
  rfl

theorem children_eq' : t'.children = Growth.afters pres ++ extra ++ Growth.afters posts := by
  rw [h.after]
  rfl

theorem part {g : Growth} (hg : g ∈ pres ++ posts) : RegularPart .program g.before := by
  have hregular := h.shaped.regular
  rw [h.before] at hregular
  exact hregular.root.parts _ (Growth.before_mem_befores hg)

theorem regular {g : Growth} (hg : g ∈ pres ++ posts) : g.before.Regular := by
  have hregular := h.shaped.regular
  rw [h.before] at hregular
  exact hregular.child (Growth.before_mem_befores hg)

theorem placedAll :
    Growth.PlacedAll r [⟨.program, 0, Tree.byteLengthOf (Growth.befores (pres ++ posts))⟩] 0 pres ∧
      Growth.PlacedAll r [⟨.program, 0, Tree.byteLengthOf (Growth.befores (pres ++ posts))⟩]
        (Tree.byteLengthOf (Growth.befores pres)) posts := by
  have hall := h.placed.2.2
  rw [Growth.placedAll_append, Nat.zero_add, Nat.zero_add] at hall
  exact hall

/-- Growths at the top of a unit stand over each other, wherever their bytes are put in. -/
theorem standsAll {gs : List Growth} (hsub : gs ⊆ pres ++ posts) {start start' : Nat}
    (hlocated : Insertion.Located (Overlay.ofRun r pres posts extra).insertions
      (Growth.insertionsOf start gs) start (start + Tree.byteLengthOf (Growth.befores gs)) start')
    (hplaced : Growth.PlacedAll r
      [⟨.program, 0, Tree.byteLengthOf (Growth.befores (pres ++ posts))⟩] start gs) :
    (Overlay.ofRun r pres posts extra).StandsAll gs
      [⟨.program, 0, (Overlay.ofRun r pres posts extra).size⟩]
      [⟨.program, 0, (Overlay.ofRun r pres posts extra).size'⟩] start start' where
  located := hlocated
  placed := hplaced
  regular _ hg := h.regular (hsub hg)
  typed _ hg _ hargument := h.placed.isExpression (hsub hg) hargument
  solid _ hg := (h.part (hsub hg)).solid
  inner _ hg := (h.part (hsub hg)).inner
  around := .node Correspondence.spans_root .nil
  parent := .some Correspondence.spans_root
  grandparent _ hg howned := nomatch (h.part (hsub hg)).listed howned

theorem standsAll_pres : (Overlay.ofRun r pres posts extra).StandsAll pres
    [⟨.program, 0, (Overlay.ofRun r pres posts extra).size⟩]
    [⟨.program, 0, (Overlay.ofRun r pres posts extra).size'⟩] 0 0 := by
  have hbehind := Growth.insertionsOf_inside
    (fun g hg => h.regular (List.mem_append_right _ hg)) h.placedAll.2
  refine h.standsAll (List.subset_append_left _ _) ⟨[], _, rfl, by simp, ?_, rfl⟩ h.placedAll.1
  intro i hi
  rw [Nat.zero_add]
  rcases List.mem_cons.mp hi with rfl | hi
  · exact Nat.le_refl _
  · exact (hbehind i hi).1.le

theorem standsAll_posts : (Overlay.ofRun r pres posts extra).StandsAll posts
    [⟨.program, 0, (Overlay.ofRun r pres posts extra).size⟩]
    [⟨.program, 0, (Overlay.ofRun r pres posts extra).size'⟩]
    (Tree.byteLengthOf (Growth.befores pres))
    (Tree.byteLengthOf (Growth.afters pres) + Tree.byteLengthOf extra) := by
  have hbefore := Growth.insertionsOf_inside
    (fun g hg => h.regular (List.mem_append_left _ hg)) h.placedAll.1
  refine h.standsAll (List.subset_append_right _ _)
    ⟨Growth.insertionsOf 0 pres ++
      [⟨Tree.byteLengthOf (Growth.befores pres), Tree.byteLengthOf extra⟩], [], ?_, ?_, by simp, ?_⟩
    h.placedAll.2
  · simp [Overlay.ofRun]
  · intro i hi
    rcases List.mem_append.mp hi with hi | hi
    · have hstop := (hbefore i hi).2
      omega
    · rw [List.mem_singleton.mp hi]
  · rw [Growth.byteLengthOf_afters 0 pres, Insertion.total_append, Insertion.total_cons]
    have hnone : Insertion.total [] = 0 := rfl
    omega

theorem aligned : (Overlay.ofRun r pres posts extra).Aligned
    (Site.nodesAtAll [⟨.program, 0, (Overlay.ofRun r pres posts extra).size⟩] 0 t.children)
    (Site.nodesAtAll [⟨.program, 0, (Overlay.ofRun r pres posts extra).size'⟩] 0 t'.children) := by
  have hextra : ∀ n ∈ Tree.nodesOf extra, Overlay.IsAdded n := by
    have himport := importDeclaration_added UseTimeout.timeout
    rcases h.added with rfl | ⟨text, rfl | rfl⟩ <;> intro n hn
    · cases hn
    · refine himport n ?_
      simpa [Tree.nodesOf, Tree.nodes, space] using hn
    · refine himport n ?_
      simpa [Tree.nodesOf, Tree.nodes, space] using hn
  have hmiddle : (Overlay.ofRun r pres posts extra).Aligned []
      (Site.nodesAtAll [⟨.program, 0, (Overlay.ofRun r pres posts extra).size'⟩]
        (0 + Tree.byteLengthOf (Growth.afters pres)) extra) := by
    refine .of_added fun x hx => hextra _ ?_
    rw [← map_element_nodesAtAll extra]
    exact List.mem_map_of_mem hx
  have hall := ((Overlay.alignedAll h.standsAll_pres).append hmiddle).append
    (Overlay.alignedAll h.standsAll_posts)
  rw [h.children_eq, h.children_eq', Growth.befores_append]
  simp only [Overlay.nodesAtAll_append, Tree.byteLengthOf_append, Nat.zero_add]
  rw [List.append_nil, Nat.zero_add] at hall
  exact hall

/-! ## Imports and the package -/

theorem imports_eq (hextra : extra = []) : t'.imports = t.imports := by
  rw [Tree.imports, Tree.imports, h.children_eq, h.children_eq', hextra, List.append_nil,
    ← Growth.afters_append]
  exact Growth.importsFrom_afters (fun _ hg => h.regular hg) 0

/-- An import of the unit afterwards names what one before names, or it is the added one. -/
theorem mem_imports {i : ImportDecl} (hi : i ∈ t'.imports) :
    (∃ j ∈ t.imports, i.SameName j) ∨
      ∃ p, i = ImportDecl.ofTree p (importDeclaration UseTimeout.timeout) := by
  obtain ⟨u, hu, himport, p, rfl⟩ := mem_importsFrom hi
  rw [h.children_eq', List.append_assoc, List.mem_append, List.mem_append] at hu
  have hold (gs : List Growth) (hsub : gs ⊆ pres ++ posts) (hu : u ∈ Growth.afters gs) :
      ∃ j ∈ t.imports, (ImportDecl.ofTree p u).SameName j := by
    rw [Growth.afters_eq_map] at hu
    obtain ⟨g, hg, rfl⟩ := List.mem_map.mp hu
    have hbefore : g.before.isImport = true := by rw [← Growth.isImport_after, himport]
    have heq := Growth.after_of_isImport (h.regular (hsub hg)) hbefore
    have hmem : g.before ∈ t.children := by
      rw [h.children_eq]
      exact Growth.before_mem_befores (hsub hg)
    obtain ⟨q, hq⟩ := exists_mem_importsFrom hmem hbefore 0
    refine ⟨_, hq, ?_⟩
    rw [heq, ImportDecl.ofTree_position p q]
    exact ⟨rfl, rfl, rfl⟩
  rcases hu with hu | hu | hu
  · exact .inl (hold pres (List.subset_append_left _ _) hu)
  · refine .inr ⟨p, ?_⟩
    rcases h.added with rfl | ⟨text, rfl | rfl⟩
    · cases hu
    · rcases List.mem_cons.mp hu with rfl | hu
      · rfl
      · rw [List.mem_singleton.mp hu] at himport
        cases himport
    · rcases List.mem_cons.mp hu with rfl | hu
      · cases himport
      · rw [List.mem_singleton.mp hu]
  · exact .inl (hold posts (List.subset_append_right _ _) hu)

theorem exists_import (hextra : extra ≠ []) :
    ∃ p, ImportDecl.ofTree p (importDeclaration UseTimeout.timeout) ∈ t'.imports := by
  refine exists_mem_importsFrom ?_ rfl 0
  rw [h.children_eq', List.append_assoc]
  refine List.mem_append_right _ (List.mem_append_left _ ?_)
  rcases h.added with hnone | ⟨text, rfl | rfl⟩
  · exact absurd hnone hextra
  · simp
  · simp

theorem package_eq : t'.packageName? = t.packageName? := by
  have hfind : t'.children.find? Tree.isPackage = t.children.find? Tree.isPackage := by
    have hextra : extra.find? Tree.isPackage = none := by
      rcases h.added with rfl | ⟨text, rfl | rfl⟩ <;> rfl
    have hpres := Growth.find?_isPackage fun g hg => h.regular (List.mem_append_left posts hg)
    have hposts := Growth.find?_isPackage fun g hg => h.regular (List.mem_append_right pres hg)
    rw [h.children_eq, h.children_eq', Growth.befores_append, List.find?_append, List.find?_append,
      List.find?_append, hextra, hpres, hposts, Option.or_none]
  rw [Tree.packageName?, Tree.packageName?, hfind]

/-! ## Resolvers -/

theorem nodes_eq : (Site.root t).nodes = Site.root t ::
    Site.nodesAtAll [⟨.program, 0, (Overlay.ofRun r pres posts extra).size⟩] 0 t.children := by
  rw [h.before, Site.root, Site.nodes, Site.nodesAt, Nat.zero_add]
  rfl

theorem nodes_eq' : (Site.root t').nodes = Site.root t' ::
    Site.nodesAtAll [⟨.program, 0, (Overlay.ofRun r pres posts extra).size'⟩] 0 t'.children := by
  rw [h.after, Site.root, Site.nodes, Site.nodesAt, Nat.zero_add]
  rfl

theorem kind_root : kind (Site.root t) = .program := by
  rw [h.before]
  rfl

theorem kind_root' : kind (Site.root t') = .program := by
  rw [h.after]
  rfl

theorem declaredNames : t'.nodes.filterMap declaredName? = t.nodes.filterMap declaredName? := by
  have hroot : declaredName? (Site.root t).element = none := by
    rw [declaredName?, show (Site.root t).element.kind = .program from h.kind_root]
    rfl
  have hroot' : declaredName? (Site.root t').element = none := by
    rw [declaredName?, show (Site.root t').element.kind = .program from h.kind_root']
    rfl
  rw [← map_element_nodesAt t [] 0, ← map_element_nodesAt t' [] 0]
  show ((Site.root t').nodes.map Site.element).filterMap _ =
    ((Site.root t).nodes.map Site.element).filterMap _
  rw [h.nodes_eq, h.nodes_eq', List.map_cons, List.map_cons, List.filterMap_cons,
    List.filterMap_cons, hroot, hroot']
  exact h.aligned.declaredNames

theorem isPath_imports {i : ImportDecl} (hi : i ∈ t'.imports) : isPath i.path = true := by
  rcases h.mem_imports hi with ⟨j, hj, hsame⟩ | ⟨p, heq⟩
  · rw [hsame.path]
    exact h.shaped.imports j hj
  · have hpath : i.path = UseTimeout.timeout.text := by
      rw [heq, ofTree_timeout]
    rw [hpath]
    exact isPath_timeout

/-- The names of types of the unit have no parentheses, the added import included. -/
theorem plain {table : TypeTable} (htable : ∀ info ∈ table.types, ¬ HasParen info.name.chars) :
    ((Resolver.ofTree table t).withImports t'.imports).Plain where
  imports _ hi := h.isPath_imports hi
  package := h.shaped.package
  table := htable

/-- The resolver of the unit afterwards answers as that of the unit before would, had it known the
imports. -/
theorem simulation {table : TypeTable}
    (htable : ∀ info ∈ table.types, ¬ HasParen info.name.chars) :
    Simulation (Overlay.ofRun r pres posts extra).correspondence
      (Overlay.ofRun r pres posts extra).Counterpart (fun u => HasParen u.chars)
      ((Resolver.ofTree table t).withImports t'.imports) (Resolver.ofTree table t') where
  toSiteRelation := Overlay.siteRelation _
  table := rfl
  resolve := by
    refine Resolver.resolve?_of_heads fun head => ?_
    have hpackage : (Resolver.ofTree table t').scope.package? =
        ((Resolver.ofTree table t).withImports t'.imports).scope.package? := h.package_eq
    rw [Resolver.resolveHead?, hpackage]
    rfl
  declarations := by
    show List.Forall₂ _ ((Site.root t).nodes.flatMap Declaration.ofNode)
      ((Site.root t').nodes.flatMap Declaration.ofNode)
    have hroot : Declaration.ofNode (Site.root t) = [] := by
      rw [Declaration.ofNode, h.kind_root]
    have hroot' : Declaration.ofNode (Site.root t') = [] := by
      rw [Declaration.ofNode, h.kind_root']
    rw [h.nodes_eq, h.nodes_eq', List.flatMap_cons, List.flatMap_cons, hroot, hroot']
    exact h.aligned.declarations
  owners d _ := Correspondence.alone_ofInsertions d.owner
  unknown hparen := (Resolver.ofTree table t).withImports t'.imports |>.get?_of_hasParen
    (h.plain htable) hparen
  argumentCount := Overlay.Counterpart.argumentCount
  numberText hx hk := hx.text_eq (by rw [isSpelled, hk]; simp)
  spelled hx hi := hx.spelled hi
  reference hx _ := Overlay.reference_alike (h.plain htable) hx

end Spread

end CallMigration
