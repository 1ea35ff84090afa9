import CallMigration.Proofs.Address
import CallMigration.Proofs.Evaluation
import CallMigration.Proofs.Slots

/-!
# Formatting

Owners of declarations are told apart by their byte ranges, and a local variable is visible from the
byte on where it is declared; both change with every space and every comment. Still, formatting does
not change what a recipe does. Elements of two units that differ in whitespace and comments only
belong together if they have the same address, and the resolvers of the units see the same at places
that belong together.

* `Tree.Formatted` : the owners of declarations can be told apart by their ranges.
* `Reformatted` : two such units that differ in whitespace and comments only.
* `Reformatted.simulation` : their resolvers see the same at the same addresses.
* `Recipe.alike_of_reformatted` : the gate, the check for clashes and every call are judged alike.
-/

namespace CallMigration

open Element

/-! ## Units that differ in whitespace and comments -/

/-- A tidy unit in which no other node has the kind and the range of a node that owns a declaration. -/
structure Tree.Formatted (t : Tree) : Prop extends t.Tidy where
  owners : ∀ d ∈ (Scope.collect t).declarations,
    ((Site.root t).nodes.map Site.span).count d.owner ≤ 1

instance (t : Tree) : Decidable t.Formatted :=
  decidable_of_iff (t.Tidy ∧ ∀ d ∈ (Scope.collect t).declarations,
    ((Site.root t).nodes.map Site.span).count d.owner ≤ 1)
    ⟨fun h => ⟨h.1, h.2⟩, fun h => ⟨h.toTidy, h.owners⟩⟩

/-- The calls of a unit, in pre-order. -/
def Tree.calls (t : Tree) : List Site :=
  (Site.root t).nodes.filter Call.isCall

/-- Two units that differ in whitespace and comments only. -/
structure Reformatted (t t' : Tree) : Prop where
  formatted : t.Formatted
  formatted' : t'.Formatted
  stripped : t'.stripped = t.stripped

/-- Elements at the same address of two units. -/
def SameAddress (t t' : Tree) (x x' : Site) : Prop :=
  ∃ p, Site.at? p (.root t) = some x ∧ Site.at? p (.root t') = some x'

theorem SameAddress.root (t t' : Tree) : SameAddress t t' (.root t) (.root t') :=
  ⟨[], rfl, rfl⟩

theorem Site.map_stripped_significant {x : Site} (h : x.element.Tidy) :
    (significantChildren x).map (fun y => y.element.stripped) = x.element.stripped.children := by
  rw [Tree.children_stripped, ← h.map_stripped_significant, ← map_element_significant, List.map_map]
  rfl

/-- Elements that differ in whitespace and comments have parts that do. -/
theorem forall₂_stripped {x x' : Site} (h : x.element.Tidy) (h' : x'.element.Tidy)
    (hsame : x'.element.stripped = x.element.stripped) :
    List.Forall₂ (fun y y' => y'.element.stripped = y.element.stripped) (significantChildren x)
      (significantChildren x') := by
  have hmap : List.Forall₂ (· = ·)
      ((significantChildren x').map fun y => y.element.stripped)
      ((significantChildren x).map fun y => y.element.stripped) := by
    rw [Site.map_stripped_significant h, Site.map_stripped_significant h', hsame,
      List.forall₂_eq_eq_eq]
  rw [List.forall₂_map_left_iff, List.forall₂_map_right_iff] at hmap
  exact hmap.flip

theorem stripped_of_at? {z z' : Site} (hz : z.element.Tidy) (hz' : z'.element.Tidy)
    (hsame : z'.element.stripped = z.element.stripped) {p : List Nat} {x x' : Site}
    (hx : Site.at? p z = some x) (hx' : Site.at? p z' = some x') :
    x'.element.stripped = x.element.stripped := by
  induction p generalizing z z' with
  | nil =>
    cases hx
    cases hx'
    exact hsame
  | cons i p ih =>
    obtain ⟨y, hy, hx⟩ := Site.at?_cons hx
    obtain ⟨y', hy', hx'⟩ := Site.at?_cons hx'
    have hparts := rel_getElem? (forall₂_stripped hz hz' hsame) i
    rw [hy, hy'] at hparts
    cases hparts with
    | some hstripped =>
      exact ih (Site.tidy_of_significant hz (List.mem_of_getElem? hy))
        (Site.tidy_of_significant hz' (List.mem_of_getElem? hy')) hstripped hx hx'

theorem Correspondence.Around.of_forall₂ {c : Correspondence} {as as' : List Span}
    (h : List.Forall₂ c.spans as as') : c.Around as as' := by
  induction h with
  | nil => exact .nil
  | cons ha _ ih => exact .node ha ih

theorem Call.argumentsOf_eq (list : Site) :
    argumentsOf list = (significantChildren list).filter isArgument := by
  rw [argumentsOf, significantChildren, List.filter_filter]
  refine List.filter_congr fun x _ => ?_
  rw [isArgument]
  cases isSignificant x <;> simp

namespace Reformatted

variable {t t' : Tree} (h : Reformatted t t')

include h

theorem symm : Reformatted t' t :=
  ⟨h.formatted', h.formatted, h.stripped.symm⟩

theorem header_eq : t'.header = t.header := by
  rw [← h.formatted'.header_stripped, h.stripped, h.formatted.header_stripped]

theorem conflicts_eq (symbol : TypeName) : conflicts t' symbol = conflicts t symbol := by
  rw [← h.formatted'.conflicts_stripped, h.stripped, h.formatted.conflicts_stripped]

section

variable {x x' : Site} (hx : SameAddress t t' x x')

include hx

theorem stripped_eq : x'.element.stripped = x.element.stripped := by
  obtain ⟨p, hp, hp'⟩ := hx
  exact stripped_of_at? h.formatted.toTidy h.formatted'.toTidy h.stripped hp hp'

theorem tidy : x.element.Tidy ∧ x'.element.Tidy := by
  obtain ⟨p, hp, hp'⟩ := hx
  exact ⟨Site.tidy_of_at? h.formatted.toTidy hp, Site.tidy_of_at? h.formatted'.toTidy hp'⟩

theorem kind_eq : x'.element.kind = x.element.kind := by
  rw [← Tree.kind_stripped, h.stripped_eq hx, Tree.kind_stripped]

theorem isNode_eq : x'.element.isNode = x.element.isNode := by
  rw [← Tree.isNode_stripped, h.stripped_eq hx, Tree.isNode_stripped]

theorem isNodeOf_eq (k : Kind) :
    ((tree x).isNode && kind x == k) = ((tree x').isNode && kind x' == k) := by
  show (x.element.isNode && x.element.kind == k) = (x'.element.isNode && x'.element.kind == k)
  rw [h.isNode_eq hx, h.kind_eq hx]

theorem text_eq : significantText x' = significantText x := by
  show x'.element.significantText = x.element.significantText
  rw [← Tree.significantText_stripped, h.stripped_eq hx, Tree.significantText_stripped]

theorem parts : List.Forall₂ (SameAddress t t') (significantChildren x) (significantChildren x') := by
  have hparts := forall₂_stripped (h.tidy hx).1 (h.tidy hx).2 (h.stripped_eq hx)
  obtain ⟨p, hp, hp'⟩ := hx
  refine List.forall₂_iff_get.mpr ⟨hparts.length_eq, fun i hi hi' => ⟨p ++ [i], ?_, ?_⟩⟩
  · rw [Site.at?_concat, hp]
    exact List.getElem?_eq_getElem hi
  · rw [Site.at?_concat, hp']
    exact List.getElem?_eq_getElem hi'

end

/-- The nodes of elements at the same address, in pre-order. -/
theorem nodes {x x' : Site} (hx : SameAddress t t' x x') :
    List.Forall₂ (fun y y' => SameAddress t t' y y' ∧ y.element.isNode = true) x.nodes x'.nodes := by
  obtain ⟨htidy, htidy'⟩ := h.tidy hx
  have hisNode := h.isNode_eq hx
  cases hnode : x.element.isNode with
  | false =>
    rw [Site.nodes_of_token hnode, Site.nodes_of_token (hisNode.trans hnode)]
    exact .nil
  | true =>
    rw [Site.nodes_eq htidy hnode, Site.nodes_eq htidy' (hisNode.trans hnode)]
    refine .cons ⟨hx, hnode⟩ ?_
    have hsmaller : ∀ y ∈ significantChildren x, sizeOf y.element < sizeOf x.element :=
      fun y hy => Site.sizeOf_lt_of_child (List.mem_of_mem_filter hy)
    have hparts := (List.forall₂_and_left _ _).mpr ⟨hsmaller, h.parts hx⟩
    exact List.rel_flatMap hparts fun y y' hy => nodes hy.2
termination_by sizeOf x.element
decreasing_by exact hy.1

theorem calls : List.Forall₂ (fun x x' => SameAddress t t' x x' ∧ kind x = .methodInvocation)
    t.calls t'.calls := by
  have hkinds : ∀ x ∈ t.calls, kind x = .methodInvocation := by
    intro x hx
    have hcall := (List.mem_filter.mp hx).2
    rw [Call.isCall, Bool.and_eq_true, beq_iff_eq] at hcall
    exact hcall.2
  have hcalls := forall₂_filter (p := Call.isCall) (q := Call.isCall)
    (fun _ _ hx => h.isNodeOf_eq hx.1 _) (h.nodes (.root t t'))
  refine ((List.forall₂_and_left _ _).mpr ⟨hkinds, hcalls⟩).imp ?_
  rintro x x' ⟨hkind, hx, -⟩
  exact ⟨hx, hkind⟩

/-! ## Corresponding places -/

/-- Spans and offsets belong together at the same address. -/
def correspondence : Correspondence where
  spans a a' := ∃ x x', SameAddress t t' x x' ∧ x.element.isNode = true ∧ x.span = a ∧ x'.span = a'
  offsets a a' := ∃ x x', SameAddress t t' x x' ∧ x.start = a ∧ x'.start = a'
  uses a a' := ∃ x x', SameAddress t t' x x' ∧ x.element.isNode = false ∧ x.start = a ∧ x'.start = a'
  spans_kind := by
    rintro _ _ ⟨x, x', hx, -, rfl, rfl⟩
    exact h.kind_eq hx
  offsets_iff := by
    rintro _ _ _ _ ⟨x, x', ⟨p, hx, hx'⟩, rfl, rfl⟩ ⟨y, y', ⟨q, hy, hy'⟩, htoken, rfl, rfl⟩
    have htoken' := (h.isNode_eq ⟨q, hy, hy'⟩).trans htoken
    rw [Site.start_le_iff h.formatted.toTidy hx hy htoken,
      Site.start_le_iff h.formatted'.toTidy hx' hy' htoken']

theorem around {x x' : Site} (hx : SameAddress t t' x x') :
    List.Forall₂ h.correspondence.spans x.around x'.around := by
  obtain ⟨p, hx, hx'⟩ := hx
  induction p using List.reverseRecOn generalizing x x' with
  | nil =>
    cases hx
    cases hx'
    exact .nil
  | append_singleton p i ih =>
    rw [Site.at?_concat] at hx hx'
    obtain ⟨y, hy, hx⟩ := Option.bind_eq_some_iff.mp hx
    obtain ⟨y', hy', hx'⟩ := Option.bind_eq_some_iff.mp hx'
    have hchild := List.mem_of_mem_filter (List.mem_of_getElem? hx)
    have hchild' := List.mem_of_mem_filter (List.mem_of_getElem? hx')
    rw [Site.around_of_mem_place hchild, Site.around_of_mem_place hchild']
    exact .cons ⟨y, y', ⟨p, hy, hy'⟩, Site.isNode_of_child hchild, rfl, rfl⟩ (ih hy hy')

theorem siteRelation : SiteRelation h.correspondence (SameAddress t t') where
  start hx := ⟨_, _, hx, rfl, rfl⟩
  use hx htoken := ⟨_, _, hx, htoken, rfl, rfl⟩
  span hx hnode := ⟨_, _, hx, hnode, rfl, rfl⟩
  around hx := .of_forall₂ (h.around hx)
  kind hx := h.kind_eq hx
  tokenText hx := by
    rw [← Tree.tokenText?_stripped, h.stripped_eq hx, Tree.tokenText?_stripped]
  parts hx _ := h.parts hx
  typeText hx _ := h.text_eq hx
  nameText hx _ := h.text_eq hx
  parent hx _ := rel_getElem? (h.around hx) 0
  grandparent hx _ := rel_getElem? (h.around hx) 1

theorem declarations : List.Forall₂ (DeclarationRel h.correspondence (SameAddress t t'))
    (Scope.collect t).declarations (Scope.collect t').declarations := by
  refine List.rel_flatMap (h.nodes (.root t t')) fun x x' hx => ?_
  exact h.siteRelation.ofNode hx.1 hx.2

/-- The owners of declarations can be told apart in both units. -/
theorem alone : ∀ d ∈ (Scope.collect t).declarations, h.correspondence.Alone d.owner := by
  intro d hd a' b b' ha hb
  obtain ⟨d', hd', hrel⟩ := exists_left_of_forall₂ h.declarations.flip hd
  have hone := h.formatted.owners d hd
  have hone' := h.formatted'.owners d' hd'
  obtain ⟨z, z', ⟨p, hz, hz'⟩, hznode, hzspan, hzspan'⟩ := hrel.owner
  obtain ⟨x, x', ⟨q, hx, hx'⟩, hxnode, hxspan, rfl⟩ := ha
  obtain ⟨y, y', ⟨r, hy, hy'⟩, hynode, rfl, rfl⟩ := hb
  -- The owner is the only node with its span, so its counterpart owns the same in the other unit.
  have hpq : p = q := Site.eq_of_span_eq h.formatted.toTidy hz hx hznode hxnode
    (hxspan.trans hzspan.symm) (hzspan ▸ hone)
  subst hpq
  rw [hz] at hx
  rw [hz'] at hx'
  cases hx
  cases hx'
  rw [← hzspan] at hone ⊢
  rw [← hzspan'] at hone'
  constructor
  · intro hspan
    have hpr := Site.eq_of_span_eq h.formatted.toTidy hz hy hznode hynode hspan.symm hone
    subst hpr
    rw [hz'] at hy'
    cases hy'
    rfl
  · intro hspan
    have hpr := Site.eq_of_span_eq h.formatted'.toTidy hz' hy'
      ((h.isNode_eq ⟨p, hz, hz'⟩).trans hznode) ((h.isNode_eq ⟨r, hy, hy'⟩).trans hynode) hspan.symm
      hone'
    subst hpr
    rw [hz] at hy
    cases hy
    rfl

/-! ## Answers -/

theorem arguments {x x' : Site} (hx : SameAddress t t' x x') :
    List.Forall₂ (SameAddress t t') (Call.arguments x) (Call.arguments x') := by
  have hlist : Option.Rel (SameAddress t t') (Call.argumentList? x) (Call.argumentList? x') := by
    rw [Call.argumentList?, Call.argumentList?, filter_children_eq x rfl, filter_children_eq x' rfl]
    refine rel_getLast? (forall₂_filter ?_ (h.parts hx))
    intro y y' hy
    exact h.isNodeOf_eq hy _
  unfold Call.arguments
  rcases Rel.cases hlist with ⟨hl, hl'⟩ | ⟨list, list', hl, hl', hrel⟩ <;> rw [hl, hl']
  · exact .nil
  · simp only [Call.argumentsOf_eq]
    refine forall₂_filter ?_ (h.parts hrel)
    intro y y' hy
    rw [Call.isArgument, Call.isArgument, isSignificant, isSignificant, h.siteRelation.kind hy]

theorem simulation (table : TypeTable) :
    Simulation h.correspondence (SameAddress t t') (fun _ => False) (Resolver.ofTree table t)
      (Resolver.ofTree table t') where
  toSiteRelation := h.siteRelation
  table := rfl
  resolve := by
    refine Resolver.resolve?_of_heads fun head => ?_
    rw [Resolver.resolveHead?_ofTree, Resolver.resolveHead?_ofTree, h.header_eq]
  declarations := h.declarations
  owners := h.alone
  unknown hfalse := hfalse.elim
  argumentCount hx _ := (h.arguments hx).length_eq.symm
  numberText hx _ := h.text_eq hx
  spelled := by
    intro x x' i hx _
    rcases Rel.cases (rel_getElem? (h.parts hx) i) with ⟨hy, hy'⟩ | ⟨y, y', hy, hy', hrel⟩ <;>
      rw [hy, hy']
    rw [Option.map_some, Option.map_some, h.text_eq hrel]
  reference hx _ := .inl (by rw [h.text_eq hx])

/-- Calls at the same address are dispatched on the same type. -/
theorem ownerOf?_eq (table : TypeTable) {x x' : Site} (hx : SameAddress t t' x x')
    (hcall : kind x = .methodInvocation) :
    (Resolver.ofTree table t').ownerOf? x' = (Resolver.ofTree table t).ownerOf? x := by
  have hne : kind x ≠ .argumentList := by
    rw [hcall]
    decide
  rcases (h.simulation table).ownerOf?_alike hx hne with heq | ⟨hnone, hnone'⟩
  · exact heq
  · rw [Option.eq_none_iff_forall_not_mem.mpr hnone, Option.eq_none_iff_forall_not_mem.mpr hnone']

/-- The types that are written with their package are the same. -/
theorem qualifiedReferences_eq :
    (Scope.collect t').qualifiedReferences = (Scope.collect t).qualifiedReferences := by
  have hreferences : (Site.root t).nodes.filterMap qualifiedReference? =
      (Site.root t').nodes.filterMap qualifiedReference? := by
    refine filterMap_eq_of_forall₂ (fun x x' hx => ?_) (h.nodes (.root t t'))
    have hparent : x'.parentKind? = x.parentKind? := by
      rw [Site.parentKind?, Site.parentKind?]
      rcases forall₂_cases (h.around hx.1) with ⟨ha, ha'⟩ | ⟨a, _, a', _, ha, ha', hspans, -⟩ <;>
        rw [ha, ha']
      exact congrArg some (h.correspondence.spans_kind hspans)
    rw [qualifiedReference?, qualifiedReference?, h.siteRelation.kind hx.1, hparent, h.text_eq hx.1]
  exact congrArg List.eraseDups hreferences.symm

theorem mem_declaredTypes {written : String} (hw : written ∈ (Scope.collect t).declaredTypes) :
    written ∈ (Scope.collect t').declaredTypes := by
  rw [Scope.mem_declaredTypes_iff] at hw ⊢
  obtain ⟨d, hd, hbinding⟩ := hw
  obtain ⟨d', hd', hrel⟩ := exists_left_of_forall₂ h.declarations.flip hd
  refine ⟨d', hd', ?_⟩
  have hbindings := rel_binding? h.declarations h.alone hrel.owner d.name
  rw [hrel.name]
  rcases Rel.cases hbindings with ⟨hb, hb'⟩ | ⟨b, b', hb, hb', hsame⟩
  · rw [hb] at hbinding
    cases hbinding
  · rw [hb, Option.map_some] at hbinding
    have hdeclared := hsame.declared
    rw [Option.some.inj hbinding] at hdeclared
    rw [hb', Option.map_some]
    generalize b'.declared = declared at hdeclared
    cases hdeclared
    rfl

/-- Declarations have types of a pattern in both units or in none. -/
theorem matchesDeclaration_eq (g : Gate) (table : TypeTable) :
    g.matchesDeclaration (Scope.collect t') (Resolver.ofTree table t') =
      g.matchesDeclaration (Scope.collect t) (Resolver.ofTree table t) := by
  have hresolve := (h.simulation table).resolve
  rw [Bool.eq_iff_iff, Gate.matchesDeclaration, Gate.matchesDeclaration, List.any_eq_true,
    List.any_eq_true]
  simp only [List.mem_filterMap, Resolver.typeResolver_resolve?, hresolve]
  constructor
  · rintro ⟨type, ⟨written, hwritten, htype⟩, hmatch⟩
    exact ⟨type, ⟨written, h.symm.mem_declaredTypes hwritten, htype⟩, hmatch⟩
  · rintro ⟨type, ⟨written, hwritten, htype⟩, hmatch⟩
    exact ⟨type, ⟨written, h.mem_declaredTypes hwritten, htype⟩, hmatch⟩

theorem isPresent_eq (g : Gate) (table : TypeTable) :
    g.isPresent (Resolver.ofTree table t') = g.isPresent (Resolver.ofTree table t) := by
  have hunplaced (i : ImportDecl) : g.matchesImport i.unplaced = g.matchesImport i := by
    simp only [Gate.matchesImport, ImportDecl.unplaced]
    rfl
  have himports : t'.imports.any g.matchesImport = t.imports.any g.matchesImport := by
    rw [any_imports hunplaced, any_imports hunplaced, h.header_eq]
  have hdeclaration := h.matchesDeclaration_eq g table
  change (t'.imports.any g.matchesImport ||
      (Scope.collect t').qualifiedReferences.any g.pattern.matchesType ||
      (g.includeImplicit && g.matchesDeclaration (Scope.collect t') (Resolver.ofTree table t'))) =
    (t.imports.any g.matchesImport ||
      (Scope.collect t).qualifiedReferences.any g.pattern.matchesType ||
      (g.includeImplicit && g.matchesDeclaration (Scope.collect t) (Resolver.ofTree table t)))
  rw [himports, h.qualifiedReferences_eq, hdeclaration]

end Reformatted

/-! ## Runs -/

theorem Rule.skipped_run (rule : Rule) (table : TypeTable) (u : JavaUnit) :
    (rule.run table u).skipped =
      if u.hasErrors then some .parseErrors
      else if !rule.gate.isPresent (Resolver.ofTree table u.tree) then some .preconditionAbsent
      else if rule.template.imports.any (conflicts u.tree) then some .importConflict
      else none := by
  unfold Rule.run Rule.runWith
  dsimp only
  rw [← Gate.isPresent]
  split
  · rfl
  · split
    · rfl
    · split
      · rfl
      · exact Outcome.skipped_ofWalk u _ _

/-- Whitespace and comments do not matter: a recipe leaves both units alone for the same reason or
none of them, and each call has the same owner, arguments of the same types and the same match as the
call in its place in the other unit. -/
theorem Recipe.alike_of_reformatted (recipe : Recipe) {u u' : JavaUnit} (hsound : u.hasErrors = false)
    (hsound' : u'.hasErrors = false) (h : Reformatted u.tree u'.tree) :
    let r := Resolver.ofTree recipe.table u.tree
    let r' := Resolver.ofTree recipe.table u'.tree
    recipe.rule.gate.isPresent r' = recipe.rule.gate.isPresent r ∧
      (∀ symbol, conflicts u'.tree symbol = conflicts u.tree symbol) ∧
      (recipe.run u').skipped = (recipe.run u).skipped ∧
      List.Forall₂ (fun call call' => r'.ownerOf? call' = r.ownerOf? call ∧
        (Call.arguments call').map r'.typeOf? = (Call.arguments call).map r.typeOf? ∧
        recipe.rule.matcher.find? r' call' = recipe.rule.matcher.find? r call)
        u.tree.calls u'.tree.calls := by
  intro r r'
  have hs := h.simulation recipe.table
  have hconflicts : conflicts u'.tree = conflicts u.tree := funext h.conflicts_eq
  refine ⟨h.isPresent_eq _ _, h.conflicts_eq, ?_, ?_⟩
  · rw [Recipe.run, Recipe.run, Rule.skipped_run, Rule.skipped_run, hsound, hsound', h.isPresent_eq,
      hconflicts]
  · refine h.calls.imp ?_
    rintro x x' ⟨hx, hkind⟩
    have harguments := h.arguments hx
    refine ⟨h.ownerOf?_eq _ hx hkind, ?_, ?_⟩
    · refine (map_eq_of_forall₂ (fun y y' _ hy => ?_) harguments).symm
      exact (hs.typeOf?_eq hy).symm
    · refine hs.find?_eq (fun _ _ => not_false) hx ?_ harguments
      rw [hkind]
      decide

namespace UseTimeout

/-- A unit in as little space as possible. -/
def denseSource : String :=
  "import org.apache.hc.core5.http.io.SocketConfig;" ++
    "class A\x7bvoid f(int t)\x7bvar c=SocketConfig.custom();c.setSoTimeout(t);\x7d\x7d"

/-- The same unit in several lines, with comments. -/
def airySource : String :=
  "import org.apache.hc.core5.http.io.SocketConfig;\n" ++
    "class A \x7b\n  void f(int t) \x7b\n    var c = /* plain */ SocketConfig.custom();\n" ++
    "    c.setSoTimeout( t ); // milliseconds\n  \x7d\n\x7d\n"

/-- The second call of both units is to be migrated: the variable that it is made on has the type of
the first call. -/
theorem alike_of_reformatted_airy :
    ∃ u u', JavaUnit.parse denseSource = .ok u ∧ JavaUnit.parse airySource = .ok u' ∧
      Reformatted u.tree u'.tree ∧ u'.tree ≠ u.tree ∧
      u.tree.calls.map (rule.matcher.find? (Resolver.ofTree HttpClient5.table u.tree)) =
        [none, some (setter "org.apache.hc.core5.http.io.SocketConfig.Builder" "setSoTimeout")] ∧
      u'.tree.calls.map (rule.matcher.find? (Resolver.ofTree HttpClient5.table u'.tree)) =
        [none, some (setter "org.apache.hc.core5.http.io.SocketConfig.Builder" "setSoTimeout")] := by
  have hcheck : (JavaUnit.parse denseSource).toOption.any (fun u =>
      (JavaUnit.parse airySource).toOption.any fun u' =>
        decide ((u.hasErrors = false ∧ u'.hasErrors = false ∧ u.tree.Formatted ∧ u'.tree.Formatted ∧
          u'.tree.stripped = u.tree.stripped ∧ u'.tree ≠ u.tree) ∧
          u.tree.calls.map (rule.matcher.find? (Resolver.ofTree HttpClient5.table u.tree)) = [none,
            some (setter "org.apache.hc.core5.http.io.SocketConfig.Builder" "setSoTimeout")])) =
      true := by
    simp only [JavaUnit.parse_eq]
    decide +kernel
  obtain ⟨u, hparse, hcheck⟩ := exists_ok_of_any hcheck
  obtain ⟨u', hparse', hfacts⟩ := exists_ok_of_any hcheck
  obtain ⟨⟨hsound, hsound', hformatted, hformatted', hstripped, hne⟩, hmatches⟩ :=
    of_decide_eq_true hfacts
  have hreformatted : Reformatted u.tree u'.tree := ⟨hformatted, hformatted', hstripped⟩
  have halike := (recipe HttpClient5.table).alike_of_reformatted hsound hsound' hreformatted
  refine ⟨u, u', hparse, hparse', hreformatted, hne, hmatches, ?_⟩
  rw [← hmatches]
  exact (map_eq_of_forall₂ (fun call call' _ hcall => hcall.2.2.symm) halike.2.2.2).symm

end UseTimeout

end CallMigration
