import CallMigration.Proofs.Evaluation
import CallMigration.Proofs.Flush
import CallMigration.Proofs.Placement

/-!
# What a flush leaves in place

A flush puts elements between those of a unit and takes none away. Each of them is there for one of the
added imports, as its declaration or as the whitespace that goes with it, so without them the unit is
what it was. And wherever the package stands in front of the imports and these in front of everything
else, they still do.

* `Traced` : the elements of a unit with what they were added for.
* `addImports_traced` : the elements of a unit with further imports.
* `Tree.Arranged` : a package, imports and everything else, in this order.
* `arranged_insertImport` : one more import keeps the order.
* `ImportRequests.flush_additive` : a flush adds imports and keeps the order.
-/

namespace CallMigration

open Element

/-! ## Elements with what they were added for -/

/-- Elements, each with the type for whose import it was added, if it was added. -/
abbrev Traced := List (Tree × Option TypeName)

namespace Traced

def elements (ts : Traced) : List Tree :=
  ts.map Prod.fst

/-- The elements without those that were added. -/
def kept (ts : Traced) : List Tree :=
  (ts.filter fun x => x.2.isNone).map Prod.fst

/-- The elements that were added for the import of a type. -/
def addedFor (ts : Traced) (symbol : TypeName) : List Tree :=
  (ts.filter fun x => x.2 == some symbol).map Prod.fst

theorem kept_append (as bs : Traced) : kept (as ++ bs) = kept as ++ kept bs := by
  rw [kept, List.filter_append, List.map_append]
  rfl

theorem addedFor_append (as bs : Traced) (symbol : TypeName) :
    addedFor (as ++ bs) symbol = addedFor as symbol ++ addedFor bs symbol := by
  rw [addedFor, List.filter_append, List.map_append]
  rfl

/-- Elements that nothing was added to. -/
def untouched (ts : List Tree) : Traced :=
  ts.map fun t => (t, none)

theorem elements_untouched (ts : List Tree) : (untouched ts).elements = ts := by
  simp [elements, untouched, Function.comp_def]

theorem kept_untouched (ts : List Tree) : (untouched ts).kept = ts := by
  simp [kept, untouched, List.filter_map, Function.comp_def]

theorem addedFor_untouched (ts : List Tree) (symbol : TypeName) :
    (untouched ts).addedFor symbol = [] := by
  simp [addedFor, untouched]

/-- Elements that were added for the import of a type. -/
def forImport (symbol : TypeName) (ts : List Tree) : Traced :=
  ts.map fun t => (t, some symbol)

theorem kept_forImport (symbol : TypeName) (ts : List Tree) : (forImport symbol ts).kept = [] := by
  simp [kept, forImport]

theorem addedFor_forImport (symbol other : TypeName) (ts : List Tree) :
    (forImport symbol ts).addedFor other = if symbol = other then ts else [] := by
  by_cases h : symbol = other <;> simp [addedFor, forImport, List.filter_map, Function.comp_def, h]

/-- What was added for the import of a type: its declaration, and one token of whitespace in front of it
or behind it. -/
def AddsImport (ts : Traced) (symbol : TypeName) : Prop :=
  ∃ blank ∈ ["\n", "\n\n"], ts.addedFor symbol = [importDeclaration symbol, space blank] ∨
    ts.addedFor symbol = [space blank, importDeclaration symbol]

end Traced

open Traced

theorem Placed.new_eq {t : Tree} {symbol : TypeName} {pre new post : List Tree}
    (h : Placed t symbol pre new post) :
    ∃ blank ∈ ["\n", "\n\n"], new = [importDeclaration symbol, space blank] ∨
      new = [space blank, importDeclaration symbol] := by
  cases h with
  | above => exact ⟨_, by decide, .inl rfl⟩
  | below => exact ⟨_, by decide, .inr rfl⟩
  | aboveStatic => exact ⟨_, by decide, .inl rfl⟩
  | belowPackage => exact ⟨_, by decide, .inr rfl⟩
  | onTop => exact ⟨_, by decide, .inl rfl⟩
  | atEnd => exact ⟨_, by decide, .inl rfl⟩

/-- One more import, among elements of which none is there for it. -/
theorem insertImport_traced {t : Tree} {symbol : TypeName} {ts : Traced}
    (hts : ts.elements = t.children) (hnew : ts.addedFor symbol = []) :
    ∃ ts' : Traced, ts'.elements = (insertImport t symbol).children ∧ ts'.kept = ts.kept ∧
      ts'.AddsImport symbol ∧ ∀ other ≠ symbol, ts'.addedFor other = ts.addedFor other := by
  obtain ⟨pre, new, post, hchildren, hinsert, hplaced⟩ := insertImport_placed t symbol
  obtain ⟨before, after, rfl, hbefore, hafter⟩ := List.map_eq_append_iff.mp (hts.trans hchildren)
  rw [addedFor_append, List.append_eq_nil_iff] at hnew
  refine ⟨before ++ forImport symbol new ++ after, ?_, ?_, ?_, fun other hother => ?_⟩
  · rw [hinsert, Tree.children, ← hbefore, ← hafter]
    simp [elements, forImport, Function.comp_def]
  · rw [kept_append, kept_append, kept_append, kept_forImport, List.append_nil]
  · obtain ⟨blank, hblank, hnew'⟩ := hplaced.new_eq
    refine ⟨blank, hblank, ?_⟩
    rw [addedFor_append, addedFor_append, addedFor_forImport, if_pos rfl, hnew.1, hnew.2,
      List.nil_append, List.append_nil]
    exact hnew'
  · rw [addedFor_append, addedFor_append, addedFor_append, addedFor_forImport,
      if_neg (Ne.symm hother), List.append_nil]

/-- Further imports, among elements of which none is there for them. -/
theorem addImports_traced {symbols : List TypeName} (hdistinct : symbols.Nodup) {t : Tree}
    {ts : Traced} (hts : ts.elements = t.children) (hnew : ∀ s ∈ symbols, ts.addedFor s = []) :
    ∃ ts' : Traced, ts'.elements = (addImports t symbols).1.children ∧ ts'.kept = ts.kept ∧
      (∀ s ∈ (addImports t symbols).2, ts'.AddsImport s) ∧
      ∀ s ∉ (addImports t symbols).2, ts'.addedFor s = ts.addedFor s := by
  induction symbols generalizing t ts with
  | nil => exact ⟨ts, hts, rfl, nofun, fun _ _ => rfl⟩
  | cons symbol symbols ih =>
    obtain ⟨hfresh, hdistinct⟩ := List.nodup_cons.mp hdistinct
    obtain ⟨hfirst, hrest⟩ := List.forall_mem_cons.mp hnew
    rw [addImports]
    split
    next => exact ih hdistinct hts hrest
    next =>
      obtain ⟨ts₁, helements, hkept, hadds, hothers⟩ := insertImport_traced hts hfirst
      have hrest₁ : ∀ s ∈ symbols, ts₁.addedFor s = [] := by
        intro s hs
        rw [hothers s fun heq => hfresh (heq ▸ hs), hrest s hs]
      obtain ⟨ts₂, helements₂, hkept₂, hadds₂, hothers₂⟩ := ih hdistinct helements hrest₁
      have hpast : symbol ∉ (addImports (insertImport t symbol) symbols).2 :=
        fun hmem => hfresh ((addImports_sublist _ symbols).subset hmem)
      refine ⟨ts₂, helements₂, hkept₂.trans hkept, fun s hs => ?_, fun s hs => ?_⟩
      · rcases List.mem_cons.mp hs with rfl | hs
        · obtain ⟨blank, hblank, hadds⟩ := hadds
          rw [← hothers₂ s hpast] at hadds
          exact ⟨blank, hblank, hadds⟩
        · exact hadds₂ s hs
      · rw [List.mem_cons, not_or] at hs
        rw [hothers₂ s hs.2, hothers s hs.1]

/-! ## The order of a unit -/

/-- The elements of the unit that are neither whitespace nor comments are at most one package, then
imports, then elements of other kinds. -/
def Tree.Arranged (t : Tree) : Prop :=
  ∃ packages imports others, significantChildren t = packages ++ imports ++ others ∧
    packages.length ≤ 1 ∧ (∀ x ∈ packages, x.isPackage = true) ∧
    (∀ x ∈ imports, x.isImport = true) ∧
    ∀ x ∈ others, x.kind ≠ .packageDeclaration ∧ x.kind ≠ .importDeclaration

theorem Tree.kind_of_isImport {x : Tree} (h : x.isImport = true) : x.kind = .importDeclaration := by
  simpa using (Bool.and_eq_true_iff.mp h).2

theorem Tree.kind_of_isPackage {x : Tree} (h : x.isPackage = true) :
    x.kind = .packageDeclaration := by
  simpa using (Bool.and_eq_true_iff.mp h).2

theorem Tree.isTrivia_of_isImport {x : Tree} (h : x.isImport = true) : x.kind.isTrivia = false := by
  rw [kind_of_isImport h]
  rfl

theorem Tree.isTrivia_of_isPackage {x : Tree} (h : x.isPackage = true) : x.kind.isTrivia = false := by
  rw [kind_of_isPackage h]
  rfl

theorem isSignificant_of_not_trivia {x : Tree} (h : x.kind.isTrivia = false) :
    isSignificant x = true := by
  show (!x.kind.isTrivia) = true
  rw [h]
  rfl

theorem filter_isSignificant_eq_nil {ts : List Tree} (h : ∀ c ∈ ts, c.kind.isTrivia = true) :
    ts.filter isSignificant = [] := by
  rw [List.filter_eq_nil_iff]
  intro c hc
  simp [isSignificant, Element.kind, tree, h c hc]

theorem filter_isSignificant_concat {x : Tree} (h : isSignificant x = true) (pre : List Tree) :
    (pre ++ [x]).filter isSignificant = pre.filter isSignificant ++ [x] := by
  rw [List.filter_append, List.filter_cons_of_pos h]
  rfl

/-- What is added to the elements of a unit that are neither whitespace nor comments. -/
theorem significantChildren_insert (k : Kind) (pre post : List Tree) {new : List Tree}
    {symbol : TypeName} (hnew : ∃ blank ∈ ["\n", "\n\n"],
      new = [importDeclaration symbol, space blank] ∨ new = [space blank, importDeclaration symbol]) :
    significantChildren (Tree.node k (pre ++ new ++ post)) =
      pre.filter isSignificant ++ importDeclaration symbol :: post.filter isSignificant := by
  have hone : new.filter isSignificant = [importDeclaration symbol] := by
    obtain ⟨blank, -, rfl | rfl⟩ := hnew <;> rfl
  show (pre ++ new ++ post).filter isSignificant = _
  rw [List.filter_append, List.filter_append, hone, List.append_assoc, List.singleton_append]

section Parts

variable {packages imports others pre post : List Tree} {x : Tree}
  (hpackages : ∀ x ∈ packages, x.isPackage = true)
  (hothers : ∀ x ∈ others, x.kind ≠ .packageDeclaration ∧ x.kind ≠ .importDeclaration)

include hpackages hothers

theorem split_at_import (h : packages ++ imports ++ others = pre ++ x :: post)
    (hx : x.isImport = true) :
    ∃ before after, imports = before ++ x :: after ∧ pre = packages ++ before ∧
      post = after ++ others := by
  have hkind := Tree.kind_of_isImport hx
  have hpackage : x ∉ packages := by
    intro hmem
    have hother := Tree.kind_of_isPackage (hpackages x hmem)
    rw [hkind] at hother
    cases hother
  have hother : x ∉ others := fun hmem => (hothers x hmem).2 hkind
  rw [List.append_assoc] at h
  rcases List.append_eq_append_iff.mp h with ⟨before, hpre, hrest⟩ | ⟨inside, rfl, hrest⟩
  · rcases List.append_eq_append_iff.mp hrest with ⟨inside, -, rfl⟩ | ⟨after, himports, hpost⟩
    · exact absurd (List.mem_append_right _ List.mem_cons_self) hother
    · cases after with
      | nil =>
        rw [List.nil_append] at hpost
        exact absurd (hpost ▸ List.mem_cons_self) hother
      | cons y after =>
        cases hpost
        exact ⟨before, after, himports, hpre, rfl⟩
  · cases inside with
    | cons y inside =>
      cases hrest
      exact absurd (List.mem_append_right _ List.mem_cons_self) hpackage
    | nil =>
      cases imports with
      | nil =>
        rw [List.nil_append, List.nil_append] at hrest
        exact absurd (hrest ▸ List.mem_cons_self) hother
      | cons y after =>
        cases hrest
        exact ⟨[], after, rfl, by simp, rfl⟩

/-- Without imports, a package among the elements is the first of them. -/
theorem split_at_package (hone : packages.length ≤ 1) (h : packages ++ others = pre ++ x :: post)
    (hx : x.isPackage = true) : packages = [x] ∧ pre = [] ∧ post = others := by
  have hother : x ∉ others := fun hmem => (hothers x hmem).1 (Tree.kind_of_isPackage hx)
  match packages, hone with
  | [], _ =>
    rw [List.nil_append] at h
    exact absurd (h ▸ List.mem_append_right pre List.mem_cons_self) hother
  | [package], _ =>
    cases pre with
    | nil =>
      cases h
      exact ⟨rfl, rfl, rfl⟩
    | cons y pre =>
      cases h
      exact absurd (List.mem_append_right _ List.mem_cons_self) hother

end Parts

theorem arranged_of_beside {t declaration : Tree} (packages before after others : List Tree)
    (h : significantChildren t = packages ++ (before ++ declaration :: after) ++ others)
    (hone : packages.length ≤ 1) (hpackages : ∀ x ∈ packages, x.isPackage = true)
    (himports : ∀ x ∈ before ++ after, x.isImport = true) (hdeclaration : declaration.isImport = true)
    (hothers : ∀ x ∈ others, x.kind ≠ .packageDeclaration ∧ x.kind ≠ .importDeclaration) :
    t.Arranged := by
  refine ⟨packages, before ++ declaration :: after, others, h, hone, hpackages, fun x hx => ?_,
    hothers⟩
  rcases List.mem_append.mp hx with hx | hx
  · exact himports x (List.mem_append_left _ hx)
  · rcases List.mem_cons.mp hx with rfl | hx
    · exact hdeclaration
    · exact himports x (List.mem_append_right _ hx)

theorem arranged_of_alone {t declaration : Tree} (packages others : List Tree)
    (h : significantChildren t = packages ++ declaration :: others) (hone : packages.length ≤ 1)
    (hpackages : ∀ x ∈ packages, x.isPackage = true) (hdeclaration : declaration.isImport = true)
    (hothers : ∀ x ∈ others, x.kind ≠ .packageDeclaration ∧ x.kind ≠ .importDeclaration) :
    t.Arranged := by
  refine arranged_of_beside packages [] [] others ?_ hone hpackages (List.forall_mem_nil _) hdeclaration
    hothers
  rw [h, List.nil_append, List.append_assoc, List.singleton_append]

theorem Tree.isImport_of_imports_eq_nil {t : Tree} (h : t.imports = []) :
    ∀ x ∈ t.children, x.isImport = false := by
  intro x hx
  by_contra himport
  obtain ⟨p, hp⟩ := exists_mem_importsFrom hx (Bool.not_eq_false _ ▸ himport) 0
  rw [← Tree.imports, h] at hp
  cases hp

/-- What is true of some elements and false of all is true of none. -/
theorem eq_nil_of_forall {p : Tree → Bool} {ts all : List Tree} (hsub : ts ⊆ all)
    (htrue : ∀ x ∈ ts, p x = true) (hfalse : ∀ x ∈ all, p x = false) : ts = [] := by
  rw [List.eq_nil_iff_forall_not_mem]
  intro x hx
  have hboth := htrue x hx
  rw [hfalse x (hsub hx)] at hboth
  cases hboth

/-- **One more import keeps the order of a unit.** -/
theorem arranged_insertImport {t : Tree} (h : t.Arranged) (symbol : TypeName) :
    (insertImport t symbol).Arranged := by
  obtain ⟨packages, imports, others, hparts, hone, hpackages, himports, hothers⟩ := h
  obtain ⟨pre, new, post, hchildren, hinsert, hplaced⟩ := insertImport_placed t symbol
  have hsplit : packages ++ imports ++ others =
      pre.filter isSignificant ++ post.filter isSignificant := by
    rw [← hparts, ← List.filter_append, ← hchildren]
    rfl
  have hdeclaration : (importDeclaration symbol).isImport = true := rfl
  have hsub : packages ++ imports ⊆ t.children := by
    refine List.Subset.trans (List.subset_append_left _ others) ?_
    rw [← hparts]
    exact List.filter_sublist.subset
  have hnone (hnil : t.imports = []) : imports = [] :=
    eq_nil_of_forall (List.Subset.trans (List.subset_append_right _ _) hsub) himports
      (Tree.isImport_of_imports_eq_nil hnil)
  have hsignificant := significantChildren_insert t.kind pre post hplaced.new_eq
  rw [← hinsert] at hsignificant
  have habove {next : Tree} {rest : List Tree} (hpost : post = next :: rest)
      (hnext : next.isImport = true) : (insertImport t symbol).Arranged := by
    rw [hpost, List.filter_cons_of_pos
      (isSignificant_of_not_trivia (Tree.isTrivia_of_isImport hnext))] at hsplit hsignificant
    obtain ⟨before, after, rfl, hpre, hrest⟩ := split_at_import hpackages hothers hsplit hnext
    refine arranged_of_beside packages before (next :: after) others ?_ hone hpackages himports
      hdeclaration hothers
    rw [hsignificant, hpre, hrest]
    simp
  cases hplaced with
  | above isImport => exact habove rfl isImport
  | aboveStatic isImport => exact habove rfl isImport
  | @below pre last post isImport =>
    have hkept := filter_isSignificant_concat
      (isSignificant_of_not_trivia (Tree.isTrivia_of_isImport isImport)) pre
    rw [hkept, List.append_assoc _ [last], List.singleton_append] at hsignificant hsplit
    obtain ⟨before, after, rfl, hpre, hrest⟩ := split_at_import hpackages hothers hsplit isImport
    have himports' : ∀ x ∈ (before ++ [last]) ++ after, x.isImport = true := by simpa using himports
    refine arranged_of_beside packages (before ++ [last]) after others ?_ hone hpackages himports'
      hdeclaration hothers
    rw [hsignificant, hpre, hrest]
    simp
  | @belowPackage pre package post isPackage noImports =>
    have hkept := filter_isSignificant_concat
      (isSignificant_of_not_trivia (Tree.isTrivia_of_isPackage isPackage)) pre
    rw [hkept, List.append_assoc _ [package], List.singleton_append] at hsignificant hsplit
    rw [hnone noImports, List.append_nil] at hsplit
    obtain ⟨rfl, hpre, hrest⟩ := split_at_package hpackages hothers hone hsplit isPackage
    refine arranged_of_alone [package] others ?_ hone hpackages hdeclaration hothers
    rw [hsignificant, hpre, hrest]
    rfl
  | @onTop _ top post above _ _ noPackage noImports =>
    have hnoPackage : packages = [] :=
      eq_nil_of_forall (List.Subset.trans (List.subset_append_left _ _) hsub) hpackages noPackage
    rw [filter_isSignificant_eq_nil above, List.nil_append] at hsplit hsignificant
    rw [hnone noImports, hnoPackage, List.nil_append, List.nil_append] at hsplit
    refine arranged_of_alone [] others ?_ (Nat.zero_le 1) (List.forall_mem_nil _) hdeclaration
      hothers
    rw [hsignificant, ← hsplit]
    rfl
  | atEnd trivia noImports =>
    refine arranged_of_alone [] [] ?_ (Nat.zero_le 1) (List.forall_mem_nil _) hdeclaration
      (List.forall_mem_nil _)
    rw [hsignificant, filter_isSignificant_eq_nil trivia]
    rfl

/-! ## Flushing requests -/

theorem addImports_preserves {property : Tree → Prop} {symbols : List TypeName}
    (hstep : ∀ t, ∀ s ∈ symbols, property t → property (insertImport t s)) {t : Tree} :
    property t → property (addImports t symbols).1 := by
  intro h
  induction symbols generalizing t with
  | nil => exact h
  | cons symbol symbols ih =>
    obtain ⟨hfirst, hrest⟩ := List.forall_mem_cons.mp fun s hs t => hstep t s hs
    rw [addImports]
    split
    next => exact ih (fun t s hs => hrest s hs t) h
    next => exact ih (fun t s hs => hrest s hs t) (hfirst t h)

theorem nodup_requested (names : List TypeName) :
    (names.foldl ImportRequests.request .empty).pending.Nodup :=
  nodup_of_pairwise_lt (pairwise_requested names .nil)

/-- **A flush adds imports and keeps the order of a unit.** Whatever is requested, the elements of the
unit afterwards are those from before, in their order, and for each added type its import declaration
with one token of whitespace, and nothing else. If a package, imports and everything else stood in this
order, they still do. -/
theorem ImportRequests.flush_additive (u : JavaUnit) (names : List TypeName) :
    let out := (names.foldl ImportRequests.request .empty).flush u
    (∃ ts : Traced, ts.elements = out.1.tree.children ∧ ts.kept = u.tree.children ∧
      (∀ s ∈ out.2, ts.AddsImport s) ∧ ∀ s ∉ out.2, ts.addedFor s = []) ∧
    (u.tree.Arranged → out.1.tree.Arranged) := by
  intro out
  constructor
  · obtain ⟨ts, helements, hkept, hadds, hothers⟩ := addImports_traced (nodup_requested names)
      (elements_untouched u.tree.children) fun s _ => addedFor_untouched _ s
    refine ⟨ts, helements, hkept.trans (kept_untouched _), hadds, fun s hs => ?_⟩
    rw [hothers s hs, addedFor_untouched]
  · exact @addImports_preserves Tree.Arranged _ (fun _ s _ ht => arranged_insertImport ht s) _

/-- A package, imports of both kinds and a class, with comments between them. -/
def commentedSource : String :=
  "// header\npackage a;\n\nimport c.*; // wildcard\nimport static p.Q.r;\n/* of A */ class A \x7b \x7d\n"

theorem ImportRequests.flush_additive_commented :
    ∃ u, JavaUnit.parse commentedSource = .ok u ∧ u.tree.Arranged ∧
      ((mixedRequests.foldl request .empty).flush u).2 = [⟨"m.N.O"⟩, ⟨"z.Y"⟩] ∧
      ((mixedRequests.foldl request .empty).flush u).1.tree.Arranged := by
  have hcheck : (JavaUnit.parse commentedSource).toOption.any (fun u =>
      decide (((mixedRequests.foldl request .empty).flush u).2 = [⟨"m.N.O"⟩, ⟨"z.Y"⟩] ∧
        (∀ x ∈ (significantChildren u.tree).take 1, x.isPackage = true) ∧
        (∀ x ∈ ((significantChildren u.tree).drop 1).take 2, x.isImport = true) ∧
        ∀ x ∈ ((significantChildren u.tree).drop 1).drop 2,
          x.kind ≠ .packageDeclaration ∧ x.kind ≠ .importDeclaration)) = true := by
    rw [JavaUnit.parse_eq]
    decide +kernel
  obtain ⟨u, hparse, hfacts⟩ := exists_ok_of_any hcheck
  obtain ⟨hadded, hpackages, himports, hothers⟩ := of_decide_eq_true hfacts
  have harranged : u.tree.Arranged := by
    refine ⟨_, _, _, ?_, List.length_take_le _ _, hpackages, himports, hothers⟩
    rw [List.append_assoc, List.take_append_drop, List.take_append_drop]
  exact ⟨u, hparse, harranged, hadded, (flush_additive u mixedRequests).2 harranged⟩

end CallMigration
