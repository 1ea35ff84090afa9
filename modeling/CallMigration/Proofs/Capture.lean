import CallMigration.Proofs.Evaluation
import CallMigration.Proofs.Names
import CallMigration.Proofs.Requests
import CallMigration.Proofs.Slots

/-!
# Names before and after a run

An added import enters at the top of the order in which names are looked up. So a name whose first
segment is the simple name of an added import means that import afterwards, whatever it meant before,
and every other name means what it meant before. Where no import is added, a required type has to be
what its simple name means already.

* `Recipe.resolve?_after_run` : the meaning of any written type after a run.
* `Recipe.required_resolves_iff` : when an import that the template requires is what its name means.
* `UseTimeout.wildcard_receiver_changes`, `UseTimeout.packaged_timeout_captured` : units in which a
  name is captured.
-/

namespace CallMigration

/-! ## Added imports -/

def ImportDecl.names (i : ImportDecl) (symbol : TypeName) : Bool :=
  !i.isStatic && !i.isWildcard && i.path == symbol.text

theorem ImportDecl.simpleName?_of_names {i : ImportDecl} {symbol : TypeName}
    (h : i.names symbol = true) : i.simpleName? = some symbol.simpleName := by
  obtain ⟨path, isStatic, isWildcard, position⟩ := i
  simp only [names, Bool.and_eq_true, Bool.not_eq_true', beq_iff_eq] at h
  obtain ⟨⟨-, rfl⟩, rfl⟩ := h
  exact simpleName?_single symbol isStatic position

theorem mem_header {t : Tree} {i : ImportDecl} (h : i ∈ t.header.2) :
    ∃ j ∈ t.imports, i = j.unplaced := by
  rw [header_imports] at h
  obtain ⟨j, hj, rfl⟩ := List.mem_map.mp h
  exact ⟨j, hj, rfl⟩

theorem any_header (t : Tree) (symbol : TypeName) :
    (t.header.2.any fun i => i.names symbol) = t.imports.any fun i => i.names symbol :=
  (any_imports (fun _ => rfl) t).symm

/-- Without a clash, a single import with the simple name of a type is one of that type. -/
theorem path_of_conflicts {t : Tree} {symbol : TypeName} (h : conflicts t symbol = false)
    {i : ImportDecl} (hi : i ∈ t.header.2) (hstatic : i.isStatic = false)
    (hname : i.simpleName? = some symbol.simpleName) : i.path = symbol.text := by
  rw [conflicts, Bool.or_eq_false_iff, List.any_eq_false] at h
  obtain ⟨j, hj, rfl⟩ := mem_header hi
  by_contra hother
  refine h.1 j hj ?_
  change (!j.unplaced.isStatic && j.unplaced.simpleName? == some symbol.simpleName &&
    j.unplaced.path != symbol.text) = true
  simp [hstatic, hname, hother]

/-- Without a clash, only an import of the type itself gives a meaning to its simple name. -/
theorem imported?_of_conflicts {t : Tree} {symbol : TypeName} (herased : symbol.Erased)
    (h : conflicts t symbol = false) :
    imported? t.header.2 symbol.simpleName =
      if t.header.2.any fun i => i.names symbol then some symbol else none := by
  rw [imported?]
  cases hfind : t.header.2.find? fun i => !i.isStatic && i.simpleName? == some symbol.simpleName with
  | some i =>
    have hi := List.find?_some hfind
    simp only [Bool.and_eq_true, Bool.not_eq_true', beq_iff_eq] at hi
    obtain ⟨hstatic, hname⟩ := hi
    have hpath : i.path = symbol.text :=
      path_of_conflicts h (List.mem_of_find?_eq_some hfind) hstatic hname
    have hsingle : i.isWildcard = false := by
      by_contra hwild
      rw [ImportDecl.simpleName?, if_pos (by simpa using hwild)] at hname
      cases hname
    have hany : (t.header.2.any fun i => i.names symbol) = true :=
      List.any_eq_true.mpr ⟨i, List.mem_of_find?_eq_some hfind, by
        simp [ImportDecl.names, hstatic, hsingle, hpath]⟩
    rw [if_pos hany, Option.map_some, hpath, TypeName.ofWritten_text herased]
  | none =>
    rw [if_neg, Option.map_none]
    intro hany
    obtain ⟨i, hi, hnames⟩ := List.any_eq_true.mp hany
    have hno := List.find?_eq_none.mp hfind i hi
    have hstatic : i.isStatic = false := by
      simp only [ImportDecl.names, Bool.and_eq_true, Bool.not_eq_true'] at hnames
      exact hnames.1.1
    simp [hstatic, ImportDecl.simpleName?_of_names hnames] at hno

theorem isCovered_of_names {t : Tree} {symbol : TypeName}
    (h : (t.header.2.any fun i => i.names symbol) = true) : isCovered t symbol = true := by
  obtain ⟨i, hi, hnames⟩ := List.any_eq_true.mp h
  simp only [ImportDecl.names, Bool.and_eq_true, Bool.not_eq_true', beq_iff_eq] at hnames
  rw [isCovered_eq, coveredBy, Bool.or_eq_true, List.any_eq_true]
  refine .inr ⟨i, List.mem_filter.mpr ⟨hi, by simp [hnames]⟩, ?_⟩
  simp [hnames]

/-- A type that the unit does not cover and that does not clash has no import for its simple name. -/
theorem imported?_of_open {t : Tree} {symbol : TypeName} (herased : symbol.Erased)
    (h : conflicts t symbol = false) (hopen : isCovered t symbol = false) :
    imported? t.header.2 symbol.simpleName = none := by
  rw [imported?_of_conflicts herased h, if_neg]
  intro hany
  rw [isCovered_of_names hany] at hopen
  cases hopen

namespace Extends

variable {t t' : Tree} {added : List TypeName} (h : Extends t.header t'.header added)
  (table : TypeTable)

include h

theorem resolveHead?_other (head : String) (hnone : ∀ s ∈ added, s.simpleName ≠ head) :
    (Resolver.ofTree table t').resolveHead? head = (Resolver.ofTree table t).resolveHead? head := by
  rw [Resolver.resolveHead?_ofTree, Resolver.resolveHead?_ofTree, h.ambient?_eq]
  rcases h.single head with hsame | ⟨symbol, hsymbol, hname, -⟩
  · rw [hsame]
  · exact absurd hname (hnone symbol hsymbol)

theorem resolveHead?_added {symbol : TypeName} (hsymbol : symbol ∈ added)
    (hopen : imported? t.header.2 symbol.simpleName = none) :
    ∃ winner ∈ added, winner.simpleName = symbol.simpleName ∧
      (Resolver.ofTree table t').resolveHead? symbol.simpleName = some winner := by
  have hdecided := h.decided symbol hsymbol
  rcases h.single symbol.simpleName with hsame | ⟨winner, hwinner, hname, hmeans⟩
  · rw [hsame, hopen] at hdecided
    cases hdecided
  · refine ⟨winner, hwinner, hname, ?_⟩
    rw [Resolver.resolveHead?_ofTree, hmeans, Option.some_or]

end Extends

/-! ## Names that are written in the unit -/

namespace Recipe

variable {parts : RecipeParts} {recipe : Recipe} {u : JavaUnit}

theorem skipped_of_migrated (h : 0 < (recipe.run u).stats.callsMigrated) :
    (recipe.run u).skipped = none := by
  rw [run] at h ⊢
  rcases recipe.rule.run_cases recipe.table u with ⟨-, reason, hskip⟩ | ⟨-, hwalk⟩
  · rw [hskip] at h
    cases h
  · rw [hwalk, Outcome.skipped_ofWalk]

theorem conflicts_eq_false (hrun : (recipe.run u).skipped = none) {symbol : TypeName}
    (hsymbol : symbol ∈ recipe.rule.template.imports) : conflicts u.tree symbol = false := by
  have henters := (Rule.skipped_eq_none_iff recipe.rule recipe.table u).mp hrun
  simpa using List.any_eq_false.mp henters.imports symbol hsymbol

/-- The simple name of an added import means an added import. -/
theorem resolveHead?_after_run (hbuild : parts.build = .ok recipe) (hheader : u.tree.PlainHeader)
    (hrun : (recipe.run u).skipped = none) {symbol : TypeName}
    (hsymbol : symbol ∈ (recipe.run u).importsAdded) :
    ∃ winner ∈ (recipe.run u).importsAdded, winner.simpleName = symbol.simpleName ∧
      (Resolver.ofTree recipe.table (recipe.run u).unit.tree).resolveHead? symbol.simpleName =
        some winner := by
  have hbuilt := RecipeParts.built_of_build hbuild
  obtain ⟨hextends, hadded⟩ := recipe.rule.run_extends recipe.table hheader
    (fun s hs => hbuilt.importable hs) hrun
  obtain ⟨-, hmem, hopen⟩ := (hadded symbol).mp hsymbol
  exact hextends.resolveHead?_added recipe.table hsymbol
    (imported?_of_open (hbuilt.importable hmem).erased (conflicts_eq_false hrun hmem) hopen)

/-- **An added import decides the names that it bears, and no others.** A written type means the same
before and after a run, unless its first segment is the simple name of an added import. Then that
segment means an added import afterwards, so the type means the same exactly if the segment meant
that type before. -/
theorem resolve?_after_run (hbuild : parts.build = .ok recipe) (hheader : u.tree.PlainHeader)
    (hrun : (recipe.run u).skipped = none) (written : String) :
    let before := Resolver.ofTree recipe.table u.tree
    let after := Resolver.ofTree recipe.table (recipe.run u).unit.tree
    ((∀ symbol ∈ (recipe.run u).importsAdded, lookedUp? written ≠ some symbol.simpleName) →
      after.resolve? written = before.resolve? written) ∧
    ∀ symbol ∈ (recipe.run u).importsAdded, lookedUp? written = some symbol.simpleName →
      ∃ winner ∈ (recipe.run u).importsAdded, winner.simpleName = symbol.simpleName ∧
        after.resolveHead? symbol.simpleName = some winner ∧
        (after.resolve? written = before.resolve? written ↔
          before.resolveHead? symbol.simpleName = some winner) := by
  have hbuilt := RecipeParts.built_of_build hbuild
  obtain ⟨hextends, hadded⟩ := recipe.rule.run_extends recipe.table hheader
    (fun s hs => hbuilt.importable hs) hrun
  refine ⟨fun hnone => ?_, fun symbol hsymbol hlooked => ?_⟩
  · cases hlooked : lookedUp? written with
    | none => exact Resolver.resolve?_of_lookedUp?_eq_none hlooked
    | some head =>
      have hhead := hextends.resolveHead?_other recipe.table head fun s hs hname =>
        hnone s hs (by rw [hlooked, hname])
      rw [Resolver.resolve?_eq _ hlooked, Resolver.resolve?_eq _ hlooked]
      exact congrArg _ (congrArg _ hhead)
  · obtain ⟨winner, hwinner, hname, hmeans⟩ := resolveHead?_after_run hbuild hheader hrun hsymbol
    refine ⟨winner, hwinner, hname, hmeans, ?_⟩
    exact Resolver.resolve?_eq_iff hlooked (hbuilt.importable ((hadded winner).mp hwinner).2.1) hname
      hmeans

end Recipe

namespace UseTimeout

/-- A table with three types of the simple name `Timeout`. -/
def rivals : TypeTable :=
  ⟨[⟨⟨"com.acme.Timeout"⟩, [], []⟩,
    ⟨⟨"org.apache.hc.client5.http.config.RequestConfig"⟩, [],
      [⟨"custom", [], ⟨"org.apache.hc.client5.http.config.RequestConfig.Builder"⟩, true⟩]⟩,
    ⟨⟨"org.apache.hc.client5.http.config.RequestConfig.Builder"⟩, [],
      [⟨"setConnectTimeout", [int], ⟨"org.apache.hc.client5.http.config.RequestConfig.Builder"⟩,
        false⟩]⟩,
    ⟨timeout, [], [⟨"ofMilliseconds", [int], timeout, true⟩]⟩,
    ⟨⟨"p.Timeout"⟩, [], [⟨"of", [int], ⟨"p.Timeout"⟩, true⟩]⟩]⟩

/-- A source in which a wildcard import gives `Timeout` its meaning. -/
def wildcardSource : String :=
  "import org.apache.hc.client5.http.config.RequestConfig;\nimport p.*;\nclass A \x7b Object t = " ++
    "Timeout.of(1); Object f = RequestConfig.custom().setConnectTimeout(5); \x7d\n"

theorem exists_wildcardUnit : ∃ u, JavaUnit.parse wildcardSource = .ok u ∧ u.tree.PlainHeader ∧
    isCovered u.tree timeout = false ∧ ((recipe rivals).run u).stats.callsMigrated = 1 ∧
    ((recipe rivals).run u).importsAdded = [timeout] ∧
    (Resolver.ofTree rivals u.tree).resolve? "Timeout" = some ⟨"p.Timeout"⟩ ∧
    (Resolver.ofTree rivals ((recipe rivals).run u).unit.tree).resolve? "Timeout" =
      some timeout := by
  have hcheck : (JavaUnit.parse wildcardSource).toOption.any (fun u =>
      decide (u.tree.PlainHeader ∧ isCovered u.tree timeout = false ∧
        ((recipe rivals).run u).stats.callsMigrated = 1 ∧
        ((recipe rivals).run u).importsAdded = [timeout] ∧
        (Resolver.ofTree rivals u.tree).resolve? "Timeout" = some ⟨"p.Timeout"⟩ ∧
        (Resolver.ofTree rivals ((recipe rivals).run u).unit.tree).resolve? "Timeout" =
          some timeout)) = true := by
    rw [JavaUnit.parse_eq]
    decide +kernel
  obtain ⟨u, hparse, hfacts⟩ := exists_ok_of_any hcheck
  exact ⟨u, hparse, of_decide_eq_true hfacts⟩

/-- The receiver `Timeout` of a call in the unit means another type after the run. -/
theorem wildcard_receiver_changes :
    ∃ recipe u, useTimeoutOver rivals = .ok recipe ∧ JavaUnit.parse wildcardSource = .ok u ∧
      (recipe.run u).skipped = none ∧
      (Resolver.ofTree rivals u.tree).resolve? "Timeout" = some ⟨"p.Timeout"⟩ ∧
      (Resolver.ofTree rivals (recipe.run u).unit.tree).resolve? "Timeout" = some timeout := by
  obtain ⟨u, hparse, -, -, hmigrated, -, hbefore, hafter⟩ := exists_wildcardUnit
  refine ⟨_, u, useTimeoutOver_eq rivals, hparse, Recipe.skipped_of_migrated ?_, hbefore, hafter⟩
  rw [hmigrated]
  exact Nat.one_pos

/-- In the same unit, `RequestConfig.Builder` keeps its meaning, and `Timeout` does not. -/
theorem resolve?_after_run_wildcard :
    ∃ recipe u, useTimeoutOver rivals = .ok recipe ∧ JavaUnit.parse wildcardSource = .ok u ∧
      (Resolver.ofTree rivals (recipe.run u).unit.tree).resolve? "RequestConfig.Builder" =
        (Resolver.ofTree rivals u.tree).resolve? "RequestConfig.Builder" ∧
      ∃ winner ∈ (recipe.run u).importsAdded,
        (Resolver.ofTree rivals (recipe.run u).unit.tree).resolveHead? "Timeout" = some winner := by
  obtain ⟨u, hparse, hheader, -, hmigrated, hadded, -⟩ := exists_wildcardUnit
  have hrun : ((recipe rivals).run u).skipped = none :=
    Recipe.skipped_of_migrated (by rw [hmigrated]; exact Nat.one_pos)
  refine ⟨_, u, useTimeoutOver_eq rivals, hparse, ?_, ?_⟩
  · refine (Recipe.resolve?_after_run (useTimeoutOver_eq rivals) hheader hrun _).1 ?_
    rw [hadded]
    decide +kernel
  · have hmem : timeout ∈ ((recipe rivals).run u).importsAdded := by
      rw [hadded]
      exact List.mem_singleton_self timeout
    obtain ⟨winner, hwinner, -, hmeans, -⟩ := (Recipe.resolve?_after_run (useTimeoutOver_eq rivals)
      hheader hrun "Timeout").2 timeout hmem (by decide +kernel)
    exact ⟨winner, hwinner, hmeans⟩

end UseTimeout

/-! ## Names that the template requires -/

namespace Recipe

section Required

variable {parts : RecipeParts} {recipe : Recipe} {u : JavaUnit} {symbol : TypeName}
  (hbuild : parts.build = .ok recipe) (hheader : u.tree.PlainHeader)
  (hmigrated : 0 < (recipe.run u).stats.callsMigrated)
  (hsymbol : symbol ∈ recipe.rule.template.imports)

include hbuild hmigrated hsymbol

/-- An import of the type by its name and the unit's own package give its simple name the meaning. -/
theorem resolveHead?_of_own
    (hown : (u.tree.imports.any fun i => i.names symbol) = true ∨
      symbol.qualifier? = u.tree.packageName? ∧ recipe.table.contains symbol = true) :
    isCovered u.tree symbol = true ∧
      (Resolver.ofTree recipe.table u.tree).resolveHead? symbol.simpleName = some symbol := by
  have himportable := (RecipeParts.built_of_build hbuild).importable hsymbol
  rw [Resolver.resolveHead?_ofTree, imported?_of_conflicts himportable.erased
    (conflicts_eq_false (skipped_of_migrated hmigrated) hsymbol)]
  rcases hown with hany | ⟨hqualifier, hcontains⟩
  · rw [← any_header] at hany
    exact ⟨isCovered_of_names hany, by rw [if_pos hany, Option.some_or]⟩
  · obtain ⟨q, hq⟩ := himportable.exists_qualifier
    have hfound : recipe.table.findInPackage? q symbol.simpleName = some symbol := by
      rw [TypeTable.findInPackage?, ← TypeName.text_of_qualifier? hq,
        TypeName.ofWritten_text himportable.erased, if_pos hcontains]
    constructor
    · rw [isCovered, ← hqualifier, hq]
      simp
    · rw [ambient?, Tree.header, ← hqualifier, hq]
      simp only [Option.bind_some, hfound, Option.some_or]
      split <;> rfl

include hheader

/-- If no other required import has its simple name, that of an import means it if it was added, and
what it meant before if it was not. -/
theorem resolveHead?_required
    (honly : ∀ other ∈ recipe.rule.template.imports, other.simpleName = symbol.simpleName →
      other = symbol) :
    (Resolver.ofTree recipe.table (recipe.run u).unit.tree).resolveHead? symbol.simpleName =
      if isCovered u.tree symbol then
        (Resolver.ofTree recipe.table u.tree).resolveHead? symbol.simpleName
      else some symbol := by
  have hbuilt := RecipeParts.built_of_build hbuild
  have hrun := skipped_of_migrated hmigrated
  obtain ⟨hextends, hadded⟩ := recipe.rule.run_extends recipe.table hheader
    (fun s hs => hbuilt.importable hs) hrun
  split
  next hcovered =>
    refine hextends.resolveHead?_other recipe.table _ fun other hother hname => ?_
    obtain ⟨-, hmem, hopen⟩ := (hadded other).mp hother
    rw [honly other hmem hname, hcovered] at hopen
    cases hopen
  next hopen =>
    have hmem : symbol ∈ (recipe.run u).importsAdded :=
      (hadded symbol).mpr ⟨hmigrated, hsymbol, by simpa using hopen⟩
    obtain ⟨winner, hwinner, hname, hmeans⟩ := resolveHead?_after_run hbuild hheader hrun hmem
    rw [hmeans, honly winner ((hadded winner).mp hwinner).2.1 hname]

/-- **When a required import is what its simple name means.** The unit covers the type already and
reads its simple name as that type, or it does not cover the type and gets an import of it. An import
of the type by its name and the unit's own package always do, so the name can mean something else only
if a wildcard import or `java.lang` was taken to cover the type. -/
theorem required_resolves_iff
    (honly : ∀ other ∈ recipe.rule.template.imports, other.simpleName = symbol.simpleName →
      other = symbol) :
    let before := Resolver.ofTree recipe.table u.tree
    let after := Resolver.ofTree recipe.table (recipe.run u).unit.tree
    (after.resolve? symbol.simpleName = some symbol ↔
      (lookedUp? symbol.simpleName).isSome = true ∧
        (isCovered u.tree symbol = false ∨ before.resolve? symbol.simpleName = some symbol)) ∧
    ((lookedUp? symbol.simpleName).isSome = true →
      ((u.tree.imports.any fun i => i.names symbol) = true ∨
        symbol.qualifier? = u.tree.packageName? ∧ recipe.table.contains symbol = true) →
      after.resolve? symbol.simpleName = some symbol) := by
  have himportable := (RecipeParts.built_of_build hbuild).importable hsymbol
  have hrequired := resolveHead?_required hbuild hheader hmigrated hsymbol honly
  constructor
  · cases hlooked : lookedUp? symbol.simpleName with
    | none =>
      exact iff_of_false (himportable.resolve?_ne_of_lookedUp? _ hlooked) fun h => nomatch h.1
    | some head =>
      have hsome : (lookedUp? symbol.simpleName).isSome = true := by
        rw [hlooked]
        rfl
      rw [himportable.simple.resolve?_eq _ hsome, himportable.simple.resolve?_eq _ hsome,
        hrequired]
      cases isCovered u.tree symbol <;> simp
  · intro hsome hown
    obtain ⟨hcovered, hbefore⟩ := resolveHead?_of_own hbuild hmigrated hsymbol hown
    rw [himportable.simple.resolve?_eq _ hsome, hrequired, if_pos hcovered, hbefore]

end Required

end Recipe

namespace UseTimeout

/-- A source in whose package there is a `Timeout`, while a wildcard import names the package of the
required one. -/
def packagedSource : String :=
  "package com.acme;\nimport org.apache.hc.client5.http.config.RequestConfig;\n" ++
    "import org.apache.hc.core5.util.*;\n" ++
    "class A \x7b Object f = RequestConfig.custom().setConnectTimeout(5); \x7d\n"

/-- The inserted code says `Timeout` and means the type of the unit's package. -/
theorem packaged_timeout_captured :
    ∃ recipe u, useTimeoutOver rivals = .ok recipe ∧ JavaUnit.parse packagedSource = .ok u ∧
      (recipe.run u).stats.callsMigrated = 1 ∧ timeout ∈ recipe.rule.template.imports ∧
      recipe.table.contains timeout = true ∧
      (Resolver.ofTree recipe.table (recipe.run u).unit.tree).resolve? timeout.simpleName =
        some ⟨"com.acme.Timeout"⟩ := by
  have hcheck : (JavaUnit.parse packagedSource).toOption.any (fun u =>
      decide (((recipe rivals).run u).stats.callsMigrated = 1 ∧
        rivals.contains timeout = true ∧
        (Resolver.ofTree rivals ((recipe rivals).run u).unit.tree).resolve? timeout.simpleName =
          some ⟨"com.acme.Timeout"⟩)) = true := by
    rw [JavaUnit.parse_eq]
    decide +kernel
  obtain ⟨u, hparse, hfacts⟩ := exists_ok_of_any hcheck
  obtain ⟨hmigrated, hcontains, hafter⟩ := of_decide_eq_true hfacts
  exact ⟨_, u, useTimeoutOver_eq rivals, hparse, hmigrated, List.mem_singleton_self _, hcontains,
    hafter⟩

/-- In a unit that does not cover the required type, its simple name means it. -/
theorem required_resolves_iff_wildcard :
    ∃ recipe u, useTimeoutOver rivals = .ok recipe ∧ JavaUnit.parse wildcardSource = .ok u ∧
      isCovered u.tree timeout = false ∧
      (Resolver.ofTree rivals (recipe.run u).unit.tree).resolve? timeout.simpleName =
        some timeout := by
  obtain ⟨u, hparse, hheader, hopen, hmigrated, -⟩ := exists_wildcardUnit
  have hpos : 0 < ((recipe rivals).run u).stats.callsMigrated := by
    rw [hmigrated]
    exact Nat.one_pos
  refine ⟨_, u, useTimeoutOver_eq rivals, hparse, hopen, ?_⟩
  refine (Recipe.required_resolves_iff (useTimeoutOver_eq rivals) hheader hpos
    (List.mem_singleton_self timeout) fun other hother _ => List.mem_singleton.mp hother).1.mpr ?_
  exact ⟨by decide +kernel, .inl hopen⟩

end UseTimeout

end CallMigration
