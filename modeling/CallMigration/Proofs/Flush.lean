import CallMigration.Proofs.Capture
import CallMigration.Proofs.Evaluation
import CallMigration.Proofs.Tables

/-!
# Which imports a unit ends up with

Requested imports are kept in increasing order. A flush adds exactly those that the unit does not
cover, each as one single import among the ones that are there, and a second flush finds nothing left
to add. The added imports are checked against the unit before the run and not against each other, so a
run leaves two imports that clash exactly if it adds both of them.

* `pairwise_requested` : requests are kept in increasing order.
* `addImports_imports`, `isCovered_addImports` : the imports of a unit with further ones, and what
  they cover.
* `ImportRequests.flush_adds` : what a flush adds.
* `Tree.ClashFree`, `Recipe.clashFree_run_iff` : when a run leaves no imports that clash.
-/

namespace CallMigration

/-! ## The order of requests -/

theorem pairwise_insertName (name : TypeName) {names : List TypeName}
    (h : names.Pairwise (· < ·)) : (insertName name names).Pairwise (· < ·) := by
  induction names with
  | nil => simp [insertName]
  | cons n names ih =>
    obtain ⟨hn, hrest⟩ := List.pairwise_cons.mp h
    rw [insertName]
    split
    next => exact h
    next hne =>
      split
      next hlt =>
        refine List.pairwise_cons.mpr ⟨fun m hm => ?_, h⟩
        rcases List.mem_cons.mp hm with rfl | hm
        · exact hlt
        · exact String.lt_trans hlt (hn m hm)
      next hlt =>
        refine List.pairwise_cons.mpr ⟨fun m hm => ?_, ih hrest⟩
        rcases mem_insertName.mp hm with rfl | hm
        · exact TypeName.lt_of_not_lt hne hlt
        · exact hn m hm

theorem pairwise_requested (needed : List TypeName) {requests : ImportRequests}
    (h : requests.pending.Pairwise (· < ·)) :
    (needed.foldl ImportRequests.request requests).pending.Pairwise (· < ·) := by
  induction needed generalizing requests with
  | nil => exact h
  | cons name needed ih => exact ih (pairwise_insertName name h)

theorem nodup_of_pairwise_lt {names : List TypeName} (h : names.Pairwise (· < ·)) :
    names.Nodup := by
  refine h.imp ?_
  rintro a b hab rfl
  exact String.lt_irrefl _ hab

/-! ## Adding imports -/

def ImportDecl.single (symbol : TypeName) : ImportDecl :=
  ⟨symbol.text, false, false, 0⟩

theorem addImports_sublist (t : Tree) (symbols : List TypeName) :
    (addImports t symbols).2.Sublist symbols := by
  induction symbols generalizing t with
  | nil => exact List.Sublist.refl _
  | cons symbol symbols ih =>
    rw [addImports]
    split
    next => exact (ih t).cons symbol
    next => exact (ih _).cons_cons symbol

theorem addImports_of_covered {t : Tree} {symbols : List TypeName}
    (h : ∀ s ∈ symbols, isCovered t s = true) : addImports t symbols = (t, []) := by
  induction symbols with
  | nil => rfl
  | cons symbol symbols ih =>
    rw [addImports, if_pos (h symbol List.mem_cons_self)]
    exact ih fun s hs => h s (List.mem_cons_of_mem _ hs)

section Adding

variable {symbols : List TypeName} (hsymbols : ∀ s ∈ symbols, s.endsInStar = false)

include hsymbols

/-- The imports of a unit with further ones: those that were there in their order, and one for each
type that was added. -/
theorem addImports_imports (t : Tree) :
    t.header.2.Sublist (addImports t symbols).1.header.2 ∧
      (addImports t symbols).1.header.2.Perm
        (t.header.2 ++ (addImports t symbols).2.map ImportDecl.single) := by
  induction symbols generalizing t with
  | nil =>
    refine ⟨List.Sublist.refl _, ?_⟩
    simp [addImports]
  | cons symbol symbols ih =>
    have hrest : ∀ s ∈ symbols, s.endsInStar = false :=
      fun s hs => hsymbols s (List.mem_cons_of_mem _ hs)
    rw [addImports]
    split
    next => exact ih hrest t
    next =>
      obtain ⟨package, pre, post, hheader, hheader'⟩ :=
        exists_header_insertImport t (hsymbols symbol List.mem_cons_self)
      obtain ⟨hsublist, hperm⟩ := ih hrest (insertImport t symbol)
      rw [hheader'] at hsublist hperm
      rw [hheader]
      refine ⟨List.Sublist.trans ?_ hsublist, hperm.trans ?_⟩
      · exact (List.sublist_cons_self _ post).append_left pre
      · have hfirst : (pre ++ ⟨symbol.text, false, false, 0⟩ :: post).Perm
            (pre ++ post ++ [ImportDecl.single symbol]) := by
          rw [List.append_assoc]
          exact (List.perm_append_singleton _ _).symm.append_left pre
        refine (hfirst.append_right _).trans ?_
        rw [List.append_assoc]
        exact List.Perm.refl _

/-- A unit with further imports covers what it covered, and the types that were asked for. -/
theorem isCovered_addImports (t : Tree) (other : TypeName) :
    isCovered (addImports t symbols).1 other = true ↔ isCovered t other = true ∨ other ∈ symbols := by
  induction symbols generalizing t with
  | nil => simp [addImports]
  | cons symbol symbols ih =>
    have hrest : ∀ s ∈ symbols, s.endsInStar = false :=
      fun s hs => hsymbols s (List.mem_cons_of_mem _ hs)
    rw [addImports]
    split
    next hcovered =>
      rw [ih hrest t, List.mem_cons]
      constructor
      · exact Or.imp_right .inr
      · rintro (hother | rfl | hmem)
        · exact .inl hother
        · exact .inl hcovered
        · exact .inr hmem
    next =>
      have hname : symbol.text = other.text ↔ other = symbol :=
        ⟨fun htext => congrArg TypeName.mk htext.symm, fun heq => congrArg TypeName.text heq.symm⟩
      simp only
      rw [ih hrest, isCovered_insertImport t (hsymbols symbol List.mem_cons_self), Bool.or_eq_true,
        beq_iff_eq, hname, List.mem_cons, or_assoc]

/-- Exactly one of the imports names a type that was added. -/
theorem filter_names_addImports (hdistinct : symbols.Nodup) (t : Tree) {symbol : TypeName}
    (hsymbol : symbol ∈ (addImports t symbols).2) :
    ((addImports t symbols).1.header.2.filter fun i => i.names symbol) =
      [ImportDecl.single symbol] := by
  have hopen := ((mem_addImports_iff hsymbols t symbol).mp hsymbol).2
  have hold : (t.header.2.filter fun i => i.names symbol) = [] := by
    rw [List.filter_eq_nil_iff]
    intro i hi hnames
    rw [isCovered_of_names (List.any_eq_true.mpr ⟨i, hi, hnames⟩)] at hopen
    cases hopen
  have hnew : (((addImports t symbols).2.map ImportDecl.single).filter fun i => i.names symbol) =
      [ImportDecl.single symbol] := by
    have hnames : ((fun i : ImportDecl => i.names symbol) ∘ ImportDecl.single) =
        fun other => other == symbol := by
      funext other
      have htext : (other.text == symbol.text) = (other == symbol) := by
        rw [Bool.eq_iff_iff, beq_iff_eq, beq_iff_eq]
        exact ⟨fun h => congrArg TypeName.mk h, fun h => congrArg TypeName.text h⟩
      simpa [ImportDecl.names, ImportDecl.single] using htext
    have hone : (addImports t symbols).2.count symbol = 1 := by
      rw [(hdistinct.sublist (addImports_sublist t symbols)).count, if_pos hsymbol]
    rw [List.filter_map, hnames, List.filter_beq, hone]
    rfl
  have hperm := (addImports_imports hsymbols t).2.filter fun i => i.names symbol
  rw [List.filter_append, hold, hnew, List.nil_append] at hperm
  exact List.perm_singleton.mp hperm

end Adding

/-! ## Flushing requests -/

/-- **A flush adds what is missing, once.** Whatever types are requested, the unit covers all of them
afterwards. The types that are added are the requested ones that it did not cover, in increasing
order; the imports that were there stay in their order, and exactly one import of the unit names an
added type. A second flush of the same requests adds nothing and leaves the unit as it is. -/
theorem ImportRequests.flush_adds (u : JavaUnit) {names : List TypeName}
    (hnames : ∀ s ∈ names, s.Erased ∧ s.endsInStar = false) :
    let requests := names.foldl ImportRequests.request .empty
    let out := requests.flush u
    (∀ s ∈ names, isCovered out.1.tree s = true) ∧
    out.2.Pairwise (· < ·) ∧ (∀ s, s ∈ out.2 ↔ s ∈ names ∧ isCovered u.tree s = false) ∧
    (u.tree.imports.map ImportDecl.unplaced).Sublist (out.1.tree.imports.map ImportDecl.unplaced) ∧
    (out.1.tree.imports.map ImportDecl.unplaced).Perm
      (u.tree.imports.map ImportDecl.unplaced ++ out.2.map ImportDecl.single) ∧
    (∀ s ∈ out.2, ((out.1.tree.imports.filter fun i => i.names s).map fun i =>
      TypeName.ofWritten i.path) = [s]) ∧
    requests.flush out.1 = (out.1, []) := by
  intro requests out
  have hmem (s : TypeName) : s ∈ requests.pending ↔ s ∈ names := by
    rw [mem_requested]
    simp [ImportRequests.empty]
  have hpending : ∀ s ∈ requests.pending, s.endsInStar = false :=
    fun s hs => (hnames s ((hmem s).mp hs)).2
  have hordered : requests.pending.Pairwise (· < ·) := pairwise_requested names .nil
  have hcovered : ∀ s ∈ requests.pending, isCovered out.1.tree s = true :=
    fun s hs => (isCovered_addImports hpending u.tree s).mpr (.inr hs)
  have hadded (s : TypeName) : s ∈ out.2 ↔ s ∈ names ∧ isCovered u.tree s = false := by
    rw [← hmem]
    exact mem_addImports_iff hpending u.tree s
  obtain ⟨hsublist, hperm⟩ := addImports_imports hpending u.tree
  rw [header_imports, header_imports] at hsublist hperm
  refine ⟨fun s hs => hcovered s ((hmem s).mpr hs), ?_, hadded, hsublist, hperm, fun s hs => ?_, ?_⟩
  · exact hordered.sublist (addImports_sublist u.tree requests.pending)
  · have hone := filter_names_addImports hpending (nodup_of_pairwise_lt hordered) u.tree hs
    rw [header_imports, List.filter_map] at hone
    have hread := congrArg (List.map fun i => TypeName.ofWritten i.path) hone
    rw [List.map_map, List.map_singleton, ImportDecl.single,
      TypeName.ofWritten_text (hnames s ((hadded s).mp hs).1).1] at hread
    exact hread
  · show (out.1.withTree (addImports out.1.tree requests.pending).1,
      (addImports out.1.tree requests.pending).2) = (out.1, [])
    rw [addImports_of_covered hcovered]
    rfl

/-- A source in a package, with a static and a wildcard import. -/
def mixedSource : String :=
  "package a;\nimport static p.Q.r;\nimport c.*;\nclass A \x7b \x7d\n"

/-- Requests in no order, some of them twice and some of them covered. -/
def mixedRequests : List TypeName :=
  ["z.Y", "a.B", "c.D", "java.lang.String", "m.N$O", "m. N.O"].map .ofWritten

theorem ImportRequests.flush_adds_mixed :
    ∃ u, JavaUnit.parse mixedSource = .ok u ∧
      (((mixedRequests.foldl request .empty).flush u).2 = [⟨"m.N.O"⟩, ⟨"z.Y"⟩]) ∧
      (∀ s ∈ mixedRequests,
        isCovered ((mixedRequests.foldl request .empty).flush u).1.tree s = true) ∧
      (mixedRequests.foldl request .empty).flush
        ((mixedRequests.foldl request .empty).flush u).1 =
          (((mixedRequests.foldl request .empty).flush u).1, []) := by
  have hcheck : (JavaUnit.parse mixedSource).toOption.any (fun u =>
      decide (((mixedRequests.foldl request .empty).flush u).2 = [⟨"m.N.O"⟩, ⟨"z.Y"⟩])) = true := by
    rw [JavaUnit.parse_eq]
    decide +kernel
  obtain ⟨u, hparse, hadded⟩ := exists_ok_of_any hcheck
  have hnames : ∀ s ∈ mixedRequests, s.Erased ∧ s.endsInStar = false := by
    have hplain : ∀ s ∈ mixedRequests, s.endsInStar = false := by decide +kernel
    intro s hs
    obtain ⟨written, -, rfl⟩ := List.mem_map.mp hs
    exact ⟨TypeName.erased_ofWritten written, hplain _ hs⟩
  obtain ⟨hcovered, -, -, -, -, -, hagain⟩ := flush_adds u hnames
  exact ⟨u, hparse, of_decide_eq_true hadded, hcovered, hagain⟩

/-! ## Imports that clash -/

def ImportDecl.isSingle (i : ImportDecl) : Bool :=
  !i.isStatic && !i.isWildcard

/-- No two imports give one simple name to different types. -/
def Tree.ClashFree (t : Tree) : Prop :=
  ∀ i ∈ t.imports, ∀ j ∈ t.imports, i.isSingle = true → j.isSingle = true →
    i.simpleName? = j.simpleName? → i.path = j.path

instance (t : Tree) : Decidable t.ClashFree :=
  inferInstanceAs (Decidable (∀ i ∈ t.imports, ∀ j ∈ t.imports, i.isSingle = true →
    j.isSingle = true → i.simpleName? = j.simpleName? → i.path = j.path))

theorem clashFree_iff_header (t : Tree) :
    t.ClashFree ↔ ∀ i ∈ t.header.2, ∀ j ∈ t.header.2, i.isSingle = true → j.isSingle = true →
      i.simpleName? = j.simpleName? → i.path = j.path := by
  rw [header_imports, List.forall_mem_map]
  simp only [List.forall_mem_map]
  exact Iff.rfl

/-- Added imports clash with none that are there, so they have to differ among themselves. -/
theorem clashFree_addImports_iff {t : Tree} {symbols : List TypeName}
    (hsymbols : ∀ s ∈ symbols, s.endsInStar = false) (hclash : t.ClashFree)
    (hfits : ∀ s ∈ symbols, ∀ i ∈ t.header.2, i.isStatic = false →
      i.simpleName? = some s.simpleName → i.path = s.text) :
    (addImports t symbols).1.ClashFree ↔
      ∀ s ∈ (addImports t symbols).2, ∀ s' ∈ (addImports t symbols).2,
        s.simpleName = s'.simpleName → s = s' := by
  have hmem (i : ImportDecl) : i ∈ (addImports t symbols).1.header.2 ↔
      i ∈ t.header.2 ∨ ∃ s ∈ (addImports t symbols).2, ImportDecl.single s = i := by
    rw [(addImports_imports hsymbols t).2.mem_iff, List.mem_append, List.mem_map]
  have hname (s : TypeName) : (ImportDecl.single s).simpleName? = some s.simpleName :=
    simpleName?_single s false 0
  have hadded {s : TypeName} (hs : s ∈ (addImports t symbols).2) {i : ImportDecl}
      (hi : i ∈ t.header.2) (hsingle : i.isSingle = true) (hsame : i.simpleName? = some s.simpleName) :
      i.path = s.text := by
    rw [ImportDecl.isSingle, Bool.and_eq_true, Bool.not_eq_true'] at hsingle
    exact hfits s ((addImports_sublist t symbols).subset hs) i hi hsingle.1 hsame
  rw [clashFree_iff_header]
  rw [clashFree_iff_header] at hclash
  constructor
  · intro hfree s hs s' hs' hsame
    have hpath := hfree (.single s) ((hmem _).mpr (.inr ⟨s, hs, rfl⟩)) (.single s')
      ((hmem _).mpr (.inr ⟨s', hs', rfl⟩)) rfl rfl (by rw [hname, hname, hsame])
    exact congrArg TypeName.mk hpath
  · intro hdistinct i hi j hj hisingle hjsingle hsame
    rcases (hmem i).mp hi with hi | ⟨s, hs, rfl⟩ <;> rcases (hmem j).mp hj with hj | ⟨s', hs', rfl⟩
    · exact hclash i hi j hj hisingle hjsingle hsame
    · exact hadded hs' hi hisingle (by rw [hsame, hname])
    · exact (hadded hs hj hjsingle (by rw [← hsame, hname])).symm
    · rw [hname, hname] at hsame
      rw [hdistinct s hs s' hs' (Option.some.inj hsame)]

namespace Recipe

/-- **A run leaves imports that clash exactly if it adds two that do.** Each import that the template
requires is checked against the unit, so no import that was there is contradicted. Two of the required
imports are never checked against each other: if they share their simple name, the unit covers neither
and a call is migrated, both are added. Required imports with different simple names never clash. -/
theorem clashFree_run_iff {parts : RecipeParts} {recipe : Recipe} {u : JavaUnit}
    (hbuild : parts.build = .ok recipe) (hheader : u.tree.PlainHeader) (hclash : u.tree.ClashFree) :
    ((recipe.run u).unit.tree.ClashFree ↔
      (0 < (recipe.run u).stats.callsMigrated →
        ∀ s ∈ recipe.rule.template.imports, ∀ s' ∈ recipe.rule.template.imports,
          isCovered u.tree s = false → isCovered u.tree s' = false →
          s.simpleName = s'.simpleName → s = s')) ∧
    ((∀ s ∈ recipe.rule.template.imports, ∀ s' ∈ recipe.rule.template.imports,
      s.simpleName = s'.simpleName → s = s') → (recipe.run u).unit.tree.ClashFree) := by
  have hiff : (recipe.run u).unit.tree.ClashFree ↔
      (0 < (recipe.run u).stats.callsMigrated →
        ∀ s ∈ recipe.rule.template.imports, ∀ s' ∈ recipe.rule.template.imports,
          isCovered u.tree s = false → isCovered u.tree s' = false →
          s.simpleName = s'.simpleName → s = s') := by
    rcases recipe.rule.run_cases recipe.table u with ⟨-, reason, hskip⟩ | ⟨-, hwalk⟩
    · rw [run, hskip]
      exact iff_of_true hclash fun hpos => absurd hpos (Nat.lt_irrefl 0)
    · have hrun : (recipe.run u).skipped = none := by
        rw [run, hwalk, Outcome.skipped_ofWalk]
      have himportable : ∀ s ∈ recipe.rule.template.imports, s.Importable :=
        fun s hs => (RecipeParts.built_of_build hbuild).importable hs
      have hadded := (recipe.rule.run_extends recipe.table hheader himportable hrun).2
      obtain ⟨t, symbols, hsame, hadds, hsymbols⟩ := recipe.rule.run_adds recipe.table hheader hrun
      have hfree : t.ClashFree := by
        rw [clashFree_iff_header, hsame, ← clashFree_iff_header]
        exact hclash
      have hiff := clashFree_addImports_iff
        (fun s hs => (himportable s ((hsymbols s).mp hs).2).endsInStar_eq) hfree
        (fun s hs i hi hstatic hname => path_of_conflicts
          (conflicts_eq_false hrun ((hsymbols s).mp hs).2) (hsame ▸ hi) hstatic hname)
      rw [hadds] at hiff
      refine hiff.trans ⟨fun h hpos s hs s' hs' hopen hopen' => ?_, fun h s hs s' hs' => ?_⟩
      · exact h s ((hadded s).mpr ⟨hpos, hs, hopen⟩) s' ((hadded s').mpr ⟨hpos, hs', hopen'⟩)
      · obtain ⟨hpos, hmem, hopen⟩ := (hadded s).mp hs
        obtain ⟨-, hmem', hopen'⟩ := (hadded s').mp hs'
        exact h hpos s hmem s' hmem' hopen hopen'
  refine ⟨hiff, fun hdistinct => hiff.mpr ?_⟩
  intro _ s hs s' hs' _ _
  exact hdistinct s hs s' hs'

end Recipe

namespace UseTimeout

/-- The stock recipe with an import of another type of the same simple name. -/
def twinParts : RecipeParts :=
  { parts .httpClient5 with imports := ["org.apache.hc.core5.util.Timeout", "com.acme.Timeout"] }

def twinRule : Rule :=
  { rule with template := { template with imports := [timeout, ⟨"com.acme.Timeout"⟩] } }

def twinRecipe : Recipe :=
  { recipe HttpClient5.table with rule := twinRule }

theorem twinParts_build : twinParts.build = .ok twinRecipe := by
  have htemplate : Template.ofFragment "Timeout.ofMilliseconds(#\x7b\x7d)"
      ["org.apache.hc.core5.util.Timeout", "com.acme.Timeout"] .arguments =
        .ok twinRule.template :=
    Template.ofFragment_withImports template_eq (eq_ok_of_toOption (by decide +kernel))
      (by decide +kernel)
  rw [twinRecipe, ← httpClient5_eq]
  exact RecipeParts.build_eq rfl gate_eq rfl signatures_eq (matcher_eq _) rfl rfl htemplate rfl
    selection_eq

/-- A source with a call to migrate, behind a given beginning. -/
def twinSource (beginning : String) : String :=
  beginning ++ "import org.apache.hc.core5.http.io.SocketConfig;\n" ++
    "class A \x7b Object f = SocketConfig.custom().setSoTimeout(5); \x7d\n"

/-- A run of this recipe leaves two imports for one simple name in a unit that had one import. -/
theorem twins_clash :
    ∃ recipe u, twinParts.build = .ok recipe ∧ JavaUnit.parse (twinSource "") = .ok u ∧
      u.tree.ClashFree ∧
      (recipe.run u).unit.tree.imports.map (·.path) = ["com.acme.Timeout",
        "org.apache.hc.core5.http.io.SocketConfig", "org.apache.hc.core5.util.Timeout"] ∧
      ¬ (recipe.run u).unit.tree.ClashFree := by
  have hcheck : (JavaUnit.parse (twinSource "")).toOption.any (fun u =>
      decide (u.tree.ClashFree ∧
        (twinRecipe.run u).unit.tree.imports.map (·.path) = ["com.acme.Timeout",
          "org.apache.hc.core5.http.io.SocketConfig", "org.apache.hc.core5.util.Timeout"] ∧
        ¬ (twinRecipe.run u).unit.tree.ClashFree)) = true := by
    rw [JavaUnit.parse_eq]
    decide +kernel
  obtain ⟨u, hparse, hfacts⟩ := exists_ok_of_any hcheck
  exact ⟨_, u, twinParts_build, hparse, of_decide_eq_true hfacts⟩

/-- A wildcard import covers one of the two types, and the other one is added without a clash. -/
theorem clashFree_run_iff_covered :
    ∃ recipe u, twinParts.build = .ok recipe ∧
      JavaUnit.parse (twinSource "import com.acme.*;\n") = .ok u ∧
      (recipe.run u).importsAdded = [timeout] ∧ (recipe.run u).unit.tree.ClashFree := by
  have hcheck : (JavaUnit.parse (twinSource "import com.acme.*;\n")).toOption.any (fun u =>
      decide (u.tree.PlainHeader ∧ u.tree.ClashFree ∧
        isCovered u.tree ⟨"com.acme.Timeout"⟩ = true ∧
        (twinRecipe.run u).importsAdded = [timeout])) = true := by
    rw [JavaUnit.parse_eq]
    decide +kernel
  obtain ⟨u, hparse, hfacts⟩ := exists_ok_of_any hcheck
  obtain ⟨hheader, hclash, hcovered, hadded⟩ := of_decide_eq_true hfacts
  refine ⟨_, u, twinParts_build, hparse, hadded, ?_⟩
  refine (Recipe.clashFree_run_iff twinParts_build hheader hclash).1.mpr ?_
  intro _ s hs s' hs' hopen hopen' _
  have honly (s : TypeName) (hs : s ∈ [timeout, ⟨"com.acme.Timeout"⟩])
      (hopen : isCovered u.tree s = false) : s = timeout := by
    rcases List.mem_pair.mp hs with rfl | rfl
    · rfl
    · rw [hcovered] at hopen
      cases hopen
  rw [honly s hs hopen, honly s' hs' hopen']

end UseTimeout

end CallMigration
