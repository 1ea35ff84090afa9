import CallMigration.Proofs.Imports
import CallMigration.Proofs.Walk

/-!
# The header of a unit after a run

A walk requests the imports of its template as soon as it replaces a call, and does not touch the
package and the imports that are there. At the end of a run, those of the requested imports are added
that the unit does not cover.

* `Rule.Requested` : the imports that a walk has requested.
* `Tree.PlainHeader` : no calls in the package and the imports of a unit.
* `Rule.run_adds`, `Rule.run_extends` : what a run makes of the package and the imports.
-/

namespace CallMigration

/-! ## Requested imports -/

theorem mem_insertName {name other : TypeName} {names : List TypeName} :
    other ∈ insertName name names ↔ other = name ∨ other ∈ names := by
  induction names with
  | nil => simp [insertName]
  | cons n names ih =>
    rw [insertName]
    split
    next heq => simp [heq]
    next =>
      split
      next => rw [List.mem_cons]
      next =>
        rw [List.mem_cons, ih, List.mem_cons]
        exact or_left_comm

theorem mem_requested {needed : List TypeName} {requests : ImportRequests} {name : TypeName} :
    name ∈ (needed.foldl ImportRequests.request requests).pending ↔
      name ∈ requests.pending ∨ name ∈ needed := by
  induction needed generalizing requests with
  | nil => simp
  | cons first needed ih =>
    rw [List.foldl_cons, ih, ImportRequests.request, mem_insertName, List.mem_cons, or_comm (a := _ = _),
      or_assoc]

/-- Nothing but the imports of the template is requested, and all of them if a call was replaced. -/
structure Rule.Requested (rule : Rule) (w : Walk) : Prop where
  sound : ∀ name ∈ w.imports.pending, name ∈ rule.template.imports
  complete : 0 < w.stats.callsMigrated → ∀ name ∈ rule.template.imports, name ∈ w.imports.pending

theorem Rule.keeps_requested (rule : Rule) : rule.Keeps rule.Requested where
  enter _ _ h := ⟨h.sound, h.complete⟩
  keep _ _ h := ⟨h.sound, h.complete⟩
  replace _ _ h := by
    refine ⟨fun name hname => ?_, fun _ name hname => mem_requested.mpr (.inr hname)⟩
    exact (mem_requested.mp hname).elim (h.sound name) id

/-! ## The header of a unit -/

/-- No call stands at the top of the unit, or in its package and its imports. -/
structure Tree.PlainHeader (t : Tree) : Prop where
  root : t.kind = .program
  top : ∀ c ∈ t.children, Call.isCall c = false
  bare : ∀ c ∈ t.children, c.isImport = true ∨ c.isPackage = true →
    ∀ n ∈ c.nodes, Call.isCall n = false

instance (t : Tree) : Decidable t.PlainHeader :=
  decidable_of_iff (t.kind = .program ∧ (∀ c ∈ t.children, Call.isCall c = false) ∧
    ∀ c ∈ t.children, c.isImport = true ∨ c.isPackage = true →
      ∀ n ∈ c.nodes, Call.isCall n = false)
    ⟨fun ⟨h₁, h₂, h₃⟩ => ⟨h₁, h₂, h₃⟩, fun ⟨h₁, h₂, h₃⟩ => ⟨h₁, h₂, h₃⟩⟩

namespace Rule

variable {R : Type} [TypeResolver R]

/-- What a walk makes of an element at the top of a unit. -/
theorem visit_top (rule : Rule) (r : R) (around : List Span) (start : Nat) {c : Tree}
    (w : Walk) (hcall : Call.isCall c = false) (hbare : c.isImport = true ∨ c.isPackage = true →
      ∀ n ∈ c.nodes, Call.isCall n = false) :
    ((rule.visit r around start c w).1.getD c).isImport = c.isImport ∧
      ((rule.visit r around start c w).1.getD c).isPackage = c.isPackage ∧
      (c.isImport = true ∨ c.isPackage = true → (rule.visit r around start c w).1.getD c = c) := by
  refine ⟨?_, ?_, fun hc => by rw [visit_bare c around start w (hbare hc), Option.getD_none]⟩
  all_goals
    cases c with
    | token k s => rfl
    | node k cs =>
      have hk : k ≠ .methodInvocation := by
        rintro rfl
        cases hcall
      rw [visit_node hk]
      simp only
      split <;> rfl

theorem header_visitAll (rule : Rule) (r : R) (around : List Span) (start : Nat)
    {ts : List Tree} (w : Walk) (htop : ∀ c ∈ ts, Call.isCall c = false)
    (hbare : ∀ c ∈ ts, c.isImport = true ∨ c.isPackage = true →
      ∀ n ∈ c.nodes, Call.isCall n = false) :
    importNames (rule.visitAll r around start ts w).1 = importNames ts ∧
      (rule.visitAll r around start ts w).1.find? Tree.isPackage = ts.find? Tree.isPackage := by
  induction ts generalizing start w with
  | nil => exact ⟨rfl, rfl⟩
  | cons c ts ih =>
    obtain ⟨himport, hpackage, hsame⟩ := visit_top rule r around start w
      (htop c List.mem_cons_self) (hbare c List.mem_cons_self)
    obtain ⟨hnames, hfind⟩ := ih (start + c.byteLength)
      (rule.visit r around start c w).2 (fun d hd => htop d (List.mem_cons_of_mem _ hd))
      fun d hd => hbare d (List.mem_cons_of_mem _ hd)
    rw [visitAll]
    constructor
    · unfold importNames at hnames ⊢
      by_cases hc : c.isImport = true
      · simp only [hsame (.inl hc), List.filter_cons_of_pos hc, List.map_cons, hnames]
      · rw [List.filter_cons_of_neg (by rw [himport]; exact hc), List.filter_cons_of_neg hc, hnames]
    · rw [List.find?_cons, List.find?_cons, hpackage, hfind]
      split
      next hc => rw [hsame (.inr hc)]
      next => rfl

/-- A walk over a unit leaves it alone, or gives one with the same package and imports. -/
theorem visit_root (rule : Rule) (r : R) {t : Tree} (h : t.PlainHeader) (w : Walk) :
    (rule.visit r [] 0 t w).1 = none ∨ ∃ cs, (rule.visit r [] 0 t w).1 = some (.node .program cs) ∧
      (Tree.node .program cs).header = t.header := by
  cases t with
  | token k s => exact .inl rfl
  | node k cs =>
    cases (h.root : k = .program)
    rw [visit_node (by decide)]
    simp only
    split
    next =>
      obtain ⟨hnames, hfind⟩ := header_visitAll rule r
        [⟨.program, 0, 0 + Tree.byteLengthOf cs⟩] 0 w h.top h.bare
      refine .inr ⟨_, rfl, ?_⟩
      rw [Tree.header, Tree.header, Tree.packageName?, Tree.packageName?]
      simp only [Tree.children] at hnames hfind ⊢
      rw [hnames, hfind]
    next => exact .inl rfl

/-- A run that is not skipped ends with adding imports to a unit with the package and the imports that
were there: all those of the template if a call was replaced, and none otherwise. -/
theorem run_adds (rule : Rule) (table : TypeTable) {u : JavaUnit} (hheader : u.tree.PlainHeader)
    (hrun : (rule.run table u).skipped = none) :
    ∃ t symbols, t.header = u.tree.header ∧
      addImports t symbols = ((rule.run table u).unit.tree, (rule.run table u).importsAdded) ∧
      ∀ symbol, symbol ∈ symbols ↔
        0 < (rule.run table u).stats.callsMigrated ∧ symbol ∈ rule.template.imports := by
  rcases rule.run_cases table u with ⟨-, reason, hskip⟩ | ⟨-, hwalk⟩
  · rw [hskip] at hrun
    cases hrun
  · rw [hwalk]
    have hrequested := visit_preserves (r := Resolver.ofTree table u.tree) rule.keeps_requested u.tree [] 0
      (.start true) ⟨by simp [Walk.start, ImportRequests.empty], fun h => absurd h (by decide)⟩
    have hchanged := visit_isSome_iff rule (Resolver.ofTree table u.tree) u.tree [] 0 (.start true)
    have hzero : (Walk.start true).stats.callsMigrated = 0 := rfl
    have hroot := visit_root rule (Resolver.ofTree table u.tree) hheader (.start true)
    rw [hzero] at hchanged
    rcases hvisit : rule.visit (Resolver.ofTree table u.tree) [] 0 u.tree (.start true) with ⟨new, w⟩
    rw [hvisit] at hrequested hchanged hroot
    rcases hroot with hnone | ⟨cs, hsome, hsame⟩
    · cases hnone
      refine ⟨u.tree, [], rfl, rfl, fun symbol => iff_of_false List.not_mem_nil fun h => ?_⟩
      have hpos : 0 < w.stats.callsMigrated := h.1
      cases hchanged.mpr hpos.ne'
    · cases hsome
      have hmigrated : 0 < w.stats.callsMigrated := Nat.pos_of_ne_zero (hchanged.mp rfl)
      refine ⟨.node .program cs, w.imports.pending, hsame, rfl, fun symbol => ?_⟩
      constructor
      · exact fun hmem => ⟨hmigrated, hrequested.sound symbol hmem⟩
      · exact fun ⟨_, hmem⟩ => hrequested.complete hmigrated symbol hmem

/-- What a run makes of the package and the imports of a unit. -/
theorem run_extends (rule : Rule) (table : TypeTable) {u : JavaUnit} (hheader : u.tree.PlainHeader)
    (himports : ∀ s ∈ rule.template.imports, s.Importable)
    (hrun : (rule.run table u).skipped = none) :
    Extends u.tree.header (rule.run table u).unit.tree.header (rule.run table u).importsAdded ∧
      ∀ symbol, symbol ∈ (rule.run table u).importsAdded ↔
        0 < (rule.run table u).stats.callsMigrated ∧ symbol ∈ rule.template.imports ∧
          isCovered u.tree symbol = false := by
  obtain ⟨t, symbols, hsame, hadds, hsymbols⟩ := rule.run_adds table hheader hrun
  have himportable : ∀ s ∈ symbols, s.Importable := fun s hs => himports s ((hsymbols s).mp hs).2
  have hextends := addImports_extends himportable t
  have hadded := mem_addImports_iff (fun s hs => (himportable s hs).endsInStar_eq) t
  rw [hadds] at hextends hadded
  rw [hsame] at hextends
  refine ⟨hextends, fun symbol => ?_⟩
  rw [hadded, hsymbols, isCovered_eq, isCovered_eq, hsame, and_assoc]

end Rule

end CallMigration
