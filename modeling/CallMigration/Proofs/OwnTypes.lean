import CallMigration.Proofs.Evaluation
import CallMigration.Proofs.Names
import CallMigration.Proofs.Slots

/-!
# The types that a unit declares itself

The name of a type that a unit declares means that type, wherever the unit uses it. A resolver does not
look at the types of the unit, though. It reads the name as the unit's own type if an import says so, or
if the table knows the type in the unit's package. If neither does, the name is left to wildcard imports
and to `java.lang`, and it stays without a meaning only if none of them has a type of that name.

* `Tree.topLevelTypes`, `Tree.ownType` : the types of a unit.
* `fallbacks` : what a name may be taken for that neither an import nor the package explains.
* `SimpleName.resolve?_own` : what a resolver takes such a name for.
* `Resolver.resolve?_topLevel_iff` : when the types of a unit are not mistaken for others.
-/

namespace CallMigration

/-! ## Identifiers without dollar signs -/

theorem isIdentifierPart_of_isBlank {c : Char} (h : Text.isBlank c = true) :
    Text.isIdentifierPart c = false := by
  -- There are few enough blanks to look at each of them.
  have hblank : c.toNat ∈ Text.blankRanges.flatMap fun (first, last) =>
      List.range' first (last + 1 - first) := by
    simp only [Text.isBlank, Text.blankRanges, Text.inRanges] at h
    simp only [Text.blankRanges, List.flatMap_cons, List.flatMap_nil, List.mem_append,
      List.mem_range'_1]
    grind
  have hall : (Text.blankRanges.flatMap fun (first, last) =>
      List.range' first (last + 1 - first)).all (fun n =>
        !Text.isIdentifierPart (Char.ofNat n)) = true := by
    decide +kernel
  have hpart := List.all_eq_true.mp hall _ hblank
  rw [Char.ofNat_toNat, Bool.not_eq_true'] at hpart
  exact hpart

/-- Erasure changes an identifier only if there is a dollar sign in it. -/
theorem SimpleName.of_identifier {name : String} (h : Text.isIdentifier name.toList = true)
    (hdollar : '$' ∉ name.toList) : SimpleName name := by
  refine ⟨h, ?_⟩
  intro c hc
  have hpart := isIdentifierPart_of_mem h c hc
  have hblank : Text.isBlank c = false := by
    by_contra hblank
    rw [Bool.not_eq_false] at hblank
    rw [isIdentifierPart_of_isBlank hblank] at hpart
    cases hpart
  have hopen : c ≠ '<' := fun heq => not_mem_of_isIdentifier h (by decide) (heq ▸ hc)
  have hclose : c ≠ '>' := fun heq => not_mem_of_isIdentifier h (by decide) (heq ▸ hc)
  have hother : c ≠ '$' := fun heq => hdollar (heq ▸ hc)
  simp [isErased, hblank, hopen, hclose, hother]

/-! ## The types of a unit -/

/-- The names of the types that a unit declares at its top. -/
def Tree.topLevelTypes (root : Tree) : List String :=
  (root.children.filter fun t => t.kind != .typeParameter).filterMap declaredName?

/-- The type that a unit declares under a name: in its package, if it has one. -/
def Tree.ownType (root : Tree) (name : String) : TypeName :=
  match root.packageName? with
  | some package => .ofWritten (package ++ "." ++ name)
  | none => .ofWritten name

/-- A single import of a type with the simple name. -/
def ImportDecl.binds (name : String) (i : ImportDecl) : Bool :=
  !i.isStatic && i.simpleName? == some name

/-- What a name may be taken for that neither an import nor the package explains: the types of that name
in wildcard imports, in order, and the one in `java.lang`. -/
def fallbacks (table : TypeTable) (imports : List ImportDecl) (name : String) : List TypeName :=
  ((imports.filter fun i => i.isWildcard && !i.isStatic).filterMap fun i =>
    table.findInPackage? i.path name) ++
  if javaLangTypes.contains name then [.ofWritten ("java.lang." ++ name)] else []

/-- The unit itself says which type the name means: there is an import for it, or the table knows the
type in the unit's package. -/
def Tree.explains (root : Tree) (table : TypeTable) (name : String) : Bool :=
  root.imports.any (ImportDecl.binds name) ||
    (root.packageName?.isSome && table.contains (root.ownType name))

theorem ambient?_eq_or_fallbacks (table : TypeTable) (package? : Option String)
    (imports : List ImportDecl) (name : String) :
    ambient? table package? imports name =
      (package?.bind fun package => table.findInPackage? package name).or
        (fallbacks table imports name).head? := by
  rw [ambient?, fallbacks, List.head?_append, List.head?_filterMap]
  split <;> rfl

theorem findInPackage?_own (root : Tree) (table : TypeTable) (name : String) :
    (root.packageName?.bind fun package => table.findInPackage? package name) =
      if root.packageName?.isSome && table.contains (root.ownType name) then
        some (root.ownType name)
      else none := by
  unfold Tree.ownType
  cases root.packageName? with
  | none => rfl
  | some package => simp [TypeTable.findInPackage?]

/-- If the only imports of a simple name are of the unit's own type, they say so. -/
theorem imported?_own {root : Tree} {name : String}
    (h : ∀ i ∈ root.imports, i.binds name = true → TypeName.ofWritten i.path = root.ownType name) :
    imported? root.imports name =
      if root.imports.any (ImportDecl.binds name) then some (root.ownType name) else none := by
  have hfind : imported? root.imports name = (root.imports.find? (ImportDecl.binds name)).map
      fun i => .ofWritten i.path := rfl
  rw [hfind]
  cases hbinds : root.imports.find? (ImportDecl.binds name) with
  | none =>
    have hany : root.imports.any (ImportDecl.binds name) = false := by
      simpa using List.find?_eq_none.mp hbinds
    rw [hany]
    rfl
  | some i =>
    have hmem := List.mem_of_find?_eq_some hbinds
    have hany : root.imports.any (ImportDecl.binds name) = true :=
      List.any_eq_true.mpr ⟨i, hmem, List.find?_some hbinds⟩
    rw [hany, if_pos rfl, Option.map_some, h i hmem (List.find?_some hbinds)]

/-- What a resolver takes a name for that could be one of the unit's own types. -/
theorem SimpleName.resolve?_own {name : String} (hname : SimpleName name)
    (hlooked : (lookedUp? name).isSome = true) (table : TypeTable) {root : Tree}
    (h : ∀ i ∈ root.imports, i.binds name = true → TypeName.ofWritten i.path = root.ownType name) :
    (Resolver.ofTree table root).resolve? name =
      if root.explains table name then some (root.ownType name)
      else (fallbacks table root.imports name).head? := by
  rw [hname.resolve?_eq _ hlooked, Resolver.resolveHead?_root, imported?_own h,
    ambient?_eq_or_fallbacks, findInPackage?_own]
  unfold Tree.explains
  cases root.imports.any (ImportDecl.binds name) <;>
    cases root.packageName?.isSome && table.contains (root.ownType name) <;> rfl

namespace Resolver

theorem resolve?_var (r : Resolver) : r.resolve? "var" = none := rfl

/-- **When the types of a unit are not mistaken for others.** If no other type of the same simple name is
imported, the name of a type that the unit declares has no meaning or means the unit's own type, exactly
if the unit itself says so, or the first type that the name could be taken for otherwise is that type, or
there is none. In any other case the name is read as that first type. -/
theorem resolve?_topLevel_iff (table : TypeTable) (u : JavaUnit) :
    ∀ name ∈ u.tree.topLevelTypes, Text.isIdentifier name.toList = true → '$' ∉ name.toList →
      name ∉ primitiveTypes →
      (∀ i ∈ u.tree.imports, i.binds name = true →
        TypeName.ofWritten i.path = u.tree.ownType name) →
      let meaning? := (ofTree table u.tree).resolve? name
      let other? := (fallbacks table u.tree.imports name).head?
      ((meaning? = none ∨ meaning? = some (u.tree.ownType name)) ↔
        name = "var" ∨ u.tree.explains table name = true ∨
          other? = none ∨ other? = some (u.tree.ownType name)) ∧
      ∀ found, meaning? = some found → found = u.tree.ownType name ∨ other? = some found := by
  intro name _ hidentifier hdollar hprimitive hown
  have hname := SimpleName.of_identifier hidentifier hdollar
  by_cases hvar : name = "var"
  · subst hvar
    rw [resolve?_var]
    simp
  · have hlooked : (lookedUp? name).isSome = true := by
      have hreserved : (TypeName.isPrimitive ⟨name⟩ || name == "var") = false := by
        simp [TypeName.isPrimitive, hprimitive, hvar]
      rw [lookedUp?, hname.dimensions_eq]
      simp [hreserved]
    rw [hname.resolve?_own hlooked table hown]
    cases u.tree.explains table name with
    | true => simp
    | false =>
      refine ⟨by simp [hvar], ?_⟩
      intro found hfound
      exact .inr hfound

def otherTypes : TypeTable :=
  ⟨[⟨⟨"p.N"⟩, [], []⟩]⟩

/-- A source with two types, one of which has the name of a type in a wildcard import. -/
def declaringSource : String :=
  "package q;\nimport p.*;\nclass M \x7b \x7d\nclass N \x7b \x7d\n"

theorem exists_declaringUnit :
    ∃ u, JavaUnit.parse declaringSource = .ok u ∧ u.hasErrors = false ∧
      u.tree.topLevelTypes = ["M", "N"] ∧ u.tree.imports.any (ImportDecl.binds "M") = false ∧
      u.tree.imports.any (ImportDecl.binds "N") = false ∧
      fallbacks otherTypes u.tree.imports "M" = [] ∧ u.tree.ownType "N" = ⟨"q.N"⟩ ∧
      (ofTree otherTypes u.tree).resolve? "N" = some ⟨"p.N"⟩ := by
  have hcheck : (JavaUnit.parse declaringSource).toOption.any (fun u =>
      decide (u.hasErrors = false ∧
        u.tree.topLevelTypes = ["M", "N"] ∧ u.tree.imports.any (ImportDecl.binds "M") = false ∧
        u.tree.imports.any (ImportDecl.binds "N") = false ∧
        fallbacks otherTypes u.tree.imports "M" = [] ∧ u.tree.ownType "N" = ⟨"q.N"⟩ ∧
        (ofTree otherTypes u.tree).resolve? "N" = some ⟨"p.N"⟩)) = true := by
    rw [JavaUnit.parse_eq]
    decide +kernel
  obtain ⟨u, hparse, hfacts⟩ := exists_ok_of_any hcheck
  exact ⟨u, hparse, of_decide_eq_true hfacts⟩

/-- The type without a namesake is not mistaken. -/
theorem resolve?_topLevel_iff_declaring :
    ∃ u, JavaUnit.parse declaringSource = .ok u ∧ "M" ∈ u.tree.topLevelTypes ∧
      ((ofTree otherTypes u.tree).resolve? "M" = none ∨
        (ofTree otherTypes u.tree).resolve? "M" = some (u.tree.ownType "M")) := by
  obtain ⟨u, hparse, -, htypes, himports, -, hother, -⟩ := exists_declaringUnit
  have hmem : "M" ∈ u.tree.topLevelTypes := by simp [htypes]
  refine ⟨u, hparse, hmem, ?_⟩
  refine (resolve?_topLevel_iff otherTypes u "M" hmem (by decide) (by decide) (by decide)
    ?_).1.mpr (.inr (.inr (.inl ?_)))
  · intro i hi hbinds
    exact absurd hbinds (List.any_eq_false.mp himports i hi)
  · rw [hother]
    rfl

/-- The name of the class `N` is read as a type of another package. -/
theorem declared_type_mistaken :
    ∃ u, JavaUnit.parse declaringSource = .ok u ∧ u.hasErrors = false ∧
      "N" ∈ u.tree.topLevelTypes ∧ u.tree.imports.any (ImportDecl.binds "N") = false ∧
      u.tree.ownType "N" = ⟨"q.N"⟩ ∧
      (ofTree otherTypes u.tree).resolve? "N" = some ⟨"p.N"⟩ := by
  obtain ⟨u, hparse, herrors, htypes, -, himports, -, howned, hmeaning⟩ := exists_declaringUnit
  exact ⟨u, hparse, herrors, by simp [htypes], himports, howned, hmeaning⟩

end Resolver

end CallMigration
