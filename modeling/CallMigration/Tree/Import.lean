import CallMigration.Tree.Basic

/-!
# Imports and the package of a unit

* `ImportDecl` : what an import declaration names.
* `Tree.imports`, `Tree.packageName?` : the imports and the package of a unit.
-/

namespace CallMigration

/-- An import declaration of a unit. -/
structure ImportDecl where
  /-- The imported name, without the `.*` of a wildcard import. -/
  path : String
  isStatic : Bool
  isWildcard : Bool
  /-- The position of the declaration among the children of the unit. -/
  position : Nat
deriving DecidableEq, Repr, Inhabited

namespace ImportDecl

/-- The last segment of a single import. -/
def simpleName? (i : ImportDecl) : Option String :=
  if i.isWildcard then none
  else
    match (i.path.toList.splitOn '.').getLast? with
    | some last => some (String.ofList last)
    | none => none

/-- What the tokens of a declaration name: the text of all but the keywords and the semicolon. -/
def writtenPath (tokens : List (Kind × String)) : String :=
  Tree.joinTokens (tokens.filter fun (k, _) =>
    k != .importKeyword && k != .semicolon && k != .staticKeyword)

def ofTree (position : Nat) (t : Tree) : ImportDecl :=
  let tokens := t.significantTokens
  let path := writtenPath tokens
  let isStatic := tokens.any fun (k, _) => k == .staticKeyword
  match ".*".toList.isSuffixOf? path.toList with
  | some base => ⟨String.ofList base, isStatic, true, position⟩
  | none => ⟨path, isStatic, false, position⟩

end ImportDecl

namespace Tree

def isImport (t : Tree) : Bool :=
  t.isNode && t.kind == .importDeclaration

/-- The import declarations among elements whose first one has the given position. -/
def importsFrom : Nat → List Tree → List ImportDecl
  | _, [] => []
  | position, t :: ts =>
    if t.isImport then ImportDecl.ofTree position t :: importsFrom (position + 1) ts
    else importsFrom (position + 1) ts

/-- The import declarations of a unit, in source order. -/
def imports (root : Tree) : List ImportDecl :=
  importsFrom 0 root.children

def isPackage (t : Tree) : Bool :=
  t.isNode && t.kind == .packageDeclaration

def packageName? (root : Tree) : Option String := do
  let declaration ← root.children.find? isPackage
  let name ← (Element.significantChildren declaration).find? fun x =>
    x.kind == .scopedIdentifier || x.kind == .identifier
  return name.significantText

end Tree

end CallMigration
