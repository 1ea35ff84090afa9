import CallMigration.Resolve.Resolver
import CallMigration.Types.Pattern

/-!
# Preconditions

A `Gate` tells whether a unit refers to a family of types at all: by an import, by a type written
with its package, or by a declaration whose type is one of them.
-/

namespace CallMigration

/-- The condition that a unit refers to a type of a pattern. -/
structure Gate where
  pattern : TypePattern
  /-- Types that only declarations mention count, too. -/
  includeImplicit : Bool
deriving DecidableEq, Repr

namespace Gate

def parse (pattern : String) (includeImplicit : Bool) : Except TypeError Gate := do
  return ⟨← TypePattern.parse pattern, includeImplicit⟩

/-- An import refers to a type of the pattern: by its path, by the package or type that a wildcard
stands for, or by the type that a static import takes a member of. -/
def matchesImport (g : Gate) (i : ImportDecl) : Bool :=
  let named := g.pattern.matchesType (TypeName.ofWritten i.path)
  if i.isStatic then
    if i.isWildcard then named
    else
      match (TypeName.ofWritten i.path).qualifier? with
      | some owner => g.pattern.matchesType (TypeName.ofWritten owner)
      | none => false
  else if i.isWildcard then g.pattern.matchesPackage i.path || named
  else named

section

variable {R : Type} [TypeResolver R]

/-- A declaration of a unit has a type of the pattern. -/
def matchesDeclaration (g : Gate) (scope : Scope) (r : R) : Bool :=
  (scope.declaredTypes.filterMap (TypeResolver.resolve? r)).any g.pattern.matchesType

/-- A unit with these declarations and references refers to a type of the pattern. -/
def isPresentIn (g : Gate) (scope : Scope) (r : R) : Bool :=
  scope.imports.any g.matchesImport
    || scope.qualifiedReferences.any g.pattern.matchesType
    || (g.includeImplicit && g.matchesDeclaration scope r)

end

/-- The unit of a resolver refers to a type of the pattern. -/
def isPresent (g : Gate) (r : Resolver) : Bool :=
  g.isPresentIn r.scope r

end Gate

end CallMigration
