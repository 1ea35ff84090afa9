import CallMigration.Types.Name
import CallMigration.Types.Error

/-!
# Patterns over type names

* `a.b.C` matches exactly that type,
* `a.b.*` the types directly in the package `a.b`,
* `a.b..*` the types in `a.b` and in every package below it.

`TypePattern.parse` reads the notation, `TypePattern.render` writes it, and `matchesType` and
`matchesPackage` decide which names are meant.
-/

namespace CallMigration

open Text

/-- A set of type names. -/
inductive TypePattern where
  /-- One type. -/
  | exact (name : TypeName)
  /-- The types directly in one package. -/
  | package (package : String)
  /-- The types in one package and in every package below it. -/
  | recursive (package : String)
deriving DecidableEq, Repr

namespace TypePattern

/-- A nonempty dotted list of identifiers. -/
def isPackage (s : List Char) : Bool :=
  (segments s).all isIdentifier

/-- Reads a pattern; blanks around it are ignored. -/
def parse (written : String) : Except TypeError TypePattern :=
  let trimmed := trim written.toList
  match "..*".toList.isSuffixOf? trimmed with
  | some base =>
    if isPackage base then .ok (.recursive (String.ofList base))
    else .error (.pattern written .package)
  | none =>
    match ".*".toList.isSuffixOf? trimmed with
    | some base =>
      if isPackage base then .ok (.package (String.ofList base))
      else .error (.pattern written .package)
    | none =>
      match TypeName.parse? (String.ofList trimmed) with
      | some name => .ok (.exact name)
      | none => .error (.pattern written .typeName)

def render : TypePattern → String
  | exact name => name.text
  | package p => p ++ ".*"
  | recursive p => p ++ "..*"

/-- `name` is `base` or continues it after a dot. -/
def within (name base : String) : Bool :=
  name == base ||
    match base.toList.isPrefixOf? name.toList with
    | some ('.' :: _) => true
    | _ => false

def matchesType : TypePattern → TypeName → Bool
  | exact e, name => e == name
  | package p, name => name.package? == some p
  | recursive p, name => within name.text p

/-- Matches a whole package, as a wildcard import names it. -/
def matchesPackage : TypePattern → String → Bool
  | exact _, _ => false
  | package p, name => p == name
  | recursive p, name => within name p

end TypePattern

end CallMigration
