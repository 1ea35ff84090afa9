import CallMigration.Text.Blank
import CallMigration.Text.Dotted

/-!
# Erased type names

A `TypeName` is the text of a type without blanks and type arguments, its nested types separated
by dots: `Map<K, V>` and `Outer$Inner` are written `Map` and `Outer.Inner`.

* `erase` : from a written type to that text.
* `TypeName.ofWritten`, `TypeName.parse?` : without and with a check that the segments are
  identifiers.
* `TypeName.package?` : the segments before the first capitalised one.
-/

namespace CallMigration

open Text

/-! ## Erasure -/

/-- Erases a text that begins inside `depth` open angle brackets: what stands in brackets is
dropped, a closing bracket without an opening one is ignored, and outside of brackets blanks are
dropped and a dollar sign becomes a dot. -/
def eraseFrom : Nat → List Char → List Char
  | _, [] => []
  | depth, c :: s =>
    if c = '<' then eraseFrom (depth + 1) s
    else if c = '>' then eraseFrom (depth - 1) s
    else if depth > 0 || isBlank c then eraseFrom depth s
    else (if c = '$' then '.' else c) :: eraseFrom depth s

def erase (written : List Char) : List Char :=
  eraseFrom 0 written

/-- The number of pairs of brackets that a reversed text begins with, and the rest. -/
def takePairs : List Char → Nat × List Char
  | ']' :: '[' :: s =>
    let (count, rest) := takePairs s
    (count + 1, rest)
  | s => (0, s)

/-! ## Names -/

/-- The text of a type after erasure. -/
structure TypeName where
  text : String
deriving DecidableEq, Repr, Inhabited

def primitiveTypes : List String :=
  ["boolean", "byte", "char", "short", "int", "long", "float", "double", "void"]

def javaLangTypes : List String :=
  ["Boolean", "Byte", "Character", "CharSequence", "Double", "Enum", "Float", "Integer",
    "Iterable", "Long", "Math", "Number", "Object", "Runnable", "Short", "String",
    "StringBuilder", "System", "Thread", "Throwable", "Exception", "RuntimeException", "Void"]

namespace TypeName

instance : ToString TypeName := ⟨text⟩

/-- Names are ordered by their text, code point by code point. -/
instance : LT TypeName := ⟨fun a b => a.text < b.text⟩

instance (a b : TypeName) : Decidable (a < b) :=
  inferInstanceAs (Decidable (a.text < b.text))

def ofWritten (written : String) : TypeName :=
  ⟨String.ofList (erase written.toList)⟩

def chars (n : TypeName) : List Char :=
  n.text.toList

/-- The number of trailing pairs of brackets and the name without them. -/
def dimensions (n : TypeName) : Nat × TypeName :=
  let (count, rest) := takePairs n.chars.reverse
  (count, ⟨String.ofList rest.reverse⟩)

/-- Every segment is an identifier, array brackets apart. -/
def isWellFormed (n : TypeName) : Bool :=
  (segments n.dimensions.2.chars).all isIdentifier

/-- The name of a written type whose segments are identifiers. -/
def parse? (written : String) : Option TypeName :=
  let name := ofWritten written
  if name.isWellFormed then some name else none

def isPrimitive (n : TypeName) : Bool :=
  primitiveTypes.contains n.text

/-- Ends with a pair of brackets. -/
def isArray (n : TypeName) : Bool :=
  "[]".toList.isSuffixOf n.chars

/-- The last segment. -/
def simpleName (n : TypeName) : String :=
  match splitLast (· == '.') n.chars with
  | some (_, last) => String.ofList last
  | none => n.text

/-- Everything before the last segment: the package of a top-level type, the enclosing type of a
nested one. -/
def qualifier? (n : TypeName) : Option String :=
  (splitLast (· == '.') n.chars).map fun (before, _) => String.ofList before

/-- The package by convention: the segments before the first capitalised one, if there is one and
it is not the first. -/
def package? (n : TypeName) : Option String :=
  let all := segments n.chars
  let lower := all.takeWhile fun segment => !startsUppercase segment
  if lower.isEmpty || lower.length == all.length then none
  else some (String.ofList (joinDots lower))

def isQualified (n : TypeName) : Bool :=
  n.package?.isSome

def member (n : TypeName) (segment : String) : TypeName :=
  ⟨n.text ++ "." ++ segment⟩

def array (n : TypeName) : Nat → TypeName
  | 0 => n
  | count + 1 => ofWritten ((n.array count).text ++ "[]")

end TypeName

end CallMigration
