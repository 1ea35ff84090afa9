import CallMigration.Tree.Import
import CallMigration.Tree.Unit
import CallMigration.Types.Name

/-!
# Adding imports

Imports are requested while a unit is walked and added to it at the end, each at its customary
place: among the imports that share the most of its package, or else behind the package, or in front
of the first declaration.

* `ImportRequests` : the requested imports, in increasing order and without repetition.
* `isCovered`, `conflicts` : whether an import is needed, and whether it would clash.
* `insertImport` : a unit with one import more.
* `ImportRequests.flush` : a unit with all requested imports.
-/

namespace CallMigration

/-! ## Requests -/

/-- Requested imports, in increasing order and without repetition. -/
structure ImportRequests where
  pending : List TypeName
deriving DecidableEq, Repr, Inhabited

/-- Adds a name to an increasing list, unless it is there. -/
def insertName (name : TypeName) : List TypeName → List TypeName
  | [] => [name]
  | n :: ns =>
    if name = n then n :: ns else if name < n then name :: n :: ns else n :: insertName name ns

namespace ImportRequests

def empty : ImportRequests := ⟨[]⟩

def isNew (r : ImportRequests) (name : TypeName) : Bool :=
  !r.pending.contains name

def request (r : ImportRequests) (name : TypeName) : ImportRequests :=
  ⟨insertName name r.pending⟩

def isEmpty (r : ImportRequests) : Bool :=
  r.pending.isEmpty

end ImportRequests

/-! ## Is an import needed, does it clash -/

/-- The type is visible in the unit without a further import: it is in `java.lang` or in the unit's
package, or an import names it. -/
def isCovered (root : Tree) (symbol : TypeName) : Bool :=
  let owner := symbol.qualifier?
  owner == some "java.lang"
    || (owner.isSome && root.packageName? == owner)
    || (root.imports.filter fun i => !i.isStatic).any fun i =>
      if i.isWildcard then some i.path == owner else i.path == symbol.text

def declaredName? (t : Tree) : Option String :=
  if t.kind.isTypeDeclaration then
    ((Element.significantChildren t).find? fun x =>
      x.kind == .identifier || x.kind == .typeIdentifier).map (·.significantText)
  else none

/-- An import of the type would clash with another type of the same simple name, imported or declared
anywhere in the unit. -/
def conflicts (root : Tree) (symbol : TypeName) : Bool :=
  (root.imports.any fun i =>
    !i.isStatic && i.simpleName? == some symbol.simpleName && i.path != symbol.text)
    || (root.nodes.filterMap declaredName?).contains symbol.simpleName

/-! ## Import declarations -/

/-- A name with dots as nested nodes, from its segments in reverse order. -/
def scopedIdentifier : List (List Char) → Tree
  | [] => .token .identifier ""
  | [last] => .token .identifier (String.ofList last)
  | last :: rest =>
    .node .scopedIdentifier
      [scopedIdentifier rest, .token .dot ".", .token .identifier (String.ofList last)]

def importDeclaration (symbol : TypeName) : Tree :=
  .node .importDeclaration
    [.token .importKeyword "import", .token .whitespace " ",
      scopedIdentifier (Text.segments symbol.chars).reverse, .token .semicolon ";"]

def space (text : String) : Tree := .token .whitespace text

def insertAt (position : Nat) (new elements : List Tree) : List Tree :=
  elements.take position ++ new ++ elements.drop position

/-! ## The place of an import -/

/-- The number of segments that two names have in common at their beginnings. -/
def sharedSegments (a b : String) : Nat :=
  (((Text.segments a.toList).zip (Text.segments b.toList)).takeWhile fun (x, y) => x == y).length

/-- The paths stand in increasing order. -/
def isSorted : List ImportDecl → Bool
  | a :: b :: rest => !(b.path < a.path) && isSorted (b :: rest)
  | _ => true

/-- The imports that share the longest beginning with a name. -/
def nearestImports (imports : List ImportDecl) (symbol : TypeName) : List ImportDecl :=
  let shared (i : ImportDecl) : Nat := sharedSegments i.path symbol.text
  let longest := (imports.map shared).foldl max 0
  imports.filter fun i => shared i == longest

/-- The place in front of the first declaration that starts at `position`, given the elements before
it with the nearest first: documentation comments belong to the declaration. `cursor` is how far the
elements have been looked at. -/
def aboveComments (position cursor : Nat) : List Tree → Nat
  | [] => position
  | t :: ts =>
    match t with
    | .token k text =>
      if k == .whitespace then aboveComments position (cursor - 1) ts
      else if (k == .blockComment || k == .lineComment)
          && "/**".toList.isPrefixOf text.toList then
        aboveComments (cursor - 1) (cursor - 1) ts
      else position
    | .node k _ => if k == .whitespace then aboveComments position (cursor - 1) ts else position

/-- Where an import goes, and the elements to insert there. -/
def importPlace (root : Tree) (symbol : TypeName) : Nat × List Tree :=
  let declaration := importDeclaration symbol
  let elements := root.children
  let regular := root.imports.filter fun i => !i.isStatic
  let statics := root.imports.filter fun i => i.isStatic
  let nearest := nearestImports regular symbol
  match nearest.getLast? with
  | some last =>
    let next? := if isSorted nearest then nearest.find? fun i => symbol.text < i.path else none
    match next? with
    | some next => (next.position, [declaration, space "\n"])
    | none => (last.position + 1, [space "\n", declaration])
  | none =>
    match statics with
    | first :: _ => (first.position, [declaration, space "\n\n"])
    | [] =>
      match elements.findIdx? Tree.isPackage with
      | some position => (position + 1, [space "\n\n", declaration])
      | none =>
        match elements.findIdx? fun t => !t.kind.isTrivia with
        | some first =>
          (aboveComments first first (elements.take first).reverse, [declaration, space "\n\n"])
        | none => (elements.length, [declaration, space "\n"])

def insertImport (root : Tree) (symbol : TypeName) : Tree :=
  let (position, new) := importPlace root symbol
  .node root.kind (insertAt position new root.children)

/-! ## Adding all requested imports -/

/-- Adds imports in order, except those that are not needed; also gives those that were added. -/
def addImports (root : Tree) : List TypeName → Tree × List TypeName
  | [] => (root, [])
  | symbol :: rest =>
    if isCovered root symbol then addImports root rest
    else
      let (root, added) := addImports (insertImport root symbol) rest
      (root, symbol :: added)

def ImportRequests.flush (r : ImportRequests) (u : JavaUnit) : JavaUnit × List TypeName :=
  let (tree, added) := addImports u.tree r.pending
  (u.withTree tree, added)

end CallMigration
