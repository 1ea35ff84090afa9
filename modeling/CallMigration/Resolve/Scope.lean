import CallMigration.Tree.Call
import CallMigration.Tree.Import
import CallMigration.Types.Name

/-!
# What a unit declares

A `Scope` holds the package and the imports of a unit, the names it declares, and the types it
writes out in full. Each declaration has an owner: the class body, method, block, loop or lambda
that the name belongs to.

* `Declaration` : a name, its owner, what is known of its type, and from where it is visible.
* `Scope.collect` : the scope of a unit.
* `Scope.binding?` : what an owner declares under a name, all its declarations taken together.
* `Scope.lookup?` : the innermost declaration of a name that is visible at a place.
-/

namespace CallMigration

open Element

/-- What is known of the type of a name. -/
inductive Declared where
  /-- The type as it is written. -/
  | written (type : String)
  /-- The type is that of an initial value. -/
  | inferred (init : Site)
  /-- The type cannot be told. -/
  | ambiguous
deriving DecidableEq, Repr, Inhabited

/-- A declaration of a name. -/
structure Declaration where
  /-- The node that the name belongs to. -/
  owner : Span
  name : String
  declared : Declared
  /-- The byte offset from which the name is visible; everywhere in the owner if there is none. -/
  visibleFrom : Option Nat
  isField : Bool
deriving DecidableEq, Repr, Inhabited

/-! ## Declarations of single nodes -/

namespace Declaration

/-- The parts of a declarator behind its name that stand before an equals sign. -/
def beforeEquals (parts : List Site) : List Site :=
  parts.takeWhile fun x => !isTokenText "=" x

/-- The initial value of a declarator: the part behind the equals sign. -/
def initializer? (parts : List Site) : Option Site :=
  (parts.dropWhile fun x => !isTokenText "=" x)[1]?

/-- The type of a variable whose declaration writes `type` and whose declarator has the given parts
behind the name. Brackets behind the name make an array. -/
def ofDeclarator (type : String) (parts : List Site) : Declared :=
  if type == "var" then
    match initializer? parts with
    | some init => .inferred init
    | none => .ambiguous
  else if (beforeEquals parts).any fun x => kind x == .node then .written (type ++ "[]")
  else .written type

def variablesOf (isField : Bool) (declaration : Site) : List Declaration :=
  match declaration.around, declaredType? declaration with
  | owner :: _, some type =>
    let written := significantText type
    ((children declaration).filter fun x => (tree x).isNode && kind x == .variableDeclarator).filterMap
      fun declarator =>
        match significantChildren declarator with
        | name :: parts =>
          if kind name == .identifier then
            some ⟨owner, significantText name, ofDeclarator written parts,
              if isField then none else some declarator.start, isField⟩
          else none
        | [] => none
  | _, _ => []

def fromType (x : Site) : List Site :=
  (significantChildren x).dropWhile fun part => !(kind part).isType

/-- A parameter, resource or loop variable: a type and a name behind it. -/
def parameter (owner? : Option Span) (x : Site) : List Declaration :=
  match owner?, fromType x with
  | some owner, type :: rest =>
    match rest.find? fun part => kind part == .identifier with
    | some name =>
      let written := significantText type
      [⟨owner, significantText name, if written == "var" then .ambiguous else .written written,
        none, owner.kind == .recordDeclaration⟩]
    | none => []
  | _, _ => []

def lambdaNames (lambda : Site) : List String :=
  match significantChildren lambda with
  | first :: _ =>
    match first.element with
    | .token .identifier name => [name]
    | .node .inferredParameters _ =>
      ((significantChildren first).filter fun x => kind x == .identifier).map significantText
    | _ => []
  | [] => []

def lambda (x : Site) : List Declaration :=
  (lambdaNames x).map fun name => ⟨x.span, name, .ambiguous, none, false⟩

/-- Nodes that a variable of a pattern belongs to. -/
def ownsPatterns (k : Kind) : Bool :=
  k == .block || k == .methodDeclaration || k == .lambdaExpression

/-- The variable of an `instanceof`, which is visible to the end of the enclosing block. -/
def pattern (x : Site) : List Declaration :=
  match ((fromType x).drop 1).find? fun part => kind part == .identifier,
      (x.span :: x.around).find? fun s => ownsPatterns s.kind with
  | some name, some owner => [⟨owner, significantText name, .ambiguous, some x.start, false⟩]
  | _, _ => []

def ofNode (x : Site) : List Declaration :=
  match kind x with
  | .fieldDeclaration => variablesOf true x
  | .localVariableDeclaration => variablesOf false x
  | .formalParameter => parameter x.around[1]? x
  | .resource => parameter x.around[1]? x
  | .catchFormalParameter => parameter x.around[0]? x
  | .enhancedForStatement => parameter (some x.span) x
  | .lambdaExpression => lambda x
  | .instanceofExpression => pattern x
  | _ => []

end Declaration

/-! ## Qualified references -/

/-- The type that a dotted chain names with its package: the segments up to the first capitalised
one, if all are identifiers and the first is not capitalised. -/
def qualifiedType? (text : String) : Option TypeName :=
  let parts := Text.segments text.toList
  let lower := parts.takeWhile fun s => !Text.startsUppercase s
  match lower, parts.drop lower.length with
  | _ :: _, type :: _ =>
    if parts.all Text.isIdentifier then
      some (TypeName.ofWritten (String.ofList (Text.joinDots (lower ++ [type]))))
    else none
  | _, _ => none

/-- The type that a node names with its package; only whole chains count. -/
def qualifiedReference? (x : Site) : Option TypeName :=
  if (kind x == .scopedTypeIdentifier || kind x == .fieldAccess) && x.parentKind? != some (kind x)
  then qualifiedType? (significantText x)
  else none

/-! ## Scopes -/

/-- What a unit declares and refers to. -/
structure Scope where
  package? : Option String
  imports : List ImportDecl
  /-- The declarations, in pre-order of the declaring nodes. -/
  declarations : List Declaration
  /-- The types written with their package, without repetition. -/
  qualifiedReferences : List TypeName
deriving Repr, Inhabited

namespace Scope

def collect (root : Tree) : Scope :=
  let nodes := (Site.root root).nodes
  { package? := root.packageName?
    imports := root.imports
    declarations := nodes.flatMap Declaration.ofNode
    qualifiedReferences := (nodes.filterMap qualifiedReference?).eraseDups }

/-- Two declarations of a name say the same: both write the same type. -/
def agree : Declared → Declared → Bool
  | .written a, .written b => TypeName.ofWritten a == TypeName.ofWritten b
  | _, _ => false

/-- Several declarations of a name in one owner: the first one, with a type only if all agree. -/
def combine : List Declaration → Option Declaration
  | [] => none
  | d :: ds =>
    if ds.all fun e => agree d.declared e.declared then some d
    else some { d with declared := .ambiguous }

def binding? (scope : Scope) (owner : Span) (name : String) : Option Declaration :=
  combine (scope.declarations.filter fun d => d.owner == owner && d.name == name)

def isVisible (offset : Nat) (d : Declaration) : Bool :=
  match d.visibleFrom with
  | some start => start ≤ offset
  | none => true

/-- The innermost declaration of a name that is visible at a place, or the innermost field. -/
def lookup? (scope : Scope) (name : String) (place : Site) (fieldsOnly : Bool) : Option Declared :=
  ((place.around.filterMap fun owner => scope.binding? owner name).find? fun d =>
    (!fieldsOnly || d.isField) && isVisible place.start d).map (·.declared)

/-- The types that declarations write, one for each name of each owner whose declarations agree. -/
def declaredTypes (scope : Scope) : List String :=
  (scope.declarations.map fun d => (d.owner, d.name)).eraseDups.filterMap fun (owner, name) =>
    match scope.binding? owner name with
    | some ⟨_, _, .written type, _, _⟩ => some type
    | _ => none

end Scope

end CallMigration
