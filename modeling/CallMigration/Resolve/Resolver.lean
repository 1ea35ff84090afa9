import CallMigration.Resolve.Scope
import CallMigration.Types.Table

/-!
# Types of names and expressions

A `TypeResolver` answers which type a written name means, which type an expression has and which type
a call is dispatched on. A `Resolver` does so from what the unit declares and what the table knows.
Whatever cannot be pinned down has no answer.

* `TypeResolver` : the questions that a rule asks.
* `Resolver.resolve?` : the full name of a type as written in the source.
* `Resolver.typeWithin?` : the type of an expression, following at most a number of steps.
* `Resolver.typeOf?`, `Resolver.ownerOf?` : the same with the fixed limit.
-/

namespace CallMigration

open Element

/-! ## Types of literals and operators -/

def literalType? (k : Kind) (text : String) : Option TypeName :=
  let last := text.toList.getLast?
  match k with
  | .integerLiteral =>
    some (TypeName.ofWritten (if last == some 'l' || last == some 'L' then "long" else "int"))
  | .floatingPointLiteral =>
    some (TypeName.ofWritten (if last == some 'f' || last == some 'F' then "float" else "double"))
  | .trueLiteral | .falseLiteral => some (TypeName.ofWritten "boolean")
  | .characterLiteral => some (TypeName.ofWritten "char")
  | .stringLiteral => some (TypeName.ofWritten "java.lang.String")
  | _ => none

/-- The width of a numeric type; the types below `int` count as `int`. -/
def numericRank? (t : TypeName) : Option Nat :=
  match t.text with
  | "byte" | "short" | "char" | "int" => some 0
  | "long" => some 1
  | "float" => some 2
  | "double" => some 3
  | _ => none

def numericType (rank : Nat) : TypeName :=
  TypeName.ofWritten (["int", "long", "float"].getD rank "double")

/-- The type of an arithmetic operation: the wider one of the two. -/
def promote? (left right : TypeName) : Option TypeName := do
  return numericType (max (← numericRank? left) (← numericRank? right))

/-- The operators whose result is a truth value, whatever their operands are. -/
def comparisonOperators : List String :=
  ["==", "!=", "<", ">", "<=", ">=", "&&", "||", "instanceof"]

/-- The type of a binary operation on operands of known types. -/
def binaryType? (operator : String) (left right : TypeName) : Option TypeName :=
  let string := TypeName.ofWritten "java.lang.String"
  if operator == "+" && (left == string || right == string) then some string
  else if ["+", "-", "*", "/", "%", "&", "|", "^"].contains operator then promote? left right
  else if ["<<", ">>", ">>>"].contains operator then promote? left left
  else none

def unaryType? (operator : String) (operand : TypeName) : Option TypeName :=
  if operator == "!" then some (TypeName.ofWritten "boolean")
  else if ["-", "+", "~"].contains operator then promote? operand operand
  else none

/-! ## Resolvers -/

/-- Answers questions about the types in a unit. -/
class TypeResolver (R : Type) where
  /-- The type of an expression. -/
  typeOf? : R → Site → Option TypeName
  /-- The type that a call is dispatched on. -/
  ownerOf? : R → Site → Option TypeName
  /-- The full name of a type as written in the source. -/
  resolve? : R → String → Option TypeName
  /-- The first type is the second one or one of its subtypes. -/
  isSubtype : R → TypeName → TypeName → Bool

/-- Answers from the declarations of a unit and a table of types. -/
structure Resolver where
  table : TypeTable
  scope : Scope
deriving Repr, Inhabited

namespace Resolver

def ofTree (table : TypeTable) (root : Tree) : Resolver :=
  ⟨table, Scope.collect root⟩

/-- The full name of a type whose first segment is `head`: a single import wins, then the unit's
package, then wildcard imports in order, then the types of `java.lang`. -/
def resolveHead? (r : Resolver) (head : String) : Option TypeName :=
  match r.scope.imports.find? fun i => !i.isStatic && i.simpleName? == some head with
  | some i => some (TypeName.ofWritten i.path)
  | none =>
    match r.scope.package?.bind fun p => r.table.findInPackage? p head with
    | some found => some found
    | none =>
      match (r.scope.imports.filter fun i => i.isWildcard && !i.isStatic).findSome? fun i =>
          r.table.findInPackage? i.path head with
      | some found => some found
      | none =>
        if javaLangTypes.contains head then some (TypeName.ofWritten ("java.lang." ++ head))
        else none

/-- The full name of a type that is no array. -/
def resolveElement? (r : Resolver) (name : TypeName) : Option TypeName :=
  if name.isPrimitive then some name
  else if name.text == "var" then none
  else
    let (head, rest) :=
      match Text.splitFirst (· == '.') name.chars with
      | some (head, rest) => (String.ofList head, some (String.ofList rest))
      | none => (name.text, none)
    match r.resolveHead? head with
    | some found =>
      match rest with
      | some rest => some (found.member rest)
      | none => some found
    | none => if name.isQualified then some name else none

/-- The full name of a type as written in the source. -/
def resolve? (r : Resolver) (written : String) : Option TypeName :=
  let (count, element) := (TypeName.ofWritten written).dimensions
  (r.resolveElement? element).map (·.array count)

/-- The type that a declaration gives its name; `infer` answers for initial values. -/
def declaredType? (r : Resolver) (infer : Site → Option TypeName) : Declared → Option TypeName
  | .written type => r.resolve? type
  | .inferred init => infer init
  | .ambiguous => none

/-- The type that a call is dispatched on. `infer` answers for its receiver, and `inferInit` for the
initial values of variables. -/
def ownerBy? (r : Resolver) (infer inferInit : Site → Option TypeName) (call : Site) :
    Option TypeName :=
  match Call.receiver? call with
  | none => none
  | some receiver =>
    match receiver.element with
    | .token .identifier name =>
      match r.scope.lookup? name receiver false with
      | some declared => r.declaredType? inferInit declared
      | none => r.resolve? name
    | .node .fieldAccess _ =>
      match infer receiver with
      | some t => some t
      | none => r.resolve? (significantText receiver)
    | _ => infer receiver

/-- The type of an expression. `infer` answers for its parts, and `inferInit` for the initial values
of variables that calls in it are made on. -/
def typeBy? (r : Resolver) (infer inferInit : Site → Option TypeName) (e : Site) :
    Option TypeName :=
  match e.element with
  | .token .identifier name =>
    (r.scope.lookup? name e false).bind (r.declaredType? infer)
  | .token k text => literalType? k text
  | .node k _ =>
    match k with
    | .integerLiteral | .floatingPointLiteral | .stringLiteral | .characterLiteral
    | .trueLiteral | .falseLiteral => literalType? k (significantText e)
    | .parenthesizedExpression =>
      ((significantChildren e).find? fun x =>
        kind x != .leftParen && kind x != .rightParen).bind infer
    | .castExpression | .objectCreationExpression =>
      (CallMigration.declaredType? e).bind fun type => r.resolve? (significantText type)
    | .methodInvocation =>
      match r.ownerBy? infer inferInit e, Call.name? e with
      | some owner, some name => r.table.returnType? owner name (Call.arguments e).length
      | _, _ => none
    | .fieldAccess =>
      match significantChildren e with
      | object :: _ :: field :: _ =>
        if kind object == .thisReference then
          (r.scope.lookup? (significantText field) field true).bind (r.declaredType? infer)
        else none
      | _ => none
    | .binaryExpression =>
      match significantChildren e with
      | left :: operator :: right :: _ =>
        if comparisonOperators.contains (significantText operator) then
          some (TypeName.ofWritten "boolean")
        else
          match infer left, infer right with
          | some l, some t => binaryType? (significantText operator) l t
          | _, _ => none
      | _ => none
    | .unaryExpression =>
      match significantChildren e with
      | operator :: operand :: _ => (infer operand).bind (unaryType? (significantText operator))
      | _ => none
    | _ => none

/-- The type of an expression, following at most `steps` steps into its parts and the initial values
of variables. -/
def typeWithin? (r : Resolver) : Nat → Site → Option TypeName
  | 0, _ => none
  | 1, e => r.typeBy? (fun _ => none) (fun _ => none) e
  | steps + 2, e => r.typeBy? (r.typeWithin? (steps + 1)) (r.typeWithin? steps) e

/-- The type that a call is dispatched on, following at most `steps` steps. -/
def ownerWithin? (r : Resolver) (steps : Nat) (call : Site) : Option TypeName :=
  r.ownerBy? (r.typeWithin? steps) (r.typeWithin? (steps - 1)) call

def stepLimit : Nat := 33

def typeOf? (r : Resolver) (e : Site) : Option TypeName :=
  r.typeWithin? stepLimit e

def ownerOf? (r : Resolver) (call : Site) : Option TypeName :=
  r.ownerWithin? stepLimit call

def isSubtype (r : Resolver) (sub sup : TypeName) : Bool :=
  r.table.isSubtype sub sup

instance : TypeResolver Resolver where
  typeOf? := typeOf?
  ownerOf? := ownerOf?
  resolve? := resolve?
  isSubtype := isSubtype

end Resolver

end CallMigration
