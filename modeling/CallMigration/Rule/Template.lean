import CallMigration.Tree.Call
import CallMigration.Tree.Unit
import CallMigration.Rule.Error

/-!
# Templates

A `Template` is a fragment of Java with placeholders, read once when a rule is built. The
placeholders are replaced by identifiers, the fragment is read inside a small class, and the part of
the tree that is the fragment becomes the body. Every mistake in a fragment is found here.

* `Target` : what the body replaces at a call.
* `Template.compile` : checks and reads a fragment.
-/

namespace CallMigration

open Element

/-- What a template replaces at a call. -/
inductive Target where
  /-- What stands between the parentheses of the call. -/
  | arguments
  /-- The whole call. -/
  | invocation
deriving DecidableEq, Repr, Inhabited

/-- A compiled fragment. -/
structure Template where
  fragment : String
  target : Target
  placeholders : List Placeholder
  /-- The types that the fragment needs imported. -/
  imports : List TypeName
  /-- The elements of the fragment, with slot identifiers for placeholders. -/
  body : List Tree
deriving DecidableEq, Repr, Inhabited

namespace Template

/-! ## Reading a fragment -/

def hostClass : String := "__HcrewriteTemplate"

/-- The method around a fragment. -/
def hostName : String := "__hcrewrite_template"

/-- A class around a fragment with slot identifiers. -/
def host (target : Target) (fragment : String) : String :=
  "class " ++ hostClass ++ match target with
  | .invocation => " \x7b Object " ++ hostName ++ "() \x7b return " ++ fragment ++ "; \x7d \x7d"
  | .arguments =>
    " \x7b void " ++ hostName ++ "() \x7b " ++ hostName ++ "(" ++ fragment ++ "); \x7d \x7d"

def expressionOf? (root : Tree) (fragment : String) : Option (List Tree) :=
  match root.nodes.find? fun t => t.kind == .returnStatement with
  | none => none
  | some statement =>
    match significantChildren statement with
    | [_, expression, semicolon] =>
      if semicolon.kind == .semicolon
          && expression.text == String.ofList (Text.trim fragment.toList) then
        some [expression]
      else none
    | _ => none

/-- Drops the whitespace tokens at both ends. -/
def dropOuterSpace (ts : List Tree) : List Tree :=
  let isSpace (t : Tree) : Bool := t.kind == .whitespace
  ((ts.dropWhile isSpace).reverse.dropWhile isSpace).reverse

/-- What stands between the parentheses of an argument list. -/
def insideParens? (ts : List Tree) : Option (List Tree) :=
  match ts with
  | first :: rest =>
    match rest.getLast? with
    | some last =>
      if first.kind == .leftParen && last.kind == .rightParen then some rest.dropLast else none
    | none => none
  | [] => none

/-- The contents of the argument list, if they are the whole fragment. -/
def argumentsOf? (root : Tree) (fragment : String) : Option (List Tree) := do
  let call ← root.nodes.find? fun t => Call.isCall t && Call.name? t == some hostName
  let list ← Call.argumentList? call
  if list.text != "(" ++ fragment ++ ")" then none
  else
    let inside := dropOuterSpace (← insideParens? list.children)
    if inside.isEmpty then none else some inside

/-! ## Names in a fragment -/

/-- A dot or a double colon, behind which a name is a member. -/
def isSelector : Option Tree → Bool
  | some t => t.kind == .dot || t.tokenText? == some "::"
  | none => false

/-- Nodes that chain names with dots. -/
def isChain (k : Kind) : Bool :=
  k == .fieldAccess || k == .scopedTypeIdentifier || k == .scopedIdentifier

mutual
/-- The names that begin a chain, each with the largest chain it begins. `chain` is the largest chain
around the element, and `before` the element in front of it. -/
def heads (chain before : Option Tree) : Tree → List (String × Option Tree)
  | .token k s =>
    if (k == .identifier || k == .typeIdentifier) && !isSelector before then [(s, chain)] else []
  | .node k cs =>
    headsOf (if isChain k then some (chain.getD (.node k cs)) else none) none cs
/-- The names that begin a chain in elements that follow each other. -/
def headsOf (chain before : Option Tree) : List Tree → List (String × Option Tree)
  | [] => []
  | t :: ts =>
    heads chain before t ++ headsOf chain (if t.kind.isTrivia then before else some t) ts
end

/-- A name that a fragment may use: a slot, an imported type, a type of `java.lang`, or the beginning
of a name with its package. -/
def isKnown (imports : List TypeName) (name : String) (chain : Option Tree) : Bool :=
  (slotIndex? name).isSome || imports.any (fun i => i.simpleName == name)
    || javaLangTypes.contains name
    || match chain with
      | some t => (TypeName.ofWritten t.significantText).isQualified
      | none => false

/-- The first name that a fragment may not use. -/
def unknownName? (imports : List TypeName) (body : List Tree) : Option String :=
  ((headsOf none none body).find? fun (name, chain) => !isKnown imports name chain).map (·.1)

/-! ## Compiling -/

def firstMismatch? : Nat → List Placeholder → List Placeholder →
    Option (Nat × Placeholder × Placeholder)
  | index, a :: as, b :: bs =>
    if a = b then firstMismatch? (index + 1) as bs else some (index, a, b)
  | _, _, _ => none

def scan (fragment : String) : Except RuleError (List Placeholder) :=
  match Placeholder.scan fragment with
  | .ok ps => .ok ps
  | .error content => .error (.placeholder (.malformed (String.ofList content)))

def checkPlaceholders (fragment : String) (declared : List Placeholder) : Except RuleError Unit := do
  let found ← scan fragment
  if found.length ≠ declared.length then
    .error (.placeholder (.count fragment found.length declared.length))
  else
    match firstMismatch? 0 found declared with
    | some (index, written, expected) =>
      .error (.placeholder (.slot index fragment written expected))
    | none => .ok ()

def checkImport (fragment name : String) : Except RuleError TypeName :=
  match TypeName.parse? name with
  | some t =>
    if t.isQualified && !t.isArray then .ok t
    else .error (.template fragment (.unqualifiedImport name))
  | none => .error (.template fragment (.unqualifiedImport name))

def readBody (read : String → Except SpanError JavaUnit) (fragment : String) (target : Target) :
    Except RuleError (List Tree) :=
  let filled := String.ofList (fillSlots 0 (pieces fragment.toList))
  match read (host target filled) with
  | .error e => .error (.span e)
  | .ok u =>
    if u.hasErrors then .error (.template fragment .unreadable)
    else
      match target with
      | .invocation =>
        match expressionOf? u.tree filled with
        | some body => .ok body
        | none => .error (.template fragment .severalExpressions)
      | .arguments =>
        match argumentsOf? u.tree filled with
        | some body => .ok body
        | none => .error (.template fragment .severalLists)

/-- Checks a fragment with its declared placeholders, and reads it. -/
def compileBy (read : String → Except SpanError JavaUnit) (fragment : String)
    (placeholders : List Placeholder) (imports : List String) (target : Target) :
    Except RuleError Template := do
  if (Text.trim fragment.toList).isEmpty then .error (.template fragment .emptyFragment)
  checkPlaceholders fragment placeholders
  let imports ← imports.mapM (checkImport fragment)
  let body ← readBody read fragment target
  match unknownName? imports body with
  | some name => .error (.template fragment (.unknownName name))
  | none => return ⟨fragment, target, placeholders, imports, body⟩

/-- Checks a fragment with its declared placeholders and reads it with a parser. -/
def compileWith (parser : Parser) (fragment : String) (placeholders : List Placeholder)
    (imports : List String) (target : Target) : Except RuleError Template :=
  compileBy (JavaUnit.parseWith parser) fragment placeholders imports target

/-- Checks and reads a fragment with its declared placeholders. -/
def compile (fragment : String) (placeholders : List Placeholder) (imports : List String)
    (target : Target) : Except RuleError Template :=
  compileWith Grammar.parser fragment placeholders imports target

/-- Checks and reads a fragment with the placeholders that are written in it. -/
def ofFragment (fragment : String) (imports : List String) (target : Target) :
    Except RuleError Template := do
  compile fragment (← scan fragment) imports target

end Template

end CallMigration
