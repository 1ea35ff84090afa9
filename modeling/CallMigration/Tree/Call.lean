import CallMigration.Tree.Site

/-!
# Method calls

The parts of a call `receiver.name(arguments)`. Trees keep no names for the parts of a node, so they
are found by the order and kinds of the children.
-/

namespace CallMigration

namespace Call

open Element

variable {α : Type} [Element α]

def isCall (x : α) : Bool :=
  (tree x).isNode && kind x == .methodInvocation

/-- The list of arguments: the last child that is such a node. -/
def argumentList? (call : α) : Option α :=
  ((children call).filter fun x => (tree x).isNode && kind x == .argumentList).getLast?

/-- The token with the name of the method: the last identifier before the arguments. -/
def name? (call : α) : Option String :=
  (((significantChildren call).takeWhile fun x => kind x != .argumentList).filterMap fun x =>
    if kind x == .identifier then (tree x).tokenText? else none).getLast?

/-- What the method is called on: the first part, if a dot follows it. -/
def receiver? (call : α) : Option α :=
  match significantChildren call with
  | first :: second :: _ => if kind second == .dot then some first else none
  | _ => none

def isArgument (x : α) : Bool :=
  isSignificant x && kind x != .leftParen && kind x != .rightParen && kind x != .comma

def argumentsOf (list : α) : List α :=
  (children list).filter isArgument

def arguments (call : α) : List α :=
  match argumentList? call with
  | some list => argumentsOf list
  | none => []

end Call

/-- The first part of a declaration that spells its type. -/
def declaredType? {α : Type} [Element α] (declaration : α) : Option α :=
  (Element.significantChildren declaration).find? fun x => (Element.kind x).isType

end CallMigration
