import CallMigration.Rule.Template

/-!
# Applying a template to a call

Each slot identifier of a template's body is replaced by the argument selected for it. An expression
that lands where it could be torn apart is put in parentheses.

* `substitute` : the body with arguments in its slots.
* `Template.replacement?` : what a call is replaced by.
-/

namespace CallMigration

/-! ## Grouping -/

/-- An element that is never torn apart. -/
def isPrimary : Tree → Bool
  | .token _ _ => true
  | .node k _ =>
    k == .methodInvocation || k == .fieldAccess || k == .objectCreationExpression
      || k == .parenthesizedExpression || k == .stringLiteral || k == .characterLiteral

/-- A node whose parts stand on their own. -/
def isDelimiting (k : Kind) : Bool :=
  k == .argumentList || k == .parenthesizedExpression || k == .expressionStatement
    || k == .returnStatement || k == .variableDeclarator || k == .assignmentExpression
    || k == .lambdaExpression

/-- An element in parentheses. -/
def parenthesize (t : Tree) : Tree :=
  .node .parenthesizedExpression [.token .leftParen "(", t, .token .rightParen ")"]

/-- The element, in parentheses where the node around it could tear it apart. -/
def group (parent : Option Kind) (t : Tree) : Tree :=
  if isPrimary t || (parent.map isDelimiting).getD false then t else parenthesize t

/-! ## Substitution -/

/-- The argument for the slot that a token stands for. -/
def capturedAt? (captured : List Tree) (k : Kind) (text : String) : Option Tree :=
  if k == .identifier then (slotIndex? text).bind (captured[·]?) else none

mutual
/-- The element with the captured arguments in its slots. -/
def substitute (captured : List Tree) (parent : Option Kind) : Tree → Tree
  | .token k s =>
    match capturedAt? captured k s with
    | some argument => group parent argument
    | none => .token k s
  | .node k cs => .node k (substituteAll captured (some k) cs)
/-- The elements with the captured arguments in their slots. -/
def substituteAll (captured : List Tree) (parent : Option Kind) : List Tree → List Tree
  | [] => []
  | t :: ts => substitute captured parent t :: substituteAll captured parent ts
end

/-! ## Replacing a call -/

def leadingTrivia (ts : List Tree) : List Tree :=
  ts.takeWhile fun t => t.kind.isTrivia

def trailingTrivia (ts : List Tree) : List Tree :=
  (ts.reverse.takeWhile fun t => t.kind.isTrivia).reverse

/-- The position and the children of the last argument list among the children of a call. -/
def lastArguments? (children : List Tree) : Option (Nat × List Tree) :=
  (children.zipIdx.filterMap fun (t, i) =>
    match t with
    | .node .argumentList cs => some (i, cs)
    | _ => none).getLast?

/-- The children of an argument list with other contents; the parentheses and the trivia just inside
them stay. -/
def replaceContents? (contents list : List Tree) : Option (List Tree) :=
  match list with
  | [] => none
  | first :: rest =>
    match rest.getLast? with
    | none => none
    | some last =>
      if first.kind == .leftParen && last.kind == .rightParen then
        let inner := rest.dropLast
        some (first :: (leadingTrivia inner ++ contents ++ trailingTrivia inner ++ [last]))
      else none

namespace Template

/-- What a call is replaced by. `parent` is the kind of the node around the call. There is no answer
if the element is no call of the expected shape or lacks a selected argument. -/
def replacement? (t : Template) (call : Tree) (selected : List Nat) (parent : Option Kind) :
    Option Tree :=
  match call with
  | .node .methodInvocation children =>
    if selected.length ≠ t.placeholders.length then none
    else
      match lastArguments? children with
      | none => none
      | some (position, list) =>
        let arguments := list.filter Call.isArgument
        match selected.mapM fun index => arguments[index]? with
        | none => none
        | some captured =>
          match t.target with
          | .invocation =>
            match t.body with
            | [body] => some (group parent (substitute captured none body))
            | _ => none
          | .arguments =>
            (replaceContents? (substituteAll captured (some .argumentList) t.body) list).map
              fun contents =>
                .node .methodInvocation (children.set position (.node .argumentList contents))
  | _ => none

end Template

end CallMigration
