import CallMigration.Grammar.Form

/-!
# The rules of Java

The rules of the grammar that refer to each other, the words that are keywords at a place, and the
forms that all parts of the grammar are built from.

A word is a keyword only where the grammar lets that keyword stand; anywhere else it is an
identifier. The lists of words below say what cannot be read as an identifier at a place.
-/

namespace CallMigration.Grammar

/-- The rules that other forms refer to. -/
inductive Rule where
  /-- A dotted name. -/
  | name
  /-- An annotation. -/
  | annotationUse
  /-- A type, annotated or not, that does not begin with one of the given words. -/
  | type (except : List String)
  /-- A type without annotations in front. -/
  | plainType (except : List String)
  /-- A type that is no array. -/
  | simpleType (except : List String)
  /-- Type arguments in angle brackets. -/
  | typeArguments
  /-- An expression whose operators bind at least as tightly as `least`; `lambda` says whether a
  lambda may stand in it. -/
  | expression (least : Nat) (lambda : Bool)
  /-- The operand of an operator. -/
  | operand (lambda : Bool)
  /-- An expression that needs no parentheses anywhere. -/
  | primary
  /-- A string or a text block. -/
  | string
  /-- The arguments of a call. -/
  | arguments
  /-- A `switch`. -/
  | switch
  /-- The initial values of an array. -/
  | arrayInitializer
  /-- The value of an element of an annotation. -/
  | elementValue
  /-- A pattern that takes a record apart. -/
  | recordPattern
  /-- The parameters of a method or lambda. -/
  | parameters
  /-- Type parameters in angle brackets. -/
  | typeParameters
  /-- Modifiers and annotations. -/
  | modifiers
  /-- Statements in braces. -/
  | block
  /-- A statement. -/
  | statement
  /-- The members of a class. -/
  | classBody
  /-- A declaration of a type inside another one or in a block. -/
  | typeDeclaration

namespace Rule

abbrev Shape := Form Rule

/-! ## Words -/

def primitives : List String :=
  ["byte", "short", "int", "long", "char", "float", "double", "boolean", "void"]

/-- The words that are identifiers as well as keywords. -/
def dualWords : List String :=
  ["open", "module", "record", "with", "yield", "sealed"]

def modifierWords : List String :=
  ["public", "protected", "private", "abstract", "static", "final", "strictfp", "default",
    "synchronized", "native", "transient", "volatile", "sealed"]

/-- The keywords that an expression may begin with, and the operator `instanceof`. -/
def expressionWords : List String :=
  primitives ++ ["true", "false", "null", "this", "super", "new", "switch", "instanceof"]

/-- The keywords that are not read as a type where an expression may stand. -/
def operandWords : List String :=
  expressionWords ++ dualWords

def parameterWords : List String :=
  primitives ++ modifierWords

/-- The keywords that a member of a class may begin with. -/
def memberWords : List String :=
  parameterWords ++ ["class", "interface", "enum", "record"]

/-- The keywords that a statement may begin with and an expression may not. -/
def statementOnlyWords : List String :=
  ["abstract", "assert", "break", "case", "catch", "class", "continue", "default", "do", "else",
    "enum", "extends", "final", "finally", "for", "if", "implements", "import", "instanceof",
    "interface", "native", "package", "private", "protected", "public", "return", "static",
    "strictfp", "synchronized", "throw", "throws", "transient", "try", "volatile", "while"]

def statementWords : List String :=
  statementOnlyWords ++ operandWords

/-- The words that follow a dot as keywords. -/
def memberAccessWords : List String :=
  ["class", "new", "super", "this"]

/-! ## Building blocks -/

def symbol (s : String) : Shape := .token (some s) (.symbol s) false

def word (s : String) : Shape := .token (some s) (.word s) false

/-- A keyword that is recorded under a rule of its own. -/
def wordAs (rule s : String) : Shape := .token (some rule) (.word s) false

/-- The bracket that closes type arguments, also where a longer operator begins with it. -/
def closeAngle : Shape := .token (some ">") (.text ">") false

def identifier (except : List String) : Shape := .token (some "identifier") (.name except) false

def typeIdentifier (except : List String) : Shape :=
  .token (some "type_identifier") (.name except) false

/-- At least once. -/
def many1 (f : Shape) : Shape := .seq [f, .many f]

def sepBy (f separator : Shape) : Shape := .seq [f, .many (.seq [separator, f])]

def commas1 (f : Shape) : Shape := sepBy f (symbol ",")

def commas (f : Shape) : Shape := .opt (commas1 f)

def parens (f : Shape) : Shape := .seq [symbol "(", f, symbol ")"]

def braces (f : Shape) : Shape := .seq [symbol "\x7b", f, symbol "\x7d"]

/-- One of several keywords. -/
def oneWord (ws : List String) : Shape := .alt (ws.map word)

def oneSymbol (ss : List String) : Shape := .alt (ss.map symbol)

def thisWord : Shape := wordAs "this" "this"

def superWord : Shape := wordAs "super" "super"

def typeForm : Shape := .rule (.type primitives)

def expressionForm : Shape := .rule (.expression 0 true)

def annotations : Shape := .many (.rule .annotationUse)

end Rule

end CallMigration.Grammar
