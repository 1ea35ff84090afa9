import CallMigration.Grammar.Types

/-!
# Expressions

Operators have a strength; of two operators the one with the greater strength takes the operand
between them. `binaryOperators` lists them, and `Rule.expression` reads operands joined by operators
of at least a given strength.
-/

namespace CallMigration.Grammar.Rule

/-! ## Strings -/

/-- A text of a string, glued to what follows. -/
def piece (leaf : String) (lexeme : Lexeme) : Shape := .token (some leaf) lexeme true

/-- An expression inside a string. -/
def interpolation : Shape :=
  .node "string_interpolation"
    (.seq [.token (some "\\\x7b") (.text "\\\x7b") false, expressionForm, piece "\x7d" (.text "\x7d")])

def quoted : Shape :=
  .seq [piece "\"" (.symbol "\""),
    .many (.alt [piece "string_fragment" (.regex plainRun), interpolation,
      piece "escape_sequence" (.regex escapeSequence)]),
    .token (some "\"") (.text "\"") false]

/-- A text block. Escape sequences that only text blocks have leave no leaf. -/
def textBlock : Shape :=
  .seq [piece "\"\"\"" (.text "\"\"\""),
    .many (.seq [.absent [.text "\"\"\""],
      .alt [piece "multiline_string_fragment" (.regex plainRun),
        piece "multiline_string_fragment" (.regex quotedRun), interpolation,
        .token none (.regex blockEscape) true,
        piece "escape_sequence" (.regex escapeSequence)]]),
    .token (some "\"\"\"") (.text "\"\"\"") false]

def stringForm : Shape := .node "string_literal" (.alt [textBlock, quoted])

/-! ## Primary expressions -/

def literal : Shape :=
  .alt [.number, .token (some "character_literal") (.regex characterLiteral) false, .rule .string,
    wordAs "true" "true", wordAs "false" "false", wordAs "null_literal" "null"]

def referenceTarget : Shape :=
  .seq [symbol "::", .opt (.rule .typeArguments), .alt [word "new", identifier ["new"]]]

/-- Types that cannot be read as an expression, by what they end with. -/
def properTypes : List String :=
  ["integral_type", "floating_point_type", "boolean_type", "void_type", "generic_type",
    "array_type"]

def typePrimary : Shape :=
  .alt [.node "class_literal" (.seq [.rule (.plainType operandWords), symbol ".", word "class"]),
    .node "method_reference"
      (.seq [.alt [.only ("annotated_type" :: properTypes) (.rule (.type operandWords)),
          genericMemberForm operandWords],
        referenceTarget])]

def memberName : Shape := identifier memberAccessWords

def superPrimary : Shape :=
  .alt [.node "method_invocation"
      (.seq [superWord, symbol ".", .opt (.rule .typeArguments), memberName, .rule .arguments]),
    .node "field_access" (.seq [superWord, symbol ".", .alt [memberName, thisWord]]),
    .node "method_reference" (.seq [superWord, referenceTarget])]

def arrayCreation : Shape :=
  let start : Shape := .seq [word "new", annotations, .rule (.simpleType primitives)]
  let sized : Shape :=
    .node "dimensions_expr" (.seq [annotations, symbol "[", expressionForm, symbol "]"])
  .node "array_creation_expression"
    (.seq [start, .alt [.seq [many1 sized, .opt dimensions],
      .seq [dimensions, .rule .arrayInitializer]]])

def creation : Shape :=
  .seq [word "new",
    .alt [.seq [annotations, .rule .typeArguments, annotations], annotations],
    .rule (.simpleType primitives), .rule .arguments, .opt (.rule .classBody)]

def parenthesized : Shape := .node "parenthesized_expression" (parens expressionForm)

/-- The first part of a primary expression. -/
def primaryStart : Shape :=
  .alt [literal, parenthesized, superPrimary, thisWord, arrayCreation,
    .node "object_creation_expression" creation, typePrimary,
    .node "method_invocation" (.seq [identifier expressionWords, .rule .arguments]),
    identifier expressionWords]

/-- A primary expression: calls, fields, elements and references behind each other. -/
def primaryForm : Shape :=
  let throughSuper : Shape := .opt (.seq [superWord, symbol "."])
  .chain primaryStart
    [("method_invocation", [],
        .seq [symbol ".", throughSuper, .opt (.rule .typeArguments), memberName,
          .rule .arguments]),
      ("field_access", [], .seq [symbol ".", throughSuper, .alt [memberName, thisWord]]),
      ("object_creation_expression", [], .seq [symbol ".", creation]),
      ("template_expression", [], .seq [symbol ".", .rule .string]),
      ("array_access", [], .seq [symbol "[", expressionForm, symbol "]"]),
      ("method_reference", [], referenceTarget)]

def argumentsForm : Shape := .node "argument_list" (parens (commas expressionForm))

/-! ## Operators -/

def binaryOperators : List (String × Nat) :=
  [("+", 12), ("-", 12), ("*", 13), ("/", 13), ("%", 13), ("==", 9), ("!=", 9), ("&&", 5),
    ("||", 4), ("<", 10), (">", 10), ("<=", 10), (">=", 10), ("&", 8), ("|", 6), ("^", 7),
    ("<<", 11), (">>", 11), (">>>", 11)]

def instanceofStrength : Nat := 10

def ternaryStrength : Nat := 3

def castStrength : Nat := 14

def unaryStrength : Nat := 15

def assignmentOperators : List String :=
  ["=", "+=", "-=", "*=", "/=", "&=", "|=", "^=", "%=", "<<=", ">>=", ">>>="]

def patternName : Shape := identifier ["instanceof", "when"]

/-- The right-hand side of `instanceof`. -/
def instanceofTarget : Shape :=
  .seq [word "instanceof", .opt (word "final"),
    .alt [.rule .recordPattern,
      .seq [.rule (.type (primitives ++ dualWords ++ ["final"])),
        .opt patternName]]]

/-- The operators that bind at least as tightly as `least`, with their right-hand sides. They all
group to the left but the conditional operator. -/
def operatorTails (least : Nat) (lambda : Bool) : List (String × List String × Shape) :=
  ((binaryOperators.filter fun (_, strength) => least ≤ strength).map fun (op, strength) =>
      ("binary_expression", [],
        .seq [symbol op, .rule (.expression (strength + 1) lambda)]))
    ++ (if least ≤ instanceofStrength then [("instanceof_expression", [], instanceofTarget)]
        else [])
    ++ (if least ≤ ternaryStrength then
          [("ternary_expression", [],
            .seq [symbol "?", expressionForm, symbol ":",
              .rule (.expression ternaryStrength lambda)])]
        else [])
    ++ (if least ≤ unaryStrength then [("update_expression", [], oneSymbol ["++", "--"])] else [])

def joined (least : Nat) (lambda : Bool) : Shape :=
  .chain (.rule (.operand lambda)) (operatorTails least lambda)

/-! ## Operands -/

def lambdaForm : Shape :=
  let inferred : Shape :=
    .node "inferred_parameters" (parens (commas1 (identifier (expressionWords ++ modifierWords))))
  .node "lambda_expression"
    (.seq [.alt [identifier expressionWords, .rule .parameters, inferred], symbol "->",
      .alt [.rule .block, expressionForm]])

/-- A cast. In front of a sign a single name in parentheses is an expression, also if the sign stands
behind an increment. -/
def castForm (lambda : Bool) : Shape :=
  let value : Shape := .rule (.expression (castStrength + 1) lambda)
  let noSign : Shape := .absent [.symbol "+", .symbol "-"]
  let increment : Shape :=
    .node "update_expression"
      (.seq [oneSymbol ["++", "--"], noSign, .rule (.expression (unaryStrength + 1) lambda)])
  let except := operandWords ++ modifierWords
  .alt [
    .node "cast_expression"
      (.seq [symbol "(", typeIdentifier except, symbol ")", noSign,
        .alt [.seq [.absent [.symbol "++", .symbol "--"], value],
          .chain increment (operatorTails (castStrength + 1) lambda)]]),
    .node "cast_expression"
      (.seq [symbol "(",
        .only ("scoped_type_identifier" :: "annotated_type" :: properTypes) (.rule (.type except)),
        symbol ")", value]),
    .node "cast_expression"
      (.seq [symbol "(", .rule (.type except), many1 (.seq [symbol "&", typeForm]), symbol ")",
        .alt (if lambda then [lambdaForm, .rule .primary] else [.rule .primary])])]

/-- An operand: a lambda, a cast, a signed operand, a `switch`, or a primary expression, which may
be assigned to. -/
def operandForm (lambda : Bool) : Shape :=
  let signed : Shape := .rule (.expression (unaryStrength + 1) lambda)
  .alt ((if lambda then [lambdaForm] else [])
    ++ [castForm lambda,
      .node "unary_expression" (.seq [oneSymbol ["+", "-", "!", "~"], signed]),
      .node "update_expression" (.seq [oneSymbol ["++", "--"], signed]),
      .rule .switch,
      .chain (.rule .primary)
        [("assignment_expression", ["identifier", "field_access", "array_access"],
          .seq [oneSymbol assignmentOperators, .rule (.expression 0 lambda)])]])

/-! ## Switch -/

def underscore : Shape := wordAs "underscore_pattern" "_"

def recordPatternForm : Shape :=
  let component : Shape :=
    .node "record_pattern_component"
      (.alt [.seq [.rule (.plainType operandWords), patternName], underscore])
  .node "record_pattern"
    (.seq [.alt [.only ["generic_type"] (.rule (.simpleType operandWords)),
        identifier expressionWords],
      .node "record_pattern_body" (parens (commas (.alt [.rule .recordPattern, component])))])

def patternForm : Shape :=
  .node "pattern"
    (.alt [.node "type_pattern" (.seq [.rule (.plainType operandWords), patternName]),
      .rule .recordPattern])

/-- A label of a `switch`. No lambda stands in it, so that its arrow ends it. -/
def switchLabel : Shape :=
  let guard : Shape := .opt (.node "guard" (.seq [word "when", .rule (.expression 0 false)]))
  let ends : Shape := .present [.symbol "->", .symbol ":"]
  .node "switch_label"
    (.alt [.seq [word "case", patternForm, guard, ends],
      .seq [word "case", commas1 (.rule (.expression 0 false)), guard, ends],
      word "default"])

/-- A `switch`: groups of statements or rules. -/
def switchForm : Shape :=
  let group : Shape :=
    .node "switch_block_statement_group"
      (.seq [switchLabel, symbol ":", .many (.rule .statement)])
  let throwing : Shape := .node "throw_statement" (.seq [word "throw", expressionForm, symbol ";"])
  let arrow : Shape :=
    .node "switch_rule"
      (.seq [switchLabel, symbol "->",
        .alt [.rule .block, throwing,
          .node "expression_statement" (.seq [expressionForm, symbol ";"])]])
  .node "switch_expression"
    (.seq [word "switch", parenthesized,
      .node "switch_block" (.alt [braces (.many arrow), braces (.many group)])])

end CallMigration.Grammar.Rule
