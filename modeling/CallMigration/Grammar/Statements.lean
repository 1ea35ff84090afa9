import CallMigration.Grammar.Expressions

/-!
# Statements

The forms of local variables and of all statements that are not declarations of types.
-/

namespace CallMigration.Grammar.Rule

/-! ## Variables -/

def variableName : Shape := identifier ["instanceof"]

/-- The name of a variable, with the brackets of an array behind it. -/
def declaratorId : Shape :=
  .seq [.alt [underscore, variableName], .opt dimensions]

def arrayInitializerForm : Shape :=
  .node "array_initializer"
    (braces (.seq [commas (.alt [.rule .arrayInitializer, expressionForm]), .opt (symbol ",")]))

/-- A variable with its initial value. -/
def declarator : Shape :=
  .node "variable_declarator"
    (.seq [declaratorId,
      .opt (.seq [symbol "=", .alt [.rule .arrayInitializer, expressionForm]])])

def variableList (rule : String) (except : List String) : Shape :=
  .node rule
    (.seq [.opt (.rule .modifiers), .rule (.plainType except), commas1 declarator, symbol ";"])

def localVariables : Shape := variableList "local_variable_declaration" statementWords

/-! ## Compound statements -/

def condition : Shape := .node "condition" (parens expressionForm)

def body : Shape := .rule .statement

/-- The two forms of `for`. -/
def loops : Shape :=
  .alt [
    .node "enhanced_for_statement"
      (.seq [word "for", symbol "(", .opt (.rule .modifiers), .rule (.plainType statementWords),
        declaratorId, symbol ":", expressionForm, symbol ")", body]),
    .node "for_statement"
      (.seq [word "for", symbol "(",
        .alt [localVariables, .seq [commas expressionForm, symbol ";"]],
        .opt expressionForm, symbol ";", commas expressionForm, symbol ")", body])]

def catchClause : Shape :=
  let parameter : Shape :=
    .node "catch_formal_parameter"
      (.seq [.opt (.rule .modifiers),
        .node "catch_type" (sepBy (.rule (.plainType parameterWords)) (symbol "|")),
        declaratorId])
  .node "catch_clause" (.seq [word "catch", parens parameter, .rule .block])

def finallyClause : Shape := .node "finally_clause" (.seq [word "finally", .rule .block])

def resource : Shape :=
  .node "resource"
    (.alt [
      .seq [.opt (.rule .modifiers), .rule (.plainType statementWords), declaratorId, symbol "=",
        expressionForm],
      .only ["identifier", "field_access"] (.rule .primary)])

/-- The two forms of `try`. -/
def tries : Shape :=
  .alt [
    .node "try_with_resources_statement"
      (.seq [word "try",
        .node "resource_specification"
          (parens (.seq [sepBy resource (symbol ";"), .opt (symbol ";")])),
        .rule .block, .many catchClause, .opt finallyClause]),
    .node "try_statement"
      (.seq [word "try", .rule .block,
        .alt [.seq [many1 catchClause, .opt finallyClause], finallyClause]])]

/-! ## Simple statements -/

def simple (rule keyword : String) (f : Shape) : Shape :=
  .node rule (.seq [word keyword, f, symbol ";"])

def blockForm : Shape := .node "block" (braces (.many (.rule .statement)))

/-- The word `yield` in front of what a value may begin with. There it is no name. -/
def yieldOfValue : Lexeme :=
  .regex (.seq [.text "yield", .star (.one isSpace),
    .choice [.char '(', .text "++", .text "--"]])

def statementForm : Shape :=
  .alt [.rule .block, symbol ";",
    .node "if_statement"
      (.seq [word "if", condition, body, .opt (.seq [word "else", body])]),
    .node "while_statement" (.seq [word "while", condition, body]),
    loops,
    .node "do_statement"
      (.seq [word "do", body, word "while", parenthesized, symbol ";"]),
    tries,
    .rule .switch,
    .node "synchronized_statement"
      (.seq [word "synchronized", parenthesized, .rule .block]),
    simple "return_statement" "return" (.opt expressionForm),
    simple "throw_statement" "throw" expressionForm,
    simple "break_statement" "break" (.opt (identifier [])),
    simple "continue_statement" "continue" (.opt (identifier [])),
    simple "assert_statement" "assert"
      (.seq [expressionForm, .opt (.seq [symbol ":", expressionForm])]),
    simple "yield_statement" "yield" expressionForm,
    .node "labeled_statement" (.seq [identifier statementWords, symbol ":", body]),
    .rule .typeDeclaration,
    localVariables,
    .node "expression_statement"
      (.seq [.absent (yieldOfValue :: statementOnlyWords.map .word), expressionForm, symbol ";"])]

end CallMigration.Grammar.Rule
