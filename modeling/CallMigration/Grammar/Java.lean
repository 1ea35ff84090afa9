import CallMigration.Grammar.Declarations

/-!
# The grammar of Java

`Rule.form` gives each rule its form, and `parse?` reads a whole source with it.
-/

namespace CallMigration.Grammar

namespace Rule

def form : Rule → Shape
  | name => nameForm
  | annotationUse => annotationForm
  | type except => annotatedTypeForm except
  | plainType except => plainTypeForm except
  | simpleType except => simpleTypeForm except
  | typeArguments => typeArgumentsForm
  | expression least lambda => joined least lambda
  | operand lambda => operandForm lambda
  | primary => primaryForm
  | string => stringForm
  | arguments => argumentsForm
  | switch => switchForm
  | arrayInitializer => arrayInitializerForm
  | elementValue => elementValueForm
  | recordPattern => recordPatternForm
  | parameters => parametersForm
  | typeParameters => typeParametersForm
  | modifiers => modifiersForm
  | block => blockForm
  | statement => .alt [statementForm, unitDeclaration]
  | classBody => classBodyForm
  | typeDeclaration => typeDeclarationForm

/-- A whole unit: statements, declarations and methods. -/
def program : Shape :=
  .many (.alt [.rule .statement, methodForm statementWords])

end Rule

/-- The number of forms that can stand inside each other without a token in between. -/
def nesting : Nat := 128

/-- The rules that cover a source and the bytes they cover, if the grammar covers all of it. -/
def parse? (source : String) : Option SpanTree :=
  let chars := source.toList
  match Rule.program.run Rule.form (nesting * (chars.length + 2)) (Input.ofSource chars) [] with
  | some (i, out) =>
    if i.rest.isEmpty then
      some (.mk "program" 0 source.utf8ByteSize (i.comments ++ out).reverse)
    else none
  | none => none

end CallMigration.Grammar
