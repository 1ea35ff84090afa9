import CallMigration.Grammar.Rule

/-!
# Names, annotations and types

The forms of dotted names, annotations with their arguments, types, and type parameters.
-/

namespace CallMigration.Grammar.Rule

/-! ## Names and annotations -/

def nameForm : Shape :=
  .chain (identifier []) [("scoped_identifier", [], .seq [symbol ".", identifier []])]

def elementPair : Shape :=
  .node "element_value_pair"
    (.seq [identifier expressionWords, symbol "=", .rule .elementValue])

/-- The arguments of an annotation: named elements or a single value. -/
def annotationArguments : Shape :=
  .node "annotation_argument_list"
    (.alt [parens (commas elementPair), parens (.rule .elementValue)])

def annotationForm : Shape :=
  .alt [.node "annotation" (.seq [symbol "@", .rule .name, annotationArguments]),
    .node "marker_annotation" (.seq [symbol "@", .rule .name])]

def elementValueForm : Shape :=
  .alt [.rule .annotationUse,
    .node "element_value_array_initializer"
      (braces (.seq [commas (.rule .elementValue), .opt (symbol ",")])),
    expressionForm]

/-! ## Types -/

def primitiveType : Shape :=
  .alt [.node "integral_type" (oneWord ["byte", "short", "int", "long", "char"]),
    .node "floating_point_type" (oneWord ["float", "double"]),
    wordAs "boolean_type" "boolean", wordAs "void_type" "void"]

/-- Type arguments behind a name. -/
def genericTail : String × List String × Shape :=
  ("generic_type", ["type_identifier", "scoped_type_identifier"], .rule .typeArguments)

/-- A name behind a dot. -/
def memberTail : String × List String × Shape :=
  ("scoped_type_identifier", [], .seq [symbol ".", annotations, typeIdentifier memberAccessWords])

/-- A type that is no array: a primitive one, or names with type arguments. -/
def simpleTypeForm (except : List String) : Shape :=
  .alt [primitiveType, .chain (typeIdentifier except) [genericTail, memberTail]]

/-- Names of which not only the last one may have type arguments, but one has. -/
def genericMemberForm (except : List String) : Shape :=
  let outer : Shape := .chain (.chain (typeIdentifier except) [memberTail]) [genericTail]
  .chain (.only ["generic_type"] outer) [genericTail, memberTail]

/-- The empty brackets of an array type. -/
def dimensions : Shape :=
  .node "dimensions" (many1 (.seq [annotations, symbol "[", symbol "]"]))

def plainTypeForm (except : List String) : Shape :=
  .chain (.rule (.simpleType except)) [("array_type", [], dimensions)]

def annotatedTypeForm (except : List String) : Shape :=
  .alt [.rule (.plainType except),
    .node "annotated_type" (.seq [many1 (.rule .annotationUse), .rule (.plainType primitives)])]

/-- A wildcard among type arguments. -/
def wildcard : Shape :=
  .node "wildcard"
    (.seq [annotations, symbol "?",
      .opt (.alt [.seq [word "extends", typeForm], .seq [superWord, typeForm]])])

def typeArgumentsForm : Shape :=
  .node "type_arguments" (.seq [symbol "<", commas (.alt [typeForm, wildcard]), closeAngle])

/-! ## Type parameters -/

def typeBound : Shape :=
  .node "type_bound" (.seq [word "extends", sepBy typeForm (symbol "&")])

def typeParameter : Shape :=
  .node "type_parameter" (.seq [annotations, typeIdentifier [], .opt typeBound])

def typeParametersForm : Shape :=
  .node "type_parameters" (.seq [symbol "<", commas1 typeParameter, closeAngle])

end CallMigration.Grammar.Rule
