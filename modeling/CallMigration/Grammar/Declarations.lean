import CallMigration.Grammar.Statements

/-!
# Declarations

The forms of modifiers, parameters, members, types, packages, imports and modules.
-/

namespace CallMigration.Grammar.Rule

/-! ## Modifiers and parameters -/

def modifierWord : Shape :=
  .alt [.token (some "non-sealed") (.text "non-sealed") false, oneWord modifierWords]

def modifiersForm : Shape :=
  .node "modifiers" (many1 (.alt [.rule .annotationUse, modifierWord]))

def modifiersOpt : Shape := .opt (.rule .modifiers)

/-- The parameters of a method or lambda. The word `this` names a parameter only where no receiver can
stand: behind other parameters and behind modifiers. -/
def parametersForm : Shape :=
  let receiver : Shape :=
    .node "receiver_parameter"
      (.seq [annotations, .rule (.plainType parameterWords),
        .many (.seq [identifier ["this"], symbol "."]), thisWord])
  let spread : Shape :=
    .node "spread_parameter"
      (.seq [modifiersOpt, .rule (.plainType parameterWords), symbol "...", declarator])
  let modified : Shape :=
    .node "modifiers"
      (.seq [annotations, modifierWord, .many (.alt [.rule .annotationUse, modifierWord])])
  let parameter (modifiers : Shape) (name : Shape) : Shape :=
    .node "formal_parameter" (.seq [modifiers, .rule (.plainType parameterWords), name])
  let first : Shape :=
    .alt [parameter modifiersOpt (.seq [.absent [.word "this"], declaratorId]),
      parameter modified declaratorId, spread]
  let listed : Shape := .alt [parameter modifiersOpt declaratorId, spread]
  .node "formal_parameters"
    (.alt [parens (.opt (.seq [first, .many (.seq [symbol ",", listed])])), parens receiver,
      parens (.seq [receiver, symbol ",", commas listed])])

/-- The exceptions of a method. -/
def throwsClause : Shape := .node "throws" (.seq [word "throws", commas1 typeForm])

/-! ## Members -/

def fields : Shape := variableList "field_declaration" memberWords

def constants : Shape := variableList "constant_declaration" memberWords

def methodForm (except : List String) : Shape :=
  .node "method_declaration"
    (.seq [modifiersOpt, .opt (.seq [.rule .typeParameters, annotations]),
      .rule (.plainType except), variableName, .rule .parameters, .opt dimensions,
      .opt throwsClause, .alt [.rule .block, symbol ";"]])

def constructorCall : Shape :=
  .node "explicit_constructor_invocation"
    (.alt [
      .seq [.opt (.rule .typeArguments), .alt [thisWord, superWord], .rule .arguments, symbol ";"],
      .seq [.rule .primary, symbol ".", .opt (.rule .typeArguments), superWord, .rule .arguments,
        symbol ";"]])

def constructor : Shape :=
  .node "constructor_declaration"
    (.seq [modifiersOpt, .opt (.rule .typeParameters), identifier memberWords, .rule .parameters,
      .opt throwsClause,
      .node "constructor_body"
        (braces (.seq [.opt constructorCall, .many (.rule .statement)]))])

/-- A constructor of a record that takes over its components. -/
def compactConstructor : Shape :=
  .node "compact_constructor_declaration"
    (.seq [modifiersOpt, identifier memberWords, .rule .block])

def classMember : Shape :=
  .alt [symbol ";", .rule .block,
    .node "static_initializer" (.seq [word "static", .rule .block]),
    fields, methodForm memberWords, constructor, compactConstructor, .rule .typeDeclaration]

def classBodyForm : Shape := .node "class_body" (braces (.many classMember))

/-! ## Types -/

def typeList : Shape := .node "type_list" (commas1 typeForm)

def interfaces : Shape := .opt (.node "super_interfaces" (.seq [word "implements", typeList]))

def permits : Shape := .opt (.node "permits" (.seq [word "permits", typeList]))

def classForm : Shape :=
  .node "class_declaration"
    (.seq [modifiersOpt, word "class", identifier [], .opt (.rule .typeParameters),
      .opt (.node "superclass" (.seq [word "extends", typeForm])), interfaces, permits,
      .rule .classBody])

def interfaceForm : Shape :=
  .node "interface_declaration"
    (.seq [modifiersOpt, word "interface", identifier [], .opt (.rule .typeParameters),
      .opt (.node "extends_interfaces" (.seq [word "extends", typeList])), permits,
      .node "interface_body"
        (braces (.many (.alt [symbol ";", constants, methodForm memberWords,
          .rule .typeDeclaration])))])

def enumForm : Shape :=
  let constant : Shape :=
    .node "enum_constant"
      (.seq [modifiersOpt, identifier modifierWords, .opt (.rule .arguments),
        .opt (.rule .classBody)])
  .node "enum_declaration"
    (.seq [modifiersOpt, word "enum", identifier [], interfaces,
      .node "enum_body"
        (braces (.seq [commas constant, .opt (symbol ","),
          .opt (.node "enum_body_declarations" (.seq [symbol ";", .many classMember]))]))])

def recordForm : Shape :=
  .node "record_declaration"
    (.seq [modifiersOpt, word "record", identifier [], .opt (.rule .typeParameters),
      .rule .parameters, interfaces, .rule .classBody])

def annotationTypeForm : Shape :=
  let element : Shape :=
    .node "annotation_type_element_declaration"
      (.seq [modifiersOpt, .rule (.plainType memberWords), variableName, symbol "(", symbol ")",
        .opt dimensions, .opt (.seq [word "default", .rule .elementValue]), symbol ";"])
  .node "annotation_type_declaration"
    (.seq [modifiersOpt, .token (some "@interface") (.text "@interface") false, identifier [],
      .node "annotation_type_body"
        (braces (.many (.alt [symbol ";", element, constants, .rule .typeDeclaration])))])

def typeDeclarationForm : Shape :=
  .alt [classForm, interfaceForm, enumForm, recordForm, annotationTypeForm]

/-! ## Packages, imports and modules -/

def packageForm : Shape :=
  .node "package_declaration" (.seq [annotations, word "package", .rule .name, symbol ";"])

def importForm : Shape :=
  .node "import_declaration"
    (.seq [word "import", .opt (word "static"), .rule .name,
      .opt (.seq [symbol ".", .token (some "asterisk") (.symbol "*") false]), symbol ";"])

def directive : Shape :=
  let list : Shape := commas1 (.rule .name)
  let targets : Shape := .opt (.seq [word "to", list])
  .alt [
    simple "requires_module_directive" "requires"
      (.seq [.many (.node "requires_modifier" (oneWord ["transitive", "static"])), .rule .name]),
    simple "exports_module_directive" "exports" (.seq [.rule .name, targets]),
    simple "opens_module_directive" "opens" (.seq [.rule .name, targets]),
    simple "uses_module_directive" "uses" (.rule .name),
    simple "provides_module_directive" "provides" (.seq [.rule .name, word "with", list])]

def moduleForm : Shape :=
  .node "module_declaration"
    (.seq [annotations, .opt (word "open"), word "module", .rule .name,
      .node "module_body" (braces (.many directive))])

/-- What may stand at the top level of a unit or in a block besides statements. -/
def unitDeclaration : Shape := .alt [packageForm, importForm, moduleForm]

end CallMigration.Grammar.Rule
