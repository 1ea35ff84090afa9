/-!
# Kinds of elements in a Java tree

A `Kind` names what an element of a tree is. Only the shapes that are looked at have a kind of their
own; everything else is `node` or `token`, and its text is kept all the same.

* `Kind.ofRule` : the kind of an element that a rule of the grammar made.
* `Kind.isTrivia`, `Kind.isTypeDeclaration`, `Kind.isType` : three classes of kinds.
-/

namespace CallMigration

/-- What an element of a tree is. -/
inductive Kind where
  -- The unit and its statements
  | program | packageDeclaration | importDeclaration | classDeclaration | interfaceDeclaration
  | enumDeclaration | recordDeclaration | annotationTypeDeclaration | methodDeclaration | block
  | returnStatement | expressionStatement
  -- Declarations
  | localVariableDeclaration | fieldDeclaration | formalParameter | catchFormalParameter
  | enhancedForStatement | variableDeclarator | resource | inferredParameters | typeParameter
  -- Names and types
  | identifier | scopedIdentifier | typeIdentifier | scopedTypeIdentifier | genericType
  | typeArguments | integralType | floatingPointType | booleanType | voidType | arrayType
  | asterisk
  -- Expressions
  | methodInvocation | argumentList | fieldAccess | objectCreationExpression | castExpression
  | parenthesizedExpression | binaryExpression | unaryExpression | assignmentExpression
  | instanceofExpression | lambdaExpression | thisReference
  -- Literals
  | integerLiteral | floatingPointLiteral | stringLiteral | characterLiteral | trueLiteral
  | falseLiteral | nullLiteral
  -- Keywords and punctuation
  | importKeyword | staticKeyword | packageKeyword | semicolon | dot | comma | leftParen
  | rightParen
  -- Trivia
  | whitespace | lineComment | blockComment
  -- Everything else
  | error | node | token
deriving DecidableEq, Repr, Inhabited

namespace Kind

def all : List Kind :=
  [.program, .packageDeclaration, .importDeclaration, .classDeclaration, .interfaceDeclaration,
  .enumDeclaration, .recordDeclaration, .annotationTypeDeclaration, .methodDeclaration, .block,
  .returnStatement, .expressionStatement, .localVariableDeclaration, .fieldDeclaration,
  .formalParameter, .catchFormalParameter, .enhancedForStatement, .variableDeclarator, .resource,
  .inferredParameters, .typeParameter, .identifier, .scopedIdentifier, .typeIdentifier,
  .scopedTypeIdentifier, .genericType, .typeArguments, .integralType, .floatingPointType,
  .booleanType, .voidType, .arrayType, .asterisk, .methodInvocation, .argumentList, .fieldAccess,
  .objectCreationExpression, .castExpression, .parenthesizedExpression, .binaryExpression,
  .unaryExpression, .assignmentExpression, .instanceofExpression, .lambdaExpression,
  .thisReference, .integerLiteral, .floatingPointLiteral, .stringLiteral, .characterLiteral,
  .trueLiteral, .falseLiteral, .nullLiteral, .importKeyword, .staticKeyword, .packageKeyword,
  .semicolon, .dot, .comma, .leftParen, .rightParen, .whitespace, .lineComment, .blockComment,
  .error, .node, .token]

/-- The position of a kind in the fixed order. -/
def index (k : Kind) : Nat :=
  all.idxOf k

def name : Kind → String
  | program => "Program"
  | packageDeclaration => "PackageDeclaration"
  | importDeclaration => "ImportDeclaration"
  | classDeclaration => "ClassDeclaration"
  | interfaceDeclaration => "InterfaceDeclaration"
  | enumDeclaration => "EnumDeclaration"
  | recordDeclaration => "RecordDeclaration"
  | annotationTypeDeclaration => "AnnotationTypeDeclaration"
  | methodDeclaration => "MethodDeclaration"
  | block => "Block"
  | returnStatement => "ReturnStatement"
  | expressionStatement => "ExpressionStatement"
  | localVariableDeclaration => "LocalVariableDeclaration"
  | fieldDeclaration => "FieldDeclaration"
  | formalParameter => "FormalParameter"
  | catchFormalParameter => "CatchFormalParameter"
  | enhancedForStatement => "EnhancedForStatement"
  | variableDeclarator => "VariableDeclarator"
  | resource => "Resource"
  | inferredParameters => "InferredParameters"
  | typeParameter => "TypeParameter"
  | identifier => "Identifier"
  | scopedIdentifier => "ScopedIdentifier"
  | typeIdentifier => "TypeIdentifier"
  | scopedTypeIdentifier => "ScopedTypeIdentifier"
  | genericType => "GenericType"
  | typeArguments => "TypeArguments"
  | integralType => "IntegralType"
  | floatingPointType => "FloatingPointType"
  | booleanType => "BooleanType"
  | voidType => "VoidType"
  | arrayType => "ArrayType"
  | asterisk => "Asterisk"
  | methodInvocation => "MethodInvocation"
  | argumentList => "ArgumentList"
  | fieldAccess => "FieldAccess"
  | objectCreationExpression => "ObjectCreationExpression"
  | castExpression => "CastExpression"
  | parenthesizedExpression => "ParenthesizedExpression"
  | binaryExpression => "BinaryExpression"
  | unaryExpression => "UnaryExpression"
  | assignmentExpression => "AssignmentExpression"
  | instanceofExpression => "InstanceofExpression"
  | lambdaExpression => "LambdaExpression"
  | thisReference => "This"
  | integerLiteral => "IntegerLiteral"
  | floatingPointLiteral => "FloatingPointLiteral"
  | stringLiteral => "StringLiteral"
  | characterLiteral => "CharacterLiteral"
  | trueLiteral => "True"
  | falseLiteral => "False"
  | nullLiteral => "NullLiteral"
  | importKeyword => "ImportKw"
  | staticKeyword => "StaticKw"
  | packageKeyword => "PackageKw"
  | semicolon => "Semicolon"
  | dot => "Dot"
  | comma => "Comma"
  | leftParen => "LParen"
  | rightParen => "RParen"
  | whitespace => "Whitespace"
  | lineComment => "LineComment"
  | blockComment => "BlockComment"
  | error => "Error"
  | node => "Node"
  | token => "Token"

def ofName? (s : String) : Option Kind :=
  all.find? fun k => k.name == s

/-- The kinds of the elements that a rule of the grammar makes. -/
def ruleKinds : List (String × Kind) :=
  [("program", .program), ("package_declaration", .packageDeclaration),
    ("import_declaration", .importDeclaration), ("class_declaration", .classDeclaration),
    ("interface_declaration", .interfaceDeclaration), ("enum_declaration", .enumDeclaration),
    ("record_declaration", .recordDeclaration),
    ("annotation_type_declaration", .annotationTypeDeclaration),
    ("method_declaration", .methodDeclaration), ("block", .block),
    ("return_statement", .returnStatement), ("expression_statement", .expressionStatement),
    ("local_variable_declaration", .localVariableDeclaration),
    ("field_declaration", .fieldDeclaration), ("formal_parameter", .formalParameter),
    ("catch_formal_parameter", .catchFormalParameter),
    ("enhanced_for_statement", .enhancedForStatement),
    ("variable_declarator", .variableDeclarator), ("resource", .resource),
    ("inferred_parameters", .inferredParameters), ("type_parameter", .typeParameter),
    ("identifier", .identifier), ("scoped_identifier", .scopedIdentifier),
    ("type_identifier", .typeIdentifier), ("scoped_type_identifier", .scopedTypeIdentifier),
    ("generic_type", .genericType), ("type_arguments", .typeArguments),
    ("integral_type", .integralType), ("floating_point_type", .floatingPointType),
    ("boolean_type", .booleanType), ("void_type", .voidType), ("array_type", .arrayType),
    ("asterisk", .asterisk), ("method_invocation", .methodInvocation),
    ("argument_list", .argumentList), ("field_access", .fieldAccess),
    ("object_creation_expression", .objectCreationExpression),
    ("cast_expression", .castExpression), ("parenthesized_expression", .parenthesizedExpression),
    ("binary_expression", .binaryExpression), ("unary_expression", .unaryExpression),
    ("assignment_expression", .assignmentExpression),
    ("instanceof_expression", .instanceofExpression), ("lambda_expression", .lambdaExpression),
    ("this", .thisReference), ("decimal_integer_literal", .integerLiteral),
    ("hex_integer_literal", .integerLiteral), ("octal_integer_literal", .integerLiteral),
    ("binary_integer_literal", .integerLiteral),
    ("decimal_floating_point_literal", .floatingPointLiteral),
    ("hex_floating_point_literal", .floatingPointLiteral), ("string_literal", .stringLiteral),
    ("text_block", .stringLiteral), ("character_literal", .characterLiteral),
    ("true", .trueLiteral), ("false", .falseLiteral), ("null_literal", .nullLiteral),
    (";", .semicolon), (".", .dot), (",", .comma), ("(", .leftParen), (")", .rightParen),
    ("line_comment", .lineComment), ("block_comment", .blockComment), ("ERROR", .error)]

def leafKinds : List (String × Kind) :=
  [("import", .importKeyword), ("static", .staticKeyword), ("package", .packageKeyword),
    ("comment", .lineComment)]

/-- The kind of an element made by a rule of the grammar, which for a literal is its text. -/
def ofRule (rule : String) (leaf : Bool) : Kind :=
  match ruleKinds.lookup rule with
  | some k => k
  | none => if leaf then (leafKinds.lookup rule).getD .token else .node

def isTrivia : Kind → Bool
  | whitespace | lineComment | blockComment => true
  | _ => false

def isTypeDeclaration : Kind → Bool
  | classDeclaration | interfaceDeclaration | enumDeclaration | recordDeclaration
  | annotationTypeDeclaration | typeParameter => true
  | _ => false

def isType : Kind → Bool
  | typeIdentifier | scopedTypeIdentifier | genericType | integralType | floatingPointType
  | booleanType | voidType | arrayType => true
  | _ => false

end Kind

end CallMigration
