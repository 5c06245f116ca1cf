import SolidityTree.Vocabulary

/-!
# Kinds of nodes

The kinds form a closed list; the word of a kind is the tag that compiler output marks its records
with.  Every kind has a fixed layout (`Kind.layout`): the fields that hold children, in the order in
which the children of a node are listed.

Main definitions: `Kind`, `Kind.layout`.
-/

namespace SolidityTree

/-- The kind of a node. -/
inductive Kind where
  | contractDefinition | enumDefinition | enumValue | errorDefinition | eventDefinition
  | functionDefinition | modifierDefinition | structDefinition | userDefinedValueTypeDefinition
  | variableDeclaration
  | assignment | binaryOperation | conditional | elementaryTypeNameExpression | functionCall
  | functionCallOptions | identifier | indexAccess | indexRangeAccess | literal | memberAccess
  | newExpression | tupleExpression | unaryOperation
  | identifierPath | importDirective | inheritanceSpecifier | modifierInvocation
  | overrideSpecifier | parameterList | pragmaDirective | sourceUnit | structuredDocumentation
  | usingForDirective
  | block | breakStatement | continueStatement | doWhileStatement | emitStatement
  | expressionStatement | forStatement | ifStatement | inlineAssembly | placeholderStatement
  | returnStatement | revertStatement | throwStatement | tryCatchClause | tryStatement
  | uncheckedBlock | variableDeclarationStatement | whileStatement
  | arrayTypeName | elementaryTypeName | functionTypeName | mapping | userDefinedTypeName
  | yulAssignment | yulBlock | yulBreak | yulCase | yulContinue | yulExpressionStatement
  | yulForLoop | yulFunctionDefinition | yulIf | yulLeave | yulSwitch | yulVariableDeclaration
  | yulFunctionCall | yulIdentifier | yulLiteral | yulTypedName | yulCode | yulData | yulObject
  deriving DecidableEq, Repr, Inhabited

namespace Kind

/-! ### Tags -/

/-- The tag of a kind. -/
def tag : Kind → String
  | .contractDefinition => "ContractDefinition"
  | .enumDefinition => "EnumDefinition"
  | .enumValue => "EnumValue"
  | .errorDefinition => "ErrorDefinition"
  | .eventDefinition => "EventDefinition"
  | .functionDefinition => "FunctionDefinition"
  | .modifierDefinition => "ModifierDefinition"
  | .structDefinition => "StructDefinition"
  | .userDefinedValueTypeDefinition => "UserDefinedValueTypeDefinition"
  | .variableDeclaration => "VariableDeclaration"
  | .assignment => "Assignment"
  | .binaryOperation => "BinaryOperation"
  | .conditional => "Conditional"
  | .elementaryTypeNameExpression => "ElementaryTypeNameExpression"
  | .functionCall => "FunctionCall"
  | .functionCallOptions => "FunctionCallOptions"
  | .identifier => "Identifier"
  | .indexAccess => "IndexAccess"
  | .indexRangeAccess => "IndexRangeAccess"
  | .literal => "Literal"
  | .memberAccess => "MemberAccess"
  | .newExpression => "NewExpression"
  | .tupleExpression => "TupleExpression"
  | .unaryOperation => "UnaryOperation"
  | .identifierPath => "IdentifierPath"
  | .importDirective => "ImportDirective"
  | .inheritanceSpecifier => "InheritanceSpecifier"
  | .modifierInvocation => "ModifierInvocation"
  | .overrideSpecifier => "OverrideSpecifier"
  | .parameterList => "ParameterList"
  | .pragmaDirective => "PragmaDirective"
  | .sourceUnit => "SourceUnit"
  | .structuredDocumentation => "StructuredDocumentation"
  | .usingForDirective => "UsingForDirective"
  | .block => "Block"
  | .breakStatement => "Break"
  | .continueStatement => "Continue"
  | .doWhileStatement => "DoWhileStatement"
  | .emitStatement => "EmitStatement"
  | .expressionStatement => "ExpressionStatement"
  | .forStatement => "ForStatement"
  | .ifStatement => "IfStatement"
  | .inlineAssembly => "InlineAssembly"
  | .placeholderStatement => "PlaceholderStatement"
  | .returnStatement => "Return"
  | .revertStatement => "RevertStatement"
  | .throwStatement => "Throw"
  | .tryCatchClause => "TryCatchClause"
  | .tryStatement => "TryStatement"
  | .uncheckedBlock => "UncheckedBlock"
  | .variableDeclarationStatement => "VariableDeclarationStatement"
  | .whileStatement => "WhileStatement"
  | .arrayTypeName => "ArrayTypeName"
  | .elementaryTypeName => "ElementaryTypeName"
  | .functionTypeName => "FunctionTypeName"
  | .mapping => "Mapping"
  | .userDefinedTypeName => "UserDefinedTypeName"
  | .yulAssignment => "YulAssignment"
  | .yulBlock => "YulBlock"
  | .yulBreak => "YulBreak"
  | .yulCase => "YulCase"
  | .yulContinue => "YulContinue"
  | .yulExpressionStatement => "YulExpressionStatement"
  | .yulForLoop => "YulForLoop"
  | .yulFunctionDefinition => "YulFunctionDefinition"
  | .yulIf => "YulIf"
  | .yulLeave => "YulLeave"
  | .yulSwitch => "YulSwitch"
  | .yulVariableDeclaration => "YulVariableDeclaration"
  | .yulFunctionCall => "YulFunctionCall"
  | .yulIdentifier => "YulIdentifier"
  | .yulLiteral => "YulLiteral"
  | .yulTypedName => "YulTypedName"
  | .yulCode => "YulCode"
  | .yulData => "YulData"
  | .yulObject => "YulObject"

/-- Every kind, in the order of the list. -/
def all : List Kind := [
  .contractDefinition, .enumDefinition, .enumValue, .errorDefinition, .eventDefinition,
  .functionDefinition, .modifierDefinition, .structDefinition, .userDefinedValueTypeDefinition,
  .variableDeclaration,
  .assignment, .binaryOperation, .conditional, .elementaryTypeNameExpression, .functionCall,
  .functionCallOptions, .identifier, .indexAccess, .indexRangeAccess, .literal, .memberAccess,
  .newExpression, .tupleExpression, .unaryOperation,
  .identifierPath, .importDirective, .inheritanceSpecifier, .modifierInvocation,
  .overrideSpecifier, .parameterList, .pragmaDirective, .sourceUnit, .structuredDocumentation,
  .usingForDirective,
  .block, .breakStatement, .continueStatement, .doWhileStatement, .emitStatement,
  .expressionStatement, .forStatement, .ifStatement, .inlineAssembly, .placeholderStatement,
  .returnStatement, .revertStatement, .throwStatement, .tryCatchClause, .tryStatement,
  .uncheckedBlock, .variableDeclarationStatement, .whileStatement,
  .arrayTypeName, .elementaryTypeName, .functionTypeName, .mapping, .userDefinedTypeName,
  .yulAssignment, .yulBlock, .yulBreak, .yulCase, .yulContinue, .yulExpressionStatement,
  .yulForLoop, .yulFunctionDefinition, .yulIf, .yulLeave, .yulSwitch, .yulVariableDeclaration,
  .yulFunctionCall, .yulIdentifier, .yulLiteral, .yulTypedName, .yulCode, .yulData, .yulObject]

instance : Vocabulary Kind where
  label := "node kind"
  all := all
  word := tag

/-! ### Groups -/

/-- Whether nodes of the kind are Yul code. -/
def isYul : Kind → Bool
  | .yulAssignment | .yulBlock | .yulBreak | .yulCase | .yulContinue | .yulExpressionStatement
  | .yulForLoop | .yulFunctionDefinition | .yulIf | .yulLeave | .yulSwitch
  | .yulVariableDeclaration | .yulFunctionCall | .yulIdentifier | .yulLiteral | .yulTypedName
  | .yulCode | .yulData | .yulObject => true
  | _ => false

/-- Whether nodes of the kind are Solidity expressions. -/
def isExpression : Kind → Bool
  | .assignment | .binaryOperation | .conditional | .elementaryTypeNameExpression
  | .functionCall | .functionCallOptions | .identifier | .indexAccess | .indexRangeAccess
  | .literal | .memberAccess | .newExpression | .tupleExpression | .unaryOperation => true
  | _ => false

/-- Whether nodes of the kind name a type. -/
def isTypeName : Kind → Bool
  | .arrayTypeName | .elementaryTypeName | .functionTypeName | .mapping
  | .userDefinedTypeName => true
  | _ => false

/-- Whether nodes of the kind keep structured documentation among their children and may have
dangling documentation. -/
def isDocumentationContainer : Kind → Bool
  | .contractDefinition | .block | .uncheckedBlock => true
  | _ => false

end Kind

/-! ### Layouts -/

/-- How a field of a node holds children. -/
inductive Shape where
  /-- Exactly one child. -/
  | one
  /-- A child or none. -/
  | optional
  /-- Any number of children. -/
  | many
  /-- Any number of places, each with a child or a hole. -/
  | sparse
  /-- Documentation: none, a text or a child. -/
  | documentation
  /-- A type name: a text or a child. -/
  | operand
  deriving DecidableEq, Repr, Inhabited

/-- A field that holds children. -/
structure Field where
  shape : Shape
  /-- The name of the field. -/
  name : String
  /-- The key that modern records keep the field under. -/
  key : String
  deriving DecidableEq, Repr, Inhabited

/-- The documentation field, the same in all kinds that have one. -/
def Field.documentation : Field := ⟨.documentation, "documentation", "documentation"⟩

namespace Kind

/-- The fields that hold the children of a node, in the order of its children. -/
def layout : Kind → List Field
  | .contractDefinition | .sourceUnit => [⟨.many, "nodes", "nodes"⟩]
  | .enumDefinition | .structDefinition => [.documentation, ⟨.many, "members", "members"⟩]
  | .errorDefinition | .eventDefinition => [.documentation, ⟨.one, "parameters", "parameters"⟩]
  | .functionDefinition =>
    [.documentation, ⟨.one, "parameters", "parameters"⟩,
     ⟨.optional, "override_specifier", "overrides"⟩, ⟨.many, "modifiers", "modifiers"⟩,
     ⟨.one, "return_parameters", "returnParameters"⟩, ⟨.optional, "body", "body"⟩]
  | .modifierDefinition =>
    [.documentation, ⟨.one, "parameters", "parameters"⟩,
     ⟨.optional, "override_specifier", "overrides"⟩, ⟨.optional, "body", "body"⟩]
  | .userDefinedValueTypeDefinition => [⟨.one, "underlying_type", "underlyingType"⟩]
  | .variableDeclaration =>
    [.documentation, ⟨.optional, "type_name", "typeName"⟩,
     ⟨.optional, "override_specifier", "overrides"⟩, ⟨.optional, "value", "value"⟩]
  | .assignment =>
    [⟨.one, "left_hand_side", "leftHandSide"⟩, ⟨.one, "right_hand_side", "rightHandSide"⟩]
  | .binaryOperation =>
    [⟨.one, "left_expression", "leftExpression"⟩, ⟨.one, "right_expression", "rightExpression"⟩]
  | .conditional =>
    [⟨.one, "condition", "condition"⟩, ⟨.one, "true_expression", "trueExpression"⟩,
     ⟨.one, "false_expression", "falseExpression"⟩]
  | .elementaryTypeNameExpression => [⟨.operand, "type_name", "typeName"⟩]
  | .functionCall => [⟨.one, "expression", "expression"⟩, ⟨.many, "arguments", "arguments"⟩]
  | .functionCallOptions => [⟨.one, "expression", "expression"⟩, ⟨.many, "options", "options"⟩]
  | .indexAccess =>
    [⟨.one, "base_expression", "baseExpression"⟩,
     ⟨.optional, "index_expression", "indexExpression"⟩]
  | .indexRangeAccess =>
    [⟨.one, "base_expression", "baseExpression"⟩,
     ⟨.optional, "start_expression", "startExpression"⟩,
     ⟨.optional, "end_expression", "endExpression"⟩]
  | .memberAccess | .yulExpressionStatement => [⟨.one, "expression", "expression"⟩]
  | .newExpression => [⟨.one, "type_name", "typeName"⟩]
  | .tupleExpression => [⟨.sparse, "components", "components"⟩]
  | .unaryOperation => [⟨.one, "sub_expression", "subExpression"⟩]
  | .inheritanceSpecifier => [⟨.one, "base_type", "baseName"⟩, ⟨.many, "arguments", "arguments"⟩]
  | .modifierInvocation =>
    [⟨.one, "modifier_name", "modifierName"⟩, ⟨.many, "arguments", "arguments"⟩]
  | .overrideSpecifier => [⟨.many, "overrides", "overrides"⟩]
  | .parameterList => [⟨.many, "parameters", "parameters"⟩]
  | .usingForDirective =>
    [⟨.optional, "library_name", "libraryName"⟩, ⟨.many, "function_list", "functionList"⟩,
     ⟨.optional, "type_name", "typeName"⟩]
  | .block | .uncheckedBlock | .yulBlock => [⟨.many, "statements", "statements"⟩]
  | .breakStatement | .continueStatement | .placeholderStatement | .throwStatement =>
    [.documentation]
  | .doWhileStatement | .whileStatement =>
    [.documentation, ⟨.one, "condition", "condition"⟩, ⟨.one, "body", "body"⟩]
  | .emitStatement => [.documentation, ⟨.one, "event_call", "eventCall"⟩]
  | .expressionStatement => [.documentation, ⟨.one, "expression", "expression"⟩]
  | .forStatement =>
    [.documentation, ⟨.optional, "initialization_expression", "initializationExpression"⟩,
     ⟨.optional, "condition", "condition"⟩, ⟨.optional, "loop_expression", "loopExpression"⟩,
     ⟨.one, "body", "body"⟩]
  | .ifStatement =>
    [.documentation, ⟨.one, "condition", "condition"⟩, ⟨.one, "true_body", "trueBody"⟩,
     ⟨.optional, "false_body", "falseBody"⟩]
  | .inlineAssembly => [.documentation, ⟨.optional, "yul", "AST"⟩]
  | .returnStatement => [.documentation, ⟨.optional, "expression", "expression"⟩]
  | .revertStatement => [.documentation, ⟨.one, "error_call", "errorCall"⟩]
  | .tryCatchClause =>
    [.documentation, ⟨.optional, "parameters", "parameters"⟩, ⟨.one, "block", "block"⟩]
  | .tryStatement =>
    [.documentation, ⟨.one, "external_call", "externalCall"⟩, ⟨.many, "clauses", "clauses"⟩]
  | .variableDeclarationStatement =>
    [.documentation, ⟨.many, "declarations", "declarations"⟩,
     ⟨.optional, "initial_value", "initialValue"⟩]
  | .arrayTypeName => [⟨.one, "base_type", "baseType"⟩, ⟨.optional, "length", "length"⟩]
  | .functionTypeName =>
    [⟨.one, "parameter_types", "parameterTypes"⟩,
     ⟨.one, "return_parameter_types", "returnParameterTypes"⟩]
  | .mapping => [⟨.one, "key_type", "keyType"⟩, ⟨.one, "value_type", "valueType"⟩]
  | .userDefinedTypeName => [⟨.optional, "path", "pathNode"⟩]
  | .yulAssignment => [⟨.many, "variable_names", "variableNames"⟩, ⟨.one, "value", "value"⟩]
  | .yulCase => [⟨.optional, "value", "value"⟩, ⟨.one, "body", "body"⟩]
  | .yulForLoop =>
    [⟨.one, "pre", "pre"⟩, ⟨.one, "condition", "condition"⟩, ⟨.one, "post", "post"⟩,
     ⟨.one, "body", "body"⟩]
  | .yulFunctionDefinition =>
    [⟨.many, "parameters", "parameters"⟩, ⟨.many, "return_variables", "returnVariables"⟩,
     ⟨.one, "body", "body"⟩]
  | .yulIf => [⟨.one, "condition", "condition"⟩, ⟨.one, "body", "body"⟩]
  | .yulSwitch => [⟨.one, "expression", "expression"⟩, ⟨.many, "cases", "cases"⟩]
  | .yulVariableDeclaration => [⟨.many, "variables", "variables"⟩, ⟨.optional, "value", "value"⟩]
  | .yulFunctionCall => [⟨.one, "function_name", "functionName"⟩, ⟨.many, "arguments", "arguments"⟩]
  | .yulCode => [⟨.one, "block", "block"⟩]
  | .yulObject => [⟨.one, "code", "code"⟩, ⟨.many, "sub_objects", "subObjects"⟩]
  | .enumValue | .identifier | .literal | .identifierPath | .importDirective
  | .pragmaDirective | .structuredDocumentation | .elementaryTypeName | .yulBreak
  | .yulContinue | .yulLeave | .yulIdentifier | .yulLiteral | .yulTypedName | .yulData => []

/-- Whether nodes of the kind have a field for documentation. -/
def hasDocumentationField (kind : Kind) : Bool := kind.layout.any fun f => f.shape = .documentation

/-- Whether nodes of the kind can be documented. -/
def isDocumentable (kind : Kind) : Bool :=
  kind.hasDocumentationField || kind.isDocumentationContainer

end Kind

end SolidityTree
