import SolidityTree.Comment
import SolidityTree.Draft
import SolidityTree.Payload.Building

/-!
# The modern schema

A modern record keeps the attributes of its node and the records of its children in fields of its
own.  Most kinds are read in the same way (`Modern.regular`): first the attributes, then the fields
of the layout in order, each under its key.  The few kinds whose fields do not match their layout
one by one have a draft of their own.

Main definition: `Modern.payload`.
-/

namespace SolidityTree.Modern

open Record

/-! ### Attributes -/

/-- The type of an expression or a type name. -/
def typeString (r : Json) : String :=
  ((r.get? "typeDescriptions").map fun descriptions => text descriptions "typeString").getD ""

/-- The visibility of a declaration. -/
def visibility (r : Json) : Except Fault Visibility := wordD r "visibility" .unspecified

/-- The place where the name of a declaration is written. -/
def nameLocation? (r : Json) : Except Fault (Option Span) := span? r "nameLocation"

/-- The attributes of a contract, with the text of its documentation. -/
def contract (r : Json) (docString? : Option String) : Except Fault ContractAttributes := do
  return {
    name := ← requiredText r "name"
    scope := reference r "scope"
    kind := ← word ContractKind r "contractKind"
    isAbstract := flag r "abstract"
    fullyImplemented := ((field? r "fullyImplemented").bind Json.bool?).getD true
    linearizedBaseContracts := ids r "linearizedBaseContracts"
    usedErrors := ids r "usedErrors"
    usedEvents := ids r "usedEvents"
    docString?
    danglingDocString? := none
    nameLocation? := ← nameLocation? r }

/-- The attributes of a function. -/
def function (r : Json) : Except Fault FunctionAttributes := do
  let name := text r "name"
  let kind := (← word? FunctionKind r "kind").getD (.ofFlags (flag r "isConstructor") name)
  let stateMutability := (← word? StateMutability r "stateMutability").getD
    (.ofFlags (flag r "payable") (flag r "constant"))
  return {
    scope := reference r "scope"
    kind
    name
    isVirtual := flag r "virtual"
    visibility := ← visibility r
    stateMutability
    isConstructor := kind = .constructor
    nameLocation? := ← nameLocation? r }

/-- The attributes of a variable. -/
def variableDeclaration (r : Json) : Except Fault VariableAttributes := do
  let constant := flag r "constant"
  return {
    constant
    indexed := flag r "indexed"
    name := text r "name"
    scope := reference r "scope"
    stateVariable := flag r "stateVariable"
    storageLocation := ← wordD r "storageLocation" .unspecified
    visibility := ← visibility r
    mutability := ← wordD r "mutability" (.ofFlags constant)
    typeString := typeString r
    nameLocation? := ← nameLocation? r }

/-- The attributes of a literal. -/
def literal (r : Json) : Except Fault LiteralAttributes := do
  return {
    typeString := typeString r
    kind := ← word LiteralKind r "kind"
    hexValue := text r "hexValue"
    value? := text? r "value"
    subdenomination? := text? r "subdenomination" }

/-- A name taken from another source: written as a name, or as the record of an identifier. -/
def symbolAlias (r : Json) : SymbolAlias :=
  let local? := text? r "local"
  match field? r "foreign" with
  | none => ⟨none, NodeId.builtin, local?⟩
  | some (.string name) => ⟨some name, NodeId.builtin, local?⟩
  | some foreign => ⟨text? foreign "name", reference foreign "referencedDeclaration", local?⟩

/-- The attributes of an import. -/
def importDirective (r : Json) : Except Fault ImportAttributes := do
  return {
    file := ← requiredText r "file"
    absolutePath := text r "absolutePath"
    unitAlias := text r "unitAlias"
    symbolAliases := (items r "symbolAliases").map symbolAlias
    scope := reference r "scope"
    sourceUnit := reference r "sourceUnit" }

/-- The attributes of a source unit. -/
def sourceUnit (r : Json) : Except Fault UnitAttributes := do
  let path := text r "absolutePath"
  return {
    sourceEntryKey := path
    sourceListIndex := (← src r).source
    absolutePath := path
    exportedSymbols := exportedSymbols r
    license? := text? r "license" }

/-- The text of documentation that a block keeps. -/
def blockTexts (r : Json) : BlockAttributes := ⟨text? r "documentation", none⟩

/-- The attributes of inline assembly. -/
def assembly (r : Json) : Except Fault AssemblyAttributes := do
  return {
    externalReferences := ← externalReferences r
    operations? := text? r "operations"
    flags := texts r "flags"
    evmVersion? := text? r "evmVersion" }

/-- The attributes of a record of the given kind. -/
def attributes (kind : Kind) (r : Json) : Except Fault Attributes := do
  let type := typeString r
  let referenced := reference r "referencedDeclaration"
  match kind with
  | .contractDefinition => return .contractDefinition (← contract r none)
  | .enumDefinition => return .enumDefinition (← requiredText r "name") (← nameLocation? r)
  | .enumValue => return .enumValue (← requiredText r "name") (← nameLocation? r)
  | .errorDefinition => return .errorDefinition (← requiredText r "name") (← nameLocation? r)
  | .eventDefinition =>
    return .eventDefinition (flag r "anonymous") (← requiredText r "name") (← nameLocation? r)
  | .functionDefinition => return .functionDefinition (← function r)
  | .modifierDefinition =>
    return .modifierDefinition (← requiredText r "name") (flag r "virtual")
      (← wordD r "visibility" .internally) (← nameLocation? r)
  | .structDefinition =>
    return .structDefinition (← requiredText r "name") (reference r "scope") (← visibility r)
      (← nameLocation? r)
  | .userDefinedValueTypeDefinition =>
    return .userDefinedValueTypeDefinition (← requiredText r "name") (← nameLocation? r)
  | .variableDeclaration => return .variableDeclaration (← variableDeclaration r)
  | .assignment => return .assignment type (← requiredText r "operator")
  | .binaryOperation => return .binaryOperation type (← requiredText r "operator")
  | .conditional => return .conditional type
  | .elementaryTypeNameExpression => return .elementaryTypeNameExpression type
  | .functionCall =>
    let kind ← word CallKind r "kind"
    let names := texts r "names"
    return .functionCall type kind (if names.isEmpty then none else some names)
  | .functionCallOptions => return .functionCallOptions type (texts r "names")
  | .identifier =>
    return .identifier type (← requiredText r "name") referenced (ids r "overloadedDeclarations")
  | .indexAccess => return .indexAccess type
  | .indexRangeAccess => return .indexRangeAccess type
  | .literal => return .literal (← literal r)
  | .memberAccess => return .memberAccess type (← requiredText r "memberName") referenced
  | .newExpression => return .newExpression type
  | .tupleExpression => return .tupleExpression type (flag r "isInlineArray")
  | .unaryOperation => return .unaryOperation type (flag r "prefix") (← requiredText r "operator")
  | .identifierPath => return .identifierPath (← requiredText r "name") referenced
  | .importDirective => return .importDirective (← importDirective r)
  | .inheritanceSpecifier => return .inheritanceSpecifier
  | .modifierInvocation => return .modifierInvocation (← word? InvocationKind r "kind")
  | .overrideSpecifier => return .overrideSpecifier
  | .parameterList => return .parameterList
  | .pragmaDirective => return .pragmaDirective (texts r "literals")
  | .sourceUnit => return .sourceUnit (← sourceUnit r)
  | .structuredDocumentation =>
    let comment ← requiredText r "text"
    return .structuredDocumentation (String.ofList (Comment.extract comment.toList))
  | .usingForDirective => return .usingForDirective (flag r "global") []
  | .block => return .block (blockTexts r)
  | .breakStatement => return .breakStatement
  | .continueStatement => return .continueStatement
  | .doWhileStatement => return .doWhileStatement
  | .emitStatement => return .emitStatement
  | .expressionStatement => return .expressionStatement
  | .forStatement => return .forStatement
  | .ifStatement => return .ifStatement
  | .inlineAssembly =>
    return .inlineAssembly (← assembly r)
  | .placeholderStatement => return .placeholderStatement
  | .returnStatement => return .returnStatement (reference r "functionReturnParameters")
  | .revertStatement => return .revertStatement
  | .throwStatement => return .throwStatement
  | .tryCatchClause => return .tryCatchClause (text r "errorName")
  | .tryStatement => return .tryStatement
  | .uncheckedBlock => return .uncheckedBlock (blockTexts r)
  | .variableDeclarationStatement => return .variableDeclarationStatement (assignments r)
  | .whileStatement => return .whileStatement
  | .arrayTypeName => return .arrayTypeName type
  | .elementaryTypeName =>
    return .elementaryTypeName type (← requiredText r "name")
      (← wordD r "stateMutability" .nonPayable)
  | .functionTypeName =>
    return .functionTypeName type (← visibility r) (← wordD r "stateMutability" .nonPayable)
  | .mapping => return .mapping type
  | .userDefinedTypeName => return .userDefinedTypeName type (text? r "name") referenced
  | .yulAssignment => return .yulAssignment
  | .yulBlock => return .yulBlock
  | .yulBreak => return .yulBreak
  | .yulCase => return .yulCase
  | .yulContinue => return .yulContinue
  | .yulExpressionStatement => return .yulExpressionStatement
  | .yulForLoop => return .yulForLoop
  | .yulFunctionDefinition => return .yulFunctionDefinition (← requiredText r "name")
  | .yulIf => return .yulIf
  | .yulLeave => return .yulLeave
  | .yulSwitch => return .yulSwitch
  | .yulVariableDeclaration => return .yulVariableDeclaration
  | .yulFunctionCall => return .yulFunctionCall
  | .yulIdentifier => return .yulIdentifier (← requiredText r "name") referenced
  | .yulLiteral =>
    return .yulLiteral (← word YulLiteralKind r "kind") (text r "value") (text? r "hexValue")
      (text r "type")
  | .yulTypedName => return .yulTypedName (← requiredText r "name") (text r "type")
  | .yulCode => return .yulCode
  | .yulData => return .yulData (← requiredText r "name") (text r "value")
  | .yulObject => return .yulObject (← requiredText r "name")

/-! ### Children -/

/-- The record of a field, which must be there. -/
def one (r : Json) (key : String) : Draft NodeId := do Draft.one (← required r key)

/-- The record of a field, which may be absent. -/
def optional (r : Json) (key : String) : Draft (Option NodeId) := Draft.optional (field? r key)

/-- The records of a field. -/
def many (r : Json) (key : String) : Draft (List NodeId) := Draft.many (field? r key)

/-- Documentation: older compilers give a text, newer ones a record. -/
def documentation (r : Json) : Draft (Option Documentation) :=
  match field? r "documentation" with
  | none => return none
  | some (.string s) => return some (.text s)
  | some doc => return some (.node (← Draft.one doc))

/-- A type name: older compilers give a text, newer ones a record. -/
def operand (r : Json) (key : String) : Draft Operand := do
  match ← required r key with
  | .string name => return .name name
  | type => return .node (← Draft.one type)

/-- The slot of a field, read under its key. -/
def slot (r : Json) (field : Field) : Draft { s : Slot // s.shape = field.shape } :=
  match field.shape with
  | .one => return ⟨.one (← one r field.key), rfl⟩
  | .optional => return ⟨.optional (← optional r field.key), rfl⟩
  | .many => return ⟨.many (← many r field.key), rfl⟩
  | .sparse => return ⟨.sparse (← Draft.sparse (field? r field.key)), rfl⟩
  | .documentation => return ⟨.documentation (← documentation r), rfl⟩
  | .operand => return ⟨.operand (← operand r field.key), rfl⟩

/-- The slots of some fields, in order. -/
def slots (r : Json) : (fields : List Field) →
    Draft { slots : List Slot // Slots.shapes slots = fields.map Field.shape }
  | [] => return ⟨[], rfl⟩
  | field :: rest => do
    let ⟨s, hs⟩ ← slot r field
    let ⟨ss, hss⟩ ← slots r rest
    return ⟨s :: ss, by simpa [Slots.shapes, hs] using hss⟩

/-! ### Payloads -/

/-- A kind whose children stand in the fields of its layout. -/
def regular (kind : Kind) (r : Json) : Draft Payload := do
  let attributes ← attributes kind r
  let ⟨slots, shapes_eq⟩ ← slots r attributes.kind.layout
  return ⟨attributes, slots, shapes_eq⟩

/-- A contract: documentation, base contracts and members, all in one list of children.  They are
converted before the attributes are read. -/
def contractDefinition (r : Json) : Draft Payload := do
  let documentation? ← documentation r
  let bases ← many r "baseContracts"
  let members ← many r "nodes"
  let docString? := match documentation? with
    | some (.text s) => some s
    | _ => none
  let docs := (documentation?.bind Documentation.node?).toList
  let contract ← contract r docString?
  return .contractDefinition contract (docs ++ bases ++ members)

/-- One entry of a function list: a function, or the definition of an operator. -/
def usingEntry (entry : Json) : Draft (NodeId × Option OperatorBinding) := do
  match field? entry "function" with
  | some function => return (← Draft.one function, none)
  | none =>
    let function ← one entry "definition"
    let operator ← requiredText entry "operator"
    return (function, some ⟨function, operator⟩)

/-- The entries of a function list, in order. -/
def usingEntries : List Json → Draft (List (NodeId × Option OperatorBinding))
  | [] => return []
  | entry :: rest => do
    let e ← usingEntry entry
    return e :: (← usingEntries rest)

/-- A using directive, whose function list is converted first. -/
def usingForDirective (r : Json) : Draft Payload := do
  let entries ← usingEntries (items r "functionList")
  let library? ← optional r "libraryName"
  let type? ← optional r "typeName"
  return .usingForDirective (flag r "global") (entries.filterMap Prod.snd) library?
    (entries.map Prod.fst) type?

/-- Inline assembly.  Its Yul code is no child until it is expanded. -/
def inlineAssembly (r : Json) : Draft Payload := do
  let assembly ← assembly r
  let documentation? ← documentation r
  return .inlineAssembly assembly documentation?

/-- A declaration of variables.  Places of the tuple that declare nothing are null, and left out of
the declarations. -/
def variableDeclarationStatement (r : Json) : Draft Payload := do
  let documentation? ← documentation r
  let declarations ← Draft.sparse (field? r "declarations")
  let value? ← optional r "initialValue"
  return .variableDeclarationStatement (assignments r) documentation? (declarations.filterMap id)
    value?

/-- A case of a Yul switch.  The default case has a text in the place of a value. -/
def yulCase (r : Json) : Draft Payload := do
  let value? ← match field? r "value" with
    | none | some (.string _) => pure none
    | some value => some <$> Draft.one value
  let body ← one r "body"
  return .yulCase value? body

/-- The payload of a record of the given kind. -/
def payload : Kind → Json → Draft Payload
  | .contractDefinition => contractDefinition
  | .usingForDirective => usingForDirective
  | .inlineAssembly => inlineAssembly
  | .variableDeclarationStatement => variableDeclarationStatement
  | .yulCase => yulCase
  | kind => regular kind

end SolidityTree.Modern
