import SolidityTree.Payload

/-!
# Payloads as JSON

A payload is printed as one object: its kind under `nodeType`, its attributes under their names, and
each slot under the name of its field (`Payload.toJson`).
-/

namespace SolidityTree

/-! ### Parts -/

/-- A word of a closed vocabulary. -/
def Json.ofWord {α : Type} [Vocabulary α] (a : α) : Json := .string (Vocabulary.word a)

/-- A list of ids. -/
def Json.ids (ids : List NodeId) : Json := .ofList .int ids

/-- A text or none. -/
def Json.text? (text? : Option String) : Json := .ofOption .string text?

/-- A range or none. -/
def Json.span? (span? : Option Span) : Json := .ofOption Span.toJson span?

/-- A name taken from another source. -/
def SymbolAlias.toJson (a : SymbolAlias) : Json :=
  .mkObject [("foreign", .text? a.foreign?), ("foreign_declaration", .int a.declaration),
    ("local", .text? a.local?)]

/-- A declaration that inline assembly refers to. -/
def ExternalReference.toJson (r : ExternalReference) : Json :=
  .mkObject [("name", .text? r.name?), ("declaration", .int r.declaration), ("src", r.src.toJson),
    ("value_size", .int r.valueSize), ("suffix", .text? r.suffix?), ("is_offset", .bool r.isOffset),
    ("is_slot", .bool r.isSlot)]

/-- A user-defined operator. -/
def OperatorBinding.toJson (o : OperatorBinding) : Json :=
  .mkObject [("function", .int o.function), ("operator", .string o.operator)]

namespace Attributes

/-! ### Attributes -/

/-- The texts of documentation of a block. -/
def textFields (b : BlockAttributes) : List (String × Json) :=
  [("doc_string", .text? b.docString?), ("dangling_doc_string", .text? b.danglingDocString?)]

/-- The name of a declaration, with the place where it is written. -/
def nameFields (name : String) (nameLocation? : Option Span) : List (String × Json) :=
  [("name", .string name), ("name_location", .span? nameLocation?)]

/-- The type of an expression or a type name. -/
def typeField (typeString : String) : String × Json := ("type_string", .string typeString)

/-- The attributes by name. -/
def fields : Attributes → List (String × Json)
  | contractDefinition c =>
    nameFields c.name c.nameLocation? ++ textFields ⟨c.docString?, c.danglingDocString?⟩ ++
    [("scope", .int c.scope), ("kind", .ofWord c.kind), ("is_abstract", .bool c.isAbstract),
     ("fully_implemented", .bool c.fullyImplemented),
     ("linearized_base_contracts", .ids c.linearizedBaseContracts),
     ("used_errors", .ids c.usedErrors), ("used_events", .ids c.usedEvents)]
  | enumDefinition name nameLocation? => nameFields name nameLocation?
  | enumValue name nameLocation? => nameFields name nameLocation?
  | errorDefinition name nameLocation? => nameFields name nameLocation?
  | eventDefinition anonymous name nameLocation? =>
    ("anonymous", .bool anonymous) :: nameFields name nameLocation?
  | functionDefinition f =>
    nameFields f.name f.nameLocation? ++
    [("scope", .int f.scope), ("kind", .ofWord f.kind), ("is_virtual", .bool f.isVirtual),
     ("visibility", .ofWord f.visibility), ("state_mutability", .ofWord f.stateMutability),
     ("is_constructor", .bool f.isConstructor)]
  | modifierDefinition name isVirtual visibility nameLocation? =>
    nameFields name nameLocation? ++
    [("is_virtual", .bool isVirtual), ("visibility", .ofWord visibility)]
  | structDefinition name scope visibility nameLocation? =>
    nameFields name nameLocation? ++ [("scope", .int scope), ("visibility", .ofWord visibility)]
  | userDefinedValueTypeDefinition name nameLocation? => nameFields name nameLocation?
  | variableDeclaration v =>
    nameFields v.name v.nameLocation? ++
    [("constant", .bool v.constant), ("indexed", .bool v.indexed), ("scope", .int v.scope),
     ("state_variable", .bool v.stateVariable), ("storage_location", .ofWord v.storageLocation),
     ("visibility", .ofWord v.visibility), ("mutability", .ofWord v.mutability),
     typeField v.typeString]
  | assignment type operator => [typeField type, ("operator", .string operator)]
  | binaryOperation type operator => [typeField type, ("operator", .string operator)]
  | conditional type => [typeField type]
  | elementaryTypeNameExpression type => [typeField type]
  | functionCall type kind fieldNames? =>
    [typeField type, ("kind", .ofWord kind),
     ("field_names", .ofOption (.ofList .string) fieldNames?)]
  | functionCallOptions type names => [typeField type, ("names", .ofList .string names)]
  | identifier type name referenced overloaded =>
    [typeField type, ("name", .string name), ("referenced_declaration", .int referenced),
     ("overloaded_declarations", .ids overloaded)]
  | indexAccess type => [typeField type]
  | indexRangeAccess type => [typeField type]
  | literal l =>
    [typeField l.typeString, ("kind", .ofWord l.kind), ("hex_value", .string l.hexValue),
     ("value", .text? l.value?), ("subdenomination", .text? l.subdenomination?)]
  | memberAccess type memberName referenced =>
    [typeField type, ("member_name", .string memberName),
     ("referenced_declaration", .int referenced)]
  | newExpression type => [typeField type]
  | tupleExpression type isInlineArray =>
    [typeField type, ("is_inline_array", .bool isInlineArray)]
  | unaryOperation type isPrefix operator =>
    [typeField type, ("prefix", .bool isPrefix), ("operator", .string operator)]
  | identifierPath name referenced =>
    [("name", .string name), ("referenced_declaration", .int referenced)]
  | importDirective i =>
    [("file", .string i.file), ("absolute_path", .string i.absolutePath),
     ("unit_alias", .string i.unitAlias),
     ("symbol_aliases", .ofList SymbolAlias.toJson i.symbolAliases), ("scope", .int i.scope),
     ("source_unit", .int i.sourceUnit)]
  | modifierInvocation kind? => [("kind", .ofOption .ofWord kind?)]
  | pragmaDirective literals => [("literals", .ofList .string literals)]
  | sourceUnit u =>
    [("source_entry_key", .string u.sourceEntryKey), ("source_list_index", .int u.sourceListIndex),
     ("absolute_path", .string u.absolutePath),
     ("exported_symbols", .mkObject (u.exportedSymbols.map fun (name, id) => (name, .int id))),
     ("license", .text? u.license?)]
  | structuredDocumentation text => [("text", .string text)]
  | usingForDirective isGlobal operators =>
    [("is_global", .bool isGlobal), ("operators", .ofList OperatorBinding.toJson operators)]
  | block texts => textFields texts
  | uncheckedBlock texts => textFields texts
  | inlineAssembly a =>
    [("external_references", .ofList ExternalReference.toJson a.externalReferences),
     ("operations", .text? a.operations?), ("flags", .ofList .string a.flags),
     ("evm_version", .text? a.evmVersion?)]
  | returnStatement parameters => [("function_return_parameters", .int parameters)]
  | tryCatchClause errorName => [("error_name", .string errorName)]
  | variableDeclarationStatement assignments =>
    [("assignments", .ofList (.ofOption .int) assignments)]
  | arrayTypeName type => [typeField type]
  | elementaryTypeName type name stateMutability =>
    [typeField type, ("name", .string name), ("state_mutability", .ofWord stateMutability)]
  | functionTypeName type visibility stateMutability =>
    [typeField type, ("visibility", .ofWord visibility),
     ("state_mutability", .ofWord stateMutability)]
  | mapping type => [typeField type]
  | userDefinedTypeName type name? referenced =>
    [typeField type, ("name", .text? name?), ("referenced_declaration", .int referenced)]
  | yulFunctionDefinition name => [("name", .string name)]
  | yulIdentifier name referenced =>
    [("name", .string name), ("referenced_declaration", .int referenced)]
  | yulLiteral kind value hexValue? type =>
    [typeField type, ("kind", .ofWord kind), ("value", .string value),
     ("hex_value", .text? hexValue?)]
  | yulTypedName name type => [("name", .string name), typeField type]
  | yulData name value => [("name", .string name), ("value", .string value)]
  | yulObject name => [("name", .string name)]
  | inheritanceSpecifier | overrideSpecifier | parameterList | breakStatement | continueStatement
  | doWhileStatement | emitStatement | expressionStatement | forStatement | ifStatement
  | placeholderStatement | revertStatement | throwStatement | tryStatement | whileStatement
  | yulAssignment | yulBlock | yulBreak | yulCase | yulContinue | yulExpressionStatement
  | yulForLoop | yulIf | yulLeave | yulSwitch | yulVariableDeclaration | yulFunctionCall
  | yulCode => []

end Attributes

/-! ### Payloads -/

/-- A payload as one object. -/
def Payload.toJson (p : Payload) : Json :=
  .mkObject <| ("nodeType", .ofWord p.kind) :: p.attributes.fields ++
    List.zipWith (fun (f : Field) (s : Slot) => (f.name, s.toJson)) p.kind.layout p.slots

end SolidityTree
