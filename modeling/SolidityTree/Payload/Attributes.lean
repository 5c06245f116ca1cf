import SolidityTree.Payload.Slot
import SolidityTree.Span

/-!
# Attributes

The attributes of a node are all its properties that are not children: names, words of the closed
vocabularies, flags, and the ids of other nodes it refers to.  Each kind has its own, so the
attributes of a node determine its kind (`Attributes.kind`).

Main definitions:

* `Attributes.mapReferences` renames every id that the attributes refer to;
* `Attributes.referenced?` is the declaration named by an identifier or one of its like.
-/

namespace SolidityTree

/-! ### Parts -/

/-- One name taken from another source by an import, with the name it gets. -/
structure SymbolAlias where
  foreign? : Option String
  declaration : NodeId
  local? : Option String
  deriving DecidableEq, Repr

/-- A declaration that inline assembly refers to, with the place where it does. -/
structure ExternalReference where
  name? : Option String
  declaration : NodeId
  src : Span
  valueSize : Int
  suffix? : Option String
  isOffset : Bool
  isSlot : Bool
  deriving DecidableEq, Repr

/-- A user-defined operator, bound to the function path that implements it. -/
structure OperatorBinding where
  function : NodeId
  operator : String
  deriving DecidableEq, Repr

/-- The attributes of contracts, interfaces and libraries. -/
structure ContractAttributes where
  name : String
  scope : NodeId
  kind : ContractKind
  isAbstract : Bool
  fullyImplemented : Bool
  linearizedBaseContracts : List NodeId
  usedErrors : List NodeId
  usedEvents : List NodeId
  docString? : Option String
  danglingDocString? : Option String
  nameLocation? : Option Span
  deriving DecidableEq, Repr

/-- The attributes of functions, free ones and constructors included. -/
structure FunctionAttributes where
  scope : NodeId
  kind : FunctionKind
  name : String
  isVirtual : Bool
  visibility : Visibility
  stateMutability : StateMutability
  isConstructor : Bool
  nameLocation? : Option Span
  deriving DecidableEq, Repr

/-- The attributes of state variables, parameters, struct members and local variables. -/
structure VariableAttributes where
  constant : Bool
  indexed : Bool
  name : String
  scope : NodeId
  stateVariable : Bool
  storageLocation : DataLocation
  visibility : Visibility
  mutability : Mutability
  typeString : String
  nameLocation? : Option Span
  deriving DecidableEq, Repr

/-- The attributes of literals. -/
structure LiteralAttributes where
  typeString : String
  kind : LiteralKind
  hexValue : String
  /-- Absent for a hex string whose bytes are not UTF-8. -/
  value? : Option String
  subdenomination? : Option String
  deriving DecidableEq, Repr

/-- The attributes of import directives. -/
structure ImportAttributes where
  file : String
  absolutePath : String
  unitAlias : String
  symbolAliases : List SymbolAlias
  scope : NodeId
  sourceUnit : NodeId
  deriving DecidableEq, Repr

/-- The attributes of source units, the roots of the trees. -/
structure UnitAttributes where
  sourceEntryKey : String
  sourceListIndex : Int
  absolutePath : String
  /-- The declarations by the names they are exported under, in the order of the names. -/
  exportedSymbols : List (String × NodeId)
  license? : Option String
  deriving DecidableEq, Repr

/-- The attributes of inline assembly. -/
structure AssemblyAttributes where
  externalReferences : List ExternalReference
  operations? : Option String
  flags : List String
  evmVersion? : Option String
  deriving DecidableEq, Repr

/-- The attributes of blocks: the texts of documentation before and at the end. -/
structure BlockAttributes where
  docString? : Option String
  danglingDocString? : Option String
  deriving DecidableEq, Repr

/-! ### All kinds -/

/-- The attributes of a node, kind by kind. -/
inductive Attributes where
  | contractDefinition (contract : ContractAttributes)
  | enumDefinition (name : String) (nameLocation? : Option Span)
  | enumValue (name : String) (nameLocation? : Option Span)
  | errorDefinition (name : String) (nameLocation? : Option Span)
  | eventDefinition (anonymous : Bool) (name : String) (nameLocation? : Option Span)
  | functionDefinition (function : FunctionAttributes)
  | modifierDefinition (name : String) (isVirtual : Bool) (visibility : Visibility)
      (nameLocation? : Option Span)
  | structDefinition (name : String) (scope : NodeId) (visibility : Visibility)
      (nameLocation? : Option Span)
  | userDefinedValueTypeDefinition (name : String) (nameLocation? : Option Span)
  | variableDeclaration (declared : VariableAttributes)
  | assignment (typeString operator : String)
  | binaryOperation (typeString operator : String)
  | conditional (typeString : String)
  | elementaryTypeNameExpression (typeString : String)
  | functionCall (typeString : String) (kind : CallKind) (fieldNames? : Option (List String))
  /-- `names` label the options by position. -/
  | functionCallOptions (typeString : String) (names : List String)
  | identifier (typeString name : String) (referenced : NodeId) (overloaded : List NodeId)
  | indexAccess (typeString : String)
  | indexRangeAccess (typeString : String)
  | literal (literal : LiteralAttributes)
  | memberAccess (typeString memberName : String) (referenced : NodeId)
  | newExpression (typeString : String)
  | tupleExpression (typeString : String) (isInlineArray : Bool)
  | unaryOperation (typeString : String) (isPrefix : Bool) (operator : String)
  | identifierPath (name : String) (referenced : NodeId)
  | importDirective (imported : ImportAttributes)
  | inheritanceSpecifier
  | modifierInvocation (kind? : Option InvocationKind)
  | overrideSpecifier
  | parameterList
  | pragmaDirective (literals : List String)
  | sourceUnit (unit : UnitAttributes)
  | structuredDocumentation (text : String)
  | usingForDirective (isGlobal : Bool) (operators : List OperatorBinding)
  | block (texts : BlockAttributes)
  | breakStatement
  | continueStatement
  | doWhileStatement
  | emitStatement
  | expressionStatement
  | forStatement
  | ifStatement
  | inlineAssembly (assembly : AssemblyAttributes)
  | placeholderStatement
  | returnStatement (functionReturnParameters : NodeId)
  | revertStatement
  | throwStatement
  | tryCatchClause (errorName : String)
  | tryStatement
  | uncheckedBlock (texts : BlockAttributes)
  /-- `assignments` are the ids of the declared variables by position in the tuple. -/
  | variableDeclarationStatement (assignments : List (Option NodeId))
  | whileStatement
  | arrayTypeName (typeString : String)
  | elementaryTypeName (typeString name : String) (stateMutability : StateMutability)
  | functionTypeName (typeString : String) (visibility : Visibility)
      (stateMutability : StateMutability)
  | mapping (typeString : String)
  | userDefinedTypeName (typeString : String) (name? : Option String) (referenced : NodeId)
  | yulAssignment
  | yulBlock
  | yulBreak
  | yulCase
  | yulContinue
  | yulExpressionStatement
  | yulForLoop
  | yulFunctionDefinition (name : String)
  | yulIf
  | yulLeave
  | yulSwitch
  | yulVariableDeclaration
  | yulFunctionCall
  | yulIdentifier (name : String) (referenced : NodeId)
  | yulLiteral (kind : YulLiteralKind) (value : String) (hexValue? : Option String)
      (typeString : String)
  | yulTypedName (name typeString : String)
  | yulCode
  | yulData (name value : String)
  | yulObject (name : String)
  deriving DecidableEq, Repr

namespace Attributes

/-- The kind whose attributes these are. -/
def kind : Attributes → Kind
  | contractDefinition .. => .contractDefinition
  | enumDefinition .. => .enumDefinition
  | enumValue .. => .enumValue
  | errorDefinition .. => .errorDefinition
  | eventDefinition .. => .eventDefinition
  | functionDefinition .. => .functionDefinition
  | modifierDefinition .. => .modifierDefinition
  | structDefinition .. => .structDefinition
  | userDefinedValueTypeDefinition .. => .userDefinedValueTypeDefinition
  | variableDeclaration .. => .variableDeclaration
  | assignment .. => .assignment
  | binaryOperation .. => .binaryOperation
  | conditional .. => .conditional
  | elementaryTypeNameExpression .. => .elementaryTypeNameExpression
  | functionCall .. => .functionCall
  | functionCallOptions .. => .functionCallOptions
  | identifier .. => .identifier
  | indexAccess .. => .indexAccess
  | indexRangeAccess .. => .indexRangeAccess
  | literal .. => .literal
  | memberAccess .. => .memberAccess
  | newExpression .. => .newExpression
  | tupleExpression .. => .tupleExpression
  | unaryOperation .. => .unaryOperation
  | identifierPath .. => .identifierPath
  | importDirective .. => .importDirective
  | inheritanceSpecifier => .inheritanceSpecifier
  | modifierInvocation .. => .modifierInvocation
  | overrideSpecifier => .overrideSpecifier
  | parameterList => .parameterList
  | pragmaDirective .. => .pragmaDirective
  | sourceUnit .. => .sourceUnit
  | structuredDocumentation .. => .structuredDocumentation
  | usingForDirective .. => .usingForDirective
  | block .. => .block
  | breakStatement => .breakStatement
  | continueStatement => .continueStatement
  | doWhileStatement => .doWhileStatement
  | emitStatement => .emitStatement
  | expressionStatement => .expressionStatement
  | forStatement => .forStatement
  | ifStatement => .ifStatement
  | inlineAssembly .. => .inlineAssembly
  | placeholderStatement => .placeholderStatement
  | returnStatement .. => .returnStatement
  | revertStatement => .revertStatement
  | throwStatement => .throwStatement
  | tryCatchClause .. => .tryCatchClause
  | tryStatement => .tryStatement
  | uncheckedBlock .. => .uncheckedBlock
  | variableDeclarationStatement .. => .variableDeclarationStatement
  | whileStatement => .whileStatement
  | arrayTypeName .. => .arrayTypeName
  | elementaryTypeName .. => .elementaryTypeName
  | functionTypeName .. => .functionTypeName
  | mapping .. => .mapping
  | userDefinedTypeName .. => .userDefinedTypeName
  | yulAssignment => .yulAssignment
  | yulBlock => .yulBlock
  | yulBreak => .yulBreak
  | yulCase => .yulCase
  | yulContinue => .yulContinue
  | yulExpressionStatement => .yulExpressionStatement
  | yulForLoop => .yulForLoop
  | yulFunctionDefinition .. => .yulFunctionDefinition
  | yulIf => .yulIf
  | yulLeave => .yulLeave
  | yulSwitch => .yulSwitch
  | yulVariableDeclaration => .yulVariableDeclaration
  | yulFunctionCall => .yulFunctionCall
  | yulIdentifier .. => .yulIdentifier
  | yulLiteral .. => .yulLiteral
  | yulTypedName .. => .yulTypedName
  | yulCode => .yulCode
  | yulData .. => .yulData
  | yulObject .. => .yulObject

/-! ### References -/

/-- Every id that the attributes refer to renamed. -/
def mapReferences (f : NodeId → NodeId) : Attributes → Attributes
  | contractDefinition c => contractDefinition
      { c with
        scope := f c.scope
        linearizedBaseContracts := c.linearizedBaseContracts.map f
        usedErrors := c.usedErrors.map f
        usedEvents := c.usedEvents.map f }
  | functionDefinition g => functionDefinition { g with scope := f g.scope }
  | structDefinition name scope visibility place => structDefinition name (f scope) visibility place
  | variableDeclaration v => variableDeclaration { v with scope := f v.scope }
  | identifier type name referenced overloaded =>
    identifier type name (f referenced) (overloaded.map f)
  | memberAccess type name referenced => memberAccess type name (f referenced)
  | identifierPath name referenced => identifierPath name (f referenced)
  | userDefinedTypeName type name? referenced => userDefinedTypeName type name? (f referenced)
  | yulIdentifier name referenced => yulIdentifier name (f referenced)
  | importDirective i => importDirective
      { i with
        scope := f i.scope
        sourceUnit := f i.sourceUnit
        symbolAliases := i.symbolAliases.map fun a => { a with declaration := f a.declaration } }
  | sourceUnit u => sourceUnit
      { u with exportedSymbols := u.exportedSymbols.map fun (name, id) => (name, f id) }
  | inlineAssembly a => inlineAssembly
      { a with
        externalReferences :=
          a.externalReferences.map fun r => { r with declaration := f r.declaration } }
  | returnStatement parameters => returnStatement (f parameters)
  | variableDeclarationStatement assignments =>
    variableDeclarationStatement (assignments.map (Option.map f))
  | usingForDirective isGlobal operators =>
    usingForDirective isGlobal (operators.map fun o => { o with function := f o.function })
  | attributes => attributes

/-- The declaration that an identifier, or a node like one, refers to. -/
def referenced? : Attributes → Option NodeId
  | identifier _ _ referenced _ => some referenced
  | memberAccess _ _ referenced => some referenced
  | identifierPath _ referenced => some referenced
  | userDefinedTypeName _ _ referenced => some referenced
  | yulIdentifier _ referenced => some referenced
  | _ => none

/-- Lets an identifier, or a node like one, refer to another declaration. -/
def setReferenced (target : NodeId) : Attributes → Attributes
  | identifier type name _ overloaded => identifier type name target overloaded
  | memberAccess type name _ => memberAccess type name target
  | identifierPath name _ => identifierPath name target
  | userDefinedTypeName type name? _ => userDefinedTypeName type name? target
  | yulIdentifier name _ => yulIdentifier name target
  | attributes => attributes

theorem kind_mapReferences (f : NodeId → NodeId) (attributes : Attributes) :
    (attributes.mapReferences f).kind = attributes.kind := by
  cases attributes <;> rfl

theorem kind_setReferenced (target : NodeId) (attributes : Attributes) :
    (attributes.setReferenced target).kind = attributes.kind := by
  cases attributes <;> rfl

/-! ### Texts of documentation -/

/-- The texts of documentation, before and at the end, of a kind that has both. -/
def docStrings? : Attributes → Option (Option String × Option String)
  | contractDefinition c => some (c.docString?, c.danglingDocString?)
  | block b => some (b.docString?, b.danglingDocString?)
  | uncheckedBlock b => some (b.docString?, b.danglingDocString?)
  | _ => none

/-- Sets the text of preceding documentation. -/
def setDocString (text? : Option String) : Attributes → Attributes
  | contractDefinition c => contractDefinition { c with docString? := text? }
  | block b => block { b with docString? := text? }
  | uncheckedBlock b => uncheckedBlock { b with docString? := text? }
  | attributes => attributes

/-- Sets the text of dangling documentation. -/
def setDanglingDocString (text? : Option String) : Attributes → Attributes
  | contractDefinition c => contractDefinition { c with danglingDocString? := text? }
  | block b => block { b with danglingDocString? := text? }
  | uncheckedBlock b => uncheckedBlock { b with danglingDocString? := text? }
  | attributes => attributes

theorem kind_setDocString (text? : Option String) (attributes : Attributes) :
    (attributes.setDocString text?).kind = attributes.kind := by
  cases attributes <;> rfl

theorem kind_setDanglingDocString (text? : Option String) (attributes : Attributes) :
    (attributes.setDanglingDocString text?).kind = attributes.kind := by
  cases attributes <;> rfl

/-! ### Source units -/

/-- The attributes of a source unit. -/
def unit? : Attributes → Option UnitAttributes
  | sourceUnit u => some u
  | _ => none

/-- Changes the attributes of a source unit, and no other. -/
def mapUnit (f : UnitAttributes → UnitAttributes) : Attributes → Attributes
  | sourceUnit u => sourceUnit (f u)
  | attributes => attributes

theorem kind_mapUnit (f : UnitAttributes → UnitAttributes) (attributes : Attributes) :
    (attributes.mapUnit f).kind = attributes.kind := by
  cases attributes <;> rfl

theorem unit?_mapUnit (f : UnitAttributes → UnitAttributes) (attributes : Attributes) :
    (attributes.mapUnit f).unit? = attributes.unit?.map f := by
  cases attributes <;> rfl

end Attributes

end SolidityTree
