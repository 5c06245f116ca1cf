import SolidityTree.Schema.Modern

/-!
# The legacy schema

A legacy record keeps the attributes of its node under `attributes` and the records of its children
in one array under `children`.  What a child is to its parent follows from its place in the array,
where optional parts that are absent take no place, or from its own kind.

Main definition: `Legacy.payload?`, which answers only for the kinds that the schema has.
-/

namespace SolidityTree.Legacy

open Record

/-! ### Records -/

/-- The attributes of a record, null if there are none. -/
def attributes (r : Json) : Json := (r.get? "attributes").getD .null

/-- The records of the children, without null places. -/
def records (r : Json) : List Json :=
  (((r.get? "children").bind Json.items?).getD []).filter fun child => !child.isNull

/-- The type of an expression or a type name. -/
def typeString (r : Json) : String := text (attributes r) "type"

/-- The visibility of a declaration. -/
def visibility (r : Json) : Except Fault Visibility :=
  wordD (attributes r) "visibility" .unspecified

/-- What a function may do to the state, as a word or as flags. -/
def stateMutability (r : Json) : Except Fault StateMutability := do
  let attrs := attributes r
  return (← word? StateMutability attrs "stateMutability").getD
    (.ofFlags (flag attrs "payable") (flag attrs "constant"))

/-- The text of documentation among the attributes. -/
def docString? (r : Json) : Option String := text? (attributes r) "documentation"

/-- The documentation of a statement, always a text. -/
def documentation? (r : Json) : Option Documentation := (docString? r).map .text

/-! ### Children by place -/

/-- The child at a place, which must be there. -/
def child (r : Json) (rs : List Json) (index : Nat) : Draft NodeId :=
  match rs[index]? with
  | some c => Draft.one c
  | none => .fail (.malformed (tag r) (.missingChild index))

/-- The child at a place, if it is there. -/
def child? (rs : List Json) (index : Nat) : Draft (Option NodeId) := Draft.optional rs[index]?

/-- The documentation of a declaration, and the children after it: a leading documentation node, or
else a text among the attributes. -/
def documented (r : Json) : Draft (Option Documentation × List Json) := do
  match records r with
  | [] => return (documentation? r, [])
  | first :: rest =>
    if kind? first = some .structuredDocumentation then
      return (some (.node (← Draft.one first)), rest)
    else return (documentation? r, first :: rest)

/-- An optional part of a record: absent if an attribute of its name is null, and otherwise the next
child, if there is one left.  The children after it are handed back. -/
def part (r : Json) (name : String) (rs : List Json) : Draft (Option NodeId × List Json) :=
  if ((attributes r).get? name).any Json.isNull then return (none, rs)
  else return (← Draft.optional rs.head?, rs.tail)

/-! ### Children by kind -/

/-- Converts records in order, each with the kind that its tag names. -/
def classified : List Json → Draft (List (Option Kind × NodeId))
  | [] => return []
  | r :: rest => do
    let id ← Draft.one r
    return (kind? r, id) :: (← classified rest)

/-- The children of a kind. -/
def ofKind (kind : Kind) (children : List (Option Kind × NodeId)) : List NodeId :=
  (children.filter fun c => c.1 = some kind).map Prod.snd

/-- The last child whose kind passes a test. -/
def last? (test : Option Kind → Bool) (children : List (Option Kind × NodeId)) : Option NodeId :=
  ((children.filter fun c => test c.1).map Prod.snd).getLast?

/-- The last child of a kind. -/
def lastOf? (kind : Kind) : List (Option Kind × NodeId) → Option NodeId :=
  last? fun k => k = some kind

/-- The last child of none of some kinds. -/
def lastBut? (kinds : List Kind) : List (Option Kind × NodeId) → Option NodeId :=
  last? fun k => !kinds.any fun kind => k = some kind

/-! ### Directives -/

/-- A unit, with all its children. -/
def sourceUnit (r : Json) : Draft Payload := do
  let attrs := attributes r
  let path := text attrs "absolutePath"
  let index := (← src r).source
  let unit : UnitAttributes :=
    { sourceEntryKey := path
      sourceListIndex := index
      absolutePath := path
      exportedSymbols := exportedSymbols attrs
      license? := text? attrs "license" }
  return .sourceUnit unit (← Draft.all (records r))

/-- A pragma. -/
def pragmaDirective (r : Json) : Draft Payload :=
  return .pragmaDirective (texts (attributes r) "literals")

/-- A name taken from another source: written as an id, as a name, or as the record of an
identifier. -/
def symbolAlias (r : Json) : SymbolAlias :=
  let local? := text? r "local"
  match field? r "foreign" with
  | none => ⟨none, NodeId.builtin, local?⟩
  | some (.number id) => ⟨none, id.int64?.getD NodeId.builtin, local?⟩
  | some (.string name) => ⟨some name, NodeId.builtin, local?⟩
  | some foreign =>
    let attrs := attributes foreign
    ⟨text? attrs "value" <|> text? foreign "name", reference attrs "referencedDeclaration", local?⟩

/-- An import. -/
def importDirective (r : Json) : Draft Payload := do
  let attrs := attributes r
  let imported : ImportAttributes :=
    { file := ← requiredText attrs "file"
      absolutePath := text attrs "absolutePath"
      unitAlias := text attrs "unitAlias"
      symbolAliases := (items attrs "symbolAliases").map symbolAlias
      scope := reference attrs "scope"
      sourceUnit := reference attrs "SourceUnit" }
  return .importDirective imported

/-- A using directive; for all types, it has no second child. -/
def usingForDirective (r : Json) : Draft Payload := do
  let rs := records r
  let library? ← child? rs 0
  let type? ← child? rs 1
  return .usingForDirective false [] library? [] type?

/-! ### Declarations -/

/-- A contract, with all its children. -/
def contractDefinition (r : Json) : Draft Payload := do
  let attrs := attributes r
  let nodes ← Draft.all (records r)
  let contract : ContractAttributes :=
    { name := ← requiredText attrs "name"
      scope := reference attrs "scope"
      kind := ← word ContractKind attrs "contractKind"
      isAbstract := flag attrs "abstract"
      fullyImplemented := ((field? attrs "fullyImplemented").bind Json.bool?).getD true
      linearizedBaseContracts := ids attrs "linearizedBaseContracts"
      usedErrors := []
      usedEvents := []
      docString? := docString? r
      danglingDocString? := none
      nameLocation? := none }
  return .contractDefinition contract nodes

/-- A base contract: its name, then the arguments. -/
def inheritanceSpecifier (r : Json) : Draft Payload := do
  let rs := records r
  let base ← child r rs 0
  return .inheritanceSpecifier base (← Draft.all rs.tail)

/-- A struct. -/
def structDefinition (r : Json) : Draft Payload := do
  let attrs := attributes r
  let (documentation?, rest) ← documented r
  let name ← requiredText attrs "name"
  let visibility ← visibility r
  let members ← Draft.all rest
  return .structDefinition name (reference attrs "scope") visibility documentation? members

/-- An enumeration. -/
def enumDefinition (r : Json) : Draft Payload := do
  let (documentation?, rest) ← documented r
  let name ← requiredText (attributes r) "name"
  let members ← Draft.all rest
  return .enumDefinition name documentation? members

/-- A value of an enumeration. -/
def enumValue (r : Json) : Draft Payload := do
  return .enumValue (← requiredText (attributes r) "name")

/-- A list of parameters. -/
def parameterList (r : Json) : Draft Payload := do
  return .parameterList (← Draft.all (records r))

/-- An override. -/
def overrideSpecifier (r : Json) : Draft Payload := do
  return .overrideSpecifier (← Draft.all (records r))

/-- A function.  The first of its two parameter lists holds the parameters, the second the return
parameters; whatever is no parameter list, override or modifier is the body. -/
def functionDefinition (r : Json) : Draft Payload := do
  let attrs := attributes r
  let name := text attrs "name"
  let kind := (← word? FunctionKind attrs "kind").getD (.ofFlags (flag attrs "isConstructor") name)
  let (documentation?, rest) ← documented r
  let children ← classified rest
  match ofKind .parameterList children with
  | [parameters, returnParameters] =>
    let function : FunctionAttributes :=
      { scope := reference attrs "scope"
        kind
        name
        isVirtual := flag attrs "virtual"
        visibility := ← visibility r
        stateMutability := ← stateMutability r
        isConstructor := kind = .constructor
        nameLocation? := none }
    return .functionDefinition function documentation? parameters
      (lastOf? .overrideSpecifier children) (ofKind .modifierInvocation children) returnParameters
      (lastBut? [.parameterList, .overrideSpecifier, .modifierInvocation] children)
  | lists => .fail (.malformed "FunctionDefinition" (.parameterLists lists.length))

/-- A variable.  Its children are told apart by their kinds: type name, override, documentation, and
whatever else is the initial value. -/
def variableDeclaration (r : Json) : Draft Payload := do
  let attrs := attributes r
  let constant := flag attrs "constant"
  let (documentation?, rest) ← documented r
  let children ← classified rest
  let isTypeName (k : Option Kind) : Bool := k.any Kind.isTypeName
  let isValue (k : Option Kind) : Bool :=
    !isTypeName k && k ≠ some .overrideSpecifier && k ≠ some .structuredDocumentation
  let declared : VariableAttributes :=
    { constant
      indexed := flag attrs "indexed"
      name := text attrs "name"
      scope := reference attrs "scope"
      stateVariable := flag attrs "stateVariable"
      storageLocation := ← wordD attrs "storageLocation" .unspecified
      visibility := ← visibility r
      mutability := ← wordD attrs "mutability" (.ofFlags constant)
      typeString := typeString r
      nameLocation? := none }
  let documentation? := ((lastOf? .structuredDocumentation children).map .node) <|> documentation?
  return .variableDeclaration declared documentation? (last? isTypeName children)
    (lastOf? .overrideSpecifier children) (last? isValue children)

/-- A modifier.  Whatever is no parameter list and no override is the body. -/
def modifierDefinition (r : Json) : Draft Payload := do
  let attrs := attributes r
  let (documentation?, rest) ← documented r
  let children ← classified rest
  let name ← requiredText attrs "name"
  let visibility ← wordD attrs "visibility" .internally
  match lastOf? .parameterList children with
  | none => .fail (missing r "ParameterList")
  | some parameters =>
    return .modifierDefinition name (flag attrs "virtual") visibility documentation? parameters
      (lastOf? .overrideSpecifier children)
      (lastBut? [.parameterList, .overrideSpecifier] children)

/-- An invocation of a modifier: its name, then the arguments. -/
def modifierInvocation (r : Json) : Draft Payload := do
  let rs := records r
  let name ← child r rs 0
  let kind? ← word? InvocationKind (attributes r) "kind"
  return .modifierInvocation kind? name (← Draft.all rs.tail)

/-- An event. -/
def eventDefinition (r : Json) : Draft Payload := do
  let attrs := attributes r
  let (documentation?, rest) ← documented r
  let name ← requiredText attrs "name"
  let parameters ← child r rest 0
  return .eventDefinition (flag attrs "anonymous") name documentation? parameters

/-! ### Type names -/

/-- The name of a user-defined type. -/
def userDefinedTypeName (r : Json) : Draft Payload := do
  let attrs := attributes r
  let path? ← child? (records r) 0
  return .userDefinedTypeName (typeString r) (text? attrs "name")
    (reference attrs "referencedDeclaration") path?

/-- The name of an elementary type. -/
def elementaryTypeName (r : Json) : Draft Payload := do
  let attrs := attributes r
  let name ← requiredText attrs "name"
  let mutability ← wordD attrs "stateMutability" .nonPayable
  return .elementaryTypeName (typeString r) name mutability

/-- A mapping: the types of keys and values. -/
def mapping (r : Json) : Draft Payload := do
  let rs := records r
  let key ← child r rs 0
  let value ← child r rs 1
  return .mapping (typeString r) key value

/-- An array type: the type of its elements and perhaps the length. -/
def arrayTypeName (r : Json) : Draft Payload := do
  let rs := records r
  let base ← child r rs 0
  let length? ← child? rs 1
  return .arrayTypeName (typeString r) base length?

/-- A function type: parameters and return parameters. -/
def functionTypeName (r : Json) : Draft Payload := do
  let rs := records r
  let visibility ← visibility r
  let mutability ← stateMutability r
  let parameters ← child r rs 0
  let returnParameters ← child r rs 1
  return .functionTypeName (typeString r) visibility mutability parameters returnParameters

/-! ### Statements -/

/-- A block, with all its children. -/
def block (r : Json) : Draft Payload := do
  return .block ⟨docString? r, none⟩ (← Draft.all (records r))

/-- A conditional statement. -/
def ifStatement (r : Json) : Draft Payload := do
  let rs := records r
  let condition ← child r rs 0
  let trueBody ← child r rs 1
  let falseBody? ← child? rs 2
  return .ifStatement (documentation? r) condition trueBody falseBody?

/-- A clause of a try statement.  Whatever is no parameter list is the block. -/
def tryCatchClause (r : Json) : Draft Payload := do
  let children ← classified (records r)
  match lastBut? [.parameterList] children with
  | none => .fail (missing r "Block")
  | some block =>
    return .tryCatchClause (text (attributes r) "errorName") (documentation? r)
      (lastOf? .parameterList children) block

/-- A try statement: the call, then the clauses. -/
def tryStatement (r : Json) : Draft Payload := do
  let rs := records r
  let call ← child r rs 0
  return .tryStatement (documentation? r) call (← Draft.all rs.tail)

/-- A while loop. -/
def whileStatement (r : Json) : Draft Payload := do
  let rs := records r
  let condition ← child r rs 0
  let body ← child r rs 1
  return .whileStatement (documentation? r) condition body

/-- A do-while loop, with the condition first. -/
def doWhileStatement (r : Json) : Draft Payload := do
  let rs := records r
  let condition ← child r rs 0
  let body ← child r rs 1
  return .doWhileStatement (documentation? r) condition body

/-- A for loop.  Its body comes after as many children as there are optional parts. -/
def forStatement (r : Json) : Draft Payload := do
  let rs := records r
  let (initialization?, rest) ← part r "initializationExpression" rs
  let (condition?, rest) ← part r "condition" rest
  let (loop?, _) ← part r "loopExpression" rest
  let present := ([initialization?, condition?, loop?].filterMap id).length
  let body ← child r rs present
  return .forStatement (documentation? r) initialization? condition? loop? body

/-- Inline assembly. -/
def inlineAssembly (r : Json) : Draft Payload := do
  let attrs := attributes r
  let assembly : AssemblyAttributes :=
    { externalReferences := ← externalReferences attrs
      operations? := text? attrs "operations"
      flags := []
      evmVersion? := text? attrs "evmVersion" }
  return .inlineAssembly assembly (documentation? r)

/-- A return. -/
def returnStatement (r : Json) : Draft Payload := do
  let expression? ← child? (records r) 0
  return .returnStatement (reference (attributes r) "functionReturnParameters") (documentation? r)
    expression?

/-- An emission of an event. -/
def emitStatement (r : Json) : Draft Payload := do
  let call ← child r (records r) 0
  return .emitStatement (documentation? r) call

/-- A declaration of variables.  Whatever is no variable is the initial value. -/
def variableDeclarationStatement (r : Json) : Draft Payload := do
  let children ← classified (records r)
  return .variableDeclarationStatement (assignments (attributes r)) (documentation? r)
    (ofKind .variableDeclaration children) (lastBut? [.variableDeclaration] children)

/-- An expression as a statement. -/
def expressionStatement (r : Json) : Draft Payload := do
  let expression ← child r (records r) 0
  return .expressionStatement (documentation? r) expression

/-! ### Expressions -/

/-- A conditional expression. -/
def conditional (r : Json) : Draft Payload := do
  let rs := records r
  let condition ← child r rs 0
  let trueExpression ← child r rs 1
  let falseExpression ← child r rs 2
  return .conditional (typeString r) condition trueExpression falseExpression

/-- An assignment. -/
def assignment (r : Json) : Draft Payload := do
  let rs := records r
  let operator ← requiredText (attributes r) "operator"
  let left ← child r rs 0
  let right ← child r rs 1
  return .assignment (typeString r) operator left right

/-- A tuple, whose holes are null children. -/
def tupleExpression (r : Json) : Draft Payload := do
  let places ← Draft.sparse (r.get? "children")
  return .tupleExpression (typeString r) (flag (attributes r) "isInlineArray") places

/-- An operation on one operand. -/
def unaryOperation (r : Json) : Draft Payload := do
  let attrs := attributes r
  let operator ← requiredText attrs "operator"
  let operand ← child r (records r) 0
  return .unaryOperation (typeString r) (flag attrs "prefix") operator operand

/-- An operation on two operands. -/
def binaryOperation (r : Json) : Draft Payload := do
  let rs := records r
  let operator ← requiredText (attributes r) "operator"
  let left ← child r rs 0
  let right ← child r rs 1
  return .binaryOperation (typeString r) operator left right

/-- A call: what is called, then the arguments.  Its kind is a word or flags. -/
def functionCall (r : Json) : Draft Payload := do
  let attrs := attributes r
  let kind := (← word? CallKind attrs "kind").getD
    (.ofFlags (flag attrs "type_conversion") (flag attrs "isStructConstructorCall"))
  let names := texts attrs "names"
  let rs := records r
  let expression ← child r rs 0
  let arguments ← Draft.all rs.tail
  return .functionCall (typeString r) kind (if names.isEmpty then none else some names) expression
    arguments

/-- Options of a call: what is called, then the options. -/
def functionCallOptions (r : Json) : Draft Payload := do
  let rs := records r
  let expression ← child r rs 0
  let options ← Draft.all rs.tail
  return .functionCallOptions (typeString r) (texts (attributes r) "names") expression options

/-- A creation of a contract or an array. -/
def newExpression (r : Json) : Draft Payload := do
  let type ← child r (records r) 0
  return .newExpression (typeString r) type

/-- An access of a member. -/
def memberAccess (r : Json) : Draft Payload := do
  let attrs := attributes r
  let name ← requiredText attrs "member_name"
  let expression ← child r (records r) 0
  return .memberAccess (typeString r) name (reference attrs "referencedDeclaration") expression

/-- An access of an element. -/
def indexAccess (r : Json) : Draft Payload := do
  let rs := records r
  let base ← child r rs 0
  let index? ← child? rs 1
  return .indexAccess (typeString r) base index?

/-- An access of a range of elements. -/
def indexRangeAccess (r : Json) : Draft Payload := do
  let rs := records r
  let base ← child r rs 0
  let (start?, rest) ← part r "startExpression" rs.tail
  let (stop?, _) ← part r "endExpression" rest
  return .indexRangeAccess (typeString r) base start? stop?

/-- An identifier. -/
def identifier (r : Json) : Draft Payload := do
  let attrs := attributes r
  let name ← requiredText attrs "value"
  return .identifier (typeString r) name (reference attrs "referencedDeclaration")
    (ids attrs "overloadedDeclarations")

/-- The name of a type as an expression, as a child or as a text among the attributes. -/
def elementaryTypeNameExpression (r : Json) : Draft Payload := do
  let operand ← match ← child? (records r) 0 with
    | some id => pure (Operand.node id)
    | none => Operand.name <$> requiredText (attributes r) "value"
  return .elementaryTypeNameExpression (typeString r) operand

/-- A literal; unless it says otherwise, a number. -/
def literal (r : Json) : Draft Payload := do
  let attrs := attributes r
  let kind ← wordD attrs "token" .number
  return .literal ⟨typeString r, kind, text attrs "hexvalue", text? attrs "value",
    text? attrs "subdenomination"⟩

/-- A documentation node. -/
def structuredDocumentation (r : Json) : Draft Payload := do
  let comment ← requiredText (attributes r) "text"
  return .structuredDocumentation (String.ofList (Comment.extract comment.toList))

/-! ### All kinds -/

/-- The payload of a record of the given kind, for the kinds that the schema has. -/
def payload? : Kind → Option (Json → Draft Payload)
  | .contractDefinition => some contractDefinition
  | .enumDefinition => some enumDefinition
  | .enumValue => some enumValue
  | .eventDefinition => some eventDefinition
  | .functionDefinition => some functionDefinition
  | .modifierDefinition => some modifierDefinition
  | .structDefinition => some structDefinition
  | .variableDeclaration => some variableDeclaration
  | .assignment => some assignment
  | .binaryOperation => some binaryOperation
  | .conditional => some conditional
  | .elementaryTypeNameExpression => some elementaryTypeNameExpression
  | .functionCall => some functionCall
  | .functionCallOptions => some functionCallOptions
  | .identifier => some identifier
  | .indexAccess => some indexAccess
  | .indexRangeAccess => some indexRangeAccess
  | .literal => some literal
  | .memberAccess => some memberAccess
  | .newExpression => some newExpression
  | .tupleExpression => some tupleExpression
  | .unaryOperation => some unaryOperation
  | .importDirective => some importDirective
  | .inheritanceSpecifier => some inheritanceSpecifier
  | .modifierInvocation => some modifierInvocation
  | .overrideSpecifier => some overrideSpecifier
  | .parameterList => some parameterList
  | .pragmaDirective => some pragmaDirective
  | .sourceUnit => some sourceUnit
  | .structuredDocumentation => some structuredDocumentation
  | .usingForDirective => some usingForDirective
  | .block => some block
  | .breakStatement => some fun r => return .breakStatement (documentation? r)
  | .continueStatement => some fun r => return .continueStatement (documentation? r)
  | .doWhileStatement => some doWhileStatement
  | .emitStatement => some emitStatement
  | .expressionStatement => some expressionStatement
  | .forStatement => some forStatement
  | .ifStatement => some ifStatement
  | .inlineAssembly => some inlineAssembly
  | .placeholderStatement => some fun r => return .placeholderStatement (documentation? r)
  | .returnStatement => some returnStatement
  | .throwStatement => some fun r => return .throwStatement (documentation? r)
  | .tryCatchClause => some tryCatchClause
  | .tryStatement => some tryStatement
  | .variableDeclarationStatement => some variableDeclarationStatement
  | .whileStatement => some whileStatement
  | .arrayTypeName => some arrayTypeName
  | .elementaryTypeName => some elementaryTypeName
  | .functionTypeName => some functionTypeName
  | .mapping => some mapping
  | .userDefinedTypeName => some userDefinedTypeName
  | .errorDefinition | .userDefinedValueTypeDefinition | .identifierPath | .revertStatement
  | .uncheckedBlock | .yulAssignment | .yulBlock | .yulBreak | .yulCase | .yulContinue
  | .yulExpressionStatement | .yulForLoop | .yulFunctionDefinition | .yulIf | .yulLeave
  | .yulSwitch | .yulVariableDeclaration | .yulFunctionCall | .yulIdentifier | .yulLiteral
  | .yulTypedName | .yulCode | .yulData | .yulObject => none

end SolidityTree.Legacy

namespace SolidityTree

/-- How a schema reads records of a kind, if it has such records. -/
def Schema.payload? : Schema → Kind → Option (Json → Draft Payload)
  | .legacy, kind => Legacy.payload? kind
  | .modern, kind => some (Modern.payload kind)

end SolidityTree
