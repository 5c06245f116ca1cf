import SolidityTree.Payload

/-!
# Payloads by kind

A payload is built from attributes and children by the function named after its kind, which takes
each child at its place: mandatory children as ids, optional ones as options, lists as lists.
-/

namespace SolidityTree.Payload

/-! ### Declarations -/

/-- A contract with its documentation nodes, base contracts and members. -/
def contractDefinition (contract : ContractAttributes) (nodes : List NodeId) : Payload :=
  ⟨.contractDefinition contract, [.many nodes], rfl⟩

/-- An enumeration with its values, its name without a place. -/
def enumDefinition (name : String) (documentation? : Option Documentation)
    (members : List NodeId) : Payload :=
  ⟨.enumDefinition name none, [.documentation documentation?, .many members], rfl⟩

/-- A value of an enumeration, its name without a place. -/
def enumValue (name : String) : Payload := ⟨.enumValue name none, [], rfl⟩

/-- An event, its name without a place. -/
def eventDefinition (anonymous : Bool) (name : String) (documentation? : Option Documentation)
    (parameters : NodeId) : Payload :=
  ⟨.eventDefinition anonymous name none, [.documentation documentation?, .one parameters], rfl⟩

/-- A function; one that is only declared has no body. -/
def functionDefinition (function : FunctionAttributes) (documentation? : Option Documentation)
    (parameters : NodeId) (override? : Option NodeId) (modifiers : List NodeId)
    (returnParameters : NodeId) (body? : Option NodeId) : Payload :=
  ⟨.functionDefinition function,
    [.documentation documentation?, .one parameters, .optional override?, .many modifiers,
     .one returnParameters, .optional body?], rfl⟩

/-- A modifier, its name without a place; one that is only declared has no body. -/
def modifierDefinition (name : String) (isVirtual : Bool) (visibility : Visibility)
    (documentation? : Option Documentation) (parameters : NodeId)
    (override? body? : Option NodeId) : Payload :=
  ⟨.modifierDefinition name isVirtual visibility none,
    [.documentation documentation?, .one parameters, .optional override?, .optional body?], rfl⟩

/-- A struct with its members, its name without a place. -/
def structDefinition (name : String) (scope : NodeId) (visibility : Visibility)
    (documentation? : Option Documentation) (members : List NodeId) : Payload :=
  ⟨.structDefinition name scope visibility none,
    [.documentation documentation?, .many members], rfl⟩

/-- A variable; one that old compilers declare by `var` has no type name. -/
def variableDeclaration (declared : VariableAttributes) (documentation? : Option Documentation)
    (typeName? override? value? : Option NodeId) : Payload :=
  ⟨.variableDeclaration declared,
    [.documentation documentation?, .optional typeName?, .optional override?, .optional value?],
    rfl⟩

/-! ### Expressions -/

/-- An assignment of the right side to the left one. -/
def assignment (typeString operator : String) (left right : NodeId) : Payload :=
  ⟨.assignment typeString operator, [.one left, .one right], rfl⟩

/-- An operation on two operands. -/
def binaryOperation (typeString operator : String) (left right : NodeId) : Payload :=
  ⟨.binaryOperation typeString operator, [.one left, .one right], rfl⟩

/-- A choice between two expressions. -/
def conditional (typeString : String) (condition trueExpression falseExpression : NodeId) :
    Payload :=
  ⟨.conditional typeString, [.one condition, .one trueExpression, .one falseExpression], rfl⟩

/-- The name of an elementary type in the place of an expression. -/
def elementaryTypeNameExpression (typeString : String) (operand : Operand) : Payload :=
  ⟨.elementaryTypeNameExpression typeString, [.operand operand], rfl⟩

/-- A call; if the arguments are named, their names come in the same order. -/
def functionCall (typeString : String) (kind : CallKind) (fieldNames? : Option (List String))
    (expression : NodeId) (arguments : List NodeId) : Payload :=
  ⟨.functionCall typeString kind fieldNames?, [.one expression, .many arguments], rfl⟩

/-- The options of a call, labelled by the names in the same order. -/
def functionCallOptions (typeString : String) (names : List String) (expression : NodeId)
    (options : List NodeId) : Payload :=
  ⟨.functionCallOptions typeString names, [.one expression, .many options], rfl⟩

/-- An identifier, the declaration it refers to, and those it could refer to by name. -/
def identifier (typeString name : String) (referenced : NodeId) (overloaded : List NodeId) :
    Payload :=
  ⟨.identifier typeString name referenced overloaded, [], rfl⟩

/-- An access of an element; the index is absent in a type such as `uint[]`. -/
def indexAccess (typeString : String) (base : NodeId) (index? : Option NodeId) : Payload :=
  ⟨.indexAccess typeString, [.one base, .optional index?], rfl⟩

/-- An access of a range of elements, open at an end that is absent. -/
def indexRangeAccess (typeString : String) (base : NodeId) (start? stop? : Option NodeId) :
    Payload :=
  ⟨.indexRangeAccess typeString, [.one base, .optional start?, .optional stop?], rfl⟩

/-- A literal. -/
def literal (literal : LiteralAttributes) : Payload := ⟨.literal literal, [], rfl⟩

/-- An access of a member of an expression. -/
def memberAccess (typeString memberName : String) (referenced expression : NodeId) : Payload :=
  ⟨.memberAccess typeString memberName referenced, [.one expression], rfl⟩

/-- A creation of a contract or an array. -/
def newExpression (typeString : String) (typeName : NodeId) : Payload :=
  ⟨.newExpression typeString, [.one typeName], rfl⟩

/-- A tuple with its holes, or an array written out. -/
def tupleExpression (typeString : String) (isInlineArray : Bool)
    (components : List (Option NodeId)) : Payload :=
  ⟨.tupleExpression typeString isInlineArray, [.sparse components], rfl⟩

/-- An operation on one operand, written before it or behind it. -/
def unaryOperation (typeString : String) (isPrefix : Bool) (operator : String)
    (operand : NodeId) : Payload :=
  ⟨.unaryOperation typeString isPrefix operator, [.one operand], rfl⟩

/-! ### Clauses and directives -/

/-- An import of another source. -/
def importDirective (imported : ImportAttributes) : Payload := ⟨.importDirective imported, [], rfl⟩

/-- A base contract with the arguments of its constructor. -/
def inheritanceSpecifier (base : NodeId) (arguments : List NodeId) : Payload :=
  ⟨.inheritanceSpecifier, [.one base, .many arguments], rfl⟩

/-- A modifier, or the constructor of a base contract, with its arguments. -/
def modifierInvocation (kind? : Option InvocationKind) (name : NodeId) (arguments : List NodeId) :
    Payload :=
  ⟨.modifierInvocation kind?, [.one name, .many arguments], rfl⟩

/-- An override with the contracts it names. -/
def overrideSpecifier (overrides : List NodeId) : Payload :=
  ⟨.overrideSpecifier, [.many overrides], rfl⟩

/-- A list of parameters. -/
def parameterList (parameters : List NodeId) : Payload :=
  ⟨.parameterList, [.many parameters], rfl⟩

/-- A pragma with the words after it. -/
def pragmaDirective (literals : List String) : Payload := ⟨.pragmaDirective literals, [], rfl⟩

/-- A source unit with all that is written at its top. -/
def sourceUnit (unit : UnitAttributes) (nodes : List NodeId) : Payload :=
  ⟨.sourceUnit unit, [.many nodes], rfl⟩

/-- A documentation node with the text of its comment. -/
def structuredDocumentation (text : String) : Payload := ⟨.structuredDocumentation text, [], rfl⟩

/-- A using directive: a library or functions, for one type name or for all types. -/
def usingForDirective (isGlobal : Bool) (operators : List OperatorBinding)
    (library? : Option NodeId) (functions : List NodeId) (typeName? : Option NodeId) : Payload :=
  ⟨.usingForDirective isGlobal operators,
    [.optional library?, .many functions, .optional typeName?], rfl⟩

/-! ### Statements -/

/-- A block of statements. -/
def block (texts : BlockAttributes) (statements : List NodeId) : Payload :=
  ⟨.block texts, [.many statements], rfl⟩

/-- A break out of a loop. -/
def breakStatement (documentation? : Option Documentation) : Payload :=
  ⟨.breakStatement, [.documentation documentation?], rfl⟩

/-- A jump to the next turn of a loop. -/
def continueStatement (documentation? : Option Documentation) : Payload :=
  ⟨.continueStatement, [.documentation documentation?], rfl⟩

/-- A loop that tests its condition behind its body. -/
def doWhileStatement (documentation? : Option Documentation) (condition body : NodeId) : Payload :=
  ⟨.doWhileStatement, [.documentation documentation?, .one condition, .one body], rfl⟩

/-- An emission of an event, which is written as a call. -/
def emitStatement (documentation? : Option Documentation) (call : NodeId) : Payload :=
  ⟨.emitStatement, [.documentation documentation?, .one call], rfl⟩

/-- An expression as a statement. -/
def expressionStatement (documentation? : Option Documentation) (expression : NodeId) : Payload :=
  ⟨.expressionStatement, [.documentation documentation?, .one expression], rfl⟩

/-- A for loop; only its body must be there. -/
def forStatement (documentation? : Option Documentation)
    (initialization? condition? loop? : Option NodeId) (body : NodeId) : Payload :=
  ⟨.forStatement,
    [.documentation documentation?, .optional initialization?, .optional condition?,
     .optional loop?, .one body], rfl⟩

/-- A conditional statement, with or without a second branch. -/
def ifStatement (documentation? : Option Documentation) (condition trueBody : NodeId)
    (falseBody? : Option NodeId) : Payload :=
  ⟨.ifStatement,
    [.documentation documentation?, .one condition, .one trueBody, .optional falseBody?], rfl⟩

/-- Inline assembly whose Yul code is not expanded yet. -/
def inlineAssembly (assembly : AssemblyAttributes) (documentation? : Option Documentation) :
    Payload :=
  ⟨.inlineAssembly assembly, [.documentation documentation?, .optional none], rfl⟩

/-- The place in a modifier where the modified function runs. -/
def placeholderStatement (documentation? : Option Documentation) : Payload :=
  ⟨.placeholderStatement, [.documentation documentation?], rfl⟩

/-- A return from the function with the given return parameters. -/
def returnStatement (functionReturnParameters : NodeId) (documentation? : Option Documentation)
    (expression? : Option NodeId) : Payload :=
  ⟨.returnStatement functionReturnParameters,
    [.documentation documentation?, .optional expression?], rfl⟩

/-- A throw, as old compilers have it. -/
def throwStatement (documentation? : Option Documentation) : Payload :=
  ⟨.throwStatement, [.documentation documentation?], rfl⟩

/-- A clause of a try statement. -/
def tryCatchClause (errorName : String) (documentation? : Option Documentation)
    (parameters? : Option NodeId) (block : NodeId) : Payload :=
  ⟨.tryCatchClause errorName,
    [.documentation documentation?, .optional parameters?, .one block], rfl⟩

/-- A try statement: the call and the clauses for its outcomes. -/
def tryStatement (documentation? : Option Documentation) (call : NodeId) (clauses : List NodeId) :
    Payload :=
  ⟨.tryStatement, [.documentation documentation?, .one call, .many clauses], rfl⟩

/-- A declaration of variables, with or without an initial value. -/
def variableDeclarationStatement (assignments : List (Option NodeId))
    (documentation? : Option Documentation) (declarations : List NodeId) (value? : Option NodeId) :
    Payload :=
  ⟨.variableDeclarationStatement assignments,
    [.documentation documentation?, .many declarations, .optional value?], rfl⟩

/-- A loop that tests its condition before its body. -/
def whileStatement (documentation? : Option Documentation) (condition body : NodeId) : Payload :=
  ⟨.whileStatement, [.documentation documentation?, .one condition, .one body], rfl⟩

/-! ### Type names -/

/-- An array type, of a fixed length or not. -/
def arrayTypeName (typeString : String) (base : NodeId) (length? : Option NodeId) : Payload :=
  ⟨.arrayTypeName typeString, [.one base, .optional length?], rfl⟩

/-- An elementary type; the mutability tells `address` from `address payable`. -/
def elementaryTypeName (typeString name : String) (stateMutability : StateMutability) : Payload :=
  ⟨.elementaryTypeName typeString name stateMutability, [], rfl⟩

/-- A function type. -/
def functionTypeName (typeString : String) (visibility : Visibility)
    (stateMutability : StateMutability) (parameters returnParameters : NodeId) : Payload :=
  ⟨.functionTypeName typeString visibility stateMutability,
    [.one parameters, .one returnParameters], rfl⟩

/-- A mapping from keys to values. -/
def mapping (typeString : String) (key value : NodeId) : Payload :=
  ⟨.mapping typeString, [.one key, .one value], rfl⟩

/-- The name of a user-defined type, as a text, as a path or as both. -/
def userDefinedTypeName (typeString : String) (name? : Option String) (referenced : NodeId)
    (path? : Option NodeId) : Payload :=
  ⟨.userDefinedTypeName typeString name? referenced, [.optional path?], rfl⟩

/-! ### Yul -/

/-- A case of a Yul switch; the default case has no value. -/
def yulCase (value? : Option NodeId) (body : NodeId) : Payload :=
  ⟨.yulCase, [.optional value?, .one body], rfl⟩

end SolidityTree.Payload
