import SolidityTree.Forest.Run
import SolidityTree.Payload.Building

/-!
# Making nodes

Nodes are made from payloads: a new node gets the next id and is registered, so it adopts the
children that its payload names.  The named makers below build the payloads of the commonest kinds.
`Run.copy` makes a copy of a whole tree.

An id given out to a node that then cannot be registered stays given out.
-/

namespace SolidityTree

namespace Run

/-! ### Any kind -/

/-- Makes a node at a place in a source. -/
def makeAt (src : Span) (payload : Payload) : Run Handle := do
  register (.fresh (← nextId) src payload none)

/-- Makes a node without a place in a source. -/
def make (payload : Payload) : Run Handle := makeAt .unknown payload

/-- Whether a handle names a node of the forest at hand, registered or not. -/
def checkOwned (h : Handle) : Run Unit :=
  ask fun f => if h.forest = f.id then .ok () else .error (.foreign h.id f.id h.forest)

/-- Makes a node whose children are given as handles, too: they must belong to the forest. -/
def makeWith (children : List Handle) (payload : Payload) : Run Handle := do
  children.forM checkOwned
  make payload

/-! ### Expressions -/

/-- An identifier. -/
def identifier (name typeString : String) (referenced : NodeId) : Run Handle :=
  make (.identifier typeString name referenced [])

/-- The name of a declaration, and the type of an identifier that refers to it. -/
def declared? : Attributes → Option (String × String)
  | .variableDeclaration v => some (v.name, v.typeString)
  | .functionDefinition f => some (f.name, "")
  | .contractDefinition c => some (c.name, "type(contract " ++ c.name ++ ")")
  | .structDefinition name _ _ _ => some (name, "")
  | .enumDefinition name _ => some (name, "")
  | .eventDefinition _ name _ => some (name, "")
  | .errorDefinition name _ => some (name, "")
  | .modifierDefinition name _ _ _ => some (name, "")
  | .userDefinedValueTypeDefinition name _ => some (name, "")
  | _ => none

/-- An identifier that refers to a declaration. -/
def identifierFor (declaration : NodeId) : Run Handle := do
  let n ← ask (Forest.node · declaration)
  match declared? n.payload.attributes with
  | some (name, typeString) => identifier name typeString declaration
  | none => throw (.kindMismatch declaration .variableDeclaration n.kind)

/-- The two hexadecimal digits of a byte. -/
def hexDigits (b : UInt8) : List Char :=
  [Nat.digitChar (b.toNat / 16), Nat.digitChar (b.toNat % 16)]

/-- The hexadecimal digits of the bytes of a text. -/
def hexText (s : String) : String := String.ofList (s.toUTF8.toList.flatMap hexDigits)

/-- A literal. -/
def literal (kind : LiteralKind) (value typeString : String) : Run Handle :=
  make (.literal ⟨typeString, kind, hexText value, some value, none⟩)

/-- The type of a node, for the kinds whose type new nodes take over. -/
def typeString? : Attributes → Option String
  | .elementaryTypeName typeString _ _ => some typeString
  | .variableDeclaration v => some v.typeString
  | .identifier typeString _ _ _ => some typeString
  | .memberAccess typeString _ _ => some typeString
  | .indexAccess typeString => some typeString
  | _ => none

/-- The type that a new node takes over from another one, empty if there is none. -/
def typeStringOf (f : Forest) (id : NodeId) : String :=
  ((f.get? id).bind fun n => typeString? n.payload.attributes).getD ""

/-- An assignment, of the type of its left side. -/
def assignment (operator : String) (left right : NodeId) : Run Handle := do
  let typeString := typeStringOf (← get) left
  make (.assignment typeString operator left right)

/-- An operation on two operands. -/
def binaryOperation (operator : String) (left right : NodeId) (typeString : String) : Run Handle :=
  make (.binaryOperation typeString operator left right)

/-- A call of a function, with arguments by position. -/
def functionCall (expression : NodeId) (arguments : List NodeId) (typeString : String) :
    Run Handle :=
  make (.functionCall typeString .functionCall none expression arguments)

/-- An access of a member. -/
def memberAccess (expression : NodeId) (memberName : String) (referenced : NodeId)
    (typeString : String) : Run Handle :=
  make (.memberAccess typeString memberName referenced expression)

/-! ### Declarations and statements -/

/-- The name of an elementary type. -/
def elementaryTypeName (name : String) : Run Handle :=
  make (.elementaryTypeName name name .nonPayable)

/-- A list of parameters. -/
def parameterList (parameters : List NodeId) : Run Handle :=
  make (.parameterList parameters)

/-- A local variable. -/
def variableDeclaration (name : String) (typeName scope : NodeId) : Run Handle := do
  let v : VariableAttributes :=
    { constant := false
      indexed := false
      name
      scope
      stateVariable := false
      storageLocation := .unspecified
      visibility := .internally
      mutability := .mutable
      typeString := typeStringOf (← get) typeName
      nameLocation? := none }
  make (.variableDeclaration v none (some typeName) none none)

/-- A block of statements. -/
def block (statements : List NodeId) : Run Handle :=
  make (.block ⟨none, none⟩ statements)

/-- An expression as a statement. -/
def expressionStatement (expression : NodeId) : Run Handle :=
  make (.expressionStatement none expression)

/-- A return from a function with the given return parameters. -/
def returnStatement (expression? : Option NodeId) (parameters : NodeId) : Run Handle :=
  make (.returnStatement parameters none expression?)

/-- A documentation node. -/
def structuredDocumentation (text : String) : Run Handle :=
  make (.structuredDocumentation text)

/-! ### Copies -/

/-- New ids for a list of old ones. -/
def rename : List NodeId → Run (Std.ExtTreeMap NodeId NodeId)
  | ids => ids.foldlM (fun names id => do return names.insert id (← nextId)) ∅

/-- Registers a copy of a node, its children and references renamed. -/
def copyNode (name : NodeId → NodeId) (id : NodeId) : Run Unit := do
  let n ← ask (Forest.node · id)
  let _ ← register (.fresh (name id) n.src (n.payload.rename name) n.raw?)

/-- Copies a tree under new ids, children before parents.  References inside the tree go to the
copies, all others stay.  The copy of the root has no parent. -/
def copy (h : Handle) : Run Handle := do
  checkOwned h
  let _ ← ask (Forest.node · h.id)
  let originals := (← get).walk h.id
  let names ← rename originals
  let name (id : NodeId) : NodeId := names.getD id id
  originals.reverse.forM (copyNode name)
  return (← get).handle (name h.id)

end Run

end SolidityTree
