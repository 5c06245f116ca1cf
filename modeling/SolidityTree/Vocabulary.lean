/-!
# Closed vocabularies

Compiler output spells many properties of a node as one word of a fixed list.  A `Vocabulary` gives
each value of a type its word; the words of one vocabulary differ, so a word is read back by looking
it up (`Vocabulary.ofWord?`).

Older compilers write some of these properties as flags; the functions named `ofFlags` recover the
value from them.
-/

namespace SolidityTree

/-- A type whose values are the words of a fixed list. -/
class Vocabulary (α : Type) where
  /-- What the words are called in messages. -/
  label : String
  /-- The values, in the order of the list. -/
  all : List α
  /-- The word of a value. -/
  word : α → String

namespace Vocabulary

/-- The value a word stands for. -/
def ofWord? {α : Type} [Vocabulary α] (s : String) : Option α :=
  (all : List α).find? fun a => word a == s

/-- The message for a word that is not in the list. -/
def unknown (α : Type) [Vocabulary α] (s : String) : String :=
  "unknown " ++ label α ++ s!" `{s}`"

end Vocabulary

/-! ### Declarations -/

/-- What a contract definition defines. -/
inductive ContractKind where
  | contract | interface | library
  deriving DecidableEq, Repr, Inhabited

instance : Vocabulary ContractKind where
  label := "ContractKind"
  all := [.contract, .interface, .library]
  word
    | .contract => "contract"
    | .interface => "interface"
    | .library => "library"

/-- What a function definition defines. -/
inductive FunctionKind where
  | function | receive | constructor | fallback | freeFunction
  deriving DecidableEq, Repr, Inhabited

instance : Vocabulary FunctionKind where
  label := "FunctionKind"
  all := [.function, .receive, .constructor, .fallback, .freeFunction]
  word
    | .function => "function"
    | .receive => "receive"
    | .constructor => "constructor"
    | .fallback => "fallback"
    | .freeFunction => "freeFunction"

/-- A record that says only whether it is a constructor: among the others, the nameless function is
the fallback. -/
def FunctionKind.ofFlags (isConstructor : Bool) (name : String) : FunctionKind :=
  if isConstructor then .constructor else if name.isEmpty then .fallback else .function

/-- From where a declaration can be reached. -/
inductive Visibility where
  | externally | publicly | internally | privately | unspecified
  deriving DecidableEq, Repr, Inhabited

instance : Vocabulary Visibility where
  label := "Visibility"
  all := [.externally, .publicly, .internally, .privately, .unspecified]
  word
    | .externally => "external"
    | .publicly => "public"
    | .internally => "internal"
    | .privately => "private"
    | .unspecified => "default"

/-- Whether a declaration can be reached from outside its contract. -/
def Visibility.isExternallyVisible : Visibility → Bool
  | .externally | .publicly => true
  | _ => false

/-- What a function may do to the state. -/
inductive StateMutability where
  | pure | view | constant | nonPayable | payable
  deriving DecidableEq, Repr, Inhabited

instance : Vocabulary StateMutability where
  label := "StateMutability"
  all := [.pure, .view, .constant, .nonPayable, .payable]
  word
    | .pure => "pure"
    | .view => "view"
    | .constant => "constant"
    | .nonPayable => "nonpayable"
    | .payable => "payable"

/-- Whether a function leaves the state as it is. -/
def StateMutability.isReadOnly : StateMutability → Bool
  | .pure | .view | .constant => true
  | _ => false

/-- A record that says only whether the function is payable and whether it is constant. -/
def StateMutability.ofFlags (payable constant : Bool) : StateMutability :=
  if payable then .payable else if constant then .constant else .nonPayable

/-- When a variable may be assigned. -/
inductive Mutability where
  | mutable | immutable | constant
  deriving DecidableEq, Repr, Inhabited

instance : Vocabulary Mutability where
  label := "Mutability"
  all := [.mutable, .immutable, .constant]
  word
    | .mutable => "mutable"
    | .immutable => "immutable"
    | .constant => "constant"

/-- A record that says only whether the variable is constant. -/
def Mutability.ofFlags (constant : Bool) : Mutability := if constant then .constant else .mutable

/-- Where the value of a variable lives. -/
inductive DataLocation where
  | storage | memory | calldata | transient | unspecified
  deriving DecidableEq, Repr, Inhabited

instance : Vocabulary DataLocation where
  label := "DataLocation"
  all := [.storage, .memory, .calldata, .transient, .unspecified]
  word
    | .storage => "storage"
    | .memory => "memory"
    | .calldata => "calldata"
    | .transient => "transient"
    | .unspecified => "default"

/-- Whether the variable is a reference into a data location. -/
def DataLocation.isReferenceLocation : DataLocation → Bool
  | .unspecified => false
  | _ => true

/-! ### Expressions -/

/-- How a literal is written. -/
inductive LiteralKind where
  | number | bool | string | hexString | unicodeString
  deriving DecidableEq, Repr, Inhabited

instance : Vocabulary LiteralKind where
  label := "LiteralKind"
  all := [.number, .bool, .string, .hexString, .unicodeString]
  word
    | .number => "number"
    | .bool => "bool"
    | .string => "string"
    | .hexString => "hexString"
    | .unicodeString => "unicodeString"

/-- What a call expression calls. -/
inductive CallKind where
  | functionCall | typeConversion | structConstructorCall
  deriving DecidableEq, Repr, Inhabited

instance : Vocabulary CallKind where
  label := "FunctionCallKind"
  all := [.functionCall, .typeConversion, .structConstructorCall]
  word
    | .functionCall => "functionCall"
    | .typeConversion => "typeConversion"
    | .structConstructorCall => "structConstructorCall"

/-- A record that says only whether the call converts a type or builds a struct. -/
def CallKind.ofFlags (typeConversion structConstructor : Bool) : CallKind :=
  if typeConversion then .typeConversion
  else if structConstructor then .structConstructorCall
  else .functionCall

/-- What a modifier invocation invokes. -/
inductive InvocationKind where
  | modifierInvocation | baseConstructorSpecifier
  deriving DecidableEq, Repr, Inhabited

instance : Vocabulary InvocationKind where
  label := "ModifierInvocationKind"
  all := [.modifierInvocation, .baseConstructorSpecifier]
  word
    | .modifierInvocation => "modifierInvocation"
    | .baseConstructorSpecifier => "baseConstructorSpecifier"

/-- How a Yul literal is written. -/
inductive YulLiteralKind where
  | number | bool | string
  deriving DecidableEq, Repr, Inhabited

instance : Vocabulary YulLiteralKind where
  label := "YulLiteralKind"
  all := [.number, .bool, .string]
  word
    | .number => "number"
    | .bool => "bool"
    | .string => "string"

end SolidityTree
