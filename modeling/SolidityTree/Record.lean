import SolidityTree.Fault
import SolidityTree.Payload.Attributes
import SolidityTree.Vocabulary

/-!
# Records

A record is a JSON value that compiler output gives for one node.  This module reads single fields
off it.  A field that is null counts as absent.  Most fields are optional and a wrong shape counts
as absent, too; the others fail with a fault that names the record by its tag (`Record.tag`).

`Record.shallow` is what a node keeps of its record: everything but the records of other nodes.
-/

namespace SolidityTree.Record

/-! ### Fields -/

/-- The tag of a record, for messages. -/
def tag (r : Json) : String :=
  match r.get? "nodeType" <|> r.get? "name" with
  | some (.string s) => s
  | _ => "<record>"

/-- The kind that the tag of a record names. -/
def kind? (r : Json) : Option Kind := Vocabulary.ofWord? (tag r)

/-- A field that is there and not null. -/
def field? (r : Json) (key : String) : Option Json :=
  (r.get? key).filter fun value => !value.isNull

/-- The fault of a record without a field it needs. -/
def missing (r : Json) (key : String) : Fault := .malformed (tag r) (.missing key)

/-- A field that must be there. -/
def required (r : Json) (key : String) : Except Fault Json :=
  match field? r key with
  | some value => .ok value
  | none => .error (missing r key)

/-- A text, if the field holds one. -/
def text? (r : Json) (key : String) : Option String := (field? r key).bind Json.string?

/-- A text, empty if the field holds none. -/
def text (r : Json) (key : String) : String := (text? r key).getD ""

/-- A text that must be there. -/
def requiredText (r : Json) (key : String) : Except Fault String := do
  match (← required r key).string? with
  | some s => .ok s
  | none => .error (.malformed (tag r) (.shape key .string))

/-- A truth value, false if the field holds none. -/
def flag (r : Json) (key : String) : Bool := ((field? r key).bind Json.bool?).getD false

/-- A reference, to no declaration if the field holds none. -/
def reference (r : Json) (key : String) : NodeId :=
  ((field? r key).bind Json.int64?).getD NodeId.builtin

/-- The items of an array, none if the field holds no array. -/
def items (r : Json) (key : String) : List Json := ((field? r key).bind Json.items?).getD []

/-- The ids in an array; other items are left out. -/
def ids (r : Json) (key : String) : List NodeId := (items r key).filterMap Json.int64?

/-- The texts in an array; other items are left out. -/
def texts (r : Json) (key : String) : List String := (items r key).filterMap Json.string?

/-! ### Fields that can be malformed -/

/-- The id of a record, if it has one. -/
def id? (r : Json) : Except Fault (Option NodeId) :=
  match field? r "id" with
  | none => .ok none
  | some value =>
    match value.int64? with
    | some id => .ok (some id)
    | none => .error (.malformed (tag r) (.shape "id" .id))

/-- A word of a closed vocabulary that must be there. -/
def word (α : Type) [Vocabulary α] (r : Json) (key : String) : Except Fault α := do
  let s ← requiredText r key
  match Vocabulary.ofWord? s with
  | some a => .ok a
  | none => .error (.malformed (tag r) (.word key (Vocabulary.unknown α s)))

/-- A word of a closed vocabulary, if the field is there. -/
def word? (α : Type) [Vocabulary α] (r : Json) (key : String) : Except Fault (Option α) :=
  if (field? r key).isSome then some <$> word α r key else .ok none

/-- A word of a closed vocabulary, or a given one if the field is not there. -/
def wordD {α : Type} [Vocabulary α] (r : Json) (key : String) (default : α) : Except Fault α := do
  return (← word? α r key).getD default

/-- A range, if the field is there. -/
def span? (r : Json) (key : String) : Except Fault (Option Span) :=
  match field? r key with
  | none => .ok none
  | some (.string s) =>
    match Span.ofText s with
    | .ok span => .ok (some span)
    | .error defect => .error (.malformed "SourceLocation" (.span s defect))
  | some _ => .error (.malformed (tag r) (.shape key .span))

/-- The range of a record. -/
def src (r : Json) : Except Fault Span := do return (← span? r "src").getD .unknown

/-! ### Parts common to both schemas -/

/-- The declarations that a unit exports.  Of a list of declarations the first counts. -/
def exportedSymbols (r : Json) : List (String × NodeId) :=
  let first : Json → Option NodeId
    | .array ids => ids.head?.bind Json.int64?
    | id => id.int64?
  (((field? r "exportedSymbols").bind Json.entries?).getD []).filterMap
    fun (name, ids) => (first ids).map (name, ·)

/-- A declaration that inline assembly refers to.  Older compilers wrap each of them in an object
with one entry, named after the identifier. -/
def externalReference (entry : Json) : Except Fault ExternalReference := do
  let (name?, r) : Option String × Json :=
    match entry with
    | .object [(name, r)] => if name = "declaration" then (none, entry) else (some name, r)
    | _ => (none, entry)
  return {
    name?
    declaration := reference r "declaration"
    src := ← src r
    valueSize := ((field? r "valueSize").bind Json.int64?).getD 1
    suffix? := text? r "suffix"
    isOffset := flag r "isOffset"
    isSlot := flag r "isSlot" }

/-- The declarations that inline assembly refers to. -/
def externalReferences (r : Json) : Except Fault (List ExternalReference) :=
  (items r "externalReferences").mapM externalReference

/-- The ids assigned by position, with holes. -/
def assignments (r : Json) : List (Option NodeId) := (items r "assignments").map Json.int64?

/-! ### Raw records -/

mutual

/-- Whether a value is the record of a node, or an array with one in it. -/
def holdsRecord : Json → Bool
  | .object entries => (entries.lookup "nodeType").isSome
  | .array items => anyHoldsRecord items
  | _ => false

/-- Whether one of some values holds a record. -/
def anyHoldsRecord : List Json → Bool
  | [] => false
  | item :: rest => holdsRecord item || anyHoldsRecord rest

end

/-- The record without the records of its children.  Inline assembly keeps the tree of its Yul code
until that is expanded. -/
def shallow (schema : Schema) : Json → Json
  | .object entries =>
    let keepsTree := entries.lookup "nodeType" matches some (.string "InlineAssembly")
    .object <| entries.filter fun (key, value) =>
      match schema with
      | .legacy => key ≠ "children"
      | .modern => (keepsTree && key = "AST") || !holdsRecord value
  | r => r

end SolidityTree.Record
