import SolidityTree.Config
import SolidityTree.Forest.Run
import SolidityTree.Schema.Legacy

/-!
# Conversion of records

A record becomes a node in three steps: it gets its id, its own or else the next one of the forest;
its draft is run, which converts the records of its children in turn; and the node is registered,
which adopts the children.  So ids are given out from parents to children and nodes are registered
from children to parents.

Main definition: `Run.convert`.
-/

namespace SolidityTree

/-- The kind of a record, and how its schema reads it. -/
def Schema.draft (schema : Schema) (r : Json) : Except Fault (Kind × Draft Payload) :=
  match (r.get? schema.tagKey).bind Json.string? with
  | none => .error (.malformed "<record>" (.untagged schema))
  | some tag =>
    match (Vocabulary.ofWord? tag : Option Kind) with
    | none => .error (.unsupportedKind tag schema)
    | some kind =>
      match schema.payload? kind with
      | none => .error (.unsupportedKind tag schema)
      | some draft => .ok (kind, draft r)

namespace Run

/-- The id of a record, or the next one of the forest. -/
def idOf (r : Json) : Run NodeId := do
  match ← ask fun _ => Record.id? r with
  | some id => return id
  | none => nextId

/-- Converts a record and those below it, at most `levels` deep, and registers their nodes. -/
def convert (config : Config) (schema : Schema) : Nat → Json → Run NodeId
  | 0, _ => throw (.tooDeep config.maxDepth)
  | levels + 1, r => do
    let (kind, draft) ← ask fun _ => schema.draft r
    let id ← idOf r
    let src ← ask fun _ => Record.src r
    let payload ← draft.run (convert config schema levels)
    let raw? := if config.keepRaw ∨ kind = .inlineAssembly then some (Record.shallow schema r)
      else none
    let _ ← register (.fresh id src payload raw?)
    return id

/-- Converts a root record, as deep as the configuration allows. -/
def convertRoot (config : Config) (schema : Schema) (r : Json) : Run NodeId :=
  convert config schema config.maxDepth r

end Run

end SolidityTree
