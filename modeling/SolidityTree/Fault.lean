import SolidityTree.Payload.Slot
import SolidityTree.Span

/-!
# Schemas and faults

Compilers write syntax trees in one of two shapes.  The legacy schema nests the attributes of a
record under `attributes` and its child records under `children`; the modern schema keeps both on
the record itself.

A fault says why reading a tree or editing a forest failed: it carries the nodes, the kinds and the
schema it is about, and `Fault.message` words it.
-/

namespace SolidityTree

/-! ### Schemas -/

/-- The shape of a syntax tree in compiler output. -/
inductive Schema where
  | legacy
  | modern
  deriving DecidableEq, Repr

namespace Schema

/-- The name of a schema. -/
def name : Schema → String
  | .legacy => "legacy"
  | .modern => "modern"

/-- The key under which a record of the schema keeps the tag of its kind. -/
def tagKey : Schema → String
  | .legacy => "name"
  | .modern => "nodeType"

end Schema

/-! ### Forests and documentation -/

/-- The identity of a forest. -/
abbrev ForestId := Nat

/-- The text of the identity of a forest. -/
def ForestId.text (id : ForestId) : String := "ctx" ++ toString id

/-- Where documentation stands: before its owner, or behind the last child of a container. -/
inductive Flavour where
  | preceding
  | dangling
  deriving DecidableEq, Repr

/-- The word for a flavour. -/
def Flavour.text : Flavour → String
  | .preceding => "preceding"
  | .dangling => "dangling"

/-! ### Defects of records -/

/-- What a field of a record should hold. -/
inductive Expectation where
  | string
  | id
  | span
  deriving DecidableEq, Repr

/-- The wording of an expectation. -/
def Expectation.text : Expectation → String
  | .string => "a string"
  | .id => "an integer id"
  | .span => "an `offset:length:index` string"

/-- What is wrong with a record. -/
inductive Defect where
  /-- The record has no tag under the key of its schema. -/
  | untagged (schema : Schema)
  /-- There is something else than an array where child records are expected. -/
  | noRecords
  | missing (key : String)
  | shape (key : String) (expected : Expectation)
  /-- A field holds a word that is not in its vocabulary. -/
  | word (key : String) (unknown : String)
  | span (written : String) (defect : Span.Defect)
  | missingChild (index : Nat)
  | parameterLists (found : Nat)
  /-- No schema fits the root of the unit. -/
  | schemaless (key : String)
  /-- The root of a unit is of another kind. -/
  | notUnit
  /-- A source has no syntax tree. -/
  | treeless (key : String)
  /-- The output is neither an object nor an array. -/
  | noOutput
  deriving DecidableEq, Repr

/-- The wording of a defect. -/
def Defect.text : Defect → String
  | .untagged schema => "missing `" ++ schema.tagKey ++ "` tag"
  | .noRecords => "expected an array of node records"
  | .missing key => s!"missing field `{key}`"
  | .shape key expected => s!"field `{key}` is not " ++ expected.text
  | .word key unknown => s!"`{key}`: {unknown}"
  | .span written defect => defect.text written
  | .missingChild index => s!"missing child #{index}"
  | .parameterLists found => s!"expected 2 parameter lists, found {found}"
  | .schemaless key => s!"`{key}` is neither a legacy nor a modern AST"
  | .notUnit => "root record is not a SourceUnit"
  | .treeless key => s!"no AST for source `{key}`"
  | .noOutput => "compiler output must be an object or an array"

/-! ### Faults -/

/-- Why reading a tree or editing a forest failed. -/
inductive Fault where
  /-- The schema has no records of this tag. -/
  | unsupportedKind (tag : String) (schema : Schema)
  /-- A record, named by its tag, has a defect. -/
  | malformed (subject : String) (defect : Defect)
  /-- The id is taken. -/
  | idCollision (id : NodeId)
  /-- The node belongs to another forest. -/
  | foreign (id : NodeId) (expected found : ForestId)
  | notAChild (parent child : NodeId)
  | unknownNode (id : NodeId)
  /-- The child stands where its parent cannot do without one. -/
  | requiredChild (parent child : NodeId) (kind : Kind)
  /-- The kind has no child list at the end in question. -/
  | noChildList (id : NodeId) (kind : Kind)
  | alreadyAttached (id parent : NodeId)
  /-- The node would become its own ancestor. -/
  | cycle (parent child : NodeId)
  | kindMismatch (id : NodeId) (expected found : Kind)
  /-- The kind carries no documentation of this flavour. -/
  | undocumentable (id : NodeId) (kind : Kind) (flavour : Flavour)
  /-- Records nest deeper than the limit. -/
  | tooDeep (limit : Nat)
  deriving DecidableEq, Repr

/-- The wording of a fault. -/
def Fault.message : Fault → String
  | .unsupportedKind tag schema =>
    s!"unsupported node kind `{tag}` in " ++ schema.name ++ " format"
  | .malformed subject defect => s!"malformed `{subject}` record: " ++ defect.text
  | .idCollision id => s!"id {id} is already registered in this context"
  | .foreign id expected found =>
    s!"node #{id} belongs to context " ++ found.text ++ ", not to context " ++ expected.text
  | .notAChild parent child => s!"node #{child} is not a child of node #{parent}"
  | .unknownNode id => s!"node #{id} is not registered in this context"
  | .requiredChild parent child kind =>
    s!"node #{child} is a required child of " ++ kind.tag ++ s!" #{parent} and cannot be removed"
  | .noChildList id kind => kind.tag ++ s!" #{id} has no child list at that end"
  | .alreadyAttached id parent => s!"node #{id} is already attached to node #{parent}"
  | .cycle parent child =>
    s!"attaching node #{child} under node #{parent} would create a cycle"
  | .kindMismatch id expected found =>
    "expected a " ++ expected.tag ++ " node, found " ++ found.tag ++ s!" #{id}"
  | .undocumentable id kind flavour =>
    kind.tag ++ s!" #{id} does not support " ++ flavour.text ++ " documentation"
  | .tooDeep limit => s!"raw record nesting exceeds the depth limit of {limit}"

end SolidityTree
