import SolidityTree.Json
import SolidityTree.Payload.Attributes

/-!
# Configuration of reading

A configuration is read from a JSON object: a field that is absent takes its default, and one of
another type than expected makes the whole invalid.
-/

namespace SolidityTree

/-- How compiler output is read. -/
structure Config where
  /-- How deep records may nest. -/
  maxDepth : Nat
  /-- Whether nodes keep their records. -/
  keepRaw : Bool
  /-- Whether the passes run after reading. -/
  postprocess : Bool
  /-- The texts of sources by key or path, in the order of these. -/
  sources : List (String × String)
  deriving DecidableEq, Repr

namespace Config

/-- The configuration that reading has unless told otherwise. -/
def standard : Config := ⟨1024, true, true, []⟩

/-- The text of the source that a unit was compiled from, found by its key or else by its path. -/
def sourceText? (c : Config) (u : UnitAttributes) : Option String :=
  c.sources.lookup u.sourceEntryKey <|> c.sources.lookup u.absolutePath

/-! ### JSON -/

/-- A field of a configuration: its default if it is absent, nothing if it is malformed. -/
def field? {α : Type} (json : Json) (key : String) (default : α) (read : Json → Option α) :
    Option α :=
  match json.get? key with
  | none => some default
  | some value => read value

/-- An unsigned 64-bit word. -/
def word? : Json → Option Nat
  | .number (.integer n) => if 0 ≤ n ∧ n ≤ Word.max then some n.toNat else none
  | _ => none

/-- Texts by key. -/
def texts? : Json → Option (List (String × String))
  | .object entries => entries.mapM fun (key, value) => value.string?.map (key, ·)
  | _ => none

/-- The configuration that an object describes. -/
def ofJson? (json : Json) : Option Config := do
  if !json.isObject then none
  return {
    maxDepth := ← field? json "max_depth" standard.maxDepth word?
    keepRaw := ← field? json "keep_raw" standard.keepRaw Json.bool?
    postprocess := ← field? json "postprocess" standard.postprocess Json.bool?
    sources := ← field? json "sources" standard.sources texts? }

/-- The configuration as an object with all fields. -/
def toJson (c : Config) : Json :=
  .mkObject [("max_depth", .int c.maxDepth), ("keep_raw", .bool c.keepRaw),
    ("postprocess", .bool c.postprocess),
    ("sources", .mkObject (c.sources.map fun (key, text) => (key, .string text)))]

end Config

end SolidityTree
