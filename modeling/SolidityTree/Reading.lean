import SolidityTree.Json.Reading
import SolidityTree.Output
import SolidityTree.Pass.Comments

/-!
# Reading compiler output

Output is read unit by unit into a forest; then the passes go over the units, if the configuration
wants them.  A read that fails at any point leaves the forest as it was.

Main definitions: `Run.read`, and `Parsed.ofText`, which reads output into a forest of its own.
-/

namespace SolidityTree

/-- The passes in the order in which they must run: references are cleared once all Yul code is
expanded, and comments are recovered in the final trees. -/
def Pass.standard : List Pass := [Assembly.pass, Builtin.pass, Comments.pass]

namespace Run

open Output

/-- Lets the standard passes go over units. -/
def postprocess (config : Config) (units : List NodeId) : Run Unit :=
  Pass.runAll Pass.standard config units

/-- The attributes of a unit, with the key and the place that the output gives it. -/
def placed (root : Root) (u : UnitAttributes) : UnitAttributes :=
  { u with
    sourceEntryKey := root.key
    sourceListIndex := root.index?.getD u.sourceListIndex }

/-- Converts the root of a unit. -/
def readRoot (config : Config) (root : Root) : Run NodeId := do
  match Schema.detect? root.record with
  | none => throw (.malformed "SourceUnit" (.schemaless root.key))
  | some schema =>
    let id ← convertRoot config schema root.record
    if (((← get).get? id).bind Node.unit?).isNone then throw (.malformed root.key .notUnit)
    modify (Forest.modifyPayload · id (Payload.mapUnit · (placed root)))
    return id

/-- Converts the roots of units in order. -/
def readRoots (config : Config) : List Root → Run (List NodeId)
  | [] => return []
  | root :: rest => do
    let id ← readRoot config root
    return id :: (← readRoots config rest)

/-- The place of a unit in the list of sources, behind all others if it is none. -/
def placeOf (f : Forest) (id : NodeId) : Int :=
  (((f.get? id).bind Node.unit?).map UnitAttributes.sourceListIndex).getD Word.maxSigned

/-- Reads all units of an output, and gives them by their place in the list of sources; units of the
same place stay in the order of reading. -/
def readUnits (config : Config) (roots : List Root) : Run (List NodeId) := do
  let ids ← readRoots config roots
  let f ← get
  let units := ids.mergeSort fun a b => placeOf f a ≤ placeOf f b
  if config.postprocess then postprocess config units
  return units

/-- Reads compiler output, in a transaction. -/
def read (config : Config) (output : Json) : Run (List NodeId) := do
  let roots ← ask fun _ => Output.roots output
  transaction (readUnits config roots)

end Run

/-! ### Output by itself -/

/-- A forest read from one output, with its units by their place in the list of sources. -/
structure Parsed where
  forest : Forest
  units : List NodeId

namespace Parsed

/-- Why an output could not be read. -/
inductive Failure where
  /-- The trees are at fault. -/
  | tree (fault : Fault)
  /-- The text is not JSON. -/
  | notJson
  /-- There is no file at the path. -/
  | noFile (path : String)
  /-- The file at the path could not be read as output. -/
  | file (path : String) (failure : Failure)

/-- What was being done when reading failed, the outermost first. -/
def Failure.context : Failure → List String
  | .tree _ => ["failed to build the AST graph from compiler output"]
  | .notJson => ["compiler output is not valid JSON"]
  | .noFile path => ["failed to read " ++ path]
  | .file path failure => ("while reading " ++ path) :: failure.context

/-- Reads an output into a new forest. -/
def ofJson (config : Config) (forest : ForestId) (output : Json) : Except Failure Parsed :=
  match Run.read config output (Forest.empty forest) with
  | .ok units f => .ok ⟨f, units⟩
  | .error fault _ => .error (.tree fault)

/-- Reads the text of an output into a new forest. -/
def ofText (config : Config) (forest : ForestId) (text : String) : Except Failure Parsed :=
  match Json.parse? text Json.nestingLimit with
  | some output => ofJson config forest output
  | none => .error .notJson

/-- Reads the output in a file into a new forest, given what the file holds, if there is one. -/
def ofFile (config : Config) (forest : ForestId) (path : String) (contents? : Option String) :
    Except Failure Parsed :=
  match contents? with
  | none => .error (.noFile path)
  | some text => (ofText config forest text).mapError (.file path)

end Parsed

end SolidityTree
