import SolidityTree.Schema.Legacy

/-!
# Compiler output

Compiler output holds the root records of its units in one of three shapes: an object with a map of
sources, an array of roots, or a single root.  The schema of a unit is found once, from its root
record.

Main definitions: `Output.roots` and `Schema.detect?`.
-/

namespace SolidityTree

/-- The schema of a root record. -/
def Schema.detect? (root : Json) : Option Schema :=
  if ((root.get? "nodeType").bind Json.string?).isSome then some .modern
  else if ((root.get? "name").bind Json.string?).isSome &&
      ((root.get? "attributes").isSome || (root.get? "children").isSome) then some .legacy
  else none

namespace Output

/-- The root record of a unit. -/
structure Root where
  /-- The key of the source, or the path that the root names. -/
  key : String
  /-- The place of the source in the list of sources. -/
  index? : Option Int
  record : Json

/-! ### Single roots -/

/-- A root by itself, with the path it names itself. -/
def Root.ofRecord (r : Json) : Root :=
  let path? := r.get? "absolutePath" <|> (Legacy.attributes r).get? "absolutePath"
  ⟨((path?.bind Json.string?).getD ""), none, r⟩

/-! ### Maps of sources -/

/-- The tree of a source, under the first of the three names that holds an object. -/
def tree? (source : Json) : Option Json :=
  ["ast", "legacyAST", "AST"].findSome? fun name => (source.get? name).filter Json.isObject

/-- The names in the list of sources. -/
def sourceList (output : Json) : List String :=
  (((output.get? "sourceList").bind Json.items?).getD []).filterMap Json.string?

/-- The root of a source in a map of sources.  Its place is that of its key in the list of sources,
or else the id that the source itself gives. -/
def rootOf (listed : List String) (key : String) (source : Json) : Except Fault Root :=
  match tree? source with
  | none => .error (.malformed "SourceUnit" (.treeless key))
  | some r =>
    let index? := (listed.idxOf? key).map Int.ofNat <|> (source.get? "id").bind Json.int64?
    .ok ⟨key, index?, r⟩

/-! ### All shapes -/

/-- The roots of the units in compiler output; those of a map of sources come in the order of its
keys. -/
def roots (output : Json) : Except Fault (List Root) :=
  match (output.get? "sources").bind Json.entries? with
  | some sources => sources.mapM fun (key, source) => rootOf (sourceList output) key source
  | none =>
    match output with
    | .array rs => .ok (rs.map Root.ofRecord)
    | .object _ => .ok [Root.ofRecord output]
    | _ => .error (.malformed "SourceUnit" .noOutput)

end Output

end SolidityTree
