import SolidityTree.Fault
import SolidityTree.Payload.Printing

/-!
# Nodes

A node is a payload with an identity and a place in a source.  Its children are those its payload
names; a registered node also carries two marks, the parent that lists it and the forest it is in.
-/

namespace SolidityTree

/-- A node of a syntax tree. -/
structure Node where
  id : NodeId
  src : Span
  /-- The record the node was read from, without the records of its children. -/
  raw? : Option Json
  payload : Payload
  /-- The node that this one is a child of. -/
  parent? : Option NodeId
  /-- The forest that this node is registered in. -/
  forest? : Option ForestId

namespace Node

/-- A node that is in no forest. -/
def fresh (id : NodeId) (src : Span) (payload : Payload) (raw? : Option Json) : Node :=
  ⟨id, src, raw?, payload, none, none⟩

/-- The kind of a node. -/
def kind (n : Node) : Kind := n.payload.kind

/-- The children of a node, in order. -/
def children (n : Node) : List NodeId := n.payload.children

/-- The attributes of a source unit. -/
def unit? (n : Node) : Option UnitAttributes := n.payload.attributes.unit?

/-- Changes the payload of a node. -/
def mapPayload (n : Node) (f : Payload → Payload) : Node := { n with payload := f n.payload }

/-- The node as one object. -/
def toJson (n : Node) : Json :=
  .mkObject <|
    [("id", .int n.id), ("src", n.src.toJson), ("parent", .ofOption .int n.parent?),
     ("children", .ids n.children), ("data", n.payload.toJson)] ++
    (n.raw?.map fun raw => ("raw", raw)).toList

end Node

end SolidityTree
