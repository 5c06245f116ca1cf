import Std.Data.ExtTreeMap
import SolidityTree.Node

/-!
# Forests

A forest owns the nodes of one or more syntax trees.  Every node is registered under its id; a tree
is given by the children that its nodes list, and every child carries a mark that names its parent.
A forest also holds the counter of ids given out, whether it has run over the end of the words, and
the transactions that are open, each with what has been registered since it was begun.

The map of nodes is extensional: two forests with the same nodes, counter and transactions are
equal.

Main definitions: `Forest`, `Forest.children`, `Forest.ancestry`, `Forest.walk`, and the questions
that are answered from them.
-/

namespace SolidityTree

/-- A node named together with the forest it belongs to. -/
structure Handle where
  forest : ForestId
  id : NodeId
  deriving DecidableEq, Repr

/-- A transaction that is open. -/
@[ext]
structure Transaction where
  /-- The ids registered since it was begun, the latest first. -/
  registered : List NodeId
  /-- The counter when it was begun. -/
  lastId : NodeId
  /-- Whether the counter had run over when it was begun. -/
  overrun : Bool
  deriving DecidableEq, Repr

/-- A collection of registered nodes. -/
structure Forest where
  id : ForestId
  nodes : Std.ExtTreeMap NodeId Node
  /-- The greatest id given out or registered so far, unless the counter has run over. -/
  lastId : NodeId
  /-- Whether the counter has gone past the largest word and begun again at the smallest.  This is
  where a program that checks for overflow stops. -/
  overrun : Bool
  /-- The open transactions, the innermost first. -/
  transactions : List Transaction

namespace Forest

/-- A forest without nodes. -/
def empty (id : ForestId) : Forest := ⟨id, ∅, 0, false, []⟩

/-! ### Nodes -/

/-- The node registered under an id. -/
def get? (f : Forest) (id : NodeId) : Option Node := f.nodes[id]?

/-- The node registered under an id, which must be one. -/
def node (f : Forest) (id : NodeId) : Except Fault Node :=
  match f.get? id with
  | some n => .ok n
  | none => .error (.unknownNode id)

/-- Whether a node is registered under the id. -/
def contains (f : Forest) (id : NodeId) : Bool := f.nodes.contains id

/-- Whether a handle names this forest and a node of it. -/
def owns (f : Forest) (h : Handle) : Bool := h.forest = f.id && f.contains h.id

/-- The handle of a node of this forest. -/
def handle (f : Forest) (id : NodeId) : Handle := ⟨f.id, id⟩

/-- How many nodes are registered. -/
def size (f : Forest) : Nat := f.nodes.size

/-- The registered nodes, in the order of their ids. -/
def toList (f : Forest) : List Node := f.nodes.values

/-! ### Trees -/

/-- The children of a node, in order. -/
def children (f : Forest) (id : NodeId) : List NodeId := ((f.get? id).map Node.children).getD []

/-- The parent of a node. -/
def parent? (f : Forest) (id : NodeId) : Option NodeId := (f.get? id).bind Node.parent?

/-- A node, its parent, the parent of that, and so on, at most `bound` of them. -/
def ancestryWithin (f : Forest) (id : NodeId) : Nat → List NodeId
  | 0 => []
  | bound + 1 =>
    id :: match f.parent? id with
      | some parent => ancestryWithin f parent bound
      | none => []

/-- A node and its ancestors, the nearest first.  All but the last are registered, so where no node
is its own ancestor the bound is never met. -/
def ancestry (f : Forest) (id : NodeId) : List NodeId := f.ancestryWithin id (f.size + 1)

/-- The tree below a node in pre-order, down to `depth` levels. -/
def walkWithin (f : Forest) : Nat → NodeId → List NodeId
  | 0, _ => []
  | depth + 1, id =>
    match f.get? id with
    | none => []
    | some n => id :: n.children.flatMap (walkWithin f depth)

/-- The tree below a node in pre-order, the node itself first.  Where no node is below itself the
nodes on a path differ, so a tree has no more levels than there are nodes. -/
def walk (f : Forest) (root : NodeId) : List NodeId := f.walkWithin f.size root

/-- The nearest proper ancestor of a kind. -/
def closest? (f : Forest) (id : NodeId) (kind : Kind) : Option NodeId :=
  (f.ancestry id).tail.find? fun a => (f.get? a).any fun n => n.kind = kind

/-- The last of the ancestors of a node, or the node itself if it has none. -/
def root (f : Forest) (id : NodeId) : NodeId := (f.ancestry id).getLastD id

/-- The siblings of a node, itself included, with its position among them. -/
def position? (f : Forest) (id : NodeId) : Option (List NodeId × Nat) := do
  let siblings := f.children (← f.parent? id)
  let index ← siblings.idxOf? id
  some (siblings, index)

/-- The child of the same parent just before a node. -/
def previous? (f : Forest) (id : NodeId) : Option NodeId := do
  let (siblings, index) ← f.position? id
  if index = 0 then none else siblings[index - 1]?

/-- The child of the same parent just after a node. -/
def next? (f : Forest) (id : NodeId) : Option NodeId := do
  let (siblings, index) ← f.position? id
  siblings[index + 1]?

/-! ### Selections -/

/-- The ids of the nodes that pass a test, in increasing order. -/
def select (f : Forest) (test : Node → Bool) : List NodeId := (f.toList.filter test).map Node.id

/-- The roots of the trees of source units, by their place in the list of sources, then by id. -/
def units (f : Forest) : List NodeId :=
  let unit (n : Node) : Option (Int × NodeId) :=
    if n.parent?.isNone then n.unit?.map fun u => (u.sourceListIndex, n.id) else none
  ((f.toList.filterMap unit).mergeSort fun a b => a.1 ≤ b.1).map Prod.snd

/-! ### References -/

/-- The node that a reference names; a negative reference names none. -/
def resolve? (f : Forest) (reference : NodeId) : Option Node :=
  if reference < 0 then none else f.get? reference

/-- The declaration that an identifier, or a node like one, refers to. -/
def referenced? (f : Forest) (id : NodeId) : Option Node := do
  let n ← f.get? id
  let reference ← n.payload.attributes.referenced?
  f.resolve? reference

/-- The declaration that a source unit exports under a name. -/
def export? (f : Forest) (unit : NodeId) (name : String) : Option Node := do
  let n ← f.get? unit
  let u ← n.unit?
  let reference ← u.exportedSymbols.lookup name
  f.resolve? reference

end Forest

end SolidityTree
