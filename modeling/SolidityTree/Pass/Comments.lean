import SolidityTree.Comment
import SolidityTree.Forest.Documentation
import SolidityTree.Forest.Making
import SolidityTree.Pass

/-!
# Recovery of documentation

Compilers leave out some documentation comments.  This pass looks for them in the source: a comment
that ends right before a node becomes the documentation before it, and one that ends right before
the closing brace of a container becomes its dangling documentation.  Only the gap up to the nearest
sibling or child is searched, and documentation that is there already stays.
-/

namespace SolidityTree.Comments

/-! ### Sources and gaps -/

/-- The text of the source that a node comes from, that of the unit at the root of its tree. -/
def source? (config : Config) (f : Forest) (id : NodeId) : Option (List Char) := do
  let unit ← (← f.get? (f.root id)).unit?
  return (← config.sourceText? unit).toList

/-- Two offsets, if both are such and the first is less. -/
def gap? (start stop : Int) : Option (Nat × Nat) :=
  if 0 ≤ start ∧ start < stop then some (start.toNat, stop.toNat) else none

/-- The gap before a node: from the end of the sibling before it, or from its parent's start. -/
def precedingGap? (f : Forest) (id : NodeId) : Option (Nat × Nat) := do
  let n ← f.get? id
  match ((f.previous? id).bind f.get?).filter fun s => !s.src.isUnknown with
  | some sibling => gap? sibling.src.stop n.src.offset
  | none =>
    let parent ← f.get? (← n.parent?)
    gap? parent.src.offset n.src.offset

/-- The end of the last child of a node, documentation aside. -/
def lastStop? (f : Forest) (n : Node) : Option Int :=
  ((n.children.filterMap f.get?).filter fun c =>
    c.kind ≠ .structuredDocumentation && !c.src.isUnknown).map (·.src.stop) |>.max?

/-- The gap at the end of a node: from the end of its last child, or from its own start, up to its
closing brace. -/
def danglingGap? (f : Forest) (source : List Char) (id : NodeId) : Option (Nat × Nat) := do
  let n ← f.get? id
  let (start, stop) ← gap? ((lastStop? f n).getD n.src.offset) (n.src.stop - 1)
  let c ← (← Text.dropBytes? stop source).head?
  if c = '\x7d' then some (start, stop) else none

/-! ### Comments in gaps -/

/-- A comment in a source. -/
structure Found where
  /-- Its first byte. -/
  offset : Nat
  /-- How many bytes it has. -/
  length : Nat
  /-- Its text, without marks. -/
  text : String

/-- The comment that a gap ends with. -/
def find? (source : List Char) (gap : Nat × Nat) : Option Found := do
  let (before, comment) ← Comment.trailing? (← Text.slice? source gap.1 gap.2)
  return ⟨gap.1 + Text.bytes before, Text.bytes comment, String.ofList (Comment.extract comment)⟩

/-- Makes a documentation node of a comment, in the source of its owner. -/
def make (owner : NodeId) (found : Found) : Run Handle := do
  let index := (((← get).get? owner).map (·.src.source)).getD (-1)
  Run.makeAt ⟨found.offset, found.length, index⟩ (.structuredDocumentation found.text)

/-! ### The pass -/

/-- Recovers the documentation before a node. -/
def recoverPreceding (source : List Char) (id : NodeId) : Run Bool := do
  let f ← get
  if (f.documentation? id).isSome then return false
  match (precedingGap? f id).bind (find? source) with
  | none => return false
  | some found =>
    Run.attachDocumentation id (← make id found)
    return true

/-- Recovers the dangling documentation of a container. -/
def recoverDangling (source : List Char) (id : NodeId) : Run Bool := do
  let n ← Run.ask (Forest.node · id)
  let f ← get
  if !n.kind.isDocumentationContainer || (f.dangling? id).isSome then return false
  match (danglingGap? f source id).bind (find? source) with
  | none => return false
  | some found =>
    Run.attachDangling id (← make id found)
    return true

/-- Recovers both kinds of documentation of a node. -/
def process (config : Config) (id : NodeId) : Run Bool := do
  match source? config (← get) id with
  | none => return false
  | some source =>
    let preceding ← recoverPreceding source id
    let dangling ← recoverDangling source id
    return preceding || dangling

/-- The pass that recovers documentation. -/
def pass : Pass where
  name := "documentation-reconstruction"
  supports n := n.kind.isDocumentable && !n.src.isUnknown
  process := process

end SolidityTree.Comments
