import SolidityTree.Conversion

/-!
# Passes

A pass goes over finished trees and mends single nodes.  It is given by the nodes it supports and by
what it does to one of them; `Pass.runAll` lets several passes go over the trees of several units,
one pass after another, so each sees what those before it have done.

Two passes stand here.  `Assembly.pass` expands inline assembly, which comes with the syntax tree of
its Yul code inside its record: it converts that tree, makes it a child of the assembly, and lets
the identifiers in it refer to the declarations that the assembly lists for their places in the
source.  `Builtin.pass` clears the references to symbols like `msg` or `abi`, to which compilers
give ids that no declaration has.
-/

namespace SolidityTree

/-- A way to mend nodes. -/
structure Pass where
  name : String
  /-- Whether the pass has a say about a node. -/
  supports : Node → Bool
  /-- Mends a node and tells whether that changed anything. -/
  process : Config → NodeId → Run Bool

namespace Pass

/-- Mends a node if the pass supports it. -/
def visit (p : Pass) (config : Config) (id : NodeId) : Run Unit := do
  if ((← get).get? id).any p.supports then
    let _ ← p.process config id

/-- Lets a pass go over the trees of units, each as it was when the pass came to it. -/
def run (p : Pass) (config : Config) (units : List NodeId) : Run Unit :=
  units.forM fun unit => do
    let tree := (← get).walk unit
    tree.forM (p.visit config)

/-- Lets passes go over the trees of units, one after another. -/
def runAll (passes : List Pass) (config : Config) (units : List NodeId) : Run Unit :=
  passes.forM fun p => p.run config units

end Pass

/-! ### Inline assembly -/

namespace Assembly

/-- The tree of Yul code that a node keeps in its record. -/
def tree? (n : Node) : Option Json := n.raw?.bind fun raw => raw.get? "AST"

/-- Makes converted Yul code a child of inline assembly, and gives the declarations it refers to. -/
def adopt (id yul : NodeId) : Run (List ExternalReference) := do
  match ((← get).get? id).bind fun n => n.payload.expand? yul with
  | none => throw (.unknownNode id)
  | some (references, payload) =>
    modify fun f => f.attach id yul payload
    return references

/-- Lets a Yul identifier that refers to nothing refer to the declaration listed for its place. -/
def link (references : List ExternalReference) (n : Node) : Node :=
  match n.payload.attributes with
  | .yulIdentifier _ referenced =>
    if 0 ≤ referenced then n
    else
      match references.find? fun r => r.src = n.src with
      | some r => n.mapPayload (Payload.setReferenced · r.declaration)
      | none => n
  | _ => n

/-- Expands inline assembly.  The Yul code is converted in a transaction of its own. -/
def process (config : Config) (id : NodeId) : Run Bool := do
  match ((← get).get? id).bind tree? with
  | none => return false
  | some tree =>
    let yul ← Run.transaction (Run.convertRoot config .modern tree)
    let references ← adopt id yul
    ((← get).walk yul).forM fun n => modify (Forest.modify · n (link references))
    return true

/-- The pass that expands inline assembly. -/
def pass : Pass where
  name := "inline-assembly-expansion"
  supports n := n.payload.isUnexpanded && (tree? n).any Json.isObject
  process := process

end Assembly

/-! ### Builtin symbols -/

namespace Builtin

/-- Whether a reference names a node that does not exist. -/
def isLost (f : Forest) (reference : NodeId) : Bool := 0 ≤ reference && !f.contains reference

/-- Clears the reference of an identifier, or a node like one, if it is lost. -/
def process (id : NodeId) : Run Bool := do
  let n ← Run.ask (Forest.node · id)
  if n.payload.attributes.referenced?.any (isLost (← get)) then
    modify (Forest.modifyPayload · id (Payload.setReferenced · NodeId.builtin))
    return true
  else return false

/-- The pass that clears lost references. -/
def pass : Pass where
  name := "builtin-reference-normalization"
  supports n := n.payload.attributes.referenced?.isSome
  process _ := process

end Builtin

end SolidityTree
