import SolidityTree.Forest.Run

/-!
# Documentation of nodes

Most kinds that can be documented have a field for their documentation.  The documentation
containers (contracts and blocks) keep two texts instead, one before and one dangling at the end,
and keep documentation nodes among their children; there the place of a documentation node decides
which of the two it is.  It precedes its owner if it starts no later than the owner does, and
dangles otherwise.

Main definitions: `Forest.documentation?`, `Forest.dangling?`, and the runs that change them.
-/

namespace SolidityTree

namespace Forest

/-! ### Reading -/

/-- Whether a node is a documentation node whose offset passes a test. -/
def isDocumentationAt (f : Forest) (accepts : Int → Bool) (id : NodeId) : Bool :=
  (f.get? id).any fun n => n.kind = .structuredDocumentation && accepts n.src.offset

/-- The documentation before a node. -/
def documentation? (f : Forest) (id : NodeId) : Option Documentation := do
  let n ← f.get? id
  match n.payload.documentation? with
  | some documentation? => documentation?
  | none =>
    match ← n.payload.attributes.docStrings? with
    | (some text, _) => some (.text text)
    | (none, _) =>
      (n.children.find? (f.isDocumentationAt (· ≤ n.src.offset))).map .node

/-- The documentation behind the last child of a container. -/
def dangling? (f : Forest) (id : NodeId) : Option Documentation := do
  let n ← f.get? id
  match ← n.payload.attributes.docStrings? with
  | (_, some text) => some (.text text)
  | (_, none) =>
    (n.children.reverse.find? (f.isDocumentationAt (n.src.offset < ·))).map .node

/-! ### Conditions -/

/-- The documentation before a node of a kind that can have some. -/
def documentationOf (f : Forest) (id : NodeId) : Except Fault (Option Documentation) := do
  let kind := (← f.node id).kind
  if kind.isDocumentable then .ok (f.documentation? id)
  else .error (.undocumentable id kind .preceding)

/-- The dangling documentation of a node of a kind that can have some. -/
def danglingOf (f : Forest) (id : NodeId) : Except Fault (Option Documentation) := do
  let kind := (← f.node id).kind
  if kind.isDocumentationContainer then .ok (f.dangling? id)
  else .error (.undocumentable id kind .dangling)

/-- Whether a node can be attached to an owner as documentation. -/
def checkDocumentation (f : Forest) (owner : NodeId) (doc : Handle) : Except Fault Unit := do
  f.checkAttachable owner doc
  let found := (← f.node doc.id).kind
  if found ≠ .structuredDocumentation then
    .error (.kindMismatch doc.id .structuredDocumentation found)

end Forest

namespace Run

open Forest

/-! ### Texts -/

/-- Takes a documentation node from its owner; a text stays. -/
def detach (owner : NodeId) : Option Documentation → Run Unit
  | some (.node old) => edit (Forest.remove · owner old)
  | _ => pure ()

/-- Sets or clears the text of the documentation before a node, in the place of the documentation
that was there. -/
def setDocumentationText (id : NodeId) (text? : Option String) : Run Unit := do
  detach id (← ask (documentationOf · id))
  let n ← ask (Forest.node · id)
  modify (Forest.modifyPayload · id fun p =>
    if n.kind.isDocumentationContainer then p.setDocString text?
    else p.setDocumentation (text?.map .text))

/-- Sets or clears the text of the dangling documentation of a container, in the place of the
documentation that was there. -/
def setDanglingText (id : NodeId) (text? : Option String) : Run Unit := do
  detach id (← ask (danglingOf · id))
  let _ ← ask (Forest.node · id)
  modify (Forest.modifyPayload · id (Payload.setDanglingDocString · text?))

/-! ### Nodes -/

/-- Attaches a documentation node before its owner.  A container drops its text and takes the node
in the place of the old one, or before all its children; any other kind takes it into its field. -/
def attachDocumentation (id : NodeId) (doc : Handle) : Run Unit := do
  let old ← ask (documentationOf · id)
  ask (Forest.checkDocumentation · id doc)
  let n ← ask (Forest.node · id)
  if n.kind.isDocumentationContainer then
    modify (Forest.modifyPayload · id (Payload.setDocString · none))
    match old with
    | some (.node old) => edit (Forest.replace · id doc old)
    | _ => edit (Forest.prepend · id doc)
  else
    modify (Forest.modifyPayload · id (Payload.setDocumentation · (some (.node doc.id))))
    match old with
    | some (.node old) => modify (Forest.setParent · old none)
    | _ => pure ()
    modify (Forest.setParent · doc.id (some id))

/-- Attaches a documentation node at the end of a container, which drops its text and takes the node
in the place of the old one, or behind all its children. -/
def attachDangling (id : NodeId) (doc : Handle) : Run Unit := do
  let old ← ask (danglingOf · id)
  ask (Forest.checkDocumentation · id doc)
  let _ ← ask (Forest.node · id)
  modify (Forest.modifyPayload · id (Payload.setDanglingDocString · none))
  match old with
  | some (.node old) => edit (Forest.replace · id doc old)
  | _ => edit (Forest.append · id doc)

end Run

end SolidityTree
