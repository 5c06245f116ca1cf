import SolidityTree.Forest

/-!
# Edits of a forest

Each edit is a function from a forest to the edited one or to the fault that prevents it, so an edit
that fails leaves nothing behind.  A child can be attached only if it is a node of the same forest
without a parent and not an ancestor of its new parent (`Forest.checkAttachable`).

Main definitions: `Forest.register`, `Forest.unregister`, `Forest.append`, `Forest.prepend`,
`Forest.remove`, `Forest.replace`, `Forest.removeSubtree`, and the transactions `Forest.begin`,
`Forest.commit` and `Forest.rollback`.
-/

namespace SolidityTree

namespace Forest

/-! ### Marks and payloads -/

/-- Changes a node, if it is registered. -/
def modify (f : Forest) (id : NodeId) (change : Node → Node) : Forest :=
  { f with nodes := f.nodes.modify id change }

/-- Changes the payload of a node. -/
def modifyPayload (f : Forest) (id : NodeId) (change : Payload → Payload) : Forest :=
  f.modify id (Node.mapPayload · change)

/-- Sets the parent mark of a node. -/
def setParent (f : Forest) (id : NodeId) (parent? : Option NodeId) : Forest :=
  f.modify id fun n => { n with parent? := parent? }

/-- Sets the parent marks of nodes. -/
def setParents (f : Forest) (ids : List NodeId) (parent? : Option NodeId) : Forest :=
  ids.foldl (fun f id => f.setParent id parent?) f

/-- Forgets nodes. -/
def erase (f : Forest) (ids : List NodeId) : Forest :=
  { f with nodes := ids.foldl (fun nodes id => nodes.erase id) f.nodes }

/-! ### Ids -/

/-- The first id from `id` on under which no node is registered, if it is one of `bound`; the id
after them otherwise. -/
def freeFrom (f : Forest) (id : NodeId) : Nat → NodeId
  | 0 => id
  | bound + 1 => if f.contains id then freeFrom f (id + 1) bound else id

/-- Whether a free word is left above the counter. -/
def hasNext (f : Forest) : Bool := f.freeFrom (f.lastId + 1) f.size ≤ Word.maxSigned

/-- An id that no node has, the first after the counter, which moves on to it.  As many ids as there
are nodes can be taken, so the one after them is free.  Where no free word is left above the
counter, it runs over, and the search begins again at the smallest word. -/
def nextId (f : Forest) : NodeId × Forest :=
  let start := if f.hasNext then f.lastId + 1 else Word.minSigned
  let id := f.freeFrom start f.size
  (id, { f with lastId := id, overrun := f.overrun || !f.hasNext })

/-! ### Registration -/

/-- Whether a node can get a parent. -/
def checkDetached (f : Forest) (id : NodeId) : Except Fault Unit := do
  let n ← f.node id
  match n.parent? with
  | some parent => .error (.alreadyAttached id parent)
  | none => .ok ()

/-- Notes a registration in the innermost transaction. -/
def note (id : NodeId) : List Transaction → List Transaction
  | [] => []
  | t :: outer => { t with registered := id :: t.registered } :: outer

/-- The forest with one more node, whose children get their parent mark. -/
def insert (f : Forest) (n : Node) : Forest :=
  let registered : Node := { n with forest? := some f.id }
  let f := ({ f with nodes := f.nodes.insert n.id registered } : Forest)
  let f := f.setParents n.children (some n.id)
  { f with lastId := max f.lastId n.id, transactions := note n.id f.transactions }

/-- Registers a node, and adopts the children that its payload names.  They must be registered and
have no parent. -/
def register (f : Forest) (n : Node) : Except Fault Forest := do
  if f.contains n.id then .error (.idCollision n.id)
  match n.forest? with
  | some found => if found ≠ f.id then .error (.foreign n.id f.id found)
  | none => pure ()
  n.children.forM f.checkDetached
  .ok (f.insert n)

/-- Takes a node without parent out of the forest.  Its children stay, without their parent. -/
def unregister (f : Forest) (id : NodeId) : Except Fault (Node × Forest) := do
  let n ← f.node id
  match n.parent? with
  | some parent => .error (.alreadyAttached id parent)
  | none =>
    .ok ({ n with parent? := none, forest? := none }, (f.erase [id]).setParents n.children none)

/-! ### Children -/

/-- Whether a node can be attached to a parent. -/
def checkAttachable (f : Forest) (parent : NodeId) (child : Handle) : Except Fault Unit := do
  if child.forest ≠ f.id then .error (.foreign child.id f.id child.forest)
  let _ ← f.node parent
  f.checkDetached child.id
  if child.id ∈ f.ancestry parent then .error (.cycle parent child.id)

/-- Gives a parent another payload, and a child its parent mark. -/
def attach (f : Forest) (parent child : NodeId) (payload : Payload) : Forest :=
  (f.modifyPayload parent fun _ => payload).setParent child (some parent)

/-- Adds a child behind all others of a node. -/
def append (f : Forest) (parent : NodeId) (child : Handle) : Except Fault Forest := do
  f.checkAttachable parent child
  let n ← f.node parent
  match n.payload.append? child.id with
  | some payload => .ok (f.attach parent child.id payload)
  | none => .error (.noChildList parent n.kind)

/-- Adds a child before all others of a node. -/
def prepend (f : Forest) (parent : NodeId) (child : Handle) : Except Fault Forest := do
  f.checkAttachable parent child
  let n ← f.node parent
  match n.payload.prepend? child.id with
  | some payload => .ok (f.attach parent child.id payload)
  | none => .error (.noChildList parent n.kind)

/-- Takes a child from a node.  The child stays registered. -/
def remove (f : Forest) (parent child : NodeId) : Except Fault Forest := do
  let n ← f.node parent
  match n.payload.remove child with
  | .removed payload => .ok ((f.modifyPayload parent fun _ => payload).setParent child none)
  | .required => .error (.requiredChild parent child n.kind)
  | .absent => .error (.notAChild parent child)

/-- Puts a node in the place of a child.  Only documentation takes the place of documentation. -/
def replace (f : Forest) (parent : NodeId) (new : Handle) (old : NodeId) : Except Fault Forest := do
  if new = f.handle old then .ok f
  else
    f.checkAttachable parent new
    let found := (← f.node new.id).kind
    let n ← f.node parent
    if n.payload.documentation? = some (some (.node old)) ∧ found ≠ .structuredDocumentation then
      .error (.kindMismatch new.id .structuredDocumentation found)
    else
      match n.payload.replace? old new.id with
      | some payload => .ok ((f.setParent old none).attach parent new.id payload)
      | none => .error (.notAChild parent old)

/-- Takes a node from its parent and forgets the whole tree below it.  The answer counts the nodes
of the tree. -/
def removeSubtree (f : Forest) (id : NodeId) : Except Fault (Nat × Forest) := do
  let n ← f.node id
  let f ← match n.parent? with
    | some parent => f.remove parent id
    | none => pure f
  let tree := f.walk id
  .ok (tree.length, f.erase tree)

/-! ### Transactions -/

/-- Opens a transaction inside those that are open. -/
def begin (f : Forest) : Forest :=
  { f with transactions := ⟨[], f.lastId, f.overrun⟩ :: f.transactions }

/-- Closes the innermost transaction and keeps what it registered; a transaction around it goes on
to answer for that. -/
def commit (f : Forest) : Forest :=
  match f.transactions with
  | [] => f
  | [_] => { f with transactions := [] }
  | t :: outer :: rest =>
    { f with transactions := { outer with registered := t.registered ++ outer.registered } :: rest }

/-- Clears the parent marks that name no node. -/
def clearParents (f : Forest) : Forest :=
  { f with nodes := f.nodes.map fun _ n =>
      if n.parent?.all f.contains then n else { n with parent? := none } }

/-- Closes the innermost transaction, forgets what it registered and restores the counter. -/
def rollback (f : Forest) : Forest :=
  match f.transactions with
  | [] => f
  | t :: outer =>
    { (f.erase t.registered).clearParents with
      lastId := t.lastId
      overrun := t.overrun
      transactions := outer }

end Forest

end SolidityTree
