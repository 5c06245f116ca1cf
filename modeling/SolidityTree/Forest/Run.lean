import SolidityTree.Forest.Edit

/-!
# Runs of edits

A run is a sequence of edits of one forest.  Each edit by itself is done or not done, but a run that
fails leaves the forest as its last edit left it; only a run inside a transaction
(`Run.transaction`) is undone as a whole.
-/

namespace SolidityTree

/-- A sequence of edits of a forest. -/
abbrev Run := EStateM Fault Forest

namespace Run

/-- An edit as a run. -/
def edit (change : Forest → Except Fault Forest) : Run Unit := fun f =>
  match change f with
  | .ok f => .ok () f
  | .error fault => .error fault f

/-- An edit with an answer as a run. -/
def editWith {α : Type} (change : Forest → Except Fault (α × Forest)) : Run α := fun f =>
  match change f with
  | .ok (a, f) => .ok a f
  | .error fault => .error fault f

/-- A question about the forest as a run. -/
def ask {α : Type} (question : Forest → Except Fault α) : Run α := fun f =>
  match question f with
  | .ok a => .ok a f
  | .error fault => .error fault f

/-- Gives out the next id. -/
def nextId : Run NodeId := fun f =>
  let (id, f) := f.nextId
  .ok id f

/-- Registers a node. -/
def register (n : Node) : Run Handle := do
  edit (Forest.register · n)
  return (← get).handle n.id

/-- Runs inside a transaction of its own, committed when the run succeeds and rolled back when it
fails. -/
def transaction {α : Type} (run : Run α) : Run α := fun f =>
  match run f.begin with
  | .ok a f => .ok a f.commit
  | .error fault f => .error fault f.rollback

end Run

end SolidityTree
