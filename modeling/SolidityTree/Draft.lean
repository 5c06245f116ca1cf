import SolidityTree.Forest.Run
import SolidityTree.Record

/-!
# Drafts

A draft describes how a record becomes a payload without touching a forest: it is finished, or it
has failed, or it waits for one more record to be converted and goes on with the id of the node
which that has become.  Since a draft does nothing but wait, what a conversion does to a forest is
said in one place, by whoever runs the draft (`Draft.run`), and holds for all kinds at once.
-/

namespace SolidityTree

/-- A payload, or another value, that is found by converting records. -/
inductive Draft (α : Type) where
  | done (a : α)
  | fail (fault : Fault)
  | convert (r : Json) (next : NodeId → Draft α)

namespace Draft

/-- Goes on from the value of a draft. -/
def bind {α β : Type} : Draft α → (α → Draft β) → Draft β
  | .done a, next => next a
  | .fail fault, _ => .fail fault
  | .convert r wait, next => .convert r fun id => (wait id).bind next

instance : Monad Draft where
  pure := .done
  bind := Draft.bind

/-- What reads fields only needs no conversion. -/
def ofExcept {α : Type} : Except Fault α → Draft α
  | .ok a => .done a
  | .error fault => .fail fault

instance : MonadLift (Except Fault) Draft := ⟨ofExcept⟩

/-- Runs a draft, with a way to convert records. -/
def run {α : Type} (convert : Json → Run NodeId) : Draft α → Run α
  | .done a => pure a
  | .fail fault => throw fault
  | .convert r next => do
    let id ← convert r
    run convert (next id)

/-! ### Records -/

/-- Converts a record. -/
def one (r : Json) : Draft NodeId := .convert r .done

/-- Converts a record that may be absent or null. -/
def optional : Option Json → Draft (Option NodeId)
  | none | some .null => .done none
  | some r => some <$> one r

/-- Converts records in order. -/
def all : List Json → Draft (List NodeId)
  | [] => .done []
  | r :: rest => do
    let id ← one r
    return id :: (← all rest)

/-- Converts values in order, null ones to holes. -/
def allSparse : List Json → Draft (List (Option NodeId))
  | [] => .done []
  | r :: rest => do
    let id? ← optional (some r)
    return id? :: (← allSparse rest)

/-- Reads an array that may be absent or null. -/
def array {α : Type} (items : List Json → Draft (List α)) : Option Json → Draft (List α)
  | none | some .null => .done []
  | some (.array rs) => items rs
  | some other => .fail (.malformed (Record.tag other) .noRecords)

/-- Converts the records of an array that may be absent or null. -/
def many : Option Json → Draft (List NodeId) := array all

/-- Converts the records of an array with holes, that may be absent or null. -/
def sparse : Option Json → Draft (List (Option NodeId)) := array allSparse

end Draft

end SolidityTree
