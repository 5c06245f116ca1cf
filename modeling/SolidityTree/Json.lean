import SolidityTree.Json.Number

/-!
# JSON values

A value is a tree of the six JSON forms.  The entries of an object are kept in increasing order of
their keys, compared by code points, with one entry per key: `Json.insertEntry` keeps that order and
lets the last of two equal keys win, so the order in which an object is walked does not depend on
the order in which it was written.

The accessors below are total and silent: a field of a value that is no object, or of another shape
than asked for, is absent.
-/

namespace SolidityTree

/-- A JSON value. -/
inductive Json where
  | null
  | bool (b : Bool)
  | number (n : Number)
  | string (s : String)
  | array (items : List Json)
  | object (entries : List (String × Json))
  deriving Inhabited

namespace Json

/-! ### Building -/

/-- Adds an entry at the place its key sorts to; an entry that was there under the key is lost. -/
def insertEntry {α : Type} (key : String) (value : α) : List (String × α) → List (String × α)
  | [] => [(key, value)]
  | (k, v) :: rest =>
    if key < k then (key, value) :: (k, v) :: rest
    else if key = k then (key, value) :: rest
    else (k, v) :: insertEntry key value rest

/-- The object with the given entries, a later one winning over an earlier one of the same key. -/
def mkObject (entries : List (String × Json)) : Json :=
  .object (entries.foldl (fun sorted (k, v) => insertEntry k v sorted) [])

/-- An integer as a value. -/
def int (n : Int) : Json := .number (.integer n)

/-- An absent value is written as null. -/
def ofOption {α : Type} (toJson : α → Json) : Option α → Json
  | none => .null
  | some a => toJson a

/-- A list is written as an array, item by item. -/
def ofList {α : Type} (toJson : α → Json) (items : List α) : Json := .array (items.map toJson)

/-! ### Reading -/

/-- The field of an object, null included. -/
def get? (json : Json) (key : String) : Option Json :=
  match json with
  | .object entries => entries.lookup key
  | _ => none

/-- The text of a string. -/
def string? : Json → Option String
  | .string s => some s
  | _ => none

/-- The truth value of a boolean. -/
def bool? : Json → Option Bool
  | .bool b => some b
  | _ => none

/-- The integer of a number that is one and fits a signed 64-bit word. -/
def int64? : Json → Option Int
  | .number n => n.int64?
  | _ => none

/-- The items of an array. -/
def items? : Json → Option (List Json)
  | .array items => some items
  | _ => none

/-- The entries of an object. -/
def entries? : Json → Option (List (String × Json))
  | .object entries => some entries
  | _ => none

/-- Whether the value is null. -/
def isNull : Json → Bool
  | .null => true
  | _ => false

/-- Whether the value is an object. -/
def isObject : Json → Bool
  | .object _ => true
  | _ => false

end Json

end SolidityTree
