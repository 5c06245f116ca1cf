import SolidityTree.Json
import SolidityTree.Text.Blank
import SolidityTree.Text.Integer

/-!
# Source ranges

A span is a byte range in one of the compiled sources, written `offset:length:index` or, without the
index, `offset:length`.  All three numbers are signed 64-bit words; the end of a range is held
inside their bounds.

Main definitions: `Span.text` and `Span.ofText`.
-/

namespace SolidityTree

/-- A byte range in a source. -/
structure Span where
  offset : Int
  length : Int
  /-- The index of the source, `-1` if there is none. -/
  source : Int
  deriving DecidableEq, Repr, Inhabited

namespace Span

/-- The range of a node that has none. -/
def unknown : Span := ⟨-1, -1, -1⟩

/-- The offset one past the last byte, within the bounds of a signed 64-bit word. -/
def stop (s : Span) : Int := Word.clamp (s.offset + s.length)

/-- Whether the range says where it is. -/
def isUnknown (s : Span) : Bool := s.offset < 0

/-- Whether a range of the same source lies inside this one. -/
def contains (s t : Span) : Bool :=
  s.source = t.source ∧ s.offset ≤ t.offset ∧ t.stop ≤ s.stop

/-! ### Text -/

/-- The text of a range. -/
def text (s : Span) : String :=
  toString s.offset ++ ":" ++ toString s.length ++ ":" ++ toString s.source

/-- Why a text is not a range. -/
inductive Defect where
  /-- A part is not an integer. -/
  | part (defect : Integer.Defect)
  /-- There are neither two nor three parts. -/
  | form
  deriving DecidableEq, Repr

/-- The wording of a defect of the given text. -/
def Defect.text (written : String) : Defect → String
  | .part defect => s!"`{written}`: " ++ defect.text
  | .form => s!"`{written}` is not in `offset:length:index` form"

/-- The range a text writes.  Every part is read before the parts are counted. -/
def ofText (written : String) : Except Defect Span :=
  match (Text.split ':' written.toList).mapM Integer.ofChars with
  | .error defect => .error (.part defect)
  | .ok [offset, length, source] => .ok ⟨offset, length, source⟩
  | .ok [offset, length] => .ok ⟨offset, length, -1⟩
  | .ok _ => .error .form

/-- A range as a JSON object. -/
def toJson (s : Span) : Json :=
  .mkObject [("offset", .int s.offset), ("length", .int s.length), ("source_index", .int s.source)]

end Span

end SolidityTree
