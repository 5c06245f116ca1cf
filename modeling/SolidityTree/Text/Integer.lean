/-!
# Words and integer text

Ids, offsets and indices are signed 64-bit words.  They are held as integers, and where a text, a
sum or the counter of ids could leave the range its bounds are stated with `Word`.

An integer is written as an optional sign and at least one ASCII digit, and must fit a word.  The
text is judged from left to right, so the first character that is no digit, or the first digit that
leaves the range, decides how it fails.

Main definition: `Integer.ofChars`.
-/

namespace SolidityTree

namespace Word

/-- The largest unsigned word, `2 ^ 64 - 1`. -/
def max : Nat := 18446744073709551615

/-- The largest signed word, `2 ^ 63 - 1`. -/
def maxSigned : Int := 9223372036854775807

/-- The smallest signed word, `-2 ^ 63`. -/
def minSigned : Int := -9223372036854775808

/-- Whether an integer fits a signed word. -/
def isSigned (n : Int) : Bool := minSigned ≤ n ∧ n ≤ maxSigned

/-- The signed word nearest to an integer. -/
def clamp (n : Int) : Int :=
  if n < minSigned then minSigned else if maxSigned < n then maxSigned else n

end Word

namespace Integer

/-- Why a text is not an integer. -/
inductive Defect where
  | empty
  | invalidDigit
  | tooLarge
  | tooSmall
  deriving DecidableEq, Repr

/-- The wording of a defect. -/
def Defect.text : Defect → String
  | .empty => "cannot parse integer from empty string"
  | .invalidDigit => "invalid digit found in string"
  | .tooLarge => "number too large to fit in target type"
  | .tooSmall => "number too small to fit in target type"

/-- Appends the digits of a text to a nonnegative number. -/
def increase (n : Int) : List Char → Except Defect Int
  | [] => .ok n
  | c :: rest =>
    if c.isDigit then
      let n := n * 10 + (c.toNat - '0'.toNat : Nat)
      if n ≤ Word.maxSigned then increase n rest else .error .tooLarge
    else .error .invalidDigit

/-- Appends the digits of a text to a number at most zero. -/
def decrease (n : Int) : List Char → Except Defect Int
  | [] => .ok n
  | c :: rest =>
    if c.isDigit then
      let n := n * 10 - (c.toNat - '0'.toNat : Nat)
      if Word.minSigned ≤ n then decrease n rest else .error .tooSmall
    else .error .invalidDigit

/-- The integer a text writes. -/
def ofChars : List Char → Except Defect Int
  | [] => .error .empty
  | ['+'] | ['-'] => .error .invalidDigit
  | '+' :: digits => increase 0 digits
  | '-' :: digits => decrease 0 digits
  | digits => increase 0 digits

end Integer

end SolidityTree
