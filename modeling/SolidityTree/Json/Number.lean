import SolidityTree.Json.Decimal
import SolidityTree.Text.Integer

/-!
# Number literals

A literal without point and exponent that fits a signed or an unsigned 64-bit word is an integer;
every other literal is a binary64 number, and so is `-0`.  Binary64 numbers are read in two steps:
`Literal.scan` collects a 64-bit significand and a decimal exponent, and `Literal.value?` scales the
significand by at most two roundings for exponents of ordinary size.  Digits that no longer fit the
significand raise the exponent when they stand before the point and are dropped after it.
-/

namespace SolidityTree

/-- A number as its literal is read. -/
inductive Number where
  | integer (n : Int)
  | real (x : Binary64)
  deriving DecidableEq, Repr, Inhabited

namespace Number

/-- The integer, if the number is one and fits a signed 64-bit word. -/
def int64? : Number → Option Int
  | .integer n => if Word.isSigned n then some n else none
  | .real _ => none

/-- The text of a number, which reads back as the same number. -/
def text : Number → String
  | .integer n => toString n
  | .real x => x.text

end Number

/-! ### Scaling -/

namespace Scaling

/-- The largest power of ten that is a finite binary64 number. -/
def maxPower : Nat := 308

/-- The binary64 number nearest to `10 ^ n`. -/
def tenPow? (n : Nat) : Option Nat := Binary64.ofNat? (Binary64.tenPow n)

/-- Lowers a magnitude by `10 ^ (308 * n)`, one rounded division at a time; zero stays zero. -/
def lower? (units : Nat) : Nat → Option Nat
  | 0 => some units
  | n + 1 =>
    if units = 0 then some 0
    else do lower? (← Binary64.div? units (← tenPow? maxPower)) n

/-- The magnitude of `significand * 10 ^ exponent`, or nothing if it is not finite.  A negative
exponent out of reach of one division is first brought near by divisions by `10 ^ 308`; three of
them leave zero, so more are never needed. -/
def value? (significand : Nat) (exponent : Int) : Option Nat := do
  let units ← Binary64.ofNat? significand
  if 0 ≤ exponent then
    if exponent ≤ maxPower then Binary64.mul? units (← tenPow? exponent.toNat)
    else if units = 0 then some 0 else none
  else
    let distance := (-exponent).toNat
    let steps := min ((distance - 1) / maxPower) 4
    let lowered ← lower? units steps
    if lowered = 0 then some 0
    else Binary64.div? lowered (← tenPow? (distance - steps * maxPower))

end Scaling

/-! ### Literals -/

namespace Literal

/-- The value of a decimal digit. -/
def digit? (c : Char) : Option Nat := if c.isDigit then some (c.toNat - '0'.toNat) else none

/-- The digits a text starts with, and the rest of it. -/
def digits : List Char → List Nat × List Char
  | [] => ([], [])
  | c :: rest =>
    match digit? c with
    | some d => let (ds, after) := digits rest; (d :: ds, after)
    | none => ([], c :: rest)

/-- A significand that fits a 64-bit word, with the decimal exponent it stands at.  `full` says that
a digit was met which no longer fitted. -/
structure Scan where
  significand : Nat
  exponent : Int
  full : Bool

/-- One digit before the point: one that no longer fits raises the exponent. -/
def Scan.whole (s : Scan) (d : Nat) : Scan :=
  if s.full ∨ Word.max < s.significand * 10 + d then ⟨s.significand, s.exponent + 1, true⟩
  else ⟨s.significand * 10 + d, s.exponent, false⟩

/-- One digit after the point: one that no longer fits, and all after it, are dropped. -/
def Scan.fraction (s : Scan) (d : Nat) : Scan :=
  if s.full ∨ Word.max < s.significand * 10 + d then ⟨s.significand, s.exponent, true⟩
  else ⟨s.significand * 10 + d, s.exponent - 1, false⟩

/-- The largest exponent that is added to the position of the point; a larger one counts as out of
range at once. -/
def maxExponent : Nat := 2147483647

/-- The sign and the digits of an exponent, after its mark. -/
def exponent? (cs : List Char) : Option (Bool × List Nat × List Char) :=
  let (positive, rest) :=
    match cs with
    | '+' :: rest => (true, rest)
    | '-' :: rest => (false, rest)
    | rest => (true, rest)
  match digits rest with
  | ([], _) => none
  | (ds, after) => some (positive, ds, after)

/-- The magnitude of a scanned number with an explicit exponent. -/
def scaled? (s : Scan) (positive : Bool) (ds : List Nat) : Option Nat :=
  let e := ds.foldl (fun n d => n * 10 + d) 0
  if maxExponent < e then
    if s.significand ≠ 0 ∧ positive then none else some 0
  else Scaling.value? s.significand (if positive then s.exponent + e else s.exponent - e)

/-- The number with the given sign and magnitude. -/
def real (negative : Bool) (units : Nat) : Number := .real ⟨negative, units⟩

/-- What follows the digits before the point: a fraction, an exponent, both or neither. -/
def finish? (negative : Bool) (s : Scan) : List Char → Option (Number × List Char)
  | '.' :: rest =>
    match digits rest with
    | ([], _) => none
    | (ds, after) =>
      let s := ds.foldl Scan.fraction ⟨s.significand, s.exponent, false⟩
      match after with
      | 'e' :: more | 'E' :: more => do
        let (positive, es, after) ← exponent? more
        let units ← scaled? s positive es
        some (real negative units, after)
      | after => do
        let units ← Scaling.value? s.significand s.exponent
        some (real negative units, after)
  | 'e' :: rest | 'E' :: rest => do
    let (positive, es, after) ← exponent? rest
    let units ← scaled? s positive es
    some (real negative units, after)
  | after =>
    if s.full then do
      let units ← Scaling.value? s.significand s.exponent
      some (real negative units, after)
    else if !negative then some (.integer s.significand, after)
    else if s.significand = 0 ∨ Word.maxSigned + 1 < s.significand then do
      let units ← Binary64.ofNat? s.significand
      some (real true units, after)
    else some (.integer (-(s.significand : Int)), after)

/-- Reads a number literal off a text, without a leading zero before another digit. -/
def scan? (cs : List Char) : Option (Number × List Char) :=
  let (negative, rest) :=
    match cs with
    | '-' :: rest => (true, rest)
    | rest => (false, rest)
  match digits rest with
  | ([], _) => none
  | (0 :: _ :: _, _) => none
  | (ds, after) => finish? negative (ds.foldl Scan.whole ⟨0, 0, false⟩) after

end Literal

end SolidityTree
