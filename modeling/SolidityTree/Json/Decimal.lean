import SolidityTree.Json.Binary64

/-!
# Decimal text of binary64 numbers

`Decimal.shortest` gives the fewest significant digits that read back as the same number, and of
those the digits nearest to it.  A number is read back by every decimal strictly closer to it than
to its neighbours; the midpoints themselves belong to it when its significand is even.

`Decimal.layout` fixes how the digits are laid out: positional notation for decimal points up to 16
places right of the first digit or 4 places left of it, an exponent elsewhere, and always a point or
an exponent, so that the text never reads as an integer.
-/

namespace SolidityTree

/-- The decimal number `digits * 10 ^ exponent`. -/
structure Decimal where
  digits : Nat
  exponent : Int
  deriving DecidableEq, Repr, Inhabited

namespace Decimal

open Binary64 (one spacing tenPow twoPow)

/-! ### Digits -/

/-- The number of decimal digits of `n`, one for zero. -/
def length (n : Nat) : Nat := (Nat.toDigits 10 n).length

/-- The power of ten just below a positive magnitude.  The magnitude is at least `10 ^ -324`, so
scaling it by `10 ^ 330` before dropping the fraction loses no leading digit. -/
def magnitude (units : Nat) : Int := (length (units * tenPow 330 / one) : Int) - 331

/-- The two integers next to `units * 10 ^ shift`, with whether each of them reads back as `units`.
Distances are compared as twice the distance against the gap to the neighbour on that side. -/
def candidates (units : Nat) (shift : Int) : List (Nat × Nat) :=
  let factor := tenPow shift.toNat
  let num := units * factor
  let den := one * tenPow (-shift).toNat
  let above := spacing units
  let below := if units = twoPow units.log2 ∧ 1 < above then above / 2 else above
  let even := units / above % 2 = 0
  let inside (twice gap : Nat) : Bool := twice < gap * factor ∨ (even ∧ twice = gap * factor)
  let low := num / den
  let down := num - low * den
  let up := (low + 1) * den - num
  (if inside (2 * down) below then [(low, down)] else []) ++
    (if inside (2 * up) above then [(low + 1, up)] else [])

/-- The nearer of the candidates, the even one of two equally near. -/
def pick? : List (Nat × Nat) → Option Nat
  | [] => none
  | [(d, _)] => some d
  | (d, down) :: (e, up) :: _ =>
    some (if down < up ∨ (down = up ∧ d % 2 = 0) then d else e)

/-- The digits found on the coarsest grid that holds a decimal which reads back.  `fuel` counts the
grids left to try; the grid of 17 digits always holds one. -/
def search (units : Nat) (power : Int) (places : Nat) : Nat → Decimal
  | 0 => ⟨0, 0⟩
  | fuel + 1 =>
    let shift := (places : Int) - 1 - power
    match pick? (candidates units shift) with
    | some d => ⟨d, -shift⟩
    | none => search units power (places + 1) fuel

/-- Trailing zeros moved into the exponent, at most `fuel` of them. -/
def strip (d : Decimal) : Nat → Decimal
  | 0 => d
  | fuel + 1 => if d.digits % 10 = 0 ∧ d.digits ≠ 0 then strip ⟨d.digits / 10, d.exponent + 1⟩ fuel
                else d

/-- The shortest decimal that reads back as the magnitude. -/
def shortest (units : Nat) : Decimal :=
  if units = 0 then ⟨0, 0⟩ else strip (search units (magnitude units) 1 17) 18

/-! ### Layout -/

/-- A run of zeros. -/
def zeros (n : Nat) : String := String.ofList (List.replicate n '0')

/-- The text of a nonnegative decimal. -/
def layout (d : Decimal) : String :=
  let digits := Nat.repr d.digits
  let size := digits.length
  let point : Int := size + d.exponent
  let split (n : Nat) : String × String :=
    (String.ofList (digits.toList.take n), String.ofList (digits.toList.drop n))
  if d.digits = 0 then "0.0"
  else if 0 ≤ d.exponent ∧ point ≤ 16 then digits ++ zeros d.exponent.toNat ++ ".0"
  else if 0 < point ∧ point ≤ 16 then
    let (whole, fraction) := split point.toNat
    whole ++ "." ++ fraction
  else if -5 < point ∧ point ≤ 0 then "0." ++ zeros (-point).toNat ++ digits
  else
    let (first, rest) := split 1
    let mantissa := if rest.isEmpty then first else first ++ "." ++ rest
    mantissa ++ "e" ++ toString (point - 1)

end Decimal

/-- The text of a number: its sign and its shortest decimal. -/
def Binary64.text (x : Binary64) : String :=
  (if x.negative then "-" else "") ++ (Decimal.shortest x.units).layout

end SolidityTree
