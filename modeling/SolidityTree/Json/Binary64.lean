/-!
# Finite binary64 numbers

Every finite binary64 number is a whole multiple of the smallest positive one, `2 ^ -1074`, so a
number is held as a sign and a count of those units, and its value is `units / 2 ^ 1074` exactly.
Rounding, multiplication and division are integer arithmetic on that count.

Main definitions:

* `Binary64.round?` takes a nonnegative quotient of units to the nearest representable count, ties
  to even, and fails exactly where the nearest number is not finite;
* `Binary64.mul?` and `Binary64.div?` are the exact result followed by that rounding.
-/

namespace SolidityTree

/-- A finite binary64 number.  Zero has two forms, told apart by the sign. -/
structure Binary64 where
  /-- The sign bit. -/
  negative : Bool
  /-- The magnitude, counted in units of `2 ^ -1074`. -/
  units : Nat
  deriving DecidableEq, Repr, Inhabited

namespace Binary64

/-- A power of two. -/
def twoPow (n : Nat) : Nat := Nat.pow 2 n

/-- A power of ten. -/
def tenPow (n : Nat) : Nat := Nat.pow 10 n

/-- How many units make one. -/
def one : Nat := twoPow 1074

/-- The first count of units past the largest finite number. -/
def limit : Nat := twoPow 2098

/-- The distance, in units, between neighbouring numbers at magnitude `units`: a significand has 53
bits, so the spacing doubles with every power of two from `2 ^ 53` units on. -/
def spacing (units : Nat) : Nat := twoPow (units.log2 - 52)

/-- The natural number nearest to `num / den`, the even one of two. -/
def nearest (num den : Nat) : Nat :=
  let quotient := num / den
  let twice := 2 * (num % den)
  if den < twice ∨ (den = twice ∧ quotient % 2 = 1) then quotient + 1 else quotient

/-- The representable magnitude nearest to `num / den` units, or nothing if it is not finite. -/
def round? (num den : Nat) : Option Nat :=
  let step := spacing (num / den)
  let units := nearest num (den * step) * step
  if units < limit then some units else none

/-- The number nearest to a natural number. -/
def ofNat? (n : Nat) : Option Nat := round? (n * one) 1

/-- The product of two magnitudes. -/
def mul? (x y : Nat) : Option Nat := round? (x * y) one

/-- The quotient of two magnitudes, the second of them positive. -/
def div? (x y : Nat) : Option Nat := round? (x * one) y

end Binary64

end SolidityTree
