import WhereRules.Double.Basic

/-!
# Rounding to the nearest double

Every way into `Double` other than naming one goes through one rule: a non-negative ratio of whole
numbers is rounded to the nearest magnitude, and a ratio halfway between two goes to the one with
the even significand. Integers, decimal text, products and quotients are instances of it, so each is
exact wherever the result can be exact.
-/

namespace WhereRules

/-- `numerator / denominator` rounded to a whole number, a half going to the even neighbour. -/
def roundHalfEven (numerator denominator : Nat) : Nat :=
  let whole := numerator / denominator
  let rest := numerator % denominator
  if 2 * rest < denominator ∨ (2 * rest = denominator ∧ whole % 2 = 0) then whole else whole + 1

namespace Magnitude

/-- The exponent of the magnitudes around a value of `units` whole units: the least one that leaves
at most 53 binary digits before the point. -/
def exponentFor (units : Nat) : Nat := Nat.log2 units - 52

/-- The magnitude nearest to `numerator / denominator`; `none` beyond the largest one.

Rounding up may carry into a 54th digit; the carried significand is then exactly `2^53`, which is
`2^52` at the next exponent. -/
def nearest? (numerator denominator : Nat) : Option Magnitude :=
  let scaled := numerator * unitsPerOne
  let exponent := exponentFor (scaled / denominator)
  let significand := roundHalfEven scaled (denominator * Nat.pow 2 exponent)
  if significand = Nat.pow 2 53 then ofPair? (Nat.pow 2 52) (exponent + 1)
  else ofPair? significand exponent

end Magnitude

namespace Double

/-- A magnitude under a sign. What lies beyond the largest magnitude becomes an infinity. -/
def ofMagnitude? (negative : Bool) : Option Magnitude → Double
  | some m => finite negative m
  | none => infinity negative

/-- A signed ratio, rounded. -/
def ofRatio (negative : Bool) (numerator denominator : Nat) : Double :=
  ofMagnitude? negative (Magnitude.nearest? numerator denominator)

/-- The double nearest to a whole number. -/
def ofInt (n : Int) : Double := ofRatio (n < 0) n.natAbs 1

/-- The rounded product of two magnitudes under a sign. -/
def ofProduct (negative : Bool) (a b : Magnitude) : Double :=
  ofRatio negative (a.units * b.units) (Magnitude.unitsPerOne * Magnitude.unitsPerOne)

end Double

end WhereRules
