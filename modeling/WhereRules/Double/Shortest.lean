import WhereRules.Double.Rounding

/-!
# The shortest decimal that names a double

A double is written with the fewest digits that read back as it. A decimal is accepted here by
reading it back, so what is written names the number by construction; which of the accepted
decimals is written is the search's part:

- counts of digits are tried from one upwards, and seventeen always suffice;
- at each count only the two decimals next to the exact value are candidates;
- of two candidates that both read back the nearer is taken, and an exact tie goes as the format
  that asks says (`Tie`).

Seventeen digits failing would leave the exact expansion, which reads back because it is the value.
-/

namespace WhereRules

/-! ## Decimals -/

/-- The number `digits · 10^exponent`. -/
structure Decimal where
  digits : Nat
  exponent : Int
deriving DecidableEq, Repr

namespace Decimal

def numerator (d : Decimal) : Nat := d.digits * Nat.pow 10 d.exponent.toNat

def denominator (d : Decimal) : Nat := Nat.pow 10 (-d.exponent).toNat

/-- The same number without trailing zeros among its digits. -/
def trimmed (digits : Nat) (exponent : Int) : Decimal :=
  if digits ≠ 0 ∧ digits % 10 = 0 then trimmed (digits / 10) (exponent + 1) else ⟨digits, exponent⟩
termination_by digits
decreasing_by exact Nat.div_lt_self (by omega) (by decide)

/-- The magnitude nearest to a decimal. -/
def nearest? (d : Decimal) : Option Magnitude := Magnitude.nearest? d.numerator d.denominator

end Decimal

/-! ## The search -/

/-- Which of two equally near decimals is written. -/
inductive Tie
  /-- The one with the even last digit. -/
  | even
  /-- The larger one. -/
  | up
deriving DecidableEq

namespace Magnitude

/-- How many digits the whole part of a positive magnitude has; zero or less counts the zeros after
the point. -/
def wholeDigits (m : Magnitude) : Int :=
  let whole := m.units / unitsPerOne
  if whole = 0 then 1 - (Nat.toDigits 10 (unitsPerOne / m.units)).length
  else (Nat.toDigits 10 whole).length

/-- The decimal that names `m` among the two next to it on the grid of step `10^exponent`. -/
def onGrid? (m : Magnitude) (tie : Tie) (exponent : Int) : Option Decimal :=
  let numerator := m.units * Nat.pow 10 (-exponent).toNat
  let denominator := unitsPerOne * Nat.pow 10 exponent.toNat
  let whole := numerator / denominator
  let rest := numerator % denominator
  let low := Decimal.trimmed whole exponent
  let high := Decimal.trimmed (whole + 1) exponent
  let lowWins := 2 * rest < denominator ∨
    (2 * rest = denominator ∧ tie = .even ∧ whole % 2 = 0)
  if low.nearest? = some m ∧ (lowWins ∨ high.nearest? ≠ some m) then some low
  else if high.nearest? = some m then some high
  else none

/-- Every digit of the magnitude: `units · 2^-1074 = units · 5^1074 · 10^-1074`. -/
def exactDecimal (m : Magnitude) : Decimal := ⟨m.units * Nat.pow 5 1074, -1074⟩

/-- The decimal of fewest digits that reads back as `m`. Zero has no first digit to count from. -/
def shortest (m : Magnitude) (tie : Tie) : Decimal :=
  if m.units = 0 then ⟨0, 0⟩
  else
    ((List.range 17).findSome? fun (i : Nat) => m.onGrid? tie (m.wholeDigits - (i + 1))).getD
      m.exactDecimal

end Magnitude

end WhereRules
