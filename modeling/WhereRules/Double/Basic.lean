/-!
# Double-precision numbers

The number type of rule text and of records. A double is kept as what it means, not as a word of
bits: a sign and a magnitude `significand · 2^exponent`, counted in units of `2^-1074`, the smallest
step between two doubles. Each magnitude has exactly one such pair (`Magnitude.normal`), so two
doubles of one sign and one value are one element of the type, and only the two zeros share a place
on the number line.

The order is the order of those places (`Double.rank?`): exact integers, with the infinities beyond
every finite number. `nan` has no place, so it is unequal to everything, itself included.
-/

namespace WhereRules

/-! ## Magnitudes -/

/-- A finite magnitude `significand · 2^exponent`, in units of `2^-1074`. -/
structure Magnitude where
  significand : Nat
  exponent : Nat
  /-- A significand has at most 53 binary digits. -/
  significand_lt : significand < Nat.pow 2 53
  /-- The largest finite double has the exponent 2045. -/
  exponent_le : exponent ≤ 2045
  /-- Only the smallest exponent admits a significand of fewer digits: the pair is the only one for
  its value. -/
  normal : exponent = 0 ∨ Nat.pow 2 52 ≤ significand
deriving DecidableEq

namespace Magnitude

/-- The magnitude of a pair that is canonical and in range. -/
def ofPair? (significand exponent : Nat) : Option Magnitude :=
  if h : significand < Nat.pow 2 53 ∧ exponent ≤ 2045 ∧
      (exponent = 0 ∨ Nat.pow 2 52 ≤ significand) then
    some ⟨significand, exponent, h.1, h.2.1, h.2.2⟩
  else
    none

def zero : Magnitude := ⟨0, 0, by decide, by decide, .inl rfl⟩

/-- The magnitude as a count of the smallest step, `2^-1074`. -/
def units (m : Magnitude) : Nat := m.significand * Nat.pow 2 m.exponent

end Magnitude

/-- How many units make one: `2^1074`. -/
def Magnitude.unitsPerOne : Nat := Nat.pow 2 1074

/-! ## Doubles -/

inductive Double
  | nan
  | infinity (negative : Bool)
  | finite (negative : Bool) (magnitude : Magnitude)
deriving DecidableEq

namespace Double

def isFinite : Double → Bool
  | finite _ _ => true
  | _ => false

/-- An unsigned count under a sign. -/
def signed (negative : Bool) (n : Nat) : Int := if negative then -n else n

/-- The place of a number on the line, in units of `2^-1074`. An infinity stands one step of the
largest exponent beyond the largest finite number; both zeros stand at 0. -/
def rank? : Double → Option Int
  | nan => none
  | infinity negative => some (signed negative (Nat.pow 2 53 * Nat.pow 2 2045))
  | finite negative m => some (signed negative m.units)

/-- Numeric order; nothing is comparable with `nan`. -/
def compare? (x y : Double) : Option Ordering :=
  match x.rank?, y.rank? with
  | some a, some b => some (compare a b)
  | _, _ => none

/-- Numeric equality: the two zeros are equal, `nan` equals nothing. -/
def numEq (x y : Double) : Bool := x.compare? y == some .eq

def negate : Double → Double
  | nan => nan
  | infinity negative => infinity (!negative)
  | finite negative m => finite (!negative) m

end Double

end WhereRules
