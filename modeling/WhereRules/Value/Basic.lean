import WhereRules.Double.Text
import WhereRules.Keyed

/-!
# Values

A value is what a record holds and what a rule compares with. Whole numbers and doubles are two
kinds: a rule that says `10` means the whole number, one that says `10.0` the double. A map holds
its entries in key order.
-/

namespace WhereRules

inductive Value
  | null
  | bool (b : Bool)
  | int (n : Int64)
  | number (x : Double)
  | text (s : String)
  | list (items : List Value)
  | map (entries : List (String × Value))

namespace Value

/-- The name of a value's kind. -/
def kindName : Value → String
  | null => "Null"
  | bool _ => "Bool"
  | int _ => "Int"
  | number _ => "Number"
  | text _ => "Text"
  | list _ => "List"
  | map _ => "Map"

/-- Whether a whole number is one of a value: it fits 64 signed bits. -/
def fitsInt (n : Int) : Bool := Int64.minValue.toInt ≤ n && n ≤ Int64.maxValue.toInt

def isNull : Value → Bool
  | null => true
  | _ => false

/-- The value as a double, if it is a number of either kind. A whole number beyond 53 binary digits
is rounded. -/
def asDouble? : Value → Option Double
  | int n => some (Double.ofInt n.toInt)
  | number x => some x
  | _ => none

/-- The text that a pattern is matched against: the text itself, or a number's digits. Values of the
other kinds match no pattern. -/
def matchText? : Value → Option String
  | text s => some s
  | int n => some n.toInt.repr
  | number x => some x.toText
  | _ => none

/-- Descends into nested maps, one key a step. Nothing but a map can be entered. -/
def atPath? (value : Value) : List String → Option Value
  | [] => some value
  | key :: rest =>
    match value with
    | map entries => (entries.lookup key).bind fun inner => inner.atPath? rest
    | _ => none

end Value

end WhereRules
