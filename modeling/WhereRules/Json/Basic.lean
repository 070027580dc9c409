import WhereRules.Double.Text

/-!
# JSON documents

Records, settings and validation reports travel as JSON. A document keeps what its text says: the
members of an object stand in their order, repeated names included, and a whole number inside 64
bits stays a whole number instead of becoming a double. What a repeated name means is decided by
whoever reads the document.
-/

namespace WhereRules

/-- A number of a document. -/
inductive Json.Number
  /-- Digits alone, from `-2^63` to `2^64 - 1`. -/
  | whole (n : Int)
  /-- Every other number: a fraction, an exponent, minus zero, or more than 64 bits. -/
  | double (x : Double)
deriving DecidableEq

inductive Json
  | null
  | bool (b : Bool)
  | number (n : Json.Number)
  | string (s : String)
  | array (items : List Json)
  | object (members : List (String × Json))
deriving Inhabited

namespace Json

/-- A count or an offset as a document. -/
def ofNat (n : Nat) : Json := .number (.whole n)

end Json

end WhereRules
