import WhereRules.Double.Shortest

/-!
# Doubles as text

Rule text and messages write a double positionally: its shortest digits, with zeros up to the point
and no exponent at any size (`Double.toText`). Formats that must show that a number is a double
always write a fraction or an exponent; where the exponent begins and how it looks is theirs
(`NumberStyle`). Reading takes digits, a point and an exponent, and rounds once.
-/

namespace WhereRules

/-! ## Writing -/

/-- Digits with the point in place: `1234 · 10^-2` is `12.34`, `5 · 10^2` is `500`, `5 · 10^-2` is
`0.05`. -/
def Decimal.positional (d : Decimal) : List Char :=
  let digits := Nat.toDigits 10 d.digits
  if 0 ≤ d.exponent then
    digits ++ List.replicate d.exponent.toNat '0'
  else
    let places := (-d.exponent).toNat
    if places < digits.length then
      digits.take (digits.length - places) ++ '.' :: digits.drop (digits.length - places)
    else
      '0' :: '.' :: List.replicate (places - digits.length) '0' ++ digits

/-- A tie between two shortest decimals goes up in positional text. -/
def Magnitude.toText (m : Magnitude) : List Char := (m.shortest .up).positional

def signText (negative : Bool) : List Char := if negative then ['-'] else []

/-- The text of a number in messages, in patterns and among a rule's tokens. -/
def Double.toText : Double → String
  | .nan => "NaN"
  | .infinity negative => String.ofList (signText negative ++ ['i', 'n', 'f'])
  | .finite negative m => String.ofList (signText negative ++ m.toText)

/-- How a format writes a double that must not look like a whole number. -/
structure NumberStyle where
  /-- Which of two equally near shortest decimals is written. -/
  tie : Tie
  /-- The least power of ten whose numbers are written positionally. -/
  least : Int
  /-- The power of ten from which on numbers get an exponent. -/
  bound : Int
  /-- Whether an exponent that is not negative has a sign. -/
  plus : Bool

/-- Digits with a point after the first, and an exponent: `12345` at the power `-7` is
`1.2345e-7`. -/
def NumberStyle.scientific (style : NumberStyle) (digits : List Char) (power : Int) : List Char :=
  let mantissa := match digits with
    | d :: c :: rest => d :: '.' :: c :: rest
    | digits => digits
  let sign := if power < 0 then ['-'] else if style.plus then ['+'] else []
  mantissa ++ 'e' :: sign ++ Nat.toDigits 10 power.natAbs

/-- A magnitude with a fraction or an exponent. -/
def NumberStyle.magnitude (style : NumberStyle) (m : Magnitude) : List Char :=
  let d := m.shortest style.tie
  let digits := Nat.toDigits 10 d.digits
  let power := d.exponent + digits.length - 1
  if d.digits = 0 ∨ (style.least ≤ power ∧ power < style.bound) then
    if 0 ≤ d.exponent then d.positional ++ ['.', '0'] else d.positional
  else style.scientific digits power

/-! ## Reading -/

namespace Double

/-- The number written by the digits before and after a point. -/
def ofDigits (negative : Bool) (whole fraction : List Char) : Double :=
  ofRatio negative (Nat.ofDigitChars 10 (whole ++ fraction) 0) (Nat.pow 10 fraction.length)

/-- A decimal, rounded. An exponent past every double is decided without raising ten to it: beyond
`10^400` only an infinity is left, and digits below `10^-400` in total are zero. -/
def ofDecimal (negative : Bool) (d : Decimal) : Double :=
  if d.digits = 0 then finite negative .zero
  else if 400 < d.exponent then infinity negative
  else if d.exponent < -(400 + d.digits.log2 : Nat) then finite negative .zero
  else ofRatio negative d.numerator d.denominator

/-- The exponent part of a number's text: nothing, or `e` with a signed count. -/
def exponentOf? : List Char → Option Int
  | [] => some 0
  | c :: rest =>
    if c = 'e' ∨ c = 'E' then
      let (negative, digits) := match rest with
        | '-' :: digits => (true, digits)
        | '+' :: digits => (false, digits)
        | digits => (false, digits)
      if digits ≠ [] ∧ digits.all Char.isDigit then
        some (signed negative (Nat.ofDigitChars 10 digits 0))
      else none
    else none

/-- The number of an unsigned text: digits, at most one point, at most one exponent. -/
def ofUnsigned? (negative : Bool) (text : List Char) : Option Double :=
  let whole := text.takeWhile Char.isDigit
  let (fraction, rest) := match text.dropWhile Char.isDigit with
    | '.' :: rest => (rest.takeWhile Char.isDigit, rest.dropWhile Char.isDigit)
    | rest => ([], rest)
  if whole = [] ∧ fraction = [] then none
  else (exponentOf? rest).map fun exponent =>
    ofDecimal negative ⟨Nat.ofDigitChars 10 (whole ++ fraction) 0, exponent - fraction.length⟩

/-- The number of a decimal text; `NaN`, `inf` and `-inf` name the others. -/
def ofText? (text : String) : Option Double :=
  match text.toList with
  | ['N', 'a', 'N'] => some nan
  | ['i', 'n', 'f'] => some (infinity false)
  | ['-', 'i', 'n', 'f'] => some (infinity true)
  | '-' :: digits => ofUnsigned? true digits
  | '+' :: digits => ofUnsigned? false digits
  | digits => ofUnsigned? false digits

end Double

end WhereRules
