import WhereRules.Json.Basic

/-!
# JSON as text

Documents are written without blanks. A double is written with its shortest digits and always shows
that it is one: by a fraction, or by an exponent outside the range that is written positionally. So
a whole number and a double never share a text. JSON has no word for `nan` and the infinities; they
become `null`.
-/

namespace WhereRules.Json

/-! ## Strings -/

/-- The two hexadecimal digits of a control character. -/
def hexPair (n : Nat) : List Char := [Nat.digitChar (n / 16), Nat.digitChar (n % 16)]

/-- One character of a string. Only the quote, the backslash and the control characters are
escaped; everything else stands for itself. -/
def escaped (c : Char) : List Char :=
  match c with
  | '"' => ['\\', '"']
  | '\\' => ['\\', '\\']
  | '\n' => ['\\', 'n']
  | '\r' => ['\\', 'r']
  | '\t' => ['\\', 't']
  | '\x08' => ['\\', 'b']
  | '\x0c' => ['\\', 'f']
  | c => if c.toNat < 32 then ['\\', 'u', '0', '0'] ++ hexPair c.toNat else [c]

def quoted (s : String) : List Char := '"' :: s.toList.flatMap escaped ++ ['"']

/-! ## Numbers -/

/-- A document writes numbers positionally from `10^-5` up to below `10^16`; of two equally near
shortest decimals it takes the even one, and it signs every exponent. -/
def numberStyle : NumberStyle := ⟨.even, -5, 16, true⟩

def doubleText : Double → List Char
  | .finite negative m => signText negative ++ numberStyle.magnitude m
  | _ => "null".toList

def numberText : Number → List Char
  | .whole n => n.repr.toList
  | .double x => doubleText x

/-! ## Documents -/

mutual

/-- The characters of a document. -/
def chars : Json → List Char
  | .null => "null".toList
  | .bool true => "true".toList
  | .bool false => "false".toList
  | .number n => numberText n
  | .string s => quoted s
  | .array items => '[' :: itemChars items ++ [']']
  | .object members => '{' :: memberChars members ++ ['}']

/-- Items, a comma between two. -/
def itemChars : List Json → List Char
  | [] => []
  | [item] => chars item
  | item :: rest => chars item ++ ',' :: itemChars rest

/-- Members, a comma between two. -/
def memberChars : List (String × Json) → List Char
  | [] => []
  | [(name, value)] => quoted name ++ ':' :: chars value
  | (name, value) :: rest => quoted name ++ ':' :: chars value ++ ',' :: memberChars rest

end

/-- The text of a document. -/
def toText (document : Json) : String := String.ofList document.chars

end WhereRules.Json
