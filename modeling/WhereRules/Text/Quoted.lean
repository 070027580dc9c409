import WhereRules.Text.Unprintable

/-!
# Quoted text

Listings of contexts and rules show text between double quotes, so that every text has one spelling
and stays on one line: the quote and the backslash are escaped, line breaks and the like get their
letters, and what has no visible form is shown by its number.
-/

namespace WhereRules

/-- One character between quotes. -/
def quotedChar (c : Char) : List Char :=
  match c with
  | '"' => ['\\', '"']
  | '\\' => ['\\', '\\']
  | '\n' => ['\\', 'n']
  | '\r' => ['\\', 'r']
  | '\t' => ['\\', 't']
  | '\x00' => ['\\', '0']
  | c =>
    if 0x20 ≤ c.toNat ∧ c.toNat < 0x7f then [c]
    else if isUnprintable c then "\\u\x7b".toList ++ Nat.toDigits 16 c.toNat ++ ['\x7d']
    else [c]

/-- A text between double quotes. -/
def quotedText (s : String) : String := String.ofList ('"' :: s.toList.flatMap quotedChar ++ ['"'])

end WhereRules
