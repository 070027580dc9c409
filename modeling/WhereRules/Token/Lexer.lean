import WhereRules.Token.Basic

/-!
# Cutting text into tokens

Text is cut from left to right. Blanks separate tokens and are otherwise skipped; the first
character of a token says which kind it is, and the token takes as many characters as its kind
allows (`lexeme`). The first character that begins no token, and the first token that breaks off or
is out of range, is the error, at the place where it begins.
-/

namespace WhereRules

/-! ## Errors -/

/-- Why a place in a text begins no token. -/
inductive LexFault
  | unexpected (c : Char)
  /-- A string without a closing quote. -/
  | unterminated
  /-- A whole number of more than 64 bits. -/
  | invalidNumber (digits : String)
deriving DecidableEq

structure LexError where
  fault : LexFault
  position : Nat
deriving DecidableEq

def LexError.message (error : LexError) : String :=
  match error.fault with
  | .unexpected c =>
    "Unexpected character \x27" ++ c.toString ++ "\x27 at position " ++ error.position.repr
  | .unterminated => "Unterminated string literal starting at position " ++ error.position.repr
  | .invalidNumber digits =>
    "Invalid number literal \x27" ++ digits ++ "\x27 at position " ++ error.position.repr

namespace Token

/-! ## Kinds of token by their first character -/

/-- Blanks are the control characters and the space. -/
def isBlank (c : Char) : Bool := c.toNat ≤ 32

/-- Whether a character begins a name or a keyword. -/
def startsName (c : Char) : Bool := c.isAlpha || c == '_'

/-- Whether a character continues a name. Dots join the steps of a path. -/
def continuesName (c : Char) : Bool := c.isAlphanum || c == '_' || c == '.'

/-- A name, or the keyword that it is in any case. -/
def ofName (name : List Char) : Token :=
  match Keyword.ofWord? (String.ofList name) with
  | some k => keyword k
  | none => identifier (String.ofList name)

/-- The text of a string after its opening quote, and how many characters it takes with the closing
one. Two quotes are one quote of the text. -/
def stringBody : List Char → Option (List Char × Nat)
  | [] => none
  | '\x27' :: '\x27' :: cs => (stringBody cs).map fun (text, taken) => ('\x27' :: text, taken + 2)
  | '\x27' :: _ => some ([], 1)
  | c :: cs => (stringBody cs).map fun (text, taken) => (c :: text, taken + 1)

/-- A whole number, if it has at most 64 bits. -/
def ofWhole (negative : Bool) (digits : List Char) : Except LexFault Token :=
  let n := Double.signed negative (Nat.ofDigitChars 10 digits 0)
  if Value.fitsInt n then .ok (int (Int64.ofInt n))
  else .error (.invalidNumber (String.ofList (signText negative ++ digits)))

/-- A number that begins with some digits: a double if a point and a digit follow them, otherwise
whole. How many characters it takes does not count the sign. -/
def numberBody (negative : Bool) (cs : List Char) : Except LexFault (Token × Nat) :=
  let whole := cs.takeWhile Char.isDigit
  match cs.drop whole.length with
  | '.' :: rest =>
    let fraction := rest.takeWhile Char.isDigit
    if fraction = [] then (ofWhole negative whole).map fun token => (token, whole.length)
    else .ok (number (Double.ofDigits negative whole fraction),
      whole.length + 1 + fraction.length)
  | _ => (ofWhole negative whole).map fun token => (token, whole.length)

/-- Signs and punctuation, of two characters where two make a sign. -/
def symbol (c : Char) (cs : List Char) : Except LexFault (Token × Nat) :=
  match c, cs with
  | '!', '=' :: _ => .ok (sign .notEqual, 1)
  | '<', '>' :: _ => .ok (sign .unequal, 1)
  | '<', '=' :: _ => .ok (sign .lessOrEqual, 1)
  | '>', '=' :: _ => .ok (sign .greaterOrEqual, 1)
  | '=', _ => .ok (sign .equal, 0)
  | '<', _ => .ok (sign .less, 0)
  | '>', _ => .ok (sign .greater, 0)
  | '(', _ => .ok (leftParen, 0)
  | ')', _ => .ok (rightParen, 0)
  | ',', _ => .ok (comma, 0)
  | c, _ => .error (.unexpected c)

/-- Whether a text begins with a digit. -/
def startsDigit : List Char → Bool
  | [] => false
  | c :: _ => c.isDigit

/-- The token that begins with `c`, and how many of the following characters belong to it. -/
def lexeme (c : Char) (cs : List Char) : Except LexFault (Token × Nat) :=
  if c = '\x27' then
    match stringBody cs with
    | some (text, taken) => .ok (string (String.ofList text), taken)
    | none => .error .unterminated
  else if c.isDigit then
    (numberBody false (c :: cs)).map fun (token, taken) => (token, taken - 1)
  else if c = '-' ∧ startsDigit cs then numberBody true cs
  else if startsName c then
    let name := cs.takeWhile continuesName
    .ok (ofName (c :: name), name.length)
  else symbol c cs

/-! ## Whole texts -/

/-- The tokens of the characters from a place on. -/
def ofChars (position : Nat) : List Char → Except LexError (List Placed)
  | [] => .ok []
  | c :: cs =>
    if isBlank c then ofChars (position + 1) cs
    else match lexeme c cs with
      | .error fault => .error ⟨fault, position⟩
      | .ok (token, taken) =>
        (ofChars (position + 1 + taken) (cs.drop taken)).map fun rest => ⟨token, position⟩ :: rest
termination_by cs => cs.length
decreasing_by all_goals simp only [List.length_drop, List.length_cons]; omega

end Token

/-- The tokens of a text. -/
def TokenStream.ofText (source : String) : Except LexError TokenStream :=
  (Token.ofChars 0 source.toList).map fun tokens => ⟨tokens, source.length⟩

end WhereRules
