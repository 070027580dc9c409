import WhereRules.Value.Basic

/-!
# Tokens

The words of rule text: keywords, names of fields, literals, comparison signs and punctuation. The
end of the text is no token; a `TokenStream` says where it is.

A token has two texts. Messages show what a token says (`Token.text`). Rules are written so that
they read back (`Token.spelling`): a double always shows its point.
-/

namespace WhereRules

/-! ## Keywords -/

/-- The reserved words. `among` is the word `IN`, `yes` and `no` are the two truth values. -/
inductive Keyword
  | and
  | or
  | not
  | among
  | like
  | between
  | is
  | null
  | yes
  | no
deriving DecidableEq

namespace Keyword

def text : Keyword → String
  | and => "AND"
  | or => "OR"
  | not => "NOT"
  | among => "IN"
  | like => "LIKE"
  | between => "BETWEEN"
  | is => "IS"
  | null => "NULL"
  | yes => "TRUE"
  | no => "FALSE"

def all : List Keyword := [and, or, not, among, like, between, is, null, yes, no]

/-- The keyword of a word in upper case. -/
def ofUpper? (word : String) : Option Keyword := all.find? fun keyword => keyword.text == word

/-- The keyword of a word in any case. Only the letters of ASCII have a case here. -/
def ofWord? (word : String) : Option Keyword :=
  ofUpper? (String.ofList (word.toList.map Char.toUpper))

/-- The value of a keyword that is a literal. -/
def value? : Keyword → Option Value
  | null => some .null
  | yes => some (.bool true)
  | no => some (.bool false)
  | _ => none

end Keyword

/-! ## Comparison signs -/

/-- The comparison signs. `notEqual` is `!=` and `unequal` is `<>`; they mean the same. -/
inductive Sign
  | equal
  | notEqual
  | unequal
  | less
  | lessOrEqual
  | greater
  | greaterOrEqual
deriving DecidableEq

namespace Sign

def text : Sign → String
  | equal => "="
  | notEqual => "!="
  | unequal => "<>"
  | less => "<"
  | lessOrEqual => "<="
  | greater => ">"
  | greaterOrEqual => ">="

def all : List Sign := [equal, notEqual, unequal, less, lessOrEqual, greater, greaterOrEqual]

/-- The sign of a text. -/
def ofText? (text : String) : Option Sign := all.find? fun sign => sign.text == text

end Sign

/-! ## Tokens -/

inductive Token
  | keyword (keyword : Keyword)
  | identifier (name : String)
  | int (n : Int64)
  | number (x : Double)
  | string (s : String)
  | sign (sign : Sign)
  | leftParen
  | rightParen
  | comma
deriving DecidableEq

/-- The characters of a text between single quotes: a quote inside is written twice. -/
def quoteDoubled : List Char → List Char
  | [] => []
  | c :: cs => if c = '\x27' then c :: c :: quoteDoubled cs else c :: quoteDoubled cs

namespace Token

/-- What a token says, for messages. -/
def text : Token → String
  | keyword k => k.text
  | identifier name => name
  | int n => n.toInt.repr
  | number x => x.toText
  | string s => String.ofList ('\x27' :: quoteDoubled s.toList ++ ['\x27'])
  | sign s => s.text
  | leftParen => "("
  | rightParen => ")"
  | comma => ","

/-- The text of a double with a point, so that it reads back as a double. -/
def pointed (text : String) : String := if '.' ∈ text.toList then text else text ++ ".0"

/-- How a token is written in a rule. -/
def spelling : Token → String
  | number x => pointed x.toText
  | token => token.text

/-- The value of a literal. -/
def literal? : Token → Option Value
  | int n => some (.int n)
  | number x => some (.number x)
  | string s => some (.text s)
  | keyword k => k.value?
  | _ => none

def isLiteral (token : Token) : Bool := token.literal?.isSome

/-- The literal of a value. Lists and maps have none. -/
def ofValue? : Value → Option Token
  | .null => some (keyword .null)
  | .bool true => some (keyword .yes)
  | .bool false => some (keyword .no)
  | .int n => some (int n)
  | .number x => some (number x)
  | .text s => some (string s)
  | .list _ | .map _ => none

end Token

/-! ## Token streams -/

/-- A token and the number of characters before it. -/
structure Placed where
  token : Token
  position : Nat
deriving DecidableEq

/-- The tokens of a text, and the place where the text stops. -/
structure TokenStream where
  tokens : List Placed
  stop : Nat
deriving DecidableEq

/-- What messages call the place where a text stops. -/
def TokenStream.stopText : String := "end of input"

/-- How many tokens there are, the end of the text included. -/
def TokenStream.count (stream : TokenStream) : Nat := stream.tokens.length + 1

/-! ## Writing tokens -/

/-- Whether a blank stands between two neighbouring tokens: everywhere but inside parentheses and
before a comma. -/
def Token.spaced (left right : Token) : Bool :=
  left != leftParen && right != rightParen && right != comma

/-- The characters of tokens written side by side. -/
def Token.chars : List Token → List Char
  | [] => []
  | [token] => token.spelling.toList
  | token :: next :: rest =>
    token.spelling.toList ++ (if token.spaced next then [' '] else []) ++ chars (next :: rest)

end WhereRules
