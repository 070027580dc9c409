/-!
# Wildcard texts

`LIKE` takes a text in which `%` stands for any run of characters and `_` for any one; a backslash
before either makes it stand for itself. Rules keep such a text as a regular expression
(`Like.toRegex`), and writing a rule turns the expression back (`Like.ofRegex?`), so the expression
must be one that some wildcard text has: anchored at both ends, and made of characters, single
wildcards and runs of wildcards.
-/

namespace WhereRules.Like

/-! ## To a regular expression -/

/-- The characters that mean something in a regular expression, or may come to. -/
def isMeta (c : Char) : Bool :=
  ['\\', '.', '+', '*', '?', '(', ')', '|', '[', ']', '\x7b', '\x7d', '^', '$', '#', '&', '-',
    '~'].contains c

/-- A character as itself in a regular expression. -/
def literal (c : Char) : List Char := if isMeta c then ['\\', c] else [c]

/-- The expression of a wildcard text, without its anchors. -/
def body : List Char → List Char
  | [] => []
  | '\\' :: '%' :: cs => '%' :: body cs
  | '\\' :: '_' :: cs => '_' :: body cs
  | '%' :: cs => '.' :: '*' :: body cs
  | '_' :: cs => '.' :: body cs
  | c :: cs => literal c ++ body cs

/-- The regular expression that matches what a wildcard text does. -/
def toRegex (like : String) : String := String.ofList ('^' :: body like.toList ++ ['$'])

/-! ## Back to a wildcard text -/

/-- A character as itself in a wildcard text. -/
def escaped (c : Char) : List Char := if c = '%' ∨ c = '_' then ['\\', c] else [c]

/-- Whether a character standing alone is more than itself in a regular expression. -/
def isOperator (c : Char) : Bool :=
  ['^', '*', '+', '?', '(', ')', '[', ']', '\x7b', '\x7d', '|'].contains c

/-- The wildcard text of an expression after its first anchor. The last anchor must end it. -/
def ofBody? : List Char → Option (List Char)
  | [] => none
  | ['$'] => some []
  | '$' :: _ => none
  | ['\\'] => none
  | '\\' :: c :: cs => if c.isAlphanum then none else (ofBody? cs).map (escaped c ++ ·)
  | '.' :: '*' :: cs => (ofBody? cs).map ('%' :: ·)
  | '.' :: cs => (ofBody? cs).map ('_' :: ·)
  | c :: cs => if isOperator c then none else (ofBody? cs).map (escaped c ++ ·)

/-- The wildcard text of a regular expression, if it has one. -/
def ofRegex? (regex : String) : Option String :=
  match regex.toList with
  | '^' :: cs => (ofBody? cs).map String.ofList
  | _ => none

end WhereRules.Like
