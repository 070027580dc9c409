import WhereRules.Predicate.Basic
import WhereRules.Pattern.Like
import WhereRules.Expr.Basic
import WhereRules.Token.Lexer

/-!
# Writing predicates as rule text

A predicate is written by way of an expression: `Expr.ofPredicate` says which expression stands for
it, or why none does, and `Expr.tokens` puts down its words with the parentheses they need. Where a
conjunction stands directly in a disjunction, or the other way round, it is put in parentheses, and
so is what a `NOT` encloses; a condition in the place of a value always is.

What rule text has no words for is an error: a pattern that is no wildcard text, an empty list of
values, a list, a map or an endless number as a literal, a path that is no name.
-/

namespace WhereRules

/-! ## Errors -/

/-- Why a value cannot be written. -/
inductive Unwritable
  | pattern (source : String)
  | nonFinite (x : Double)
  /-- A list or a map where one literal must stand. -/
  | collection (value : Value)
  /-- A path that does not read back as a name. -/
  | path (text : String)

def Unwritable.reason : Unwritable → String
  | pattern source => "pattern \x27" ++ source ++ "\x27 used as a value"
  | nonFinite x => "non-finite number " ++ x.toText
  | collection value => value.kindName ++ " literal outside an IN list"
  | path text => "field path \x27" ++ text ++ "\x27 is not a valid identifier"

inductive WriteError
  /-- A pattern that no wildcard text has. -/
  | pattern (source : String)
  /-- A membership in an empty list. -/
  | emptyList (negated : Bool)
  | value (cause : Unwritable)
  | tooDeep (limit : Nat)

def WriteError.message : WriteError → String
  | pattern source => "Regular expression \x27" ++ source ++ "\x27 has no LIKE equivalent"
  | emptyList negated =>
    "Malformed " ++ (Operator.member negated).name ++
      " predicate: second operand must be a non-empty list"
  | value cause => "Value cannot be written as SQL: " ++ cause.reason
  | tooDeep limit => "Predicate nested deeper than " ++ limit.repr ++ " levels"

/-! ## Leaves -/

/-- Whether a path reads back as a name: a letter or `_`, then letters, digits, `_` and dots, and
not a keyword. -/
def isName (path : String) : Bool :=
  match path.toList with
  | [] => false
  | c :: cs => Token.startsName c && cs.all Token.continuesName && (Keyword.ofWord? path).isNone

namespace Expr

/-- A value as a literal of rule text. -/
def writableValue (value : Value) : Except WriteError Value :=
  match value with
  | .number x => if x.isFinite then .ok value else .error (.value (.nonFinite x))
  | .list _ | .map _ => .error (.value (.collection value))
  | _ => .ok value

def ofField (field : Field) : Except WriteError Expr :=
  if isName field.path then .ok (Expr.field field.path) else .error (.value (.path field.path))

/-- The sign of a relation. Of the two signs for inequality it is `!=`. -/
def signOf : Relation → Sign
  | .equal => .equal
  | .notEqual => .notEqual
  | .greater => .greater
  | .greaterOrEqual => .greaterOrEqual
  | .less => .less
  | .lessOrEqual => .lessOrEqual

/-! ## Conditions -/

/-- The expression of an operand; `written` writes conditions. -/
def ofOperand (written : Predicate → Except WriteError Expr) : Operand → Except WriteError Expr
  | .constant value => (writableValue value).map .literal
  | .field named => ofField named
  | .pattern pattern => .error (.value (.pattern pattern.source))
  | .decision predicate => written predicate

/-- The expression of a predicate in the room left of a limit. A comparison with null, and its
negation, are null tests. -/
def written (limit : Nat) : (room : Nat) → Predicate → Except WriteError Expr
  | 0, _ => .error (.tooDeep limit)
  | room + 1, predicate =>
    let written := written limit room
    let operand := ofOperand written
    match predicate with
    | .comparison .equal left (.constant .null) => do
      let left ← operand left
      .ok (isNull left false)
    | .comparison .notEqual left (.constant .null) => do
      let left ← operand left
      .ok (isNull left true)
    | .comparison relation left right => do
      let left ← operand left
      let right ← operand right
      .ok (comparison (signOf relation) left right)
    | .member negated subject values => do
      if values.isEmpty then .error (.emptyList negated)
      let values ← values.mapM writableValue
      let subject ← operand subject
      .ok (member subject values negated)
    | .between subject low high => do
      let subject ← operand subject
      let low ← operand low
      let high ← operand high
      .ok (between subject low high)
    | .matching negated subject pattern => do
      match Like.ofRegex? pattern.source with
      | none => .error (.pattern pattern.source)
      | some text => do
        let subject ← operand subject
        .ok (like subject text negated)
    | .all first rest => do
      let operands ← (first :: rest).mapM written
      .ok (logical .and operands)
    | .any first rest => do
      let operands ← (first :: rest).mapM written
      .ok (logical .or operands)
    | .not (.comparison .equal left (.constant .null)) => do
      let left ← operand left
      .ok (isNull left true)
    | .not inner => do
      let inner ← written inner
      .ok (negation inner)

/-- The expression of a predicate whose conditions nest at most `limit` deep. -/
def ofPredicate (limit : Nat) (predicate : Predicate) : Except WriteError Expr :=
  written limit limit predicate

/-! ## Words -/

def inParens (tokens : List Token) : List Token := .leftParen :: tokens ++ [.rightParen]

/-- Lists of tokens one after the other, a separator between two. -/
def separated (separator : Token) : List (List Token) → List Token
  | [] => []
  | [tokens] => tokens
  | tokens :: rest => tokens ++ separator :: separated separator rest

/-- The token of a literal. -/
def valueTokens (value : Value) : List Token := (Token.ofValue? value).toList

/-- `NOT` where a test is negated. -/
def notTokens (negated : Bool) : List Token := if negated then [.keyword .not] else []

/-- Whether an operand of a connective stands in parentheses: the other of `AND` and `OR` does, and
under `NOT` both. -/
def groupedUnder (connective : Connective) : Expr → Bool
  | logical .not _ => false
  | logical c _ => c != connective
  | _ => false

mutual

/-- The words of an expression. -/
def tokens : Expr → List Token
  | literal value => valueTokens value
  | field path => [.identifier path]
  | comparison sign left right => operandTokens left ++ .sign sign :: operandTokens right
  | logical .and operands => separated (.keyword .and) (tokensUnder .and operands)
  | logical .or operands => separated (.keyword .or) (tokensUnder .or operands)
  | logical .not operands => .keyword .not :: (tokensUnder .not operands).flatten
  | member subject values negated =>
    operandTokens subject ++ notTokens negated ++
      .keyword .among :: inParens (separated .comma (values.map valueTokens))
  | between subject low high =>
    operandTokens subject ++ .keyword .between :: operandTokens low ++
      .keyword .and :: operandTokens high
  | like subject text negated =>
    operandTokens subject ++ notTokens negated ++ [.keyword .like, .string text]
  | isNull subject negated =>
    operandTokens subject ++ .keyword .is :: notTokens negated ++ [.keyword .null]

/-- The words of an operand: a condition stands in parentheses. -/
def operandTokens (e : Expr) : List Token :=
  if e.isCondition then inParens (tokens e) else tokens e

/-- The words of each operand of a connective. -/
def tokensUnder (connective : Connective) : List Expr → List (List Token)
  | [] => []
  | e :: rest =>
    (if groupedUnder connective e then inParens (tokens e) else tokens e) ::
      tokensUnder connective rest

end

/-- The rule text of an expression. -/
def toText (e : Expr) : String := String.ofList (Token.chars e.tokens)

end Expr

/-- The rule text of a predicate whose conditions nest at most `limit` deep. -/
def Predicate.toText (limit : Nat) (predicate : Predicate) : Except WriteError String :=
  (Expr.ofPredicate limit predicate).map Expr.toText

end WhereRules
