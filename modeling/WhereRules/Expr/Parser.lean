import WhereRules.Expr.Basic

/-!
# Parsing expressions

The grammar, from the loosest to the tightest binding:

    disjunction := conjunction ("OR" conjunction)*
    conjunction := negation ("AND" negation)*
    negation    := "NOT" negation | comparison
    comparison  := "(" disjunction ")" [suffix] | primary suffix
    suffix      := sign primary | "IS" ["NOT"] "NULL" | "BETWEEN" primary "AND" primary
                 | ["NOT"] "IN" "(" literal ("," literal)* ")" | ["NOT"] "LIKE" string
    primary     := field | literal | "(" disjunction ")"

Chains fold to the left into operations of two operands. A `NOT` before `IN` or `LIKE` belongs to a
suffix and begins no negation.

Each rule of the grammar is a reader of tokens that answers what it read and the tokens left. How
deep an expression may nest is the reader's `room`: a parenthesis and a `NOT` take one level for
what they enclose, and each `OR` or `AND` of a chain takes one more than the one before it. The room
is also what the recursion runs on. A reader that cannot go on says what it wanted and where it
stood (`Stuck`).
-/

namespace WhereRules

/-! ## Errors -/

/-- What the grammar wants at a place. -/
inductive Expected
  | expression
  | literal
  | string
  | sign
  | token (token : Token)
  | keyword (keyword : Keyword)
deriving DecidableEq

def Expected.text : Expected → String
  | expression => "expression"
  | literal => "literal"
  | string => "string literal"
  | sign => "comparison operator"
  | token t => "\x27" ++ t.text ++ "\x27"
  | keyword k => k.text

/-- Why tokens are no expression. -/
inductive ParseError
  | unexpected (expected : Expected) (got : Token) (position : Nat)
  | ended (expected : Expected) (position : Nat)
  /-- A whole expression, and more after it. -/
  | trailing (got : Token) (position : Nat)
  | tooDeep (limit : Nat) (position : Nat)
deriving DecidableEq

namespace ParseError

def position : ParseError → Nat
  | unexpected _ _ position => position
  | ended _ position => position
  | trailing _ position => position
  | tooDeep _ position => position

def message : ParseError → String
  | unexpected expected got position =>
    "Unexpected token at position " ++ position.repr ++ ": expected " ++ expected.text ++
      ", got " ++ got.text
  | ended expected position =>
    "Unexpected " ++ TokenStream.stopText ++ " at position " ++ position.repr ++ ": expected " ++
      expected.text
  | trailing got position =>
    "Unexpected trailing input at position " ++ position.repr ++ ": " ++ got.text
  | tooDeep limit position =>
    "Expression nested deeper than " ++ limit.repr ++ " levels at position " ++ position.repr

end ParseError

namespace Expr

/-- Why a reader stopped. -/
inductive Obstacle
  | wanted (expected : Expected)
  /-- There is no room for the level that the next token opens. -/
  | noRoom
deriving DecidableEq

structure Stuck where
  obstacle : Obstacle
  /-- The tokens from the place on. -/
  rest : List Placed
deriving DecidableEq

/-- A reader of the tokens that are left. -/
abbrev Reader (α : Type) := List Placed → Except Stuck (α × List Placed)

/-! ## Rules without nesting -/

def wanted {α : Type} (expected : Expected) (ts : List Placed) : Except Stuck α :=
  .error ⟨.wanted expected, ts⟩

def keyword (k : Keyword) : Reader Unit
  | ⟨.keyword j, p⟩ :: ts =>
    if j = k then .ok ((), ts) else wanted (.keyword k) (⟨.keyword j, p⟩ :: ts)
  | ts => wanted (.keyword k) ts

def leftParen : Reader Unit
  | ⟨.leftParen, _⟩ :: ts => .ok ((), ts)
  | ts => wanted (.token .leftParen) ts

def rightParen : Reader Unit
  | ⟨.rightParen, _⟩ :: ts => .ok ((), ts)
  | ts => wanted (.token .rightParen) ts

def constant : Reader Value
  | [] => wanted .literal []
  | t :: ts =>
    match t.token.literal? with
    | some value => .ok (value, ts)
    | none => wanted .literal (t :: ts)

/-- The literals after the first one of a list, each after a comma. -/
def furtherConstants : Reader (List Value)
  | ⟨.comma, _⟩ :: [] => wanted .literal []
  | ⟨.comma, _⟩ :: t :: ts =>
    match t.token.literal? with
    | some value => (furtherConstants ts).map fun (values, ts) => (value :: values, ts)
    | none => wanted .literal (t :: ts)
  | ts => .ok ([], ts)

/-- A list of literals in parentheses; it is not empty. -/
def constants : Reader (List Value) := fun ts => do
  let (_, ts) ← leftParen ts
  let (first, ts) ← constant ts
  let (others, ts) ← furtherConstants ts
  let (_, ts) ← rightParen ts
  .ok (first :: others, ts)

def wildcardText : Reader String
  | ⟨.string s, _⟩ :: ts => .ok (s, ts)
  | ts => wanted .string ts

/-- What follows `IS`: whether the test is negated. -/
def nullTest : Reader Bool
  | ⟨.keyword .not, _⟩ :: ts => (keyword .null ts).map fun (_, ts) => (true, ts)
  | ts => (keyword .null ts).map fun (_, ts) => (false, ts)

/-- Whether the next word is one that a `NOT` before it belongs to. -/
def startsNegatable : List Placed → Bool
  | ⟨.keyword .among, _⟩ :: _ | ⟨.keyword .like, _⟩ :: _ => true
  | _ => false

/-- Whether the operator part of a comparison comes next. -/
def startsSuffix : List Placed → Bool
  | ⟨.sign _, _⟩ :: _ => true
  | ⟨.keyword .is, _⟩ :: _ | ⟨.keyword .between, _⟩ :: _ => true
  | ⟨.keyword .not, _⟩ :: ts => startsNegatable ts
  | ts => startsNegatable ts

/-- Whether a negation comes next. -/
def startsNegation : List Placed → Bool
  | ⟨.keyword .not, _⟩ :: ts => !startsNegatable ts
  | _ => false

def startsGroup : List Placed → Bool
  | ⟨.leftParen, _⟩ :: _ => true
  | _ => false

/-! ## Rules that nest -/

mutual

def disjunction (room : Nat) (ts : List Placed) : Except Stuck (Expr × List Placed) := do
  let (first, ts) ← conjunction room ts
  disjunctionRest room first ts
termination_by (room, 6)

/-- What follows the operands of a disjunction so far. -/
def disjunctionRest (room : Nat) (left : Expr) (ts : List Placed) :
    Except Stuck (Expr × List Placed) :=
  match ts with
  | ⟨.keyword .or, p⟩ :: rest =>
    match room with
    | 0 => .error ⟨.noRoom, ⟨.keyword .or, p⟩ :: rest⟩
    | room + 1 => do
      let (right, rest) ← conjunction room rest
      disjunctionRest room (either left right) rest
  | ts => .ok (left, ts)
termination_by (room, 0)

def conjunction (room : Nat) (ts : List Placed) : Except Stuck (Expr × List Placed) := do
  let (first, ts) ← negated room ts
  conjunctionRest room first ts
termination_by (room, 5)

/-- What follows the operands of a conjunction so far. -/
def conjunctionRest (room : Nat) (left : Expr) (ts : List Placed) :
    Except Stuck (Expr × List Placed) :=
  match ts with
  | ⟨.keyword .and, p⟩ :: rest =>
    match room with
    | 0 => .error ⟨.noRoom, ⟨.keyword .and, p⟩ :: rest⟩
    | room + 1 => do
      let (right, rest) ← negated room rest
      conjunctionRest room (both left right) rest
  | ts => .ok (left, ts)
termination_by (room, 0)

/-- A negation, or what is no negation. -/
def negated (room : Nat) (ts : List Placed) : Except Stuck (Expr × List Placed) :=
  if startsNegation ts then
    match room with
    | 0 => .error ⟨.noRoom, ts⟩
    | room + 1 => do
      let (operand, ts) ← negated room ts.tail
      .ok (negation operand, ts)
  else compared room ts
termination_by (room, 4)

/-- A comparison. Only what stands in parentheses can do without an operator part. -/
def compared (room : Nat) (ts : List Placed) : Except Stuck (Expr × List Placed) :=
  if startsGroup ts then do
    let (inner, ts) ← group room ts
    if startsSuffix ts then suffix room inner ts else .ok (inner, ts)
  else do
    let (left, ts) ← primary room ts
    suffix room left ts
termination_by (room, 3)

/-- The operator part of a comparison after its left side. -/
def suffix (room : Nat) (left : Expr) (ts : List Placed) : Except Stuck (Expr × List Placed) :=
  match ts with
  | ⟨.sign s, _⟩ :: ts => do
    let (right, ts) ← primary room ts
    .ok (comparison s left right, ts)
  | ⟨.keyword .is, _⟩ :: ts => do
    let (negated, ts) ← nullTest ts
    .ok (isNull left negated, ts)
  | ⟨.keyword .between, _⟩ :: ts => do
    let (low, ts) ← primary room ts
    let (_, ts) ← keyword .and ts
    let (high, ts) ← primary room ts
    .ok (between left low high, ts)
  | ⟨.keyword .not, _⟩ :: ⟨.keyword .among, _⟩ :: ts => do
    let (values, ts) ← constants ts
    .ok (member left values true, ts)
  | ⟨.keyword .not, _⟩ :: ⟨.keyword .like, _⟩ :: ts => do
    let (text, ts) ← wildcardText ts
    .ok (like left text true, ts)
  | ⟨.keyword .among, _⟩ :: ts => do
    let (values, ts) ← constants ts
    .ok (member left values false, ts)
  | ⟨.keyword .like, _⟩ :: ts => do
    let (text, ts) ← wildcardText ts
    .ok (like left text false, ts)
  | ts => wanted .sign ts
termination_by (room, 2)

/-- A field, a literal, or an expression in parentheses. -/
def primary (room : Nat) (ts : List Placed) : Except Stuck (Expr × List Placed) :=
  match ts with
  | [] => wanted .expression []
  | t :: rest =>
    match t.token with
    | .identifier path => .ok (field path, rest)
    | .leftParen => group room (t :: rest)
    | token =>
      match token.literal? with
      | some value => .ok (literal value, rest)
      | none => wanted .expression (t :: rest)
termination_by (room, 1)

/-- An expression in parentheses. -/
def group (room : Nat) (ts : List Placed) : Except Stuck (Expr × List Placed) :=
  match ts with
  | ⟨.leftParen, p⟩ :: rest =>
    match room with
    | 0 => .error ⟨.noRoom, ⟨.leftParen, p⟩ :: rest⟩
    | room + 1 => do
      let (inner, rest) ← disjunction room rest
      let (_, rest) ← rightParen rest
      .ok (inner, rest)
  | ts => wanted (.token .leftParen) ts
termination_by (room, 0)

end

/-! ## Whole streams -/

/-- The error of a reader that had all the tokens of a text. -/
def Stuck.error (stuck : Stuck) (limit stop : Nat) : ParseError :=
  match stuck.obstacle, stuck.rest with
  | .wanted expected, [] => .ended expected stop
  | .wanted expected, t :: _ => .unexpected expected t.token t.position
  | .noRoom, [] => .tooDeep limit stop
  | .noRoom, t :: _ => .tooDeep limit t.position

/-- The expression that the tokens of a text make, nested at most `limit` deep. -/
def ofTokens (limit : Nat) (stream : TokenStream) : Except ParseError Expr :=
  match disjunction limit stream.tokens with
  | .error stuck => .error (stuck.error limit stream.stop)
  | .ok (e, []) => .ok e
  | .ok (_, t :: _) => .error (.trailing t.token t.position)

end Expr

end WhereRules
