import WhereRules.Expr.Parser

/-!
# Parsing at a cursor

A parser that serves many texts goes through the tokens of one with a cursor: how many tokens are
behind, and how many levels are open. An error leaves the cursor where the parser stood, with its
levels open.

Each rule of the grammar is work on the cursor: it looks at the cursor, moves it (`Cursor.Move`) and
may give up. A level is opened before what it encloses is read and closed behind it; a chain keeps
one level open for each of its folds until it ends. What the recursion runs on is the room, how many
levels can still be opened: a rule that opens a level has less of it for what it encloses. A cursor
at its limit refuses (`enter`), so no rule goes on without room.

The rules leave open how the work is carried out (`MonadCursor`). A parser does it on the cursor
that it keeps (`Parsing`).
-/

namespace WhereRules

structure Cursor where
  /-- The tokens of the text in hand. -/
  tokens : Array Placed := #[]
  /-- Where that text stops. -/
  stop : Nat := 0
  /-- How many tokens are behind. -/
  position : Nat := 0
  /-- How many levels are open. -/
  depth : Nat := 0
  /-- How many levels may be open. -/
  maxDepth : Nat

namespace Cursor

/-- The token ahead, if the text does not stop here. -/
def current? (cursor : Cursor) : Option Token :=
  cursor.tokens[cursor.position]?.map Placed.token

/-- The token behind the one ahead. -/
def next? (cursor : Cursor) : Option Token :=
  cursor.tokens[cursor.position + 1]?.map Placed.token

/-- Where the token ahead stands in the text. -/
def place (cursor : Cursor) : Nat :=
  (cursor.tokens[cursor.position]?.map Placed.position).getD cursor.stop

/-- Whether the token ahead is the given one. -/
def isAt (cursor : Cursor) (token : Token) : Bool := cursor.current? == some token

/-- Whether a `NOT` ahead belongs to the word behind it. -/
def isBeforeNegatable (cursor : Cursor) : Bool :=
  cursor.next? == some (.keyword .among) || cursor.next? == some (.keyword .like)

/-- Whether the operator part of a comparison is ahead. -/
def isAtSuffix (cursor : Cursor) : Bool :=
  match cursor.current? with
  | some (.sign _) => true
  | some (.keyword .is) | some (.keyword .between) => true
  | some (.keyword .among) | some (.keyword .like) => true
  | some (.keyword .not) => cursor.isBeforeNegatable
  | _ => false

/-- A cursor before the first token of a text. -/
def load (cursor : Cursor) (stream : TokenStream) : Cursor :=
  { cursor with tokens := stream.tokens.toArray, stop := stream.stop, position := 0, depth := 0 }

/-- What is done to a cursor in one step. -/
inductive Move
  /-- Goes on to the next token. The end of a text is not passed. -/
  | advance
  /-- Opens a level. -/
  | deepen
  /-- Closes the `n` innermost levels. -/
  | leave (n : Nat)
deriving DecidableEq

/-- The cursor after a move. -/
def after (cursor : Cursor) : Move → Cursor
  | .advance =>
    if cursor.current?.isSome then { cursor with position := cursor.position + 1 } else cursor
  | .deepen => { cursor with depth := cursor.depth + 1 }
  | .leave n => { cursor with depth := cursor.depth - n }

end Cursor

/-- Work on a cursor that can be given up. -/
class MonadCursor (m : Type → Type) where
  /-- The cursor as it stands. -/
  look : m Cursor
  move (move : Cursor.Move) : m Unit
  giveUp {α : Type} (error : ParseError) : m α

/-- Work of a parser on its cursor. -/
abbrev Parsing := ExceptT ParseError (StateM Cursor)

instance : MonadCursor Parsing where
  look := get
  move move := modify (·.after move)
  giveUp := throw

namespace MonadCursor

variable {m : Type → Type} [Monad m] [MonadCursor m] {α : Type}

/-! ## Steps -/

def advance : m Unit := move .advance

def leave (n : Nat) : m Unit := move (.leave n)

def tooDeep (place : Nat) : m α := do giveUp (.tooDeep (← look).maxDepth place)

/-- Opens a level, for the token at a place. -/
def enter (place : Nat) : m Unit := do
  move .deepen
  let cursor ← look
  if cursor.maxDepth < cursor.depth then tooDeep place

def unexpected (expected : Expected) : m α := do
  let cursor ← look
  match cursor.current? with
  | none => giveUp (.ended expected cursor.place)
  | some got => giveUp (.unexpected expected got cursor.place)

/-- Takes the given token. -/
def expect (expected : Expected) (token : Token) : m Unit := do
  if (← look).isAt token then advance else unexpected expected

def expectToken (token : Token) : m Unit := expect (.token token) token

def expectKeyword (k : Keyword) : m Unit := expect (.keyword k) (.keyword k)

def expectString : m String := do
  match (← look).current? with
  | some (.string s) =>
    advance
    return s
  | _ => unexpected .string

/-! ## Rules without nesting -/

def constant : m Value := do
  match (← look).current?.bind Token.literal? with
  | some value =>
    advance
    return value
  | none => unexpected .literal

/-- What follows `IS`: whether the test is negated. -/
def nullTest : m Bool := do
  if (← look).isAt (.keyword .not) then
    advance
    expectKeyword .null
    return true
  else
    expectKeyword .null
    return false

/-- The literals after the first one of a list, at most `n` of them. -/
def furtherConstants : Nat → m (List Value)
  | 0 => return []
  | n + 1 => do
    if (← look).isAt .comma then
      advance
      let value ← constant
      return value :: (← furtherConstants n)
    else return []

/-- A list of literals in parentheses; it is not empty. -/
def constants : m (List Value) := do
  expectToken .leftParen
  let first ← constant
  let others ← furtherConstants (← look).tokens.size
  expectToken .rightParen
  return first :: others

/-- The part of a comparison that begins with `IN` or `LIKE`. -/
def amongOrLike (left : Expr) (negated : Bool) : m Expr := do
  if (← look).isAt (.keyword .like) then
    advance
    return .like left (← expectString) negated
  else
    expectKeyword .among
    return .member left (← constants) negated

/-! ## Rules that nest -/

mutual

def disjunction (room : Nat) : m Expr := do
  let first ← conjunction room
  disjunctionRest room 0 first
termination_by (room, 6)

/-- What follows the operands of a disjunction so far, of which `folds` are folded. -/
def disjunctionRest (room folds : Nat) (left : Expr) : m Expr := do
  let cursor ← look
  if cursor.isAt (.keyword .or) then
    advance
    enter cursor.place
    match room with
    | 0 => tooDeep cursor.place
    | room + 1 =>
      let right ← conjunction room
      disjunctionRest room (folds + 1) (Expr.either left right)
  else
    leave folds
    return left
termination_by (room, 0)

def conjunction (room : Nat) : m Expr := do
  let first ← negated room
  conjunctionRest room 0 first
termination_by (room, 5)

/-- What follows the operands of a conjunction so far, of which `folds` are folded. -/
def conjunctionRest (room folds : Nat) (left : Expr) : m Expr := do
  let cursor ← look
  if cursor.isAt (.keyword .and) then
    advance
    enter cursor.place
    match room with
    | 0 => tooDeep cursor.place
    | room + 1 =>
      let right ← negated room
      conjunctionRest room (folds + 1) (Expr.both left right)
  else
    leave folds
    return left
termination_by (room, 0)

/-- A negation, or what is no negation. -/
def negated (room : Nat) : m Expr := do
  let cursor ← look
  if cursor.isAt (.keyword .not) && !cursor.isBeforeNegatable then
    advance
    enter cursor.place
    match room with
    | 0 => tooDeep cursor.place
    | room + 1 =>
      let operand ← negated room
      leave 1
      return Expr.negation operand
  else compared room
termination_by (room, 4)

/-- A comparison. Only what stands in parentheses can do without an operator part. -/
def compared (room : Nat) : m Expr := do
  if (← look).isAt .leftParen then
    let inner ← group room
    if (← look).isAtSuffix then suffix room inner else return inner
  else
    let left ← primary room
    suffix room left
termination_by (room, 3)

/-- The operator part of a comparison after its left side. -/
def suffix (room : Nat) (left : Expr) : m Expr := do
  let cursor ← look
  match cursor.current? with
  | some (.sign s) =>
    advance
    return .comparison s left (← primary room)
  | some (.keyword .is) =>
    advance
    return .isNull left (← nullTest)
  | some (.keyword .between) =>
    advance
    let low ← primary room
    expectKeyword .and
    let high ← primary room
    return .between left low high
  | some (.keyword .not) =>
    if cursor.isBeforeNegatable then
      advance
      amongOrLike left true
    else unexpected .sign
  | some (.keyword .among) | some (.keyword .like) => amongOrLike left false
  | _ => unexpected .sign
termination_by (room, 2)

/-- A field, a literal, or an expression in parentheses. -/
def primary (room : Nat) : m Expr := do
  match (← look).current? with
  | some (.identifier path) =>
    advance
    return .field path
  | some .leftParen => group room
  | some token => if token.isLiteral then return .literal (← constant) else unexpected .expression
  | none => unexpected .expression
termination_by (room, 1)

/-- An expression in parentheses. -/
def group (room : Nat) : m Expr := do
  let place := (← look).place
  expectToken .leftParen
  enter place
  match room with
  | 0 => tooDeep place
  | room + 1 =>
    let inner ← disjunction room
    expectToken .rightParen
    leave 1
    return inner
termination_by (room, 0)

end

/-- Nothing may stand behind a whole expression. -/
def finish : m Unit := do
  let cursor ← look
  match cursor.current? with
  | none => return ()
  | some got => giveUp (.trailing got cursor.place)

/-- The expression that all the tokens make. -/
def whole : m Expr := do
  let e ← disjunction (← look).maxDepth
  finish
  return e

end MonadCursor

namespace Parsing

/-- A literal, read by a parser. -/
abbrev constant : Parsing Value := MonadCursor.constant

/-- The expression that all the tokens make, read by a parser. -/
abbrev whole : Parsing Expr := MonadCursor.whole

end Parsing

end WhereRules
