import WhereRules.Predicate.Compile
import WhereRules.Predicate.Evaluation
import WhereRules.Proofs.Wildcard.Matching

/-!
# The meaning of expressions

What an expression decides about a context, read off the expression as it stands: no chain is
opened, no sign is renamed, a null test asks for null, and a wildcard text is matched as such. An
expression is a condition (`Expr.holds`) or has a value (`Expr.value`); the value of a condition is
its decision. Operands are read from left to right. `AND` and `OR` stop at the first operand that
settles them, and what settles a nested chain is settled inside it first.

Nothing is said here of expressions that no rule can hold: a literal or a field in the place of a
condition, and a negation of none or several operands, decide against everything.
-/

namespace WhereRules

/-- Whether two values stand as a sign says. -/
def Sign.holds : Sign → Value → Value → Bool
  | equal, left, right => left.agrees right
  | notEqual, left, right | unequal, left, right => !left.agrees right
  | less, left, right => left.compare? right == some .lt
  | lessOrEqual, left, right => left.compare? right == some .lt || left.compare? right == some .eq
  | greater, left, right => left.compare? right == some .gt
  | greaterOrEqual, left, right =>
    left.compare? right == some .gt || left.compare? right == some .eq

namespace Expr

variable (resolve : Resolver)

/-- The value of an operand that decides as `decision` does if it is a condition. A field is looked
up as the field that it resolves to. -/
def valueOr (decision : Reading Bool) : Expr → Reading Value
  | literal v => return v
  | field path =>
    match resolve path with
    | .ok named => Reading.field named
    | .error _ => return .null
  | _ => return .bool (← decision)

mutual

/-- What a condition decides. -/
def holds : Expr → Reading Bool
  | literal _ | field _ => return false
  | comparison sign left right => do
    let a ← valueOr resolve (holds left) left
    let b ← valueOr resolve (holds right) right
    return sign.holds a b
  | logical .and operands => holdsAll operands
  | logical .or operands => holdsAny operands
  | logical .not [operand] => return !(← holds operand)
  | logical .not _ => return false
  | member subject values negated => do
    let a ← valueOr resolve (holds subject) subject
    return (values.any fun v => a.agrees v) != negated
  | between subject low high => do
    let a ← valueOr resolve (holds subject) subject
    let b ← valueOr resolve (holds low) low
    let c ← valueOr resolve (holds high) high
    return Sign.greaterOrEqual.holds a b && Sign.lessOrEqual.holds a c
  | like subject text negated => do
    let a ← valueOr resolve (holds subject) subject
    return (a.matchText?.any (Like.admits text)) != negated
  | isNull subject negated => do
    let a ← valueOr resolve (holds subject) subject
    return a.isNull != negated

/-- Whether all hold, asked one by one up to the first that does not. -/
def holdsAll : List Expr → Reading Bool
  | [] => return true
  | e :: rest => do
    if ← holds e then holdsAll rest else return false

/-- Whether any holds, asked one by one up to the first that does. -/
def holdsAny : List Expr → Reading Bool
  | [] => return false
  | e :: rest => do
    if ← holds e then return true else holdsAny rest

end

/-- The value of an expression in the place of an operand. -/
def value (e : Expr) : Reading Value := valueOr resolve (holds resolve e) e

/-- A condition in the place of a value is its decision, so a rule can compare what it decides. -/
theorem value_of_isCondition {e : Expr} (h : e.isCondition = true) :
    value resolve e = do return .bool (← holds resolve e) := by
  cases e with
  | literal _ | field _ => cases h
  | _ => rfl

end Expr

end WhereRules
