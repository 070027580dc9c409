import WhereRules.Predicate.Basic
import WhereRules.Pattern.Like
import WhereRules.Expr.Basic

/-!
# Compiling expressions

Compiling gives an expression its fields and checks that it is a condition. A chain of one
connective, however it is nested, becomes one conjunction or disjunction over all its operands
(`Expr.flatten`); a null test becomes a comparison with null; a wildcard text becomes a pattern.

Every condition takes one level of the allowed depth, and only hand-made expressions can have the
wrong number of operands. Parts are compiled from left to right and the first error is the answer.
-/

namespace WhereRules

/-! ## Errors -/

/-- What stands where a condition is needed. -/
inductive NotCondition
  | literal
  | field
deriving DecidableEq

def NotCondition.name : NotCondition → String
  | literal => "literal"
  | field => "field"

inductive CompileError
  | notCondition (found : NotCondition)
  /-- The resolver gives no field for a path. -/
  | unresolved (path : String) (error : FieldError)
  | part (error : PartError)
  | tooDeep (limit : Nat)
deriving DecidableEq

def CompileError.message : CompileError → String
  | notCondition found => "Expression does not produce a boolean: found " ++ found.name
  | unresolved path error => "Cannot resolve field \x27" ++ path ++ "\x27: " ++ error.message
  | part error => "Invalid predicate: " ++ error.message
  | tooDeep limit => "Expression nested deeper than " ++ limit.repr ++ " levels"

/-! ## Chains -/

/-- The operands of a connective with its own chains opened, in their order. The list is the work
still to do: a chain at its front gives way to its operands. -/
def Expr.flatten (connective : Connective) : List Expr → List Expr
  | [] => []
  | .logical c operands :: rest =>
    if c = connective then flatten connective (operands ++ rest)
    else .logical c operands :: flatten connective rest
  | e :: rest => e :: flatten connective rest
termination_by es => Expr.sizeAll es
decreasing_by
  all_goals simp only [Expr.sizeAll, Expr.sizeAll_append, Expr.size]
  all_goals try have := Expr.size_pos e
  all_goals omega

/-! ## Conditions -/

/-- The relation that a sign stands for. -/
def Sign.relation : Sign → Relation
  | equal => .equal
  | notEqual | unequal => .notEqual
  | less => .less
  | lessOrEqual => .lessOrEqual
  | greater => .greater
  | greaterOrEqual => .greaterOrEqual

/-- A null test is a comparison with null. -/
def Predicate.isNull (subject : Operand) (negated : Bool) : Predicate :=
  let test := comparison .equal subject (.constant .null)
  if negated then not test else test

namespace Expr

/-- What an expression is in the place of an operand; `condition` compiles conditions. -/
def operand (resolve : Resolver) (condition : Expr → Except CompileError Predicate) :
    Expr → Except CompileError Operand
  | literal value => .ok (.constant value)
  | field path => ((resolve path).mapError (.unresolved path)).map .field
  | e => (condition e).map .decision

/-- The condition of an expression in the room left of a limit. -/
def condition (resolve : Resolver) (limit : Nat) : (room : Nat) → Expr →
    Except CompileError Predicate
  | 0, _ => .error (.tooDeep limit)
  | room + 1, e =>
    let condition := condition resolve limit room
    let operand := operand resolve condition
    match e with
    | literal _ => .error (.notCondition .literal)
    | field _ => .error (.notCondition .field)
    | comparison sign left right => do
      let left ← operand left
      let right ← operand right
      .ok (.comparison sign.relation left right)
    | logical .not [e] => (condition e).map .not
    | logical .not operands => .error (.part (.operands (.notOne operands.length)))
    | logical .and operands => do
      let predicates ← (flatten .and operands).mapM condition
      (Predicate.allOf predicates).mapError fun error => .part (.operands error)
    | logical .or operands => do
      let predicates ← (flatten .or operands).mapM condition
      (Predicate.anyOf predicates).mapError fun error => .part (.operands error)
    | member subject values negated => do
      let subject ← operand subject
      .ok (.member negated subject values)
    | between subject low high => do
      let subject ← operand subject
      let low ← operand low
      let high ← operand high
      .ok (.between subject low high)
    | like subject text negated => do
      let subject ← operand subject
      match Pattern.ofText? (Like.toRegex text) with
      | some pattern => .ok (.matching negated subject pattern)
      | none => .error (.part (.pattern (Like.toRegex text)))
    | isNull subject negated => do
      let subject ← operand subject
      .ok (Predicate.isNull subject negated)

end Expr

/-- The predicate of an expression whose conditions nest at most `limit` deep. -/
def Predicate.ofExpr (resolve : Resolver) (limit : Nat) (e : Expr) :
    Except CompileError Predicate :=
  e.condition resolve limit limit

end WhereRules
