import WhereRules.Value.Order
import WhereRules.Pattern.Basic
import WhereRules.Field

/-!
# Predicates

A predicate is a compiled rule: a tree of conditions over fields and constants. Each kind of
condition has the operands it needs and no others, so a predicate can always be evaluated; what may
be absent is said in the types. A conjunction or disjunction has a first operand, for one without
operands would have no meaning.

Seen from outside a predicate is an operator over a list of operands (`Predicate.operator`,
`Predicate.operands`). Predicates are also made from that view, and there the kinds that take fixed
operands refuse others (`OperandError`).
-/

namespace WhereRules

/-! ## Operators -/

/-- The six comparisons. -/
inductive Relation
  | equal
  | notEqual
  | greater
  | greaterOrEqual
  | less
  | lessOrEqual
deriving DecidableEq

/-- The operators of predicates as they are named to the outside. -/
inductive Operator
  | relation (relation : Relation)
  | member (negated : Bool)
  | between
  | matching (negated : Bool)
  | all
  | any
  | not
deriving DecidableEq

namespace Operator

def name : Operator → String
  | relation .equal => "EqualTo"
  | relation .notEqual => "NotEqualTo"
  | relation .greater => "GreaterThan"
  | relation .greaterOrEqual => "GreaterThanOrEqualTo"
  | relation .less => "LessThan"
  | relation .lessOrEqual => "LessThanOrEqualTo"
  | member false => "In"
  | member true => "NotIn"
  | between => "Between"
  | matching false => "Matches"
  | matching true => "DoesNotMatch"
  | all => "LogicalAnd"
  | any => "LogicalOr"
  | not => "LogicalNot"

def every : List Operator :=
  [relation .equal, relation .notEqual, relation .greater, relation .greaterOrEqual, relation .less,
    relation .lessOrEqual, member false, member true, between, matching false, matching true, all,
    any, not]

/-- The operator of a name. -/
def ofName? (name : String) : Option Operator := every.find? fun operator => operator.name == name

/-- Whether the operator is one of the six comparisons. -/
def isComparison : Operator → Bool
  | relation _ => true
  | _ => false

/-- Whether the operator combines predicates. -/
def isLogical : Operator → Bool
  | all | any | not => true
  | _ => false

end Operator

/-! ## Trees -/

mutual

/-- What a condition looks at. -/
inductive Operand
  | constant (value : Value)
  | field (field : Field)
  | pattern (pattern : Pattern)
  /-- The decision of a predicate, as a truth value. -/
  | decision (predicate : Predicate)

inductive Predicate
  | comparison (relation : Relation) (left right : Operand)
  | member (negated : Bool) (subject : Operand) (values : List Value)
  | between (subject low high : Operand)
  | matching (negated : Bool) (subject : Operand) (pattern : Pattern)
  | all (first : Predicate) (rest : List Predicate)
  | any (first : Predicate) (rest : List Predicate)
  | not (operand : Predicate)

end

/-! ## Making predicates -/

/-- Why operands do not fit an operator. -/
inductive OperandError
  | notComparison (operator : Operator)
  | noOperands (operator : Operator)
  /-- A negation over `count` operands instead of one. -/
  | notOne (count : Nat)
deriving DecidableEq

def OperandError.operator : OperandError → Operator
  | notComparison operator => operator
  | noOperands operator => operator
  | notOne _ => .not

def OperandError.reason : OperandError → String
  | notComparison _ => "not a comparison operator"
  | noOperands _ => "at least one operand is required"
  | notOne count => "expected 1 operand, got " ++ count.repr

def OperandError.message (error : OperandError) : String :=
  "Invalid operands for " ++ error.operator.name ++ ": " ++ error.reason

/-- Why a predicate cannot be put together from its parts. -/
inductive PartError
  | field (error : FieldError)
  /-- A text that spells no regular expression. -/
  | pattern (source : String)
  | operands (error : OperandError)
deriving DecidableEq

def PartError.message : PartError → String
  | field error => error.message
  | pattern source => "Invalid pattern \x27" ++ source ++ "\x27"
  | operands error => error.message

namespace Predicate

/-- A comparison by an operator, which must be one. -/
def ofComparison (operator : Operator) (left right : Operand) : Except OperandError Predicate :=
  match operator with
  | .relation relation => .ok (comparison relation left right)
  | operator => .error (.notComparison operator)

/-- The conjunction of at least one predicate. -/
def allOf : List Predicate → Except OperandError Predicate
  | [] => .error (.noOperands .all)
  | first :: rest => .ok (all first rest)

/-- The disjunction of at least one predicate. -/
def anyOf : List Predicate → Except OperandError Predicate
  | [] => .error (.noOperands .any)
  | first :: rest => .ok (any first rest)

/-! ## The view from outside -/

def operator : Predicate → Operator
  | comparison relation _ _ => .relation relation
  | member negated _ _ => .member negated
  | between _ _ _ => .between
  | matching negated _ _ => .matching negated
  | all _ _ => .all
  | any _ _ => .any
  | not _ => .not

/-- The operands from left to right; a list of values is one constant. -/
def operands : Predicate → List Operand
  | comparison _ left right => [left, right]
  | member _ subject values => [subject, .constant (.list values)]
  | between subject low high => [subject, low, high]
  | matching _ subject pattern => [subject, .pattern pattern]
  | all first rest => .decision first :: rest.map .decision
  | any first rest => .decision first :: rest.map .decision
  | not operand => [.decision operand]

end Predicate

/-! ## Sameness -/

mutual

/-- Whether two operands are the same: the same constant, field or pattern, or the same tree. -/
def Operand.identical : Operand → Operand → Bool
  | .constant a, .constant b => a.identical b
  | .field a, .field b => a == b
  | .pattern a, .pattern b => a == b
  | .decision a, .decision b => a.identical b
  | _, _ => false

/-- Whether two predicates are the same tree. A tree that holds `nan` differs from itself. -/
def Predicate.identical : Predicate → Predicate → Bool
  | .comparison r a b, .comparison s c d => r == s && a.identical c && b.identical d
  | .member m a as, .member n b bs => m == n && a.identical b && Value.identicalItems as bs
  | .between a b c, .between d e f => a.identical d && b.identical e && c.identical f
  | .matching m a p, .matching n b q => m == n && a.identical b && p == q
  | .all a as, .all b bs => a.identical b && Predicate.identicalAll as bs
  | .any a as, .any b bs => a.identical b && Predicate.identicalAll as bs
  | .not a, .not b => a.identical b
  | _, _ => false

def Predicate.identicalAll : List Predicate → List Predicate → Bool
  | [], [] => true
  | a :: as, b :: bs => a.identical b && Predicate.identicalAll as bs
  | _, _ => false

end

end WhereRules
