import WhereRules.Predicate.Basic
import WhereRules.Context.Reading

/-!
# Evaluating predicates

What a predicate decides about a context, and what it reads on the way. A condition reads its
operands from left to right and all of them, even where the first already settles the outcome.
Conjunctions and disjunctions read no further than needed: the first operand that fails, or holds,
settles them.
-/

namespace WhereRules

/-- Whether two values stand in a relation. Incomparable values are neither larger nor smaller. -/
def Relation.holds (relation : Relation) (left right : Value) : Bool :=
  match relation with
  | equal => left.agrees right
  | notEqual => !left.agrees right
  | greater => left.compare? right == some .gt
  | greaterOrEqual => left.compare? right == some .gt || left.compare? right == some .eq
  | less => left.compare? right == some .lt
  | lessOrEqual => left.compare? right == some .lt || left.compare? right == some .eq

mutual

/-- The value of an operand. A pattern in the place of a value is its text. -/
def Operand.read : Operand → Reading Value
  | .constant value => return value
  | .field field => Reading.field field
  | .pattern pattern => return .text pattern.source
  | .decision predicate => return .bool (← predicate.evaluate)

/-- The decision of a predicate. -/
def Predicate.evaluate : Predicate → Reading Bool
  | .comparison relation left right => do
    let left ← left.read
    let right ← right.read
    return relation.holds left right
  | .member negated subject values => do
    let subject ← subject.read
    return (values.any fun value => subject.agrees value) != negated
  | .between subject low high => do
    let subject ← subject.read
    let low ← low.read
    let high ← high.read
    return Relation.greaterOrEqual.holds subject low && Relation.lessOrEqual.holds subject high
  | .matching negated subject pattern => do
    let subject ← subject.read
    return (subject.matchText?.any pattern.isFoundIn) != negated
  | .all first rest => do
    if ← first.evaluate then Predicate.evaluateAll rest else return false
  | .any first rest => do
    if ← first.evaluate then return true else Predicate.evaluateAny rest
  | .not operand => return !(← operand.evaluate)

/-- Whether all hold, up to the first that does not. -/
def Predicate.evaluateAll : List Predicate → Reading Bool
  | [] => return true
  | predicate :: rest => do
    if ← predicate.evaluate then Predicate.evaluateAll rest else return false

/-- Whether any holds, up to the first that does. -/
def Predicate.evaluateAny : List Predicate → Reading Bool
  | [] => return false
  | predicate :: rest => do
    if ← predicate.evaluate then return true else Predicate.evaluateAny rest

end

end WhereRules
