import WhereRules.Value.Basic

/-!
# Equality and order of values

Three relations, each for its own question:

- `Value.identical`: are two values the same constant? Kinds count, so `1` and `1.0` differ; the
  numbers inside compare as numbers, so `nan` differs from itself and the two zeros agree.
- `Value.agrees`: does a field hold what a rule asks for? As before, but a whole number and a double
  compare numerically, at every level of lists and maps.
- `Value.compare?`: which of two is larger? Numbers, texts and truth values have an order of their
  own, and nothing else is comparable.

Maps stand in key order, so two maps agree when their entries do, one by one.
-/

namespace WhereRules.Value

/-! ## Being the same constant -/

mutual

def identical : Value → Value → Bool
  | null, null => true
  | bool a, bool b => a == b
  | int a, int b => a == b
  | number a, number b => a.numEq b
  | text a, text b => a == b
  | list as, list bs => identicalItems as bs
  | map as, map bs => identicalEntries as bs
  | _, _ => false

def identicalItems : List Value → List Value → Bool
  | [], [] => true
  | a :: as, b :: bs => identical a b && identicalItems as bs
  | _, _ => false

def identicalEntries : List (String × Value) → List (String × Value) → Bool
  | [], [] => true
  | (j, a) :: as, (k, b) :: bs => j == k && identical a b && identicalEntries as bs
  | _, _ => false

end

/-! ## Holding what is asked for -/

/-- Whether two values are equal as doubles; false unless both are numbers. -/
def numbersAgree (a b : Value) : Bool :=
  match a.asDouble?, b.asDouble? with
  | some x, some y => x.numEq y
  | _, _ => false

mutual

def agrees : Value → Value → Bool
  | null, null => true
  | bool a, bool b => a == b
  | int a, int b => a == b
  | int a, number b => numbersAgree (int a) (number b)
  | number a, int b => numbersAgree (number a) (int b)
  | number a, number b => numbersAgree (number a) (number b)
  | text a, text b => a == b
  | list as, list bs => agreeItems as bs
  | map as, map bs => agreeEntries as bs
  | _, _ => false

def agreeItems : List Value → List Value → Bool
  | [], [] => true
  | a :: as, b :: bs => agrees a b && agreeItems as bs
  | _, _ => false

def agreeEntries : List (String × Value) → List (String × Value) → Bool
  | [], [] => true
  | (j, a) :: as, (k, b) :: bs => j == k && agrees a b && agreeEntries as bs
  | _, _ => false

end

/-! ## Order -/

/-- The order of two values, if they have one. Two whole numbers compare exactly; a whole number and
a double compare as doubles. -/
def compare? : Value → Value → Option Ordering
  | int a, int b => some (compare a.toInt b.toInt)
  | text a, text b => some (compare a b)
  | bool a, bool b => some (compare a b)
  | a, b =>
    match a.asDouble?, b.asDouble? with
    | some x, some y => x.compare? y
    | _, _ => none

end WhereRules.Value
