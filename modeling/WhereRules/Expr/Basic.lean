import WhereRules.Token.Basic
import WhereRules.Value.Order

/-!
# Expressions

An expression is rule text as a tree, before anything is known about its fields. It is looser than a
predicate: literals and fields are expressions too, a path is any text, and a connective may have
any number of operands. What of this makes a rule is decided when the expression is compiled.

An expression can be walked (`Expr.visits`); the fields it names are what the walk meets.
-/

namespace WhereRules

inductive Connective
  | and
  | or
  | not
deriving DecidableEq

inductive Expr
  | literal (value : Value)
  | field (path : String)
  | comparison (sign : Sign) (left right : Expr)
  | logical (connective : Connective) (operands : List Expr)
  | member (subject : Expr) (values : List Value) (negated : Bool)
  | between (subject low high : Expr)
  | like (subject : Expr) (pattern : String) (negated : Bool)
  | isNull (subject : Expr) (negated : Bool)

namespace Expr

/-- Whether an expression is a condition rather than a literal or a field. -/
def isCondition : Expr → Bool
  | literal _ | field _ => false
  | _ => true

/-! ## Making expressions -/

def both (left right : Expr) : Expr := logical .and [left, right]

def either (left right : Expr) : Expr := logical .or [left, right]

def negation (operand : Expr) : Expr := logical .not [operand]

/-! ## Walking -/

/-- What a walk meets: nodes, and the fields and values at the leaves. -/
inductive Visit
  | node (isCondition : Bool)
  | field (path : String)
  | value (value : Value)

mutual

/-- Everything in an expression, each node before its parts and the parts from left to right. -/
def visits : Expr → List Visit
  | literal value => [.node false, .value value]
  | field path => [.node false, .field path]
  | comparison _ left right => .node true :: (visits left ++ visits right)
  | logical _ operands => .node true :: visitsAll operands
  | member subject values _ => .node true :: (visits subject ++ values.map .value)
  | between subject low high => .node true :: (visits subject ++ (visits low ++ visits high))
  | like subject _ _ => .node true :: visits subject
  | isNull subject _ => .node true :: visits subject

def visitsAll : List Expr → List Visit
  | [] => []
  | operand :: rest => visits operand ++ visitsAll rest

end

/-! ## Fields -/

/-- Each text once, at its first place. -/
def distinct : List String → List String
  | [] => []
  | s :: rest => s :: (distinct rest).filter (· ≠ s)

def Visit.path? : Visit → Option String
  | field path => some path
  | _ => none

/-- The paths that an expression names, in the order of their first places. -/
def fields (e : Expr) : List String := distinct (e.visits.filterMap Visit.path?)

/-! ## Size -/

mutual

/-- The number of nodes. -/
def size : Expr → Nat
  | literal _ | field _ => 1
  | comparison _ left right => size left + size right + 1
  | logical _ operands => sizeAll operands + 1
  | member subject _ _ => size subject + 1
  | between subject low high => size subject + size low + size high + 1
  | like subject _ _ => size subject + 1
  | isNull subject _ => size subject + 1

def sizeAll : List Expr → Nat
  | [] => 0
  | operand :: rest => size operand + sizeAll rest

end

theorem size_pos (e : Expr) : 0 < e.size := by cases e <;> simp [size]

theorem sizeAll_append (es fs : List Expr) : sizeAll (es ++ fs) = sizeAll es + sizeAll fs := by
  induction es with
  | nil => simp [sizeAll]
  | cons e es ih => simp [sizeAll, ih, Nat.add_assoc]

/-! ## Sameness -/

mutual

/-- Whether two expressions are the same tree. A tree that holds `nan` differs from itself. -/
def identical : Expr → Expr → Bool
  | literal a, literal b => a.identical b
  | field a, field b => a == b
  | comparison s a b, comparison t c d => s == t && identical a c && identical b d
  | logical c as, logical d bs => c == d && identicalAll as bs
  | member a as m, member b bs n => identical a b && Value.identicalItems as bs && m == n
  | between a b c, between d e f => identical a d && identical b e && identical c f
  | like a p m, like b q n => identical a b && p == q && m == n
  | isNull a m, isNull b n => identical a b && m == n
  | _, _ => false

def identicalAll : List Expr → List Expr → Bool
  | [], [] => true
  | a :: as, b :: bs => identical a b && identicalAll as bs
  | _, _ => false

end

end Expr

end WhereRules
