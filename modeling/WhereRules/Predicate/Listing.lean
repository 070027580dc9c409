import WhereRules.Predicate.Basic
import WhereRules.Value.Text

/-!
# Predicates as listings

A listing shows the whole tree on one line, every part by name. It is for looking at a rule, not for
reading one back.
-/

namespace WhereRules

/-- The one-line listing of a record: its name and its fields. -/
def recordListing (name : String) (fields : List (String × String)) : String :=
  name ++ " \x7b " ++ ", ".intercalate (fields.map fun (field, text) => field ++ ": " ++ text) ++
    " \x7d"

def listListing (items : List String) : String := "[" ++ ", ".intercalate items ++ "]"

def Field.listing (field : Field) : String :=
  recordListing "Variable"
    [("path", quotedText field.path), ("segments", listListing (field.segments.map quotedText))]

def Pattern.listing (pattern : Pattern) : String :=
  recordListing "Pattern"
    [("source", quotedText pattern.source), ("regex", "Regex(" ++ quotedText pattern.source ++ ")")]

def predicateListing (operator : Operator) (operands : List String) : String :=
  recordListing "Predicate"
    [("operator", operator.name), ("operands", listListing operands)]

/-- The listing of a predicate in the place of an operand. -/
def inOperandPlace (listing : String) : String := "Predicate(" ++ listing ++ ")"

mutual

def Operand.listing : Operand → String
  | .constant value => "Constant(" ++ value.listing ++ ")"
  | .field field => "Variable(" ++ field.listing ++ ")"
  | .pattern pattern => "Pattern(" ++ pattern.listing ++ ")"
  | .decision predicate => inOperandPlace predicate.listing

def Predicate.listing : Predicate → String
  | .comparison relation left right =>
    predicateListing (.relation relation) [left.listing, right.listing]
  | .member negated subject values =>
    predicateListing (.member negated)
      [subject.listing, "Constant(" ++ (Value.list values).listing ++ ")"]
  | .between subject low high =>
    predicateListing .between [subject.listing, low.listing, high.listing]
  | .matching negated subject pattern =>
    predicateListing (.matching negated) [subject.listing, "Pattern(" ++ pattern.listing ++ ")"]
  | .all first rest => predicateListing .all (inOperandPlace first.listing :: listings rest)
  | .any first rest => predicateListing .any (inOperandPlace first.listing :: listings rest)
  | .not operand => predicateListing .not [inOperandPlace operand.listing]

/-- Predicates in the places of operands. -/
def listings : List Predicate → List String
  | [] => []
  | predicate :: rest => inOperandPlace predicate.listing :: listings rest

end

end WhereRules
