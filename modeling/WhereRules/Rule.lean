import WhereRules.Predicate.Evaluation
import WhereRules.Predicate.Listing

/-!
# Rules

A rule is a predicate that may have an action. Evaluating a rule only decides; executing it also
fires the action where the predicate holds. What an action does to the world is to tell what it saw:
the value that its watched name has once the rule has decided.
-/

namespace WhereRules

/-- Tells, under its label, the value of the name it watches. -/
structure Action where
  label : String
  watch : String
deriving DecidableEq

/-- What a fired action told. -/
structure Firing where
  label : String
  seen : Option Value

structure Rule where
  predicate : Predicate
  action : Option Action := none

namespace Action

/-- Reads the watched name. -/
def fire (action : Action) : Reading Firing := do
  return ⟨action.label, ← Reading.get action.watch⟩

end Action

namespace Rule

/-- Attaches an action in place of the former one. -/
def withAction (rule : Rule) (action : Action) : Rule := { rule with action := some action }

def hasAction (rule : Rule) : Bool := rule.action.isSome

/-- The decision, without firing the action. -/
def evaluate (rule : Rule) : Reading Bool := rule.predicate.evaluate

/-- The decision, and what the action told if it fired. -/
def execute (rule : Rule) : Reading (Bool × Option Firing) := do
  let holds ← rule.evaluate
  match holds, rule.action with
  | true, some action => return (true, some (← action.fire))
  | holds, _ => return (holds, none)

/-- The rule on one line, for a reader. -/
def listing (rule : Rule) : String :=
  recordListing "Rule"
    [("predicate", rule.predicate.listing),
      ("has_action", if rule.hasAction then "true" else "false")]

end Rule

end WhereRules
