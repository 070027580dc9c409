import WhereRules.Pattern.Size

/-!
# Limits of patterns

An expression can be read and still be too much to match: when its parts lie too deep inside one
another, or when one of its two automata would take too much room.
-/

namespace WhereRules.Regex

/-- How deep the parts of an expression lie inside one another. Groups, counts, sequences, choices
and bracketed classes are a level each. -/
def nesting : Regex → Nat
  | empty | start | finish | wordEdge _ => 0
  | one _ levels => levels
  | seq a b => max (a.nesting + 1) (match b with
    | seq .. => b.nesting
    | _ => b.nesting + 1)
  | alt a b => max (a.nesting + 1) (match b with
    | alt .. => b.nesting
    | _ => b.nesting + 1)
  | group _ body => body.nesting + 1
  | repeated body _ _ => body.nesting + 1

def nestingMax : Nat := 250

/-- Ten mebibytes. -/
def automatonSizeMax : Nat := 10 * 1024 * 1024

/-- Whether an expression is within the limits. -/
def fits (r : Regex) : Bool :=
  decide (r.nesting ≤ nestingMax) &&
    let shape := r.shape
    decide (shape.automatonSize .forward ≤ automatonSizeMax) &&
      decide (shape.automatonSize .backward ≤ automatonSizeMax)

end WhereRules.Regex
