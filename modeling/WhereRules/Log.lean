import WhereRules.Predicate.Basic

/-!
# The log

What the library tells about its work while it works: which texts it read, compiled, wrote and
refused, and which lazy bindings it had to ask for. An event is a level and named texts.
-/

namespace WhereRules

inductive Event
  /-- A text was cut into `count` tokens, its end included. -/
  | tokenized (count : Nat)
  /-- A text of `length` bytes became a rule over `fields` fields. -/
  | compiled (length fields : Nat) (operator : Operator)
  /-- A rule was written as a text of `length` bytes. -/
  | written (length : Nat)
  /-- A text was found to be no rule. -/
  | refused (message : String) (position : Option Nat)
  /-- The provider of a lazy binding was asked. -/
  | asked (key : String)
deriving DecidableEq

inductive Level
  | trace
  | debug
deriving DecidableEq

def Level.name : Level → String
  | trace => "TRACE"
  | debug => "DEBUG"

namespace Event

def level : Event → Level
  | tokenized _ | asked _ => .trace
  | compiled _ _ _ | written _ | refused _ _ => .debug

/-- A place that may be unknown, in a log. -/
def positionText : Option Nat → String
  | some n => "Some(" ++ n.repr ++ ")"
  | none => "None"

/-- What an event says, by name. -/
def fields : Event → List (String × String)
  | tokenized count => [("message", "tokenized rule source"), ("count", count.repr)]
  | compiled length fields operator =>
    [("message", "compiled rule"), ("length", length.repr), ("fields", fields.repr),
      ("operator", operator.name)]
  | written length => [("message", "serialized rule"), ("length", length.repr)]
  | refused message position =>
    [("message", "rule failed validation"), ("error", message),
      ("position", positionText position)]
  | asked key => [("message", "resolving lazy binding"), ("key", key)]

end Event

/-- A computation that adds to the log. -/
abbrev Logged := StateM (List Event)

/-- Adds an event to the log. -/
def Logged.tell (event : Event) : Logged Unit := modify fun log => log ++ [event]

end WhereRules
