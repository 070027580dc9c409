import WhereRules.Value.Json
import WhereRules.Text.Quoted

/-!
# Contexts

A context is the record that a rule is asked about: values bound to names. A binding is eager, its
value at hand, or lazy, its value asked of a provider when a rule first reads it. What a provider
has answered is remembered in the context (`Context.resolved`) until the name is bound anew, so
within one context a binding has one value.

A provider may answer differently each time it is asked. Copies of a context share its providers but
not what they remember: each copy asks on its own.
-/

namespace WhereRules

/-- Where the value of a lazy binding comes from. -/
structure Provider where
  /-- Tells providers apart; two bindings with one number count their questions together. -/
  id : Nat
  /-- The answer to the `n`-th question, from 0 on. -/
  answer : Nat → Value

inductive Binding
  | eager (value : Value)
  | lazy (provider : Provider)

structure Context where
  bindings : List (String × Binding)
  /-- The answers that lazy bindings have given so far. -/
  resolved : List (String × Value)

namespace Context

def empty : Context := ⟨[], []⟩

/-- Binds a name anew and forgets what its former binding answered. -/
def bind (context : Context) (key : String) (binding : Binding) : Context where
  bindings := Keyed.insert key binding context.bindings
  resolved := Keyed.erase key context.resolved

/-- Binds a name to a value. -/
def insert (context : Context) (key : String) (value : Value) : Context :=
  context.bind key (.eager value)

/-- Binds a name to what a provider will answer. -/
def insertLazy (context : Context) (key : String) (provider : Provider) : Context :=
  context.bind key (.lazy provider)

/-- Binds names in their order; a later binding of a name replaces an earlier one. -/
def ofPairs (pairs : List (String × Value)) : Context :=
  pairs.foldl (fun context (key, value) => context.insert key value) empty

/-- The members of an object as bindings. Any other document binds nothing. -/
def ofJson (document : Json) : Context :=
  match Value.ofJson document.settled with
  | .map entries => ofPairs entries
  | _ => empty

def contains (context : Context) (key : String) : Bool := Keyed.has key context.bindings

def size (context : Context) : Nat := context.bindings.length

def isEmpty (context : Context) : Bool := context.bindings.isEmpty

/-- The bound names in increasing order. -/
def keys (context : Context) : List String := context.bindings.map (·.1)

/-- The bound names, for a reader. -/
def listing (context : Context) : String :=
  "Context \x7b keys: [" ++ ", ".intercalate (context.keys.map quotedText) ++ "] \x7d"

end Context

end WhereRules
