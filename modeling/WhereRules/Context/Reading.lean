import WhereRules.Context.Basic
import WhereRules.Field

/-!
# Reading a context

Reading is not free of effects: the first read of a lazy binding asks its provider. A `Reading` is a
computation that says so. It runs on a state of three parts, the context with what it remembers, the
number of questions each provider has been asked, and the names whose providers were asked in this
run, in order. Everything that reads, up to a whole rule, is a `Reading`, so two of them are equal
only if they also ask the same providers in the same order.
-/

namespace WhereRules

/-! ## Counting questions -/

/-- How many questions each provider has been asked, by number. -/
abbrev Calls := List Nat

namespace Calls

def count (calls : Calls) (id : Nat) : Nat := calls.getD id 0

/-- One more question to a provider. -/
def bump : Calls → Nat → Calls
  | [], 0 => [1]
  | [], id + 1 => 0 :: bump [] id
  | n :: rest, 0 => (n + 1) :: rest
  | n :: rest, id + 1 => n :: bump rest id

end Calls

/-! ## Readings -/

structure ReadState where
  context : Context
  calls : Calls
  /-- The names whose providers were asked, in order. -/
  forced : List String

abbrev Reading := StateM ReadState

namespace ReadState

/-- Asks the provider of a name and remembers the answer. -/
def force (state : ReadState) (key : String) (provider : Provider) : Value × ReadState :=
  let value := provider.answer (state.calls.count provider.id)
  (value, {
    context := { state.context with resolved := Keyed.insert key value state.context.resolved }
    calls := state.calls.bump provider.id
    forced := state.forced ++ [key] })

end ReadState

namespace Reading

/-- The value bound to a name. A lazy binding is asked once and remembered. -/
def get (key : String) : Reading (Option Value) := fun state =>
  match state.context.bindings.lookup key with
  | none => (none, state)
  | some (.eager value) => (some value, state)
  | some (.lazy provider) =>
    match state.context.resolved.lookup key with
    | some value => (some value, state)
    | none =>
      let (value, state) := state.force key provider
      (some value, state)

/-- The value at a path. A binding of the whole path comes first; otherwise the first step is a name
and the others lead into its maps. What is not there reads as null. -/
def lookup (path : String) (segments : List String) : Reading Value := do
  match ← get path with
  | some value => return value
  | none =>
    match segments with
    | root :: step :: rest =>
      match ← get root with
      | some value => return (value.atPath? (step :: rest)).getD .null
      | none => return .null
    | _ => return .null

/-- The value of a field. -/
def field (field : Field) : Reading Value := lookup field.path field.segments

end Reading

end WhereRules
