/-!
# Entries in key order

Maps, contexts and rule books are short lists of named entries. They stand in increasing key order,
the order in which they are shown, and a key stands at most once: `insert` replaces.
-/

namespace WhereRules.Keyed

variable {α : Type}

/-- Puts an entry in its place, replacing the one with its key. -/
def insert (key : String) (value : α) : List (String × α) → List (String × α)
  | [] => [(key, value)]
  | (k, v) :: rest =>
    if key < k then (key, value) :: (k, v) :: rest
    else if key = k then (key, value) :: rest
    else (k, v) :: insert key value rest

/-- Drops the entry with a key, if there is one. -/
def erase (key : String) (entries : List (String × α)) : List (String × α) :=
  entries.filter fun entry => entry.1 ≠ key

/-- Entries inserted from left to right: of a repeated key the last stays. -/
def ofList (entries : List (String × α)) : List (String × α) :=
  entries.foldl (fun sorted entry => insert entry.1 entry.2 sorted) []

/-- Whether an entry has the key. -/
def has (key : String) (entries : List (String × α)) : Bool := (entries.lookup key).isSome

/-- The keys stand in increasing order, so none is repeated. -/
def Sorted (entries : List (String × α)) : Prop := entries.Pairwise fun a b => a.1 < b.1

end WhereRules.Keyed
