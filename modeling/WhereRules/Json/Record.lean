import WhereRules.Json.Reader

/-!
# Reading JSON of a given shape

A typed reader knows what it wants and reads straight through: it answers the first fault from left
to right, be it a text that is not JSON or JSON of another shape. A value of the wrong kind is a
mismatch; if it is a word, a number or a string, it is read to its end first and may turn out to be
no JSON at all.

Records come in two forms: an object, its members in any order, or an array of the members in the
record's own order. Members that the record does not know are skipped, and only checked in outline.
-/

namespace WhereRules.Json

/-! ## Single values -/

/-- The fault of a value of the wrong kind. -/
def wrongKind : List Char → Fault
  | [] => .unfinished
  | c :: cs =>
    let fault {α : Type} (result : Except Fault α) : Fault :=
      match result with
      | .error fault => fault
      | .ok _ => .mismatch
    match c with
    | 'n' => fault (word ['u', 'l', 'l'] cs)
    | 't' => fault (word ['r', 'u', 'e'] cs)
    | 'f' => fault (word ['a', 'l', 's', 'e'] cs)
    | '"' => fault (stringRest .kept cs)
    | '-' => fault (numberRest .kept true cs)
    | '[' | '{' => .mismatch
    | c => if c.isDigit then fault (numberRest .kept false (c :: cs)) else .malformed

def readBool : Reader Bool := fun cs =>
  match skipBlanks cs with
  | 't' :: cs => (word ['r', 'u', 'e'] cs).map fun (_, cs) => (true, cs)
  | 'f' :: cs => (word ['a', 'l', 's', 'e'] cs).map fun (_, cs) => (false, cs)
  | cs => .error (wrongKind cs)

def readText : Reader String := fun cs =>
  match skipBlanks cs with
  | '"' :: cs => stringRest .kept cs
  | cs => .error (wrongKind cs)

/-- A count: digits alone, of at most 64 bits. -/
def readNat : Reader Nat := fun cs =>
  match skipBlanks cs with
  | [] => .error .unfinished
  | c :: rest =>
    if c.isDigit then do
      match ← numberRest .kept false (c :: rest) with
      | (.whole n, rest) => .ok (n.toNat, rest)
      | (.double _, _) => .error .mismatch
    else .error (wrongKind (c :: rest))

/-- A value that may be `null`. -/
def readNullable {α : Type} (reader : Reader α) : Reader (Option α) := fun cs =>
  match skipBlanks cs with
  | 'n' :: cs => (word ['u', 'l', 'l'] cs).map fun (_, cs) => (none, cs)
  | cs => (reader cs).map fun (value, cs) => (some value, cs)

def readList {α : Type} (item : Reader α) : Reader (List α) := fun cs =>
  match skipBlanks cs with
  | '[' :: cs => items item ']' cs
  | cs => .error (wrongKind cs)

/-! ## Records -/

/-- A member of a record: its name, whether it must be there, and how its value changes what has
been read of the record. -/
structure Slot (σ : Type) where
  name : String
  required : Bool
  read : σ → Reader σ

/-- The members of an object up to its closing brace, and the names that were there. A known name
may stand once. -/
def membersInto {σ : Type} (slots : List (Slot σ)) :
    (bound : Nat) → (first : Bool) → (seen : List String) → σ → Reader (List String × σ)
  | 0, _, _, _, _ => .error .unfinished
  | bound + 1, first, seen, record, cs => do
    let (more, cs) ← another '}' first cs
    if !more then .ok ((seen, record), cs)
    else
      let (name, cs) ← memberName .kept cs
      match slots.find? fun slot => slot.name == name with
      | some slot =>
        if seen.contains name then .error .mismatch
        else
          let (_, cs) ← colon cs
          let (record, cs) ← slot.read record cs
          membersInto slots bound false (name :: seen) record cs
      | none =>
        let (_, cs) ← colon cs
        let (_, cs) ← value .skipped cs.length cs
        membersInto slots bound false seen record cs

/-- The members of an array in the record's order. Those at the end may be missing, unless they are
required; there may be no more than the record has. -/
def itemsInto {σ : Type} : List (Slot σ) → (first : Bool) → σ → Reader σ
  | [], _, record, cs =>
    match skipBlanks cs with
    | [] => .error .unfinished
    | ']' :: cs => .ok (record, cs)
    | _ => .error .malformed
  | slot :: slots, first, record, cs => do
    let (more, cs) ← another ']' first cs
    if more then
      let (record, cs) ← slot.read record cs
      itemsInto slots false record cs
    else if (slot :: slots).any Slot.required then .error .mismatch
    else .ok (record, cs)

/-- A record in either form, read into its blank. -/
def readRecord {σ : Type} (slots : List (Slot σ)) (blank : σ) : Reader σ := fun cs =>
  match skipBlanks cs with
  | '{' :: cs => do
    let ((seen, record), cs) ← membersInto slots (cs.length + 1) true [] blank cs
    if slots.all fun slot => !slot.required || seen.contains slot.name then .ok (record, cs)
    else .error .mismatch
  | '[' :: cs => itemsInto slots true blank cs
  | cs => .error (wrongKind cs)

end WhereRules.Json
