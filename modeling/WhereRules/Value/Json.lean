import WhereRules.Value.Basic
import WhereRules.Json.Reader
import WhereRules.Json.Text

/-!
# Values and JSON

A document becomes a value in two ways that agree. `Value.ofJson` converts it part by part, after
the repeated names of every object have been settled (`Json.settled`). `Value.ofContent` takes the
document as it was read and tries the kinds of value in their order, so that what a text is decides
what it becomes. In both a whole number inside 64 signed bits stays whole and every other number is
a double, and of a repeated name the last one counts.

A value is written as the document of its parts; a double shows that it is one (`Json.numberText`),
so reading gives back the kind that was written.
-/

namespace WhereRules

/-! ## Settling repeated names -/

namespace Json

mutual

/-- Every object in key order, each name once: of a repeated name the last one counts. -/
def settled : Json → Json
  | .array items => .array (settledItems items)
  | .object members => .object (Keyed.ofList (settledMembers members))
  | document => document

def settledItems : List Json → List Json
  | [] => []
  | item :: rest => settled item :: settledItems rest

def settledMembers : List (String × Json) → List (String × Json)
  | [] => []
  | (name, value) :: rest => (name, settled value) :: settledMembers rest

end

end Json

namespace Value

/-! ## Part by part -/

def ofJsonNumber : Json.Number → Value
  | .whole n => if fitsInt n then int (Int64.ofInt n) else number (Double.ofInt n)
  | .double x => number x

mutual

/-- The value of a document whose names are settled. -/
def ofJson : Json → Value
  | .null => null
  | .bool b => bool b
  | .number n => ofJsonNumber n
  | .string s => text s
  | .array items => list (ofJsonItems items)
  | .object members => map (ofJsonMembers members)

def ofJsonItems : List Json → List Value
  | [] => []
  | item :: rest => ofJson item :: ofJsonItems rest

def ofJsonMembers : List (String × Json) → List (String × Value)
  | [] => []
  | (name, value) :: rest => (name, ofJson value) :: ofJsonMembers rest

end

/-! ## By what the content is -/

def asNull? : Json → Option Value
  | .null => some null
  | _ => none

def asBool? : Json → Option Value
  | .bool b => some (bool b)
  | _ => none

/-- A whole number that fits 64 signed bits. -/
def asInt? : Json → Option Value
  | .number (.whole n) => if fitsInt n then some (int (Int64.ofInt n)) else none
  | _ => none

/-- Every number is a double, a whole one after rounding. -/
def asNumber? : Json → Option Value
  | .number (.whole n) => some (number (Double.ofInt n))
  | .number (.double x) => some (number x)
  | _ => none

def asText? : Json → Option Value
  | .string s => some (text s)
  | _ => none

mutual

/-- The value of a document as it was read, names in any order and number: the first kind that takes
the content. Some kind takes every content. -/
def ofContent (content : Json) : Value :=
  let asList? : Option Value := match content with
    | .array items => some (list (ofItemContents items))
    | _ => none
  let asMap? : Option Value := match content with
    | .object members => some (map (ofMemberContents members []))
    | _ => none
  (asNull? content <|> asBool? content <|> asInt? content <|> asNumber? content <|>
    asText? content <|> asList? <|> asMap?).getD null

def ofItemContents : List Json → List Value
  | [] => []
  | item :: rest => ofContent item :: ofItemContents rest

/-- The members so far, each put in its place as it comes. -/
def ofMemberContents : List (String × Json) → List (String × Value) → List (String × Value)
  | [], entries => entries
  | (name, value) :: rest, entries =>
    ofMemberContents rest (Keyed.insert name (ofContent value) entries)

end

/-! ## Writing -/

mutual

def toJson : Value → Json
  | null => .null
  | bool b => .bool b
  | int n => .number (.whole n.toInt)
  | number x => .number (.double x)
  | text s => .string s
  | list items => .array (toJsonItems items)
  | map entries => .object (toJsonMembers entries)

def toJsonItems : List Value → List Json
  | [] => []
  | item :: rest => toJson item :: toJsonItems rest

def toJsonMembers : List (String × Value) → List (String × Json)
  | [] => []
  | (key, value) :: rest => (key, toJson value) :: toJsonMembers rest

end

/-- The value that a JSON text holds. -/
def ofJsonText (text : String) : Except Json.Fault Value :=
  (Json.ofText text Json.maxDepth).map fun document => ofJson document.settled

/-- The value that a JSON text holds, read without settling the document first. -/
def ofContentText (text : String) : Except Json.Fault Value :=
  (Json.ofText text Json.maxDepth).map ofContent

end Value

end WhereRules
