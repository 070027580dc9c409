import WhereRules.Value.Basic
import WhereRules.Text.Quoted

/-!
# Values as text

A value has two spellings besides JSON. The plain one (`Value.toText`) is for people: texts stand
between quotes as they are, maps list their entries. The listing (`Value.listing`) is for looking at
rules: it names every kind, quotes texts so that they stay on one line, and always shows whether a
number is a double.
-/

namespace WhereRules.Value

/-! ## The plain spelling -/

mutual

def toText : Value → String
  | null => "null"
  | bool true => "true"
  | bool false => "false"
  | int n => n.toInt.repr
  | number x => x.toText
  | text s => "\"" ++ s ++ "\""
  | list items => "[" ++ itemsText items ++ "]"
  | map entries => "\x7b" ++ entriesText entries ++ "\x7d"

def itemsText : List Value → String
  | [] => ""
  | [item] => toText item
  | item :: rest => toText item ++ ", " ++ itemsText rest

def entriesText : List (String × Value) → String
  | [] => ""
  | [(key, value)] => key ++ ": " ++ toText value
  | (key, value) :: rest => key ++ ": " ++ toText value ++ ", " ++ entriesText rest

end

/-! ## The listing -/

/-- A listing writes doubles positionally from `10^-4` up to below `10^16`. -/
def listingStyle : NumberStyle := ⟨.up, -4, 16, false⟩

def doubleListing : Double → String
  | .finite negative m => String.ofList (signText negative ++ listingStyle.magnitude m)
  | x => x.toText

mutual

def listing : Value → String
  | null => "Null"
  | bool true => "Bool(true)"
  | bool false => "Bool(false)"
  | int n => "Int(" ++ n.toInt.repr ++ ")"
  | number x => "Number(" ++ doubleListing x ++ ")"
  | text s => "Text(" ++ quotedText s ++ ")"
  | list items => "List([" ++ itemsListing items ++ "])"
  | map entries => "Map(\x7b" ++ entriesListing entries ++ "\x7d)"

def itemsListing : List Value → String
  | [] => ""
  | [item] => listing item
  | item :: rest => listing item ++ ", " ++ itemsListing rest

def entriesListing : List (String × Value) → String
  | [] => ""
  | [(key, value)] => quotedText key ++ ": " ++ listing value
  | (key, value) :: rest =>
    quotedText key ++ ": " ++ listing value ++ ", " ++ entriesListing rest

end

end WhereRules.Value
