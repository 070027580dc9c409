import WhereRules.Json.Record
import WhereRules.Json.Text

/-!
# Settings

The one thing a user of rules can set: how deep expressions and predicates may nest. Reading,
compiling and writing share the limit. Settings travel as JSON; what a document leaves out keeps its
default.
-/

namespace WhereRules

structure Settings where
  maxDepth : Nat := 256
deriving DecidableEq

namespace Settings

def slots : List (Json.Slot Settings) :=
  [⟨"max_depth", false, fun _ cs => (Json.readNat cs).map fun (n, cs) => (⟨n⟩, cs)⟩]

/-- The settings that a JSON text holds. -/
def ofJsonText (text : String) : Except Json.Fault Settings :=
  Json.wholeText (Json.readRecord slots {}) text

def toJson (settings : Settings) : Json := .object [("max_depth", Json.ofNat settings.maxDepth)]

end Settings

end WhereRules
