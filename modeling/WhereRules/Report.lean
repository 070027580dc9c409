import WhereRules.Json.Record
import WhereRules.Json.Text

/-!
# Validation reports

What a user learns about a rule text without running it: that it is fine, or what is wrong and,
where that is known, at which character. Reports travel as JSON; an unknown place is left out.
-/

namespace WhereRules

structure Problem where
  message : String
  position : Option Nat
deriving DecidableEq

structure Report where
  ok : Bool
  problems : List Problem
deriving DecidableEq

namespace Report

/-- Nothing is wrong. -/
def valid : Report := ⟨true, []⟩

/-- One problem. -/
def invalid (problem : Problem) : Report := ⟨false, [problem]⟩

end Report

/-! ## Writing -/

def Problem.toJson (problem : Problem) : Json :=
  .object (("message", .string problem.message) ::
    problem.position.toList.map fun n => ("position", Json.ofNat n))

def Report.toJson (report : Report) : Json :=
  .object [("ok", .bool report.ok), ("errors", .array (report.problems.map Problem.toJson))]

/-! ## Reading -/

def Problem.slots : List (Json.Slot Problem) :=
  [⟨"message", true, fun problem cs =>
      (Json.readText cs).map fun (message, cs) => ({ problem with message }, cs)⟩,
    ⟨"position", false, fun problem cs =>
      (Json.readNullable Json.readNat cs).map fun (position, cs) =>
        ({ problem with position }, cs)⟩]

def Report.slots : List (Json.Slot Report) :=
  [⟨"ok", true, fun report cs => (Json.readBool cs).map fun (ok, cs) => ({ report with ok }, cs)⟩,
    ⟨"errors", true, fun report cs =>
      (Json.readList (Json.readRecord Problem.slots ⟨"", none⟩) cs).map fun (problems, cs) =>
        ({ report with problems }, cs)⟩]

/-- The report that a JSON text holds. -/
def Report.ofJsonText (text : String) : Except Json.Fault Report :=
  Json.wholeText (Json.readRecord slots ⟨false, []⟩) text

end WhereRules
