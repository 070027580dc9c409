import WhereRules.Pattern.Ranges

/-!
# Shapes

The shape of an expression is what is left of it without its redundant parts: groups that only hold
together, items that take nothing, counts of exactly one. Characters side by side are one text, a
class of one character is that character, alternatives that are all characters or all classes are
one class, and what all alternatives begin with is written once, before them.
-/

namespace WhereRules

inductive Shape
  | empty
  /-- Characters that stand for themselves, at least one. -/
  | literal (text : List Char)
  /-- One character of a class of none or at least two. -/
  | set (spans : List Span)
  | start
  | finish
  | wordEdge (edge : WordEdge)
  | capture (body : Shape)
  | repeated (body : Shape) (min : Nat) (max : Option Nat)
  /-- At least two items, none of which is empty or a sequence. -/
  | sequence (items : List Shape)
  /-- At least two alternatives, none of which is a choice. -/
  | choice (options : List Shape)

namespace Shape

/-! ## What a match of a shape takes -/

structure Traits where
  /-- The fewest bytes that a match takes, where that is known of all that may match. -/
  shortest : Option Nat
  /-- No match takes a byte. -/
  takesNothing : Bool
  /-- A match begins at the start of the text. -/
  atStart : Bool
  /-- A match ends at the end of the text. -/
  atFinish : Bool

namespace Traits

/-- A place in the text, or any place. -/
def ofPlace (atStart atFinish : Bool) : Traits := ⟨some 0, true, atStart, atFinish⟩

/-- Some bytes, `shortest` at least. -/
def ofBytes (shortest : Option Nat) : Traits := ⟨shortest, false, false, false⟩

def seq (a b : Traits) : Traits where
  shortest := do return (← a.shortest) + (← b.shortest)
  takesNothing := a.takesNothing && b.takesNothing
  atStart := a.atStart || (a.takesNothing && b.atStart)
  atFinish := b.atFinish || (b.takesNothing && a.atFinish)

def alt (a b : Traits) : Traits where
  shortest := do return min (← a.shortest) (← b.shortest)
  takesNothing := a.takesNothing && b.takesNothing
  atStart := a.atStart && b.atStart
  atFinish := a.atFinish && b.atFinish

def times (body : Traits) (min : Nat) (max : Option Nat) : Traits where
  shortest := body.shortest.map (· * min)
  takesNothing := body.takesNothing && max.isSome
  atStart := min ≠ 0 && body.atStart
  atFinish := min ≠ 0 && body.atFinish

end Traits

mutual

def traits : Shape → Traits
  | empty => .ofPlace false false
  | literal text => .ofBytes (some (text.foldl (fun bytes c => bytes + c.utf8Size) 0))
  | set spans => .ofBytes (spans.head?.map fun (first, _) => (Char.ofNat first).utf8Size)
  | start => .ofPlace true false
  | finish => .ofPlace false true
  | wordEdge _ => .ofPlace false false
  | capture body => body.traits
  | repeated body min max => body.traits.times min max
  | sequence items => traitsOfSequence items
  | choice options => traitsOfChoice options

def traitsOfSequence : List Shape → Traits
  | [] => .ofPlace false false
  | item :: items => item.traits.seq (traitsOfSequence items)

def traitsOfChoice : List Shape → Traits
  | [] => .ofBytes none
  | [option] => option.traits
  | option :: options => option.traits.alt (traitsOfChoice options)

end

/-! ## Building shapes -/

/-- One character of a class. -/
def ofSpans : List Span → Shape
  | [(first, last)] => if first = last then literal [Char.ofNat first] else set [(first, last)]
  | spans => set spans

/-- A body some number of times. Of a body that takes nothing, once is as good as often. -/
def times (body : Shape) (min : Nat) (max : Option Nat) : Shape :=
  let once := body.traits.takesNothing
  let min := if once then Nat.min min 1 else min
  let max := if once then some (Nat.min (max.getD 1) 1) else max
  if max = some 0 then empty
  else if min = 1 ∧ max = some 1 then body
  else repeated body min max

def items : Shape → List Shape
  | empty => []
  | sequence items => items
  | item => [item]

/-- An item before others. -/
def before : Shape → List Shape → List Shape
  | literal text, literal more :: items => literal (text ++ more) :: items
  | item, items => item :: items

def ofItems : List Shape → Shape
  | [] => empty
  | [item] => item
  | items => sequence items

def seq (a b : Shape) : Shape := ofItems (a.items.foldr before b.items)

def options : Shape → List Shape
  | choice options => options
  | option => [option]

mutual

/-- Whether two shapes are one and the same. Two captures never are: each has a match of its own to
remember. -/
def same : Shape → Shape → Bool
  | empty, empty => true
  | literal text, literal other => text == other
  | set spans, set others => spans == others
  | start, start => true
  | finish, finish => true
  | wordEdge edge, wordEdge other => edge == other
  | repeated body min max, repeated other least most =>
    min == least && max == most && same body other
  | sequence items, sequence others => sameItems items others
  | choice options, choice others => sameItems options others
  | _, _ => false

def sameItems : List Shape → List Shape → Bool
  | [], [] => true
  | item :: items, other :: others => same item other && sameItems items others
  | _, _ => false

end

/-- What two sequences both begin with. -/
def commonStart : List Shape → List Shape → List Shape
  | item :: items, other :: others =>
    if item.same other then item :: commonStart items others else []
  | _, _ => []

/-- The class of alternatives that are all single characters, or all classes. -/
def class? (options : List Shape) : Option Shape :=
  let characters := options.mapM fun
    | literal [c] => some [(c.toNat, c.toNat)]
    | _ => none
  let sets := options.mapM fun
    | set spans => some spans
    | _ => none
  (characters <|> sets).map fun spans => ofSpans (spans.foldr Span.union [])

/-- What sequences all begin with, and the rests of them; nothing if they begin differently. -/
def splitStart? (options : List Shape) : Option (List Shape × List Shape) := do
  let sequences ← options.mapM fun
    | sequence items => some items
    | _ => none
  match sequences with
  | [] => none
  | first :: rest =>
    match rest.foldl commonStart first with
    | [] => none
    | common => some (common, sequences.map fun items => ofItems (items.drop common.length))

/-- Alternatives, of which there is at least one. The rests after a common start begin differently,
so there is none to look for in them. -/
def choiceOf (alternatives : List Shape) : Shape :=
  match alternatives with
  | [option] => option
  | _ =>
    let alternatives := alternatives.flatMap options
    (class? alternatives).getD <|
      match splitStart? alternatives with
      | none => choice alternatives
      | some (common, rests) =>
        let rests := rests.flatMap options
        let rest := (class? rests).getD (choice rests)
        ofItems (common.foldr before rest.items)

end Shape

/-! ## The shape of an expression -/

namespace Regex

/-- The shapes of the alternatives of an expression. -/
def alternatives : Regex → List Shape
  | empty => [.empty]
  | one set _ => [.ofSpans set.spans]
  | start => [.start]
  | finish => [.finish]
  | wordEdge edge => [.wordEdge edge]
  | seq a b => [.seq (.choiceOf a.alternatives) (.choiceOf b.alternatives)]
  | alt a b => a.alternatives ++ b.alternatives
  | group captures body =>
    let shape := Shape.choiceOf body.alternatives
    [if captures then .capture shape else shape]
  | repeated body min max => [.times (.choiceOf body.alternatives) min max]

def shape (r : Regex) : Shape := .choiceOf r.alternatives

end Regex

end WhereRules
