import WhereRules.Pattern.Regex

/-!
# Classes as ranges of code points

A class has one list of ranges that is in increasing order and leaves a gap between any two ranges,
whatever way the class is written.
-/

namespace WhereRules

/-- A first and a last number, and all numbers between them. -/
abbrev Span := Nat × Nat

namespace Span

/-- Adds a range to ranges in increasing order; what it touches grows together with it. -/
def insert (first last : Nat) : List Span → List Span
  | [] => [(first, last)]
  | (low, high) :: rest =>
    if last + 1 < low then (first, last) :: (low, high) :: rest
    else if high + 1 < first then (low, high) :: insert first last rest
    else insert (min first low) (max last high) rest

def union (spans others : List Span) : List Span :=
  spans.foldr (fun (first, last) => insert first last) others

/-- The last code point. -/
def codeMax : Nat := 0x10ffff

/-- The code points from `low` on that none of the ranges holds. -/
def gaps (low : Nat) : List Span → List Span
  | [] => if low ≤ codeMax then [(low, codeMax)] else []
  | (first, last) :: rest =>
    if low < first then (low, first - 1) :: gaps (last + 1) rest else gaps (last + 1) rest

end Span

/-- The ranges of a class. -/
def CharSet.spans : CharSet → List Span
  | none => []
  | range first last => if first ≤ last then [(first.toNat, last.toNat)] else []
  | union a b => Span.union a.spans b.spans
  | complement a => Span.gaps 0 a.spans

end WhereRules
