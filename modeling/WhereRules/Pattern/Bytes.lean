import WhereRules.Pattern.Ranges

/-!
# Classes as sequences of bytes

A text is read byte by byte, so a class of characters is a list of sequences: each gives, byte for
byte, the range that the bytes of a character may come from. A code point below 128 is its own byte.
Any other is written to the base 64, its last digits in bytes from `80` on, its first in a byte
that also says how many there are.
-/

namespace WhereRules

/-- The numbers from `first` to `last`, written with `more + 1` digits to the base 64, as sequences
of ranges of digits. A sequence is as long a run as its later digits allow: they stay the same, or
they take every value. -/
def digitSpans : (more : Nat) → (first last : Nat) → List (List Span)
  | 0, first, last => [[(first, last)]]
  | more + 1, first, last =>
    let unit := Nat.pow 64 (more + 1)
    let low := first / unit
    let high := last / unit
    if low = high then
      (digitSpans more (first % unit) (last % unit)).map ((low, low) :: ·)
    else
      let head := if first % unit = 0 then []
        else (digitSpans more (first % unit) (unit - 1)).map ((low, low) :: ·)
      let tail := if last % unit = unit - 1 then []
        else (digitSpans more 0 (last % unit)).map ((high, high) :: ·)
      let low := if head.isEmpty then low else low + 1
      let high := if tail.isEmpty then high else high - 1
      let middle := if low ≤ high then [(low, high) :: List.replicate (more + 1) (0, 63)] else []
      head ++ middle ++ tail

/-- The code points with the same number of bytes, how many bytes follow the first, and what is
added to the first. The code points from `d800` to `dfff` are no characters. -/
def encodings : List (Span × Nat × Nat) := [
  ((0x0, 0x7f), 0, 0), ((0x80, 0x7ff), 1, 0xc0), ((0x800, 0xd7ff), 2, 0xe0),
  ((0xe000, 0xffff), 2, 0xe0), ((0x10000, 0x10ffff), 3, 0xf0)]

/-- The most bytes of a character. -/
def encodingMax : Nat := 4

/-- Digits as bytes. -/
def marked (mark : Nat) : List Span → List Span
  | [] => []
  | (first, last) :: rest =>
    (first + mark, last + mark) :: rest.map fun (low, high) => (low + 0x80, high + 0x80)

/-- The byte sequences of the characters in a range, in increasing order. -/
def byteSpans (span : Span) : List (List Span) :=
  encodings.flatMap fun ((least, most), more, mark) =>
    let first := max least span.1
    let last := min most span.2
    if first ≤ last then (digitSpans more first last).map (marked mark) else []

/-! ## Sequences with a common start -/

/-- The sequences in groups of one first range, each without that range. Sequences in increasing
order that begin alike are neighbours. -/
def branches (sequences : List (List Span)) : List (List (List Span)) :=
  ((sequences.filter (· ≠ [])).splitBy fun a b => a.head? == b.head?).map (·.map List.tail)

/-- How many different starts the sequences have; `depth` bounds their lengths. -/
def countStarts : (depth : Nat) → List (List Span) → Nat
  | 0, _ => 0
  | depth + 1, sequences =>
    (branches sequences).foldl (fun count rest => count + 1 + countStarts depth rest) 0

/-- What can be left of the sequences when some of them have been read up to a byte; `depth` bounds
their lengths. -/
def remainders : (depth : Nat) → List (List Span) → List (List (List Span))
  | 0, _ => []
  | depth + 1, sequences =>
    match branches sequences with
    | [] => []
    | groups => sequences :: groups.flatMap (remainders depth)

end WhereRules
