import WhereRules.Json.Basic

/-!
# Reading JSON

A reader takes the characters that are left and answers a value with the rest, or the first fault
it meets from left to right. Faults come in three kinds, because a caller that only learns "no"
cannot tell a text that is not JSON from one that is JSON of another shape (`Json.Fault`).

The readers here are the parts that documents and typed contents share: blanks, strings, numbers,
separators, and whole documents. How deep arrays and objects may nest is a reader's argument, and it
is also what the recursion runs on.

Numbers follow one rule that is not the nearest double: the digits are gathered into a 64-bit
significand, the rest only count, and the power of ten is applied to the rounded significand. Up to
fifteen digits and small powers this is the nearest double too.
-/

namespace WhereRules.Json

/-! ## Faults and readers -/

/-- Why a text does not load. -/
inductive Fault
  /-- The text is not JSON at this place. -/
  | malformed
  /-- The text is JSON so far, but not of the wanted shape. -/
  | mismatch
  /-- The text ends too early. -/
  | unfinished
deriving DecidableEq, Repr

/-- A reader of the characters that are left. -/
abbrev Reader (α : Type) := List Char → Except Fault (α × List Char)

def isBlank (c : Char) : Bool := c == ' ' || c == '\n' || c == '\t' || c == '\r'

def skipBlanks (cs : List Char) : List Char := cs.dropWhile isBlank

/-- How strictly a value is read. A value that is read to be thrown away is only checked for its
outline: its numbers may exceed every double and its escapes need not be characters. -/
inductive Care
  | kept
  | skipped
deriving DecidableEq

/-- The fault of a number that breaks off at the end of the text. -/
def Care.brokenOff : Care → Fault
  | .kept => .unfinished
  | .skipped => .malformed

/-- The rest of a word whose first letter has been read. -/
def word : List Char → Reader Unit
  | [], cs => .ok ((), cs)
  | _ :: _, [] => .error .unfinished
  | w :: ws, c :: cs => if w = c then word ws cs else .error .malformed

/-! ## Strings -/

def hexValue? (c : Char) : Option Nat :=
  if c.isDigit then some (c.toNat - '0'.toNat)
  else if 'a' ≤ c ∧ c ≤ 'f' then some (c.toNat - 'a'.toNat + 10)
  else if 'A' ≤ c ∧ c ≤ 'F' then some (c.toNat - 'A'.toNat + 10)
  else none

/-- The 16-bit unit of four hexadecimal digits. A text of fewer than four bytes ends too early, even
where its last characters are no digits. -/
def hexUnit (cs : List Char) : Except Fault Nat :=
  match (cs.take 4).mapM hexValue? with
  | some [a, b, c, d] => .ok (((a * 16 + b) * 16 + c) * 16 + d)
  | _ =>
    if (String.ofList (cs.take 4)).utf8ByteSize < 4 then .error .unfinished
    else .error .malformed

/-- The trailing half of a character outside the basic plane: a second `\u` escape must follow. -/
def trailingUnit : List Char → Except Fault Nat
  | [] => .error .unfinished
  | '\\' :: [] => .error .unfinished
  | '\\' :: 'u' :: cs => do
    let unit ← hexUnit cs
    if 0xDC00 ≤ unit ∧ unit ≤ 0xDFFF then .ok unit else .error .malformed
  | _ => .error .malformed

/-- What follows a backslash: the character it stands for, and how many characters it took. -/
def escape (care : Care) : List Char → Except Fault (Char × Nat)
  | [] => .error .unfinished
  | 'u' :: cs => do
    let unit ← hexUnit cs
    if care = .skipped then .ok ('?', 5)
    else if 0xDC00 ≤ unit ∧ unit ≤ 0xDFFF then .error .malformed
    else if 0xD800 ≤ unit ∧ unit ≤ 0xDBFF then
      let low ← trailingUnit (cs.drop 4)
      .ok (Char.ofNat (0x10000 + (unit - 0xD800) * 0x400 + (low - 0xDC00)), 11)
    else .ok (Char.ofNat unit, 5)
  | c :: _ =>
    match c with
    | '"' => .ok ('"', 1)
    | '\\' => .ok ('\\', 1)
    | '/' => .ok ('/', 1)
    | 'b' => .ok ('\x08', 1)
    | 'f' => .ok ('\x0c', 1)
    | 'n' => .ok ('\n', 1)
    | 'r' => .ok ('\r', 1)
    | 't' => .ok ('\t', 1)
    | _ => .error .malformed

/-- The characters of a string whose opening quote has been read. -/
def stringChars (care : Care) : Reader (List Char)
  | [] => .error .unfinished
  | '"' :: cs => .ok ([], cs)
  | '\\' :: cs =>
    match escape care cs with
    | .error fault => .error fault
    | .ok (c, taken) => (stringChars care (cs.drop taken)).map fun (text, rest) => (c :: text, rest)
  | c :: cs =>
    if c.toNat < 32 then .error .malformed
    else (stringChars care cs).map fun (text, rest) => (c :: text, rest)
termination_by cs => cs.length
decreasing_by all_goals simp only [List.length_drop, List.length_cons]; omega

def stringRest (care : Care) : Reader String := fun cs =>
  (stringChars care cs).map fun (text, rest) => (String.ofList text, rest)

/-! ## Numbers -/

/-- The largest significand. -/
def significandMax : Nat := UInt64.size - 1

/-- Appends digits to a significand until one would not fit: the significand, and how many digits
were left over. -/
def gather (significand : Nat) : List Char → Nat × Nat
  | [] => (significand, 0)
  | c :: cs =>
    let next := significand * 10 + (c.toNat - '0'.toNat)
    if significandMax < next then (significand, (c :: cs).length) else gather next cs

/-- The double nearest to `10^k`. -/
def powerOfTen (k : Nat) : Magnitude := (Magnitude.nearest? (Nat.pow 10 k) 1).getD .zero

/-- Divides by `10^k`, rounded. -/
def dividedBy (m : Magnitude) (k : Nat) : Magnitude :=
  (Magnitude.nearest? m.units (powerOfTen k).units).getD .zero

/-- Divides by `10^places`, in steps of at most `10^308`, each rounded. Zero stays zero. -/
def scaledDown (m : Magnitude) (places : Nat) : Magnitude :=
  if places ≤ 308 then dividedBy m places
  else if m.units = 0 then m
  else scaledDown (dividedBy m 308) (places - 308)
termination_by places
decreasing_by omega

/-- A 64-bit significand times a power of ten, both rounded first; `none` beyond the largest
double. -/
def scale? (negative : Bool) (significand : Nat) (exponent : Int) : Option Double :=
  match Magnitude.nearest? significand 1 with
  | none => none
  | some m =>
    if exponent < 0 then some (.finite negative (scaledDown m exponent.natAbs))
    else if 308 < exponent then
      if m.units = 0 then some (.finite negative m) else none
    else match Double.ofProduct negative m (powerOfTen exponent.toNat) with
      | .infinity _ => none
      | x => some x

/-- The largest exponent that is still counted. -/
def exponentMax : Nat := 2147483647

/-- A number whose exponent is written out. An exponent past `exponentMax` leaves zero, or nothing
to be represented. -/
def withExponent? (negative : Bool) (significand : Nat) (start : Int) (down : Bool)
    (exponent : Nat) : Option Double :=
  if exponentMax < exponent then
    if significand ≠ 0 ∧ !down then none else some (.finite negative .zero)
  else scale? negative significand (if down then start - exponent else start + exponent)

/-- The digits before the point. Only a lone zero may start with zero. -/
def wholePart (care : Care) : Reader (List Char)
  | [] => .error care.brokenOff
  | '0' :: cs =>
    match cs with
    | [] => .ok (['0'], [])
    | c :: _ => if c.isDigit then .error .malformed else .ok (['0'], cs)
  | c :: cs =>
    if c.isDigit then .ok (c :: cs.takeWhile Char.isDigit, cs.dropWhile Char.isDigit)
    else .error .malformed

/-- At least one digit. -/
def someDigits (care : Care) : Reader (List Char)
  | [] => .error care.brokenOff
  | c :: cs =>
    if c.isDigit then .ok (c :: cs.takeWhile Char.isDigit, cs.dropWhile Char.isDigit)
    else .error .malformed

/-- The digits after a point, if there is one. -/
def fractionPart (care : Care) : Reader (Option (List Char))
  | '.' :: cs => (someDigits care cs).map fun (digits, rest) => (some digits, rest)
  | cs => .ok (none, cs)

/-- A written exponent, if there is one: whether it counts down, and its digits. -/
def exponentPart (care : Care) : Reader (Option (Bool × List Char))
  | [] => .ok (none, [])
  | c :: cs =>
    if c = 'e' ∨ c = 'E' then
      let (down, digits) := match cs with
        | '-' :: digits => (true, digits)
        | '+' :: digits => (false, digits)
        | digits => (false, digits)
      (someDigits care digits).map fun (digits, rest) => (some (down, digits), rest)
    else .ok (none, c :: cs)

/-- The number that the parts of a number's text name; `none` if it is beyond every double. -/
def assemble? (negative : Bool) (whole : List Char) (fraction : Option (List Char))
    (exponent : Option (Bool × List Char)) : Option Number :=
  let (significand, dropped) := gather 0 whole
  match fraction, exponent with
  | none, none =>
    if dropped ≠ 0 then (scale? negative significand dropped).map .double
    else if !negative then some (.whole significand)
    else if significand = 0 ∨ UInt64.size / 2 < significand then
      (scale? negative significand 0).map .double
    else some (.whole (-significand))
  | fraction, exponent =>
    let digits := fraction.getD []
    let (significand, left) := gather significand digits
    let start : Int := dropped - (digits.length - left : Nat)
    match exponent with
    | none => (scale? negative significand start).map .double
    | some (down, digits) =>
      (withExponent? negative significand start down (Nat.ofDigitChars 10 digits 0)).map .double

/-- A number whose sign, if any, has been read. -/
def numberRest (care : Care) (negative : Bool) : Reader Number := fun cs => do
  let (whole, cs) ← wholePart care cs
  let (fraction, cs) ← fractionPart care cs
  let (exponent, cs) ← exponentPart care cs
  match care, assemble? negative whole fraction exponent with
  | _, some n => .ok (n, cs)
  | .kept, none => .error .malformed
  | .skipped, none => .ok (.whole 0, cs)

/-! ## Sequences -/

/-- Whether another item follows, and the characters from it on; otherwise those after the closing
character. A comma must be followed by an item. -/
def another (close : Char) (first : Bool) : Reader Bool := fun cs =>
  match skipBlanks cs with
  | [] => .error .unfinished
  | c :: cs =>
    if c = close then .ok (false, cs)
    else if first then .ok (true, c :: cs)
    else if c = ',' then
      match skipBlanks cs with
      | [] => .error .unfinished
      | c :: cs => if c = close then .error .malformed else .ok (true, c :: cs)
    else .error .malformed

/-- Items up to `close`. Each item takes at least a character, so `bound` characters bound them. -/
def itemsUpTo {α : Type} (item : Reader α) (close : Char) : (bound : Nat) → Bool → Reader (List α)
  | 0, _, _ => .error .unfinished
  | bound + 1, first, cs => do
    let (more, cs) ← another close first cs
    if more then
      let (head, cs) ← item cs
      let (tail, cs) ← itemsUpTo item close bound false cs
      .ok (head :: tail, cs)
    else .ok ([], cs)

/-- The items after an opening character. -/
def items {α : Type} (item : Reader α) (close : Char) : Reader (List α) := fun cs =>
  itemsUpTo item close (cs.length + 1) true cs

/-- A member's name, at whose place a string must stand. -/
def memberName (care : Care) : Reader String
  | '"' :: cs => stringRest care cs
  | _ => .error .malformed

/-- The colon after a member's name. -/
def colon : Reader Unit := fun cs =>
  match skipBlanks cs with
  | [] => .error .unfinished
  | ':' :: cs => .ok ((), cs)
  | _ => .error .malformed

/-! ## Documents -/

/-- One value; `inner` reads what stands in arrays and objects, and is missing where they would nest
too deep. -/
def valueWith (care : Care) (inner : Option (Reader Json)) : Reader Json := fun cs =>
  match skipBlanks cs with
  | [] => .error .unfinished
  | c :: cs =>
    match c with
    | 'n' => (word ['u', 'l', 'l'] cs).map fun (_, cs) => (.null, cs)
    | 't' => (word ['r', 'u', 'e'] cs).map fun (_, cs) => (.bool true, cs)
    | 'f' => (word ['a', 'l', 's', 'e'] cs).map fun (_, cs) => (.bool false, cs)
    | '"' => (stringRest care cs).map fun (s, cs) => (.string s, cs)
    | '-' => (numberRest care true cs).map fun (n, cs) => (.number n, cs)
    | '[' =>
      match inner with
      | none => .error .malformed
      | some inner => (items inner ']' cs).map fun (values, cs) => (.array values, cs)
    | '{' =>
      match inner with
      | none => .error .malformed
      | some inner =>
        let member : Reader (String × Json) := fun cs => do
          let (name, cs) ← memberName care cs
          let (_, cs) ← colon cs
          let (value, cs) ← inner cs
          .ok ((name, value), cs)
        (items member '}' cs).map fun (members, cs) => (.object members, cs)
    | c =>
      if c.isDigit then (numberRest care false (c :: cs)).map fun (n, cs) => (.number n, cs)
      else .error .malformed

/-- One value whose arrays and objects nest at most `depth` deep. -/
def value (care : Care) (depth : Nat) : Reader Json := fun cs =>
  match depth with
  | 0 => valueWith care none cs
  | depth + 1 => valueWith care (some fun cs => value care depth cs) cs

/-- How deep a document may nest. -/
def maxDepth : Nat := 127

/-- A whole text: one value, and nothing but blanks after it. -/
def wholeText {α : Type} (reader : Reader α) (text : String) : Except Fault α := do
  let (result, rest) ← reader text.toList
  if skipBlanks rest = [] then .ok result else .error .malformed

/-- The document that a text holds. -/
def ofText (text : String) (depth : Nat) : Except Fault Json :=
  wholeText (value .kept depth) text

end WhereRules.Json
