import WhereRules.Pattern.Shape
import WhereRules.Pattern.Bytes

/-!
# The size of an automaton

A pattern is matched by two automata, one that reads a text forward and one that reads it backward.
This module says how much room each of them takes, without building it: every state takes the same
room, and some states take more for each of their ways out. So the size of a shape is a sum over its
parts, and a part that is repeated counts as often as it has to be there.
-/

namespace WhereRules

/-- The way an automaton reads a text. Only one that reads forward remembers captures. -/
inductive Direction
  | forward
  | backward
deriving DecidableEq

namespace Shape

/-! ## States -/

/-- A state with one way out at most. -/
def stateSize : Nat := 32

/-- A state with `ways` ways out, each by any byte of a range. -/
def byteStateSize (ways : Nat) : Nat := stateSize + 8 * ways

/-- A state with `ways` ways out that take no byte. -/
def branchStateSize (ways : Nat) : Nat := stateSize + 4 * ways

/-! ## Classes -/

/-- One character of a class. Forward, sequences that end alike share their ends; backward, those
that begin alike share what is read last. A class of characters of one byte needs no sequences. -/
def setSize (direction : Direction) (spans : List Span) : Nat :=
  if spans.all fun (_, last) => last < 0x80 then stateSize + byteStateSize spans.length
  else
    let sequences := spans.flatMap byteSpans
    match direction with
    | .forward =>
      (remainders encodingMax sequences).eraseDups.foldl
        (fun size rest => size + byteStateSize (branches rest).length) stateSize
    | .backward =>
      branchStateSize sequences.length + stateSize
        + stateSize * countStarts encodingMax sequences

/-! ## Texts as alternatives -/

/-- The bytes of a text in the order they are read. -/
def wordOf (direction : Direction) (text : List Char) : List UInt8 :=
  let bytes := text.flatMap String.utf8EncodeChar
  match direction with
  | .forward => bytes
  | .backward => bytes.reverse

/-- Words in the order of their preference, cut where one of them has been read to its end. Ends
before the first word that goes on count as one. -/
def cutAtEnds (words : List (List UInt8)) : List (List (List UInt8)) :=
  match words.dropWhile (· = []) with
  | [] => []
  | rest => if words.head? = some [] then [] :: rest.splitOn [] else rest.splitOn []

/-- The tree of words, in which those that begin alike share their beginnings as far as the order of
preference allows. Every round reads a byte of every word, so the length of the longest bounds
them. -/
def treeSize : (bound : Nat) → List (List UInt8) → Nat
  | 0, _ => 0
  | bound + 1, words =>
    let parts := cutAtEnds words
    let groups := parts.filter (· ≠ [])
    groups.foldl (fun size group =>
      let firsts := (group.filterMap List.head?).eraseDups
      let size := size + if firsts.length = 1 then stateSize else byteStateSize firsts.length
      firsts.foldl (fun size first =>
        let rests := (group.filter (·.head? = some first)).map List.tail
        if rests.all (· = []) then size else size + treeSize bound rests) size)
      (branchStateSize (groups.length + (parts.length - 1)))

/-- Alternatives that are all texts. -/
def wordsSize (words : List (List UInt8)) : Nat :=
  stateSize + treeSize (words.foldl (fun longest word => max longest word.length) 0) words

/-- The texts of alternatives that are nothing else. -/
def words? (direction : Direction) (options : List Shape) : Option (List (List UInt8)) :=
  options.mapM fun
    | literal text => some (wordOf direction text)
    | _ => none

/-! ## Shapes -/

/-- The size of a body of size `body` that is repeated; `takesBytes` says that every match of it
takes some. -/
def repeatedSize (body : Nat) (takesBytes : Bool) (min : Nat) : (max : Option Nat) → Nat
  | none =>
    if min = 0 then
      if takesBytes then branchStateSize 2 + body
      else body + 2 * branchStateSize 2 + stateSize
    else min * body + branchStateSize 2
  | some max =>
    let least := if min = 0 then stateSize else min * body
    if min = max then least
    else if min = 0 ∧ max = 1 then branchStateSize 2 + body + stateSize
    else least + stateSize + (max - min) * (branchStateSize 2 + body)

mutual

def size (direction : Direction) : Shape → Nat
  | empty | start | finish | wordEdge _ => stateSize
  | literal text => stateSize * (wordOf direction text).length
  | set spans => setSize direction spans
  | capture body =>
    (match direction with
    | .forward => 2 * stateSize
    | .backward => 0) + size direction body
  | repeated body min max =>
    repeatedSize (size direction body) (body.traits.shortest.any (0 < ·)) min max
  | sequence items => sizeSum direction items
  | choice options =>
    match words? direction options with
    | some words => wordsSize words
    | none => branchStateSize options.length + stateSize + sizeSum direction options

def sizeSum (direction : Direction) : List Shape → Nat
  | [] => 0
  | item :: items => size direction item + sizeSum direction items

end

/-- What comes before a shape that may match anywhere: a loop over all bytes. A shape that is tied
to the end where reading begins needs no more than a state. -/
def entrySize (direction : Direction) (traits : Traits) : Nat :=
  let tied := match direction with
    | .forward => traits.atStart
    | .backward => traits.atFinish
  if tied then stateSize else branchStateSize 2 + stateSize + byteStateSize 1

/-- The size of the automaton of a shape: the shape itself as what a match captures, what comes
before it, and the state that says that it has been found. -/
def automatonSize (direction : Direction) (shape : Shape) : Nat :=
  entrySize direction shape.traits + size direction (capture shape) + stateSize

end Shape

end WhereRules
