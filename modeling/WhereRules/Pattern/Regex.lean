import WhereRules.Pattern.Words

/-!
# Regular expressions

What a pattern says, once its text has been read, and what it means for a text to hold it.

Matching keeps the set of places that a match can have reached (`Regex.ends`) and moves the whole
set at once, so no way to match is ever tried twice. A place is the number of characters before it;
a set of places is a number whose bit `i` says whether place `i` is in it. One character of a class
then is a mask and a shift.
-/

namespace WhereRules

/-! ## Classes of characters -/

inductive CharSet
  | none
  | range (first last : Char)
  | union (a b : CharSet)
  | complement (a : CharSet)
deriving DecidableEq

namespace CharSet

def mem : CharSet → Char → Bool
  | none, _ => false
  | range first last, c => first ≤ c && c ≤ last
  | union a b, c => a.mem c || b.mem c
  | complement a, c => !a.mem c

def single (c : Char) : CharSet := range c c

/-- What the wildcard stands for: every character but a line feed. -/
def wildcard : CharSet := complement (single '\n')

def ofRanges (ranges : List (Nat × Nat)) : CharSet :=
  ranges.foldr (fun (first, last) => union (range (Char.ofNat first) (Char.ofNat last))) none

end CharSet

/-! ## Edges of words -/

/-- A place where a word starts, before its first character, or ends, behind its last. -/
inductive WordEdge
  | first
  | last
deriving DecidableEq

/-- Whether the edge is between two characters, by whether each of them is part of a word. -/
def WordEdge.isBetween : WordEdge → (before after : Bool) → Bool
  | first, before, after => !before && after
  | last, before, after => before && !after

/-! ## Expressions -/

inductive Regex
  /-- Matches without taking a character. -/
  | empty
  /-- One character of a class. How many levels the writing of the class has, brackets within
  brackets, counts for the limits of an expression only. -/
  | one (set : CharSet) (levels : Nat)
  /-- The start of the text. -/
  | start
  /-- The end of the text. -/
  | finish
  /-- The start or the end of a word. -/
  | wordEdge (edge : WordEdge)
  | seq (a b : Regex)
  | alt (a b : Regex)
  /-- What stands in parentheses. What a group that captures has matched is remembered, which takes
  room but says nothing about what matches. -/
  | group (captures : Bool) (body : Regex)
  /-- From `min` to `max` times, or without limit. -/
  | repeated (body : Regex) (min : Nat) (max : Option Nat)
deriving DecidableEq

namespace Regex

def char (c : Char) : Regex := one (.single c) 0

def wildcard : Regex := one .wildcard 0

def seqOf : List Regex → Regex
  | [] => empty
  | [item] => item
  | item :: items => seq item (seqOf items)

/-- The alternatives of a group; there is at least one. -/
def altOf (first : Regex) : List Regex → Regex
  | [] => first
  | second :: rest => alt first (altOf second rest)

/-! ## Matching -/

/-- The places whose next character is in a class. -/
def placesOf (set : CharSet) : List Char → Nat
  | [] => 0
  | c :: cs => 2 * placesOf set cs + (set.mem c).toNat

/-- The places of a text where words start or end; `before` says whether the character before the
text is part of a word. What is outside of a text is no part of a word. -/
def edgePlaces (edge : WordEdge) : (before : Bool) → List Char → Nat
  | before, [] => (edge.isBetween before false).toNat
  | before, c :: cs =>
    2 * edgePlaces edge (isWord c) cs + (edge.isBetween before (isWord c)).toNat

/-- Applies `step` up to `count` times and stops early where it changes nothing more. -/
def iterate (step : Nat → Nat) : (count : Nat) → Nat → Nat
  | 0, places => places
  | count + 1, places => if step places = places then places else iterate step count (step places)

/-- The places that a match of `r` beginning at one of `places` can end at. Without a limit, as many
rounds as the text has places find every place: a round that takes no character adds none. -/
def ends (text : List Char) : Regex → (places : Nat) → Nat
  | empty, places => places
  | one set _, places => (places &&& placesOf set text) <<< 1
  | start, places => places &&& 1
  | finish, places => places &&& (1 <<< text.length)
  | wordEdge edge, places => places &&& edgePlaces edge false text
  | seq a b, places => ends text b (ends text a places)
  | alt a b, places => ends text a places ||| ends text b places
  | group _ body, places => ends text body places
  | repeated body min max, places =>
    let rounds := match max with
      | some max => max - min
      | none => text.length + 1
    iterate (fun reached => reached ||| ends text body reached) rounds
      (iterate (ends text body) min places)

/-- Every place of a text of `length` characters. -/
def everyPlace (length : Nat) : Nat := 1 <<< (length + 1) - 1

/-- Whether some part of the text matches. -/
def isFoundIn (r : Regex) (text : List Char) : Bool := r.ends text (everyPlace text.length) != 0

end Regex

end WhereRules
