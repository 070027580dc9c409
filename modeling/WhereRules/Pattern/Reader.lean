import WhereRules.Pattern.Regex
import WhereRules.Pattern.Digits

/-!
# Reading patterns

The text of a pattern is cut into pieces, and the pieces are put together with a stack of the groups
that are still open. Both steps refuse: the first what is no piece (a broken class, count or escape,
a group of unknown kind), the second what does not fit together (an unbalanced bracket, a quantifier
with nothing to repeat).

A quantifier may be followed by `?`, which says to prefer short matches. Whether a text matches does
not depend on it.
-/

namespace WhereRules.Regex

/-! ## Escapes -/

/-- The class of decimal digits. -/
def digitSet : CharSet := .ofRanges digitRanges

/-- What a backslash makes of the character after it: a class, or a character that then stands for
itself. Letters and digits only have the meanings listed here. An angle bracket is no character
behind a backslash: outside a class it is an edge of a word (`edge?`), and in a class it is
refused. -/
def escaped? (c : Char) : Option (CharSet ⊕ Char) :=
  match c with
  | 'd' => some (.inl digitSet)
  | 'D' => some (.inl (.complement digitSet))
  | 'n' => some (.inr '\n')
  | 'r' => some (.inr '\r')
  | 't' => some (.inr '\t')
  | 'a' => some (.inr '\x07')
  | 'f' => some (.inr '\x0c')
  | 'v' => some (.inr '\x0b')
  | c => if 127 < c.toNat ∨ c.isAlphanum ∨ c = '<' ∨ c = '>' then none else some (.inr c)

/-- The edge of a word that a backslash makes of an angle bracket. -/
def edge? : Char → Option WordEdge
  | '<' => some .first
  | '>' => some .last
  | _ => none

def escapeSet : CharSet ⊕ Char → CharSet
  | .inl set => set
  | .inr c => .single c

/-! ## Classes -/

/-- A member of a class: a class escape, or a character. -/
def classMember? : List Char → Option ((CharSet ⊕ Char) × List Char)
  | [] => none
  | '\\' :: [] => none
  | '\\' :: c :: cs => (escaped? c).map fun meaning => (meaning, cs)
  | c :: cs => some (.inr c, cs)

/-- A member or a range of a class. A dash before the closing bracket or another dash makes no
range. -/
def classItem? (cs : List Char) : Option (CharSet × List Char) := do
  let (low, cs) ← classMember? cs
  match cs with
  | '-' :: c :: rest =>
    if c = ']' ∨ c = '-' then some (escapeSet low, cs)
    else
      let (high, rest) ← classMember? (c :: rest)
      match low, high with
      | .inr first, .inr last => if first ≤ last then some (.range first last, rest) else none
      | _, _ => none
  | _ => some (escapeSet low, cs)

/-- The members of a class that have been read. -/
structure Members where
  set : CharSet
  count : Nat
  /-- The most levels that any of them has. -/
  levels : Nat

namespace Members

def new : Members := ⟨.none, 0, 0⟩

def add (members : Members) (set : CharSet) (levels : Nat) : Members :=
  ⟨.union members.set set, members.count + 1, max members.levels levels⟩

/-- The levels of the class: its brackets are one, and so is a list of several members. -/
def classLevels (members : Members) : Nat := members.levels + if members.count ≤ 1 then 1 else 2

end Members

/-- The dashes at the start of a class, which stand for themselves. -/
def leadingDashes : Members → List Char → Members × List Char
  | members, '-' :: cs => leadingDashes (members.add (.single '-') 0) cs
  | members, cs => (members, cs)

/-- The start of a class, after its bracket: whether it is negated, and what stands for itself only
here, dashes or else a closing bracket. -/
def classStart (cs : List Char) : Bool × Members × List Char :=
  let (negated, cs) := match cs with
    | '^' :: cs => (true, cs)
    | cs => (false, cs)
  match cs with
  | ']' :: cs => (negated, Members.new.add (.single ']') 0, cs)
  | cs => (negated, leadingDashes .new cs)

/-- The set of a class with some members. -/
def classSet (negated : Bool) (members : Members) : CharSet :=
  if negated then .complement members.set else members.set

/-- The rest of a class. A class inside it is one of its members. Each round takes a character, so
`bound` characters bound them. -/
def classRest? : (bound : Nat) → Members → List Char → Option (Members × List Char)
  | 0, _, _ => none
  | _ + 1, _, [] => none
  | _ + 1, members, ']' :: cs => some (members, cs)
  | bound + 1, members, '[' :: cs => do
    let (negated, inner, cs) := classStart cs
    let (inner, cs) ← classRest? bound inner cs
    classRest? bound (members.add (classSet negated inner) inner.classLevels) cs
  | bound + 1, members, cs => do
    let (item, cs) ← classItem? cs
    classRest? bound (members.add item 0) cs

/-- A class whose opening bracket has been read. -/
def class? (cs : List Char) : Option (Regex × List Char) := do
  let (negated, members, rest) := classStart cs
  let (members, rest) ← classRest? (cs.length + 1) members rest
  some (one (classSet negated members) members.classLevels, rest)

/-! ## Counts -/

/-- The largest count. -/
def countMax : Nat := UInt32.size - 1

/-- Blanks that may stand around a count. -/
def isCountBlank (c : Char) : Bool :=
  (9 ≤ c.toNat && c.toNat ≤ 13) || [0x20, 0x85, 0xa0, 0x1680, 0x2028, 0x2029, 0x202f, 0x205f,
    0x3000].contains c.toNat || (0x2000 ≤ c.toNat && c.toNat ≤ 0x200a)

/-- A count, with blanks around it. -/
def count? (cs : List Char) : Option (Nat × List Char) :=
  let cs := cs.dropWhile isCountBlank
  let digits := cs.takeWhile Char.isDigit
  let n := Nat.ofDigitChars 10 digits 0
  if digits = [] ∨ countMax < n then none
  else some (n, (cs.dropWhile Char.isDigit).dropWhile isCountBlank)

/-- The counts of a quantifier whose opening brace has been read. -/
def counts? (cs : List Char) : Option ((Nat × Option Nat) × List Char) := do
  let (min, cs) ← count? cs
  match cs with
  | '\x7d' :: cs => some ((min, some min), cs)
  | ',' :: '\x7d' :: cs => some ((min, none), cs)
  | ',' :: cs =>
    let (max, cs) ← count? cs
    match cs with
    | '\x7d' :: cs => if min ≤ max then some ((min, some max), cs) else none
    | _ => none
  | _ => none

/-! ## Pieces -/

inductive Piece
  | item (r : Regex)
  | quantifier (min : Nat) (max : Option Nat)
  | bar
  | opening (captures : Bool)
  | closing

/-- The `?` after a quantifier, if there is one. -/
def dropShort : List Char → List Char
  | '?' :: cs => cs
  | cs => cs

/-- The piece that begins with `c`, and what is left after it. -/
def piece? (c : Char) (cs : List Char) : Option (Piece × List Char) :=
  match c with
  | '(' =>
    match cs with
    | '?' :: ':' :: cs => some (.opening false, cs)
    | '?' :: _ => none
    | cs => some (.opening true, cs)
  | ')' => some (.closing, cs)
  | '|' => some (.bar, cs)
  | '*' => some (.quantifier 0 none, dropShort cs)
  | '+' => some (.quantifier 1 none, dropShort cs)
  | '?' => some (.quantifier 0 (some 1), dropShort cs)
  | '\x7b' => (counts? cs).map fun ((min, max), cs) => (.quantifier min max, dropShort cs)
  | '[' => (class? cs).map fun (r, cs) => (.item r, cs)
  | '\\' =>
    match cs with
    | [] => none
    | c :: cs =>
      match edge? c with
      | some edge => some (.item (wordEdge edge), cs)
      | none => (escaped? c).map fun meaning => (.item (one (escapeSet meaning) 0), cs)
  | '.' => some (.item wildcard, cs)
  | '^' => some (.item start, cs)
  | '$' => some (.item finish, cs)
  | c => some (.item (char c), cs)

/-- The pieces of a text, from left to right. A piece takes at least its first character; the rest
is cut off the text by its length, which is what makes the text shorter. -/
def pieces? : List Char → Option (List Piece)
  | [] => some []
  | c :: cs =>
    match piece? c cs with
    | none => none
    | some (piece, rest) => (pieces? (cs.drop (cs.length - rest.length))).map (piece :: ·)
termination_by cs => cs.length
decreasing_by simp only [List.length_drop, List.length_cons]; omega

/-! ## Groups -/

/-- A group that is still open: its earlier alternatives and the items of the current one, each list
from the last to the first. -/
structure Group where
  captures : Bool
  alternatives : List Regex
  items : List Regex

namespace Group

def new (captures : Bool) : Group := ⟨captures, [], []⟩

def add (group : Group) (item : Regex) : Group := { group with items := item :: group.items }

def current (group : Group) : Regex := seqOf group.items.reverse

/-- Begins another alternative. -/
def next (group : Group) : Group :=
  { group with alternatives := group.current :: group.alternatives, items := [] }

/-- The expression inside the group. -/
def close (group : Group) : Regex :=
  match (group.current :: group.alternatives).reverse with
  | [] => empty
  | first :: rest => altOf first rest

end Group

/-- Puts pieces together; `outer` are the groups around the open one, the innermost first. -/
def assemble? : (outer : List Group) → Group → List Piece → Option Regex
  | [], inner, [] => some inner.close
  | _ :: _, _, [] => none
  | outer, inner, .item r :: rest => assemble? outer (inner.add r) rest
  | outer, inner, .quantifier min max :: rest =>
    match inner.items with
    | [] => none
    | body :: items => assemble? outer { inner with items := repeated body min max :: items } rest
  | outer, inner, .bar :: rest => assemble? outer inner.next rest
  | outer, inner, .opening captures :: rest => assemble? (inner :: outer) (.new captures) rest
  | [], _, .closing :: _ => none
  | parent :: outer, inner, .closing :: rest =>
    assemble? outer (parent.add (.group inner.captures inner.close)) rest

/-- The expression that a text spells, unless the text is refused. -/
def ofText? (text : String) : Option Regex := do
  let pieces ← pieces? text.toList
  assemble? [] (.new false) pieces

end WhereRules.Regex
