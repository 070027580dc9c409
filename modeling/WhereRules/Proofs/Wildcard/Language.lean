import Mathlib.Data.List.Infix
import WhereRules.Pattern.Basic
import WhereRules.Pattern.Like

/-!
# What a wildcard text says

A wildcard text is a row of parts (`Like.parts`): a character that stands for itself, `_` for one
character, `%` for a run of them. No wildcard stands for a line feed. Which texts it admits is said
part by part (`Like.covers`), without regular expressions.

The regular expression of a wildcard text is read, and reads as the anchored sequence of its parts
(`ofText?_toRegex`).
-/

namespace WhereRules

/-- The text of a pattern has this pattern and no other. A pattern keeps the expression that its
text was read as, and nothing else. -/
theorem Pattern.ofText?_source (pattern : Pattern) :
    Pattern.ofText? pattern.source = some pattern := by
  obtain ⟨source, regex, spells, fits⟩ := pattern
  unfold Pattern.ofText?
  split
  · next regex' spells' =>
    rw [spells] at spells'
    cases spells'
    rw [dif_pos fits]
  · next hnone =>
    rw [spells] at hnone
    cases hnone

/-- A pattern keeps the text that it was made of. -/
theorem Pattern.source_of_ofText? {source : String} {pattern : Pattern}
    (h : Pattern.ofText? source = some pattern) : pattern.source = source := by
  unfold Pattern.ofText? at h
  split at h
  · split at h
    · cases h
      rfl
    · cases h
  · cases h

namespace Like

/-! ## Parts -/

inductive Part
  /-- A character that stands for itself. -/
  | exactly (c : Char)
  /-- Any one character but a line feed. -/
  | one
  /-- Any run of characters without a line feed, the empty one included. -/
  | run
deriving DecidableEq

/-- The parts of a wildcard text. A backslash right before a wildcard makes it stand for itself, and
is otherwise a character like any other. -/
def parts : List Char → List Part
  | [] => []
  | '\\' :: '%' :: cs => .exactly '%' :: parts cs
  | '\\' :: '_' :: cs => .exactly '_' :: parts cs
  | '%' :: cs => .run :: parts cs
  | '_' :: cs => .one :: parts cs
  | c :: cs => .exactly c :: parts cs

/-- Whether a text is made of these parts, from its first character to its last. -/
def covers : List Part → List Char → Bool
  | [], cs => cs.isEmpty
  | .exactly _ :: _, [] | .one :: _, [] => false
  | .exactly c :: rest, d :: cs => d == c && covers rest cs
  | .one :: rest, d :: cs => d != '\n' && covers rest cs
  | .run :: rest, cs => (List.range (cs.length + 1)).any fun taken =>
    (cs.take taken).all (· != '\n') && covers rest (cs.drop taken)

/-- What a part can stand for. -/
inductive Part.StandsFor : Part → List Char → Prop
  | exactly (c : Char) : StandsFor (.exactly c) [c]
  | one {c : Char} : c ≠ '\n' → StandsFor .one [c]
  | run {cs : List Char} : '\n' ∉ cs → StandsFor .run cs

/-- **The first part covers a piece off the front**, and the other parts cover what is left. Trying
every length for a run finds the piece if there is one. -/
theorem covers_cons {part : Part} {ps : List Part} {cs : List Char} :
    covers (part :: ps) cs = true ↔
      ∃ piece rest, part.StandsFor piece ∧ covers ps rest = true ∧ piece ++ rest = cs := by
  constructor
  · intro h
    cases part with
    | exactly c =>
      cases cs with
      | nil => cases h
      | cons d cs =>
        rw [covers, Bool.and_eq_true, beq_iff_eq] at h
        obtain ⟨rfl, hrest⟩ := h
        exact ⟨[d], cs, .exactly d, hrest, rfl⟩
    | one =>
      cases cs with
      | nil => cases h
      | cons d cs =>
        rw [covers, Bool.and_eq_true, bne_iff_ne] at h
        exact ⟨[d], cs, .one h.1, h.2, rfl⟩
    | run =>
      rw [covers, List.any_eq_true] at h
      obtain ⟨taken, -, h⟩ := h
      rw [Bool.and_eq_true, List.all_eq_true] at h
      refine ⟨cs.take taken, cs.drop taken, .run fun hmem => ?_, h.2, List.take_append_drop taken cs⟩
      exact bne_iff_ne.mp (h.1 _ hmem) rfl
  · rintro ⟨piece, rest, hpiece, hrest, rfl⟩
    cases hpiece with
    | exactly c => rw [List.singleton_append, covers, beq_self_eq_true, hrest, Bool.and_self]
    | one hc => rw [List.singleton_append, covers, bne_iff_ne.mpr hc, hrest, Bool.and_self]
    | run hpiece =>
      rw [covers, List.any_eq_true]
      refine ⟨piece.length, ?_, ?_⟩
      · rw [List.mem_range, List.length_append]
        omega
      · rw [List.take_left, List.drop_left, hrest, Bool.and_true, List.all_eq_true]
        exact fun c hc => bne_iff_ne.mpr fun heq => hpiece (heq ▸ hc)

/-- Whether a wildcard text admits a text. -/
def admits (like text : String) : Bool := covers (parts like.toList) text.toList

/-! ## Parts as regular expressions -/

def Part.regex : Part → Regex
  | exactly c => .one (.single c) 0
  | one => .wildcard
  | run => .repeated .wildcard 0 none

/-- The expression that a wildcard text of these parts is kept as. -/
def anchored (ps : List Part) : Regex := .seqOf (.start :: ps.map Part.regex ++ [.finish])

/-- The pieces that a part is spelled by. -/
def Part.pieces : Part → List Regex.Piece
  | exactly c => [.item (.one (.single c) 0)]
  | one => [.item .wildcard]
  | run => [.item .wildcard, .quantifier 0 none]

open Regex in
/-- A piece that is read off the front leaves its rest to be read. -/
theorem pieces?_cons {c : Char} {cs rest : List Char} {piece : Piece}
    (h : piece? c cs = some (piece, rest)) (hrest : rest <:+ cs) :
    pieces? (c :: cs) = (pieces? rest).map (piece :: ·) := by
  obtain ⟨taken, rfl⟩ := hrest
  rw [pieces?.eq_2, h]
  simp only [List.length_append, Nat.add_sub_cancel_right, List.drop_left]

theorem isMeta_iff {c : Char} : isMeta c = true ↔
    c ∈ ['\\', '.', '+', '*', '?', '(', ')', '|', '[', ']', '\x7b', '\x7d', '^', '$', '#', '&', '-',
      '~'] := by
  rw [isMeta, List.contains_iff_mem]

open Regex in
/-- A character that an expression escapes stands for itself behind a backslash. -/
theorem piece?_of_isMeta {c : Char} (h : isMeta c = true) (cs : List Char) :
    piece? '\\' (c :: cs) = some (.item (.char c), cs) := by
  rw [isMeta_iff] at h
  simp only [List.mem_cons, List.not_mem_nil, or_false] at h
  rcases h with rfl | rfl | rfl | rfl | rfl | rfl | rfl | rfl | rfl | rfl | rfl | rfl | rfl | rfl |
    rfl | rfl | rfl | rfl <;> rfl

theorem isMeta_of_isOperator {c : Char} (h : isOperator c = true) : isMeta c = true := by
  simp only [isOperator, List.contains_iff_mem, List.mem_cons, List.not_mem_nil, or_false] at h
  rcases h with rfl | rfl | rfl | rfl | rfl | rfl | rfl | rfl | rfl | rfl | rfl <;> decide

open Regex in
/-- A character stands for itself if it is no operator and none of the three that have a meaning at
some places only: a backslash, the wildcard and the end of the text. -/
theorem piece?_of_not_isOperator {c : Char} (h : isOperator c = false) (hbackslash : c ≠ '\\')
    (hwildcard : c ≠ '.') (hfinish : c ≠ '$') (cs : List Char) :
    piece? c cs = some (.item (.char c), cs) := by
  unfold piece?
  split
  case h_13 => rfl
  case h_9 => exact absurd rfl hbackslash
  case h_10 => exact absurd rfl hwildcard
  case h_12 => exact absurd rfl hfinish
  all_goals exact absurd h (by decide)

open Regex in
/-- A character that needs no escape stands for itself. -/
theorem piece?_of_not_isMeta {c : Char} (h : isMeta c = false) (cs : List Char) :
    piece? c cs = some (.item (.char c), cs) := by
  have hne : ∀ d, isMeta d = true → c ≠ d := by
    rintro d hd rfl
    rw [hd] at h
    cases h
  have hoperator : isOperator c = false :=
    Bool.eq_false_iff.mpr fun htrue => hne c (isMeta_of_isOperator htrue) rfl
  exact piece?_of_not_isOperator hoperator (hne '\\' (by decide)) (hne '.' (by decide))
    (hne '$' (by decide)) cs

theorem dropShort_cons {c : Char} (h : c ≠ '?') (cs : List Char) :
    Regex.dropShort (c :: cs) = c :: cs := by
  unfold Regex.dropShort
  split
  · next heq => exact absurd (List.cons.inj heq).1 h
  · rfl

/-- No wildcard text begins with what would make a quantifier before it prefer short matches. -/
theorem dropShort_body (cs : List Char) :
    Regex.dropShort (body cs ++ ['$']) = body cs ++ ['$'] := by
  have hliteral : ∀ c rest, Regex.dropShort (literal c ++ rest) = literal c ++ rest := by
    intro c rest
    unfold literal
    split
    · rfl
    · next hmeta =>
      refine dropShort_cons ?_ rest
      rintro rfl
      exact hmeta (by decide)
  fun_cases body cs with
  | case6 c rest =>
    rw [List.append_assoc]
    exact hliteral _ _
  | _ => rfl

/-! ## The expression is read -/

open Regex in
/-- The pieces of a wildcard text are those of its parts, in their order. A run is a wildcard with a
quantifier behind it, so the parts are not one piece each. -/
theorem pieces?_body (cs : List Char) :
    pieces? (body cs ++ ['$']) = some ((parts cs).flatMap Part.pieces ++ [.item .finish]) := by
  fun_induction parts cs with
  | case1 =>
    rw [body, List.nil_append, pieces?_cons rfl (List.suffix_refl _), pieces?]
    rfl
  | case2 cs ih | case3 cs ih =>
    rw [body, List.cons_append, pieces?_cons rfl (List.suffix_refl _), ih]
    rfl
  | case4 cs ih =>
    have hstar : piece? '*' (body cs ++ ['$']) = some (.quantifier 0 none, body cs ++ ['$']) := by
      rw [piece?, dropShort_body]
    rw [body, List.cons_append, List.cons_append, pieces?_cons rfl (List.suffix_refl _),
      pieces?_cons hstar (List.suffix_refl _), ih]
    rfl
  | case5 cs ih =>
    rw [body, List.cons_append, pieces?_cons rfl (List.suffix_refl _), ih]
    rfl
  | case6 c cs h₁ h₂ h₃ h₄ ih =>
    rw [body.eq_6 c cs h₁ h₂ h₃ h₄]
    unfold literal
    split
    · next hmeta =>
      rw [List.cons_append, List.cons_append, List.append_assoc, List.cons_append, List.nil_append,
        pieces?_cons (piece?_of_isMeta hmeta _) (List.suffix_cons ..), ih]
      rfl
    · next hmeta =>
      rw [List.cons_append, List.nil_append, List.cons_append,
        pieces?_cons (piece?_of_not_isMeta (Bool.not_eq_true _ ▸ hmeta) _) (List.suffix_refl _), ih]
      rfl

section Row

open Regex

variable {α : Type} {pieces : α → List Piece} {regex : α → Regex}

/-- Where the pieces of each item add one expression, those of a row of items add their expressions
to the open group. -/
theorem assemble?_flatMap
    (hadd : ∀ a group rest,
      assemble? [] group (pieces a ++ rest) = assemble? [] (group.add (regex a)) rest)
    (as : List α) (group : Group) (rest : List Piece) :
    assemble? [] group (as.flatMap pieces ++ rest) =
      assemble? [] { group with items := (as.map regex).reverse ++ group.items } rest := by
  induction as generalizing group with
  | nil => rfl
  | cons a as ih =>
    rw [List.flatMap_cons, List.append_assoc, hadd, ih, Group.add, List.map_cons,
      List.reverse_cons, List.append_assoc, List.singleton_append]

/-- Between the anchors the pieces of a row of items come to a sequence of the items' expressions. -/
theorem assemble?_row
    (hadd : ∀ a group rest,
      assemble? [] group (pieces a ++ rest) = assemble? [] (group.add (regex a)) rest)
    (as : List α) :
    assemble? [] (.new false) (.item .start :: (as.flatMap pieces ++ [.item .finish])) =
      some (.seqOf (.start :: as.map regex ++ [.finish])) := by
  rw [assemble?, assemble?_flatMap hadd]
  simp only [assemble?, Group.close, Group.current, Group.add, Group.new, List.reverse_cons,
    List.reverse_append, List.reverse_reverse, List.reverse_nil, List.nil_append, altOf,
    List.cons_append]

end Row

open Regex in
/-- The pieces of a part add the expression of the part to the open group. -/
theorem assemble?_part (part : Part) (group : Group) (rest : List Piece) :
    assemble? [] group (part.pieces ++ rest) = assemble? [] (group.add part.regex) rest := by
  cases part with
  | exactly c | one | run => rfl

open Regex in
/-- **What the expression of a wildcard text reads as**: its parts in a row, anchored at both
ends. -/
theorem ofText?_toRegex (like : String) :
    ofText? (toRegex like) = some (anchored (parts like.toList)) := by
  have hpieces : pieces? (toRegex like).toList =
      some (.item .start :: ((parts like.toList).flatMap Part.pieces ++ [.item .finish])) := by
    rw [toRegex, String.toList_ofList, List.cons_append,
      pieces?_cons rfl (List.suffix_refl _), pieces?_body]
    rfl
  rw [ofText?, hpieces]
  exact assemble?_row assemble?_part _

end Like

/-- `5_` as a pattern. -/
def Pattern.fiveAndOne : Pattern :=
  ⟨Like.toRegex "5_", Like.anchored [.exactly '5', .one], Like.ofText?_toRegex "5_",
    by decide +kernel⟩

end WhereRules
