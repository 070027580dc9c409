import WhereRules.Proofs.Wildcard.Matching

/-!
# Texts cut into pieces

What it means for a wildcard text to describe a text, said without a matcher: the text can be cut
into as many pieces as the wildcard text has parts, and each part stands for its piece
(`Like.Describes`). Nothing is said of how the cuts are found.

`Like.covers` finds them (`covers_iff`), so a text holds the pattern of a wildcard text just when the
wildcard text describes it (`isFoundIn_toRegex_iff`). That there is a pattern at all is part of that
statement. The expression of a wildcard text can always be read and never nests deeper than it may
(`fits_of_small`), and only the room that its automata take may refuse it.
-/

namespace WhereRules

namespace Regex

/-- Whether both automata of an expression are within the limit. -/
def Small (r : Regex) : Prop := ∀ direction, r.shape.automatonSize direction ≤ automatonSizeMax

instance (r : Regex) : Decidable r.Small :=
  decidable_of_iff (r.shape.automatonSize .forward ≤ automatonSizeMax ∧
      r.shape.automatonSize .backward ≤ automatonSizeMax)
    ⟨fun h direction => by cases direction with
      | forward => exact h.1
      | backward => exact h.2,
    fun h => ⟨h .forward, h .backward⟩⟩

/-- A sequence is one level above its items, however many there are. It is kept as a pair of an item
and a sequence, and such pairs are no levels of their own. -/
theorem nesting_seqOf {n : Nat} {items : List Regex} (h : ∀ r ∈ items, r.nesting ≤ n) :
    (seqOf items).nesting ≤ n + 1 := by
  induction items with
  | nil => exact Nat.zero_le _
  | cons item items ih =>
    obtain ⟨hitem, hitems⟩ := List.forall_mem_cons.mp h
    match items with
    | [] => exact Nat.le_succ_of_le hitem
    | [last] =>
      have hlast := hitems last List.mem_cons_self
      rw [seqOf, seqOf, nesting.eq_def]
      refine Nat.max_le.mpr ⟨Nat.succ_le_succ hitem, ?_⟩
      split
      · exact Nat.le_succ_of_le hlast
      · exact Nat.succ_le_succ hlast
      · exact fun hnil => by cases hnil
    | second :: third :: items =>
      -- What follows the first item is a sequence itself, and no level is counted twice.
      exact Nat.max_le.mpr ⟨Nat.succ_le_succ hitem, ih hitems⟩

end Regex

namespace Like

/-! ## Limits -/

/-- The expression of a wildcard text never nests deeper than a run in a sequence. -/
theorem nesting_anchored (ps : List Part) : (anchored ps).nesting ≤ 2 := by
  refine Regex.nesting_seqOf fun r hr => ?_
  rcases List.mem_append.mp hr with hr | hr
  · rcases List.mem_cons.mp hr with rfl | hr
    · exact Nat.zero_le 1
    · obtain ⟨part, -, rfl⟩ := List.mem_map.mp hr
      cases part with
      | exactly c => exact Nat.zero_le 1
      | one => exact Nat.zero_le 1
      | run => exact Nat.le_refl 1
  · rw [List.mem_singleton.mp hr]
    exact Nat.zero_le 1

/-- Of the limits on expressions only the one on automata matters to wildcard texts: they nest two
deep and repeat nothing a given number of times. -/
theorem fits_of_small {ps : List Part} (h : (anchored ps).Small) : (anchored ps).fits = true := by
  have hnesting : (anchored ps).nesting ≤ Regex.nestingMax :=
    Nat.le_trans (nesting_anchored ps) (by decide)
  simp only [Regex.fits, hnesting, h .forward, h .backward, decide_true, Bool.and_self]

/-- The pattern of a wildcard text. -/
def toPattern (like : String) (h : (anchored (parts like.toList)).Small) : Pattern :=
  ⟨toRegex like, anchored (parts like.toList), ofText?_toRegex like, fits_of_small h⟩

/-! ## Pieces -/

/-- A text is cut into pieces that the parts stand for, one after the other. -/
def Cut (ps : List Part) (cs : List Char) : Prop :=
  ∃ pieces, List.Forall₂ Part.StandsFor ps pieces ∧ pieces.flatten = cs

/-- The wildcard text describes the whole of the text. -/
def Describes (like text : String) : Prop := Cut (parts like.toList) text.toList

/-- Nothing at all is cut from the empty text only. -/
theorem cut_nil {cs : List Char} : Cut [] cs ↔ cs = [] := by
  constructor
  · rintro ⟨_, ⟨⟩, rfl⟩
    rfl
  · rintro rfl
    exact ⟨[], .nil, rfl⟩

/-- The first part stands for a piece off the front, and the other parts for pieces of what is
left. -/
theorem cut_cons {part : Part} {ps : List Part} {cs : List Char} :
    Cut (part :: ps) cs ↔ ∃ piece rest, part.StandsFor piece ∧ Cut ps rest ∧ piece ++ rest = cs := by
  constructor
  · rintro ⟨_, hpieces, rfl⟩
    cases hpieces with
    | cons hpiece hrest => exact ⟨_, _, hpiece, ⟨_, hrest, rfl⟩, rfl⟩
  · rintro ⟨piece, _, hpiece, ⟨pieces, hpieces, rfl⟩, rfl⟩
    exact ⟨piece :: pieces, .cons hpiece hpieces, rfl⟩

/-- The matcher of parts finds the cuts if there are any. It tries every length for a run, so it
never has to take one back. -/
theorem covers_iff {ps : List Part} {cs : List Char} : covers ps cs = true ↔ Cut ps cs := by
  induction ps generalizing cs with
  | nil => rw [covers, List.isEmpty_iff, cut_nil]
  | cons part ps ih =>
    rw [covers_cons, cut_cons]
    simp only [ih]

/-! ## What matches -/

/-- **A wildcard text has a pattern, and a text holds it just when the wildcard text describes the
whole of the text**: a backslash right before a wildcard makes it stand for itself, `%` stands for a
run of characters and `_` for one, neither for a line feed, and everything else stands for itself.
All that is asked is that the automata are not too large. -/
theorem isFoundIn_toRegex_iff (like : String) (small : (anchored (parts like.toList)).Small) :
    ∃ pattern, Pattern.ofText? (toRegex like) = some pattern ∧
      ∀ text, pattern.isFoundIn text = true ↔ Describes like text := by
  have hread := Pattern.ofText?_source (toPattern like small)
  refine ⟨toPattern like small, hread, fun text => ?_⟩
  rw [isFoundIn_toRegex hread, admits, covers_iff, Describes]

/-- A wildcard text in which a backslash, an escaped wildcard and characters that mean something in
expressions stand next to wildcards. -/
theorem isFoundIn_toRegex_mixed :
    (anchored (parts "\\\\_%\\%(_.*".toList)).Small ∧
      ∃ pattern, Pattern.ofText? (toRegex "\\\\_%\\%(_.*") = some pattern ∧
        ∀ text, pattern.isFoundIn text = true ↔ Describes "\\\\_%\\%(_.*" text := by
  have small : (anchored (parts "\\\\_%\\%(_.*".toList)).Small := by decide +kernel
  exact ⟨small, isFoundIn_toRegex_iff _ small⟩

example : parts "\\\\_%\\%(_.*".toList =
    [.exactly '\\', .exactly '_', .run, .exactly '%', .exactly '(', .one, .exactly '.',
      .exactly '*'] := by decide

end Like

end WhereRules
