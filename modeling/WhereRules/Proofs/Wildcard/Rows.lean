import WhereRules.Proofs.Wildcard.Pieces

/-!
# Rows with edges of words

An expression that is turned back into a wildcard text may ask for one thing that no wildcard text
asks for: that a word starts or ends at a place. So it comes to a row of items, each a part of a
wildcard text or the edge of a word (`Like.Item`). What a row is found in is said by cutting the text
into pieces, as for parts alone, but an edge also looks at what stands before it (`Like.Spans`,
`isFoundIn_row_iff_spans`).

A wildcard does not mind which characters it stands for, and an edge only minds which of them are part
of words. So where a row is found in some text, it is found in one that has no more of the characters
with a meaning than the parts of the row ask for (`Spans.exists_signs_eq`).
-/

namespace WhereRules.Like

/-! ## Items -/

/-- What an anchored expression can be a row of. -/
inductive Item
  | part (part : Part)
  | edge (edge : WordEdge)
deriving DecidableEq

/-- The expression of an item. -/
def Item.regex : Item → Regex
  | part p => p.regex
  | edge e => .wordEdge e

/-- The pieces that an item is spelled by. -/
def Item.pieces : Item → List Regex.Piece
  | part p => p.pieces
  | edge e => [.item (.wordEdge e)]

/-- The expression of a row of items, anchored at both ends. -/
def row (items : List Item) : Regex := .seqOf (.start :: items.map Item.regex ++ [.finish])

/-- A row of nothing but parts is what a wildcard text is kept as. -/
theorem row_parts (ps : List Part) : row (ps.map .part) = anchored ps := by
  rw [row, List.map_map]
  rfl

open Regex in
/-- The pieces of an item add the expression of the item to the open group. -/
theorem assemble?_item (item : Item) (group : Group) (rest : List Piece) :
    assemble? [] group (item.pieces ++ rest) = assemble? [] (group.add item.regex) rest := by
  cases item with
  | part part => exact assemble?_part part group rest
  | edge edge => rfl

/-! ## Texts of rows -/

/-- Behind what stands in front, the items stand for the rest of the text, one after the other. -/
inductive Spans : List Item → (front rest : List Char) → Prop
  | nil (front : List Char) : Spans [] front []
  | part {part : Part} {items : List Item} {front piece rest : List Char} :
    part.StandsFor piece → Spans items (front ++ piece) rest →
      Spans (.part part :: items) front (piece ++ rest)
  | edge {edge : WordEdge} {items : List Item} {front rest : List Char} :
    edge.isBetween (Regex.endsInWord front) (Regex.beginsInWord rest) = true →
      Spans items front rest → Spans (.edge edge :: items) front rest

/-- Nothing at all stands for no text but the empty one. -/
theorem spans_nil {front rest : List Char} : Spans [] front rest ↔ rest = [] := by
  constructor
  · rintro ⟨⟩
    rfl
  · rintro rfl
    exact .nil front

/-- A part at the front stands for a piece off the front. -/
theorem spans_part {part : Part} {items : List Item} {front rest : List Char} :
    Spans (.part part :: items) front rest ↔
      ∃ piece tail, part.StandsFor piece ∧ piece ++ tail = rest ∧
        Spans items (front ++ piece) tail := by
  constructor
  · rintro ⟨⟩
    next piece tail hpiece hrest => exact ⟨piece, tail, hpiece, rfl, hrest⟩
  · rintro ⟨piece, tail, hpiece, rfl, hrest⟩
    exact .part hpiece hrest

/-- An edge at the front takes nothing and has to be there. -/
theorem spans_edge {edge : WordEdge} {items : List Item} {front rest : List Char} :
    Spans (.edge edge :: items) front rest ↔
      edge.isBetween (Regex.endsInWord front) (Regex.beginsInWord rest) = true ∧
        Spans items front rest := by
  constructor
  · rintro ⟨⟩
    next hedge hrest => exact ⟨hedge, hrest⟩
  · rintro ⟨hedge, hrest⟩
    exact .edge hedge hrest

open Regex in
/-- **A row is found in just the texts that its items stand for from start to end.** The matcher
tries all cuts at once; here the cuts are named one by one. -/
theorem isFoundIn_row_iff_spans (items : List Item) (text : List Char) :
    (row items).isFoundIn text = true ↔ Spans items [] text := by
  refine isFoundIn_row (fun _ _ => spans_nil) (fun item items places => ?_) items
  cases item with
  | part part =>
    rw [Item.regex, reaches_part]
    exact Reaches.congr fun _ _ _ => spans_part.symm
  | edge edge =>
    rw [Item.regex, reaches_wordEdge]
    exact Reaches.congr fun _ _ _ => spans_edge.symm

/-! ## Signs -/

/-- Whether a character means something in a wildcard text, or is the edge of a word behind the
backslash of an expression. -/
def isSign (c : Char) : Bool := ['%', '_', '<', '>'].contains c

/-- A character that is no sign, and part of words just when the given one is. -/
def plain (c : Char) : Char := if c = '_' then 'x' else if isSign c then ' ' else c

/-- Of the signs only the low line is part of words. -/
theorem eq_of_isSign {c : Char} (h : isSign c = true) : c = '_' ∨ isWord c = false := by
  rw [isSign, List.contains_iff_mem] at h
  simp only [List.mem_cons, List.not_mem_nil, or_false] at h
  rcases h with rfl | rfl | rfl | rfl
  · exact .inr (by decide +kernel)
  · exact .inl rfl
  · exact .inr (by decide +kernel)
  · exact .inr (by decide +kernel)

/-- Exchanging signs leaves words where they are. The low line, which is part of words, is exchanged
for a letter and the others for a blank. -/
theorem isWord_plain (c : Char) : isWord (plain c) = isWord c := by
  unfold plain
  split
  · next hline =>
    subst hline
    decide
  · next hline =>
    split
    · next hsign =>
      rw [(eq_of_isSign hsign).resolve_left hline]
      decide +kernel
    · rfl

/-- What is exchanged for a sign is none. -/
theorem isSign_plain (c : Char) : isSign (plain c) = false := by
  unfold plain
  split
  · rfl
  · split
    · rfl
    · next hsign => exact Bool.eq_false_iff.mpr hsign

/-- Exchanging brings in no line feed, so a wildcard may stand for the other character too. -/
theorem plain_ne_lineFeed {c : Char} (h : c ≠ '\n') : plain c ≠ '\n' := by
  unfold plain
  split
  · decide
  · split
    · decide
    · exact h

/-- The shortest text that a part stands for, and no sign unless the part asks for it. -/
def Part.least : Part → List Char
  | exactly c => [c]
  | one => ['x']
  | run => []

theorem Part.standsFor_least : (part : Part) → part.StandsFor part.least
  | exactly c => .exactly c
  | one => .one (by decide)
  | run => .run List.not_mem_nil

/-- How many signs the parts ask for. -/
def signs (ps : List Part) : Nat := (ps.flatMap Part.least).countP isSign

theorem signs_cons (part : Part) (ps : List Part) :
    signs (part :: ps) = part.least.countP isSign + signs ps := by
  rw [signs, List.flatMap_cons, List.countP_append, signs]

/-- The parts of a row without its edges. -/
def partsOf : List Item → List Part
  | [] => []
  | .part p :: items => p :: partsOf items
  | .edge _ :: items => partsOf items

/-! ## Texts without needless signs -/

/-- Whether a word ends at a place depends on the words in front only. -/
theorem endsInWord_congr {front front' : List Char} (h : front'.map isWord = front.map isWord) :
    Regex.endsInWord front' = Regex.endsInWord front := by
  have hmap : ∀ cs : List Char, Regex.endsInWord cs = (cs.map isWord).getLast?.any id := fun cs => by
    rw [List.getLast?_map, Option.any_map]
    rfl
  rw [hmap, hmap, h]

/-- Whether a word begins at a place depends on the words behind only. -/
theorem beginsInWord_congr {rest rest' : List Char} (h : rest'.map isWord = rest.map isWord) :
    Regex.beginsInWord rest' = Regex.beginsInWord rest := by
  have hmap : ∀ cs : List Char, Regex.beginsInWord cs = (cs.map isWord).head?.any id := fun cs => by
    rw [List.head?_map, Option.any_map]
    rfl
  rw [hmap, hmap, h]

/-- A part stands for a piece with no more signs than it asks for, and with words in the same
places. -/
theorem Part.StandsFor.exists_signs_eq {part : Part} {piece : List Char}
    (h : part.StandsFor piece) :
    ∃ piece', part.StandsFor piece' ∧ piece'.map isWord = piece.map isWord ∧
      piece'.countP isSign = part.least.countP isSign := by
  cases h with
  | exactly c => exact ⟨[c], .exactly c, rfl, rfl⟩
  | @one c hc =>
    refine ⟨[plain c], .one (plain_ne_lineFeed hc), ?_, ?_⟩
    · rw [List.map_singleton, List.map_singleton, isWord_plain]
    · rw [List.countP_singleton, isSign_plain]
      rfl
  | @run piece hpiece =>
    refine ⟨piece.map plain, .run fun hmem => ?_, ?_, ?_⟩
    · obtain ⟨c, hc, heq⟩ := List.mem_map.mp hmem
      exact plain_ne_lineFeed (fun hline => hpiece (hline ▸ hc)) heq
    · rw [List.map_map]
      exact List.map_congr_left fun c _ => isWord_plain c
    · rw [List.countP_map]
      exact List.countP_eq_zero.mpr fun c _ => by
        rw [Function.comp_apply, isSign_plain]
        exact Bool.false_ne_true

/-- **A row that stands for a text stands for one with no more signs than its parts ask for.** The
signs that wildcards stand for are exchanged for characters that are no signs; words stay where they
were, so the edges stay too. -/
theorem Spans.exists_signs_eq {items : List Item} {front rest : List Char}
    (h : Spans items front rest) {front' : List Char} (hfront : front'.map isWord = front.map isWord) :
    ∃ rest', Spans items front' rest' ∧ rest'.map isWord = rest.map isWord ∧
      rest'.countP isSign = signs (partsOf items) := by
  induction h generalizing front' with
  | nil front => exact ⟨[], .nil front', rfl, rfl⟩
  | @part part items front piece rest hpiece _ ih =>
    obtain ⟨piece', hpiece', hwords, hsigns⟩ := hpiece.exists_signs_eq
    have hahead : (front' ++ piece').map isWord = (front ++ piece).map isWord := by
      rw [List.map_append, List.map_append, hfront, hwords]
    obtain ⟨rest', hrest', hrestWords, hrestSigns⟩ := ih hahead
    refine ⟨piece' ++ rest', .part hpiece' hrest', ?_, ?_⟩
    · rw [List.map_append, List.map_append, hwords, hrestWords]
    · rw [List.countP_append, hsigns, hrestSigns]
      exact (signs_cons part (partsOf items)).symm
  | @edge edge items front rest hedge _ ih =>
    obtain ⟨rest', hrest', hwords, hsigns⟩ := ih hfront
    refine ⟨rest', .edge ?_ hrest', hwords, hsigns⟩
    rw [endsInWord_congr hfront, beginsInWord_congr hwords]
    exact hedge

end WhereRules.Like
