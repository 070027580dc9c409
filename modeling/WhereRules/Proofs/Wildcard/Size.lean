import WhereRules.Proofs.Wildcard.Pieces

/-!
# How large wildcard texts are

The automata of a wildcard text grow with the number of its parts: a sequence takes no more room
than its items take together (`Shape.bulk_seq_le`), and a run of characters is the largest part. So
every wildcard text that is not very long is within the limits (`small_of_length_le`).
-/

namespace WhereRules

namespace Shape

variable {direction : Direction}

/-- The size of a shape as a part of a sequence. -/
def bulk (direction : Direction) (shape : Shape) : Nat := sizeSum direction shape.items

/-- Only nothing at all takes more room alone than in a sequence, and it takes one state. -/
theorem size_le_bulk (shape : Shape) : size direction shape ≤ bulk direction shape + stateSize := by
  cases shape with
  | empty => exact Nat.le_add_left _ _
  | _ => simp only [bulk, items, sizeSum, size]; omega

/-- A shape takes no more room as a part of a sequence than alone. -/
theorem bulk_le_size (shape : Shape) : bulk direction shape ≤ size direction shape := by
  cases shape with
  | empty => exact Nat.zero_le _
  | _ => simp only [bulk, items, sizeSum, size]; omega

/-- Texts side by side are as large as one text. Joining them saves nothing and costs nothing. -/
theorem sizeSum_before (item : Shape) (items : List Shape) :
    sizeSum direction (before item items) = size direction item + sizeSum direction items := by
  unfold before
  split
  · simp only [sizeSum, size, wordOf, List.flatMap_append]
    cases direction <;>
      simp only [List.length_append, List.length_reverse, Nat.mul_add, Nat.add_assoc]
  · rw [sizeSum]

/-- The items of two sequences one after the other take the room of both. -/
theorem sizeSum_foldr_before (items others : List Shape) :
    sizeSum direction (items.foldr before others) =
      sizeSum direction items + sizeSum direction others := by
  induction items with
  | nil => rw [List.foldr_nil, sizeSum, Nat.zero_add]
  | cons item items ih => rw [List.foldr_cons, sizeSum_before, ih, sizeSum, Nat.add_assoc]

/-- Making one shape of items takes no more room than the items do. -/
theorem bulk_ofItems_le (items : List Shape) :
    bulk direction (ofItems items) ≤ sizeSum direction items := by
  match items with
  | [] => exact Nat.le_refl _
  | [item] => exact bulk_le_size item
  | _ :: _ :: _ => exact Nat.le_refl _

/-- **A sequence takes no more room than its two sides together.** This makes the size of a row
linear in its length. -/
theorem bulk_seq_le (a b : Shape) :
    bulk direction (seq a b) ≤ bulk direction a + bulk direction b := by
  calc bulk direction (seq a b)
    _ ≤ sizeSum direction (a.items.foldr before b.items) := bulk_ofItems_le _
    _ = bulk direction a + bulk direction b := sizeSum_foldr_before _ _

/-- What comes before a shape takes little room: a loop over the characters before a match and the
states that lead into it. -/
theorem entrySize_le (traits : Traits) : entrySize direction traits ≤ 112 := by
  cases direction with
  | forward =>
    cases hstart : traits.atStart <;> simp only [entrySize, hstart] <;> decide
  | backward =>
    cases hfinish : traits.atFinish <;> simp only [entrySize, hfinish] <;> decide

/-- An automaton is its shape and little besides, whatever the shape. -/
theorem automatonSize_le (shape : Shape) :
    automatonSize direction shape ≤ bulk direction shape + 240 := by
  have hentry : entrySize direction shape.traits ≤ 112 := entrySize_le _
  have hsize : size direction shape ≤ bulk direction shape + stateSize := size_le_bulk shape
  have hcapture : size direction (capture shape) ≤ 64 + size direction shape := by
    cases direction <;> simp only [size, stateSize] <;> omega
  simp only [automatonSize, stateSize] at hsize ⊢
  omega

end Shape

namespace Regex

/-- A sequence of items that are each of bounded size is bounded by their number. The induction is
on the items, each added to a sequence. -/
theorem bulk_seqOf_le {direction : Direction} {n : Nat} {items : List Regex}
    (h : ∀ r ∈ items, r.shape.bulk direction ≤ n) :
    (seqOf items).shape.bulk direction ≤ n * items.length := by
  induction items with
  | nil => exact Nat.zero_le _
  | cons item items ih =>
    obtain ⟨hitem, hitems⟩ := List.forall_mem_cons.mp h
    cases items with
    | nil => rwa [seqOf, List.length_singleton, Nat.mul_one]
    | cons next items =>
      have hseq : (seqOf (item :: next :: items)).shape =
          item.shape.seq (seqOf (next :: items)).shape := rfl
      have hrest := ih hitems
      rw [hseq, List.length_cons, Nat.mul_succ]
      calc (item.shape.seq (seqOf (next :: items)).shape).bulk direction
        _ ≤ item.shape.bulk direction + (seqOf (next :: items)).shape.bulk direction :=
          Shape.bulk_seq_le _ _
        _ ≤ n * (next :: items).length + n := by omega

end Regex

namespace Like

/-- The room that a run of characters takes in the automaton that reads backward, which is the most
that any part takes. -/
def partSizeMax : Nat := 1040

theorem shape_exactly (c : Char) : (Part.exactly c).regex.shape = .literal [c] := by
  have hspans : (CharSet.single c).spans = [(c.toNat, c.toNat)] := by
    rw [CharSet.single, CharSet.spans, if_pos (Char.le_refl c)]
  show Shape.ofSpans (CharSet.single c).spans = _
  rw [hspans, Shape.ofSpans, if_pos rfl, Char.ofNat_toNat]

/-- No part takes more room than a run of characters. The three kinds of parts are measured one by
one, in both directions. -/
theorem bulk_part_le (direction : Direction) (part : Part) :
    part.regex.shape.bulk direction ≤ partSizeMax := by
  cases part with
  | exactly c =>
    have hbytes : (Shape.wordOf direction [c]).length ≤ 4 := by
      have hc := c.utf8Size_le_four
      cases direction <;> simpa [Shape.wordOf] using hc
    rw [shape_exactly]
    simp only [Shape.bulk, Shape.items, Shape.sizeSum, Shape.size, Shape.stateSize, partSizeMax]
    omega
  | one => cases direction <;> decide +kernel
  | run => cases direction <;> decide +kernel

theorem length_parts_le (cs : List Char) : (parts cs).length ≤ cs.length := by
  fun_induction parts cs with
  | case1 => exact Nat.le_refl _
  | case2 cs ih | case3 cs ih | case4 cs ih | case5 cs ih | case6 c cs _ _ _ _ ih =>
    simp only [List.length_cons]
    omega

/-- **A wildcard text of at most ten thousand characters is within the limits.** It has no more
parts than characters, and ten thousand runs are just below the limit. -/
theorem small_of_length_le {like : String} (h : like.length ≤ 10000) :
    (anchored (parts like.toList)).Small := by
  intro direction
  have hparts : (parts like.toList).length ≤ 10000 :=
    Nat.le_trans (length_parts_le _) (by rwa [String.length_toList])
  have hbulk : (anchored (parts like.toList)).shape.bulk direction ≤
      partSizeMax * ((parts like.toList).length + 2) := by
    refine Nat.le_trans (Regex.bulk_seqOf_le (n := partSizeMax) fun r hr => ?_) ?_
    · rcases List.mem_append.mp hr with hr | hr
      · rcases List.mem_cons.mp hr with rfl | hr
        · exact (by decide : 32 ≤ partSizeMax)
        · obtain ⟨part, -, rfl⟩ := List.mem_map.mp hr
          exact bulk_part_le direction part
      · rw [List.mem_singleton.mp hr]
        exact (by decide : 32 ≤ partSizeMax)
    · simp only [List.length_append, List.length_cons, List.length_map, List.length_nil]
      exact Nat.le_refl _
  have hsize : (anchored (parts like.toList)).shape.automatonSize direction ≤ _ :=
    Shape.automatonSize_le _
  simp only [partSizeMax, Regex.automatonSizeMax] at hbulk ⊢
  omega

end Like

end WhereRules
