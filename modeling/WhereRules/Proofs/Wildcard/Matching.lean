import Mathlib.Data.Nat.Bitwise
import Mathlib.Logic.Function.Iterate
import WhereRules.Proofs.Wildcard.Language

/-!
# Matching wildcard texts

The matcher moves a set of places at once, kept as the bits of a number. A place splits a text in two,
and what a set of places is good for is which splits have a property (`Reaches`): each kind of
expression turns a property of the split behind it into one of the split before it. A character of a
class moves the split on, and the edge of a word looks at both of its sides.

An anchored row of expressions therefore is found in a text just when the whole text has the property
that the row comes to (`isFoundIn_row`). For the expression of a wildcard text this is `Like.covers`,
so matching it is admitting by the wildcard text (`isFoundIn_toRegex`).
-/

namespace WhereRules.Regex

/-- Some place of the set splits the text into two sides with the property. -/
def Reaches (text : List Char) (places : Nat) (Q : List Char → List Char → Prop) : Prop :=
  ∃ front rest, front ++ rest = text ∧ places.testBit front.length = true ∧ Q front rest

section Reaches

variable {text : List Char} {places : Nat} {Q R : List Char → List Char → Prop}

/-- Only what a property says of the splits of the text matters. No set of places has any other
split. -/
theorem Reaches.congr (h : ∀ front rest, front ++ rest = text → (Q front rest ↔ R front rest)) :
    Reaches text places Q ↔ Reaches text places R :=
  exists_congr fun front => exists_congr fun rest => and_congr_right fun heq =>
    and_congr_right fun _ => h front rest heq

/-- The places of two sets split the text as the places of either do. -/
theorem reaches_or {others : Nat} :
    Reaches text (places ||| others) Q ↔ Reaches text places Q ∨ Reaches text others Q := by
  simp only [Reaches, Nat.testBit_or, Bool.or_eq_true, or_and_right, and_or_left, exists_or]

/-- One of two properties is reached just when either is reached. -/
theorem reaches_union :
    Reaches text places (fun front rest => Q front rest ∨ R front rest) ↔
      Reaches text places Q ∨ Reaches text places R := by
  simp only [Reaches, and_or_left, exists_or]

/-- The first place has nothing on one side and the whole text on the other. -/
theorem reaches_one_place : Reaches text 1 Q ↔ Q [] text := by
  constructor
  · rintro ⟨front, rest, rfl, hbit, hq⟩
    obtain rfl := List.length_eq_zero_iff.mp (Nat.testBit_one_eq_true_iff_self_eq_zero.mp hbit)
    exact hq
  · intro hq
    exact ⟨[], text, rfl, rfl, hq⟩

end Reaches

/-! ## Bits of places -/

/-- The lowest bit of a set that is built up character by character is that of the first place. -/
theorem testBit_double_zero (places : Nat) (b : Bool) :
    (2 * places + b.toNat).testBit 0 = b := by
  cases b <;> simp [Nat.testBit_zero, Nat.add_mod, Nat.mul_mod_right]

/-- The other bits are those of the places behind the first character. -/
theorem testBit_double_succ (places : Nat) (b : Bool) (i : Nat) :
    (2 * places + b.toNat).testBit (i + 1) = places.testBit i := by
  have hhalf : (2 * places + b.toNat) / 2 = places := by
    cases b <;> simp only [Bool.toNat_false, Bool.toNat_true] <;> omega
  rw [Nat.testBit_succ, hhalf]

/-- A place is in the set of a class if the character behind the place is in the class. -/
theorem testBit_placesOf (set : CharSet) (front rest : List Char) :
    (placesOf set (front ++ rest)).testBit front.length = rest.head?.any set.mem := by
  induction front with
  | nil =>
    cases rest with
    | nil => exact Nat.zero_testBit 0
    | cons c rest => exact testBit_double_zero _ _
  | cons c front ih => rw [List.cons_append, placesOf, List.length_cons, testBit_double_succ, ih]

/-! ## One character -/

/-- One character of a class moves on by that character. A place counts afterwards if the place
before it did and the character between them is in the class. -/
theorem reaches_one {text : List Char} {set : CharSet} {levels places : Nat}
    {Q : List Char → List Char → Prop} : Reaches text (ends text (.one set levels) places) Q ↔
      Reaches text places fun front rest =>
        ∃ c tail, c :: tail = rest ∧ set.mem c = true ∧ Q (front ++ [c]) tail := by
  constructor
  · rintro ⟨front, rest, rfl, hbit, hq⟩
    rw [ends, Nat.testBit_shiftLeft, Nat.testBit_and] at hbit
    rcases front.eq_nil_or_concat with rfl | ⟨front, c, rfl⟩
    · cases hbit
    · rw [List.concat_eq_append] at hbit hq ⊢
      rw [List.length_append, List.length_singleton, Nat.add_sub_cancel, List.append_assoc,
        testBit_placesOf, List.singleton_append, List.head?_cons, Option.any_some,
        Bool.and_eq_true, Bool.and_eq_true] at hbit
      obtain ⟨-, hplace, hmem⟩ := hbit
      exact ⟨front, c :: rest, List.append_cons .. , hplace, c, rest, rfl, hmem, hq⟩
  · rintro ⟨front, rest, rfl, hplace, c, tail, rfl, hmem, hq⟩
    refine ⟨front ++ [c], tail, (List.append_cons ..).symm, ?_, hq⟩
    rw [ends, Nat.testBit_shiftLeft, Nat.testBit_and, List.length_append, List.length_singleton,
      Nat.add_sub_cancel, testBit_placesOf, List.head?_cons, Option.any_some, hplace, hmem,
      Bool.and_self, Bool.and_true, decide_eq_true_eq]
    exact Nat.le_add_left 1 front.length

/-! ## Edges of words -/

/-- Whether the last character of what stands before a place is part of a word. -/
def endsInWord (front : List Char) : Bool := front.getLast?.any isWord

/-- Whether the first character of what stands behind a place is part of a word. -/
def beginsInWord (rest : List Char) : Bool := rest.head?.any isWord

/-- A place is in the set of an edge if the edge stands between the two sides. Before the first
character the matcher goes by what it was told, which at the start of a text is no word. -/
theorem testBit_edgePlaces (edge : WordEdge) (before : Bool) (front rest : List Char) :
    (edgePlaces edge before (front ++ rest)).testBit front.length =
      edge.isBetween ((front.getLast?.map isWord).getD before) (beginsInWord rest) := by
  induction front generalizing before with
  | nil =>
    cases rest with
    | nil => cases hedge : edge.isBetween before false <;>
        simp [edgePlaces, beginsInWord, hedge, Nat.testBit_zero]
    | cons c rest => exact testBit_double_zero _ _
  | cons c front ih =>
    -- only the nearest character decides, so what stood before `c` is of no account
    have hlast : ((c :: front).getLast?.map isWord).getD before =
        (front.getLast?.map isWord).getD (isWord c) := by
      rw [List.getLast?_cons]
      cases front.getLast? <;> rfl
    rw [List.cons_append, edgePlaces, List.length_cons, testBit_double_succ, ih, hlast]

/-- The edge of a word stays at its place and looks at both sides. The start and the end of the text
count as no part of a word. -/
theorem reaches_wordEdge {text : List Char} {edge : WordEdge} {places : Nat}
    {Q : List Char → List Char → Prop} :
    Reaches text (ends text (.wordEdge edge) places) Q ↔
      Reaches text places fun front rest =>
        edge.isBetween (endsInWord front) (beginsInWord rest) = true ∧ Q front rest := by
  have hbit : ∀ front rest, front ++ rest = text →
      ((ends text (.wordEdge edge) places).testBit front.length = true ↔
        places.testBit front.length = true ∧
          edge.isBetween (endsInWord front) (beginsInWord rest) = true) := by
    rintro front rest rfl
    have hbefore : (front.getLast?.map isWord).getD false = endsInWord front := by
      rw [endsInWord]
      cases front.getLast? <;> rfl
    rw [ends, Nat.testBit_and, testBit_edgePlaces, hbefore, Bool.and_eq_true]
  refine exists_congr fun front => exists_congr fun rest => and_congr_right fun heq => ?_
  rw [hbit front rest heq, and_assoc]

/-! ## Runs of characters -/

/-- Stopping early changes nothing: a step that changes nothing changes nothing again. -/
theorem iterate_eq (step : Nat → Nat) (count places : Nat) :
    iterate step count places = step^[count] places := by
  induction count generalizing places with
  | zero => rfl
  | succ count ih =>
    rw [iterate, Function.iterate_succ_apply]
    split
    · next h => rw [h, Function.iterate_fixed h]
    · exact ih (step places)

/-- At most `count` rounds of one character move on by a piece of that many or fewer. The induction
is on the rounds, of which the first takes a character or none. -/
theorem reaches_rounds {text : List Char} {set : CharSet} {levels count places : Nat}
    {Q : List Char → List Char → Prop} :
    Reaches text
        ((fun reached => reached ||| ends text (.one set levels) reached)^[count] places) Q ↔
      Reaches text places fun front rest => ∃ piece tail, piece ++ tail = rest ∧
        piece.length ≤ count ∧ (∀ c ∈ piece, set.mem c = true) ∧ Q (front ++ piece) tail := by
  induction count generalizing places with
  | zero =>
    refine Reaches.congr fun front rest _ => ?_
    constructor
    · intro hq
      exact ⟨[], rest, rfl, Nat.le_refl 0, List.forall_mem_nil _, (List.append_nil front).symm ▸ hq⟩
    · rintro ⟨piece, tail, rfl, hlen, -, hq⟩
      obtain rfl := List.length_eq_zero_iff.mp (Nat.le_zero.mp hlen)
      rwa [List.append_nil] at hq
  | succ count ih =>
    rw [Function.iterate_succ_apply, ih, reaches_or, reaches_one, ← reaches_union]
    refine Reaches.congr fun front rest _ => ?_
    constructor
    · rintro (⟨piece, tail, hrest, hlen, hall, hq⟩ |
        ⟨c, _, rfl, hmem, piece, tail, rfl, hlen, hall, hq⟩)
      · exact ⟨piece, tail, hrest, Nat.le_succ_of_le hlen, hall, hq⟩
      · refine ⟨c :: piece, tail, rfl, Nat.succ_le_succ hlen, List.forall_mem_cons.mpr ⟨hmem, hall⟩,
          ?_⟩
        rwa [List.append_cons]
    · rintro ⟨piece, tail, rfl, hlen, hall, hq⟩
      cases piece with
      | nil => exact .inl ⟨[], tail, rfl, Nat.zero_le _, hall, hq⟩
      | cons c piece =>
        obtain ⟨hmem, hall⟩ := List.forall_mem_cons.mp hall
        rw [List.append_cons] at hq
        exact .inr ⟨c, piece ++ tail, rfl, hmem, piece, tail, rfl, Nat.le_of_succ_le_succ hlen, hall,
          hq⟩

/-- Any number of characters of a class move on by a piece of them. As many rounds as the text has
places are enough, for no piece is longer than the text. -/
theorem reaches_repeated {text : List Char} {set : CharSet} {levels places : Nat}
    {Q : List Char → List Char → Prop} :
    Reaches text (ends text (.repeated (.one set levels) 0 none) places) Q ↔
      Reaches text places fun front rest => ∃ piece tail, piece ++ tail = rest ∧
        (∀ c ∈ piece, set.mem c = true) ∧ Q (front ++ piece) tail := by
  rw [ends, iterate_eq, iterate, reaches_rounds]
  refine Reaches.congr fun front rest htext => ?_
  constructor
  · rintro ⟨piece, tail, hrest, -, h⟩
    exact ⟨piece, tail, hrest, h⟩
  · rintro ⟨piece, tail, rfl, h⟩
    refine ⟨piece, tail, rfl, ?_, h⟩
    rw [← htext, List.length_append, List.length_append]
    omega

/-! ## Classes of wildcard texts -/

theorem mem_single (c d : Char) : (CharSet.single c).mem d = (d == c) := by
  rw [CharSet.single, CharSet.mem]
  by_cases h : d = c
  · subst h
    simp only [Char.le_refl, decide_true, Bool.and_self, beq_self_eq_true]
  · rw [beq_eq_false_iff_ne.mpr h, Bool.and_eq_false_iff, decide_eq_false_iff_not,
      decide_eq_false_iff_not]
    by_contra hboth
    rw [not_or, not_not, not_not] at hboth
    exact h (Char.le_antisymm hboth.2 hboth.1)

theorem mem_wildcard (c : Char) : CharSet.wildcard.mem c = (c != '\n') := by
  rw [CharSet.wildcard, CharSet.mem, mem_single, bne]

open Like in
/-- **A part of a wildcard text moves on by a piece that it stands for.** This is all that the
matcher has to do with wildcard texts. -/
theorem reaches_part {text : List Char} {part : Part} {places : Nat}
    {Q : List Char → List Char → Prop} :
    Reaches text (ends text part.regex places) Q ↔
      Reaches text places fun front rest =>
        ∃ piece tail, part.StandsFor piece ∧ piece ++ tail = rest ∧ Q (front ++ piece) tail := by
  cases part with
  | exactly c =>
    rw [Part.regex, reaches_one]
    refine Reaches.congr fun front rest _ => ?_
    constructor
    · rintro ⟨d, tail, rfl, hmem, hq⟩
      rw [mem_single, beq_iff_eq] at hmem
      exact ⟨[d], tail, hmem ▸ .exactly d, rfl, hq⟩
    · rintro ⟨piece, tail, hpiece, rfl, hq⟩
      cases hpiece
      exact ⟨c, tail, rfl, by rw [mem_single, beq_self_eq_true], hq⟩
  | one =>
    rw [Part.regex, wildcard, reaches_one]
    refine Reaches.congr fun front rest _ => ?_
    constructor
    · rintro ⟨d, tail, rfl, hmem, hq⟩
      rw [mem_wildcard, bne_iff_ne] at hmem
      exact ⟨[d], tail, .one hmem, rfl, hq⟩
    · rintro ⟨piece, tail, hpiece, rfl, hq⟩
      cases hpiece with
      | one hd => exact ⟨_, tail, rfl, by rw [mem_wildcard, bne_iff_ne]; exact hd, hq⟩
  | run =>
    rw [Part.regex, wildcard, reaches_repeated]
    refine Reaches.congr fun front rest _ => ?_
    simp only [mem_wildcard, bne_iff_ne]
    constructor
    · rintro ⟨piece, tail, hrest, hall, hq⟩
      exact ⟨piece, tail, .run fun hmem => hall _ hmem rfl, hrest, hq⟩
    · rintro ⟨piece, tail, hpiece, hrest, hq⟩
      cases hpiece with
      | run hpiece => exact ⟨piece, tail, hrest, fun c hc heq => hpiece (heq ▸ hc), hq⟩

/-! ## Rows -/

/-- The expressions of a sequence move the places one after the other. -/
theorem ends_seqOf (text : List Char) (items : List Regex) (places : Nat) :
    ends text (seqOf items) places = items.foldl (fun places r => ends text r places) places := by
  induction items generalizing places with
  | nil => rfl
  | cons r items ih =>
    cases items with
    | nil => rfl
    | cons s items =>
      exact ih (ends text r places)

/-- The anchor at the end keeps the last place only, behind which nothing is left. -/
theorem ends_finish_ne_zero {text : List Char} {places : Nat} :
    ends text .finish places ≠ 0 ↔ Reaches text places fun _ rest => rest = [] := by
  have hbit : ends text .finish places = (places.testBit text.length).toNat * 2 ^ text.length := by
    rw [ends, Nat.one_shiftLeft, Nat.and_two_pow]
  rw [hbit]
  constructor
  · intro h
    refine ⟨text, [], List.append_nil text, ?_, rfl⟩
    by_contra hfalse
    rw [Bool.not_eq_true] at hfalse
    rw [hfalse, Bool.toNat_false, Nat.zero_mul] at h
    exact h rfl
  · rintro ⟨front, rest, rfl, htest, rfl⟩
    rw [List.append_nil, htest, Bool.toNat_true, Nat.one_mul]
    exact (Nat.two_pow_pos _).ne'

/-- The start of a text is one of its places. -/
theorem everyPlace_and_one (length : Nat) : everyPlace length &&& 1 = 1 := by
  rw [everyPlace, Nat.one_shiftLeft, Nat.and_one_is_mod]
  have : 2 ^ (length + 1) = 2 * 2 ^ length := by rw [Nat.pow_succ, Nat.mul_comm]
  have := Nat.two_pow_pos length
  omega

section Row

variable {α : Type} {regex : α → Regex} {text : List Char} {Q : List α → List Char → List Char → Prop}

/-- The expressions of a row reach one after the other what each of them reaches. -/
theorem reaches_row
    (hcons : ∀ a as places, Reaches text (ends text (regex a) places) (Q as) ↔
      Reaches text places (Q (a :: as)))
    (as : List α) (places : Nat) :
    Reaches text ((as.map regex).foldl (fun places r => ends text r places) places) (Q []) ↔
      Reaches text places (Q as) := by
  induction as generalizing places with
  | nil => exact Iff.rfl
  | cons a as ih => rw [List.map_cons, List.foldl_cons, ih, hcons]

/-- **An anchored row is found in the texts with the property that its items come to.** What each
item does to a property is all that has to be known of it. -/
theorem isFoundIn_row (hnil : ∀ front rest, Q [] front rest ↔ rest = [])
    (hcons : ∀ a as places, Reaches text (ends text (regex a) places) (Q as) ↔
      Reaches text places (Q (a :: as)))
    (as : List α) :
    (seqOf (.start :: as.map regex ++ [.finish])).isFoundIn text = true ↔ Q as [] text := by
  have hends : ends text (seqOf (.start :: as.map regex ++ [.finish])) (everyPlace text.length) =
      ends text .finish ((as.map regex).foldl (fun places r => ends text r places) 1) := by
    rw [ends_seqOf, List.foldl_append, List.foldl_cons, List.foldl_cons, List.foldl_nil]
    simp only [ends, everyPlace_and_one]
  have hfinish : ∀ places, Reaches text places (fun _ rest => rest = []) ↔
      Reaches text places (Q []) := fun places =>
    Reaches.congr fun front rest _ => (hnil front rest).symm
  rw [isFoundIn, bne_iff_ne, hends, ends_finish_ne_zero, hfinish, reaches_row hcons,
    reaches_one_place]

end Row

end WhereRules.Regex

namespace WhereRules.Like

open Regex in
/-- The anchored expression of some parts is found in just the texts that the parts cover. The
property that a row of parts comes to is that the parts cover what is behind the place. -/
theorem isFoundIn_anchored (ps : List Part) (text : List Char) :
    (anchored ps).isFoundIn text = covers ps text := by
  rw [Bool.eq_iff_iff]
  refine isFoundIn_row (Q := fun ps _ rest => covers ps rest = true) (fun _ rest => ?_)
    (fun part ps places => ?_) ps
  · rw [covers, List.isEmpty_iff]
  · rw [reaches_part]
    refine Reaches.congr fun _ rest _ => ?_
    rw [covers_cons]
    refine exists_congr fun piece => exists_congr fun tail => and_congr_right fun _ => and_comm

/-- **Matching the pattern of a wildcard text is admitting by the wildcard text.** -/
theorem isFoundIn_toRegex {like : String} {pattern : Pattern}
    (h : Pattern.ofText? (toRegex like) = some pattern) (text : String) :
    pattern.isFoundIn text = admits like text := by
  have hregex : pattern.regex = anchored (parts like.toList) := by
    have spells := pattern.spells
    rw [Pattern.source_of_ofText? h, ofText?_toRegex] at spells
    exact (Option.some.inj spells).symm
  rw [Pattern.isFoundIn, hregex, isFoundIn_anchored, admits]

example : admits "50\\%_" "50%!" = true := by decide

end WhereRules.Like
