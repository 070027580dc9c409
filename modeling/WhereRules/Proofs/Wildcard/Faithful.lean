import Mathlib.Data.List.Chain
import WhereRules.Proofs.Wildcard.Rows

/-!
# Wildcard texts of written expressions

A pattern need not come from a wildcard text to be turned back into one. Whoever writes its
expression by hand may spell an anchored row of items as well, and the text it is turned back into is
these items written one after the other (`row_of_ofRegex?`).

A written item may say something else than it did in the expression. A backslash stands for itself
until a wildcard comes after it: `^\\.*$`, a backslash and a run, is turned back into `\%`, a percent
sign. And an escaped angle bracket is the edge of a word, but is written as the bracket: `^\<a$`, found
in `a`, is turned back into `<a`. So the wildcard text keeps what the pattern matches just when the
row is of parts alone and none that is a backslash comes right before a wildcard
(`isFoundIn_ofRegex?_iff`).
-/

namespace WhereRules.Like

/-! ## Parts written -/

/-- A part in a wildcard text. -/
def Part.written : Part → List Char
  | exactly c => escaped c
  | one => ['_']
  | run => ['%']

def Part.isWildcard : Part → Bool
  | exactly _ => false
  | one | run => true

/-- No backslash comes right before a wildcard. -/
def Kept (ps : List Part) : Prop :=
  ps.IsChain fun part next => part = .exactly '\\' → next.isWildcard = false

instance (ps : List Part) : Decidable (Kept ps) :=
  inferInstanceAs (Decidable (ps.IsChain _))

theorem kept_cons {part : Part} {ps : List Part} :
    Kept (part :: ps) ↔
      (∀ next ∈ ps.head?, part = .exactly '\\' → next.isWildcard = false) ∧ Kept ps :=
  List.isChain_cons

/-- What parts come to when they are written and read again. -/
def reread : List Part → List Part
  | [] => []
  | .exactly '\\' :: .run :: ps => .exactly '%' :: reread ps
  | .exactly '\\' :: .one :: ps => .exactly '_' :: reread ps
  | part :: ps => part :: reread ps

/-- Parts that are kept come back as they are. -/
theorem reread_of_kept {ps : List Part} (h : Kept ps) : reread ps = ps := by
  fun_induction reread ps with
  | case1 => rfl
  | case2 ps | case3 ps => cases (kept_cons.mp h).1 _ rfl rfl
  | case4 part ps _ _ ih => rw [ih (kept_cons.mp h).2]

/-- Unless it is a backslash before a wildcard, a character comes back as itself. -/
theorem parts_escaped {c : Char} {cs : List Char}
    (h : c = '\\' → ∀ d ∈ cs.head?, d ≠ '%' ∧ d ≠ '_') :
    parts (escaped c ++ cs) = .exactly c :: parts cs := by
  unfold escaped
  split
  · next hsign => rcases hsign with rfl | rfl <;> rfl
  · next hsign =>
    rw [not_or] at hsign
    refine parts.eq_6 c cs ?_ ?_ hsign.1 hsign.2
    · rintro rest hc rfl
      exact (h hc '%' rfl).1 rfl
    · rintro rest hc rfl
      exact (h hc '_' rfl).2 rfl

/-- Only wildcards are written with a wildcard at the front. So a character before anything else is
read as itself, even if it is a backslash. -/
theorem head?_written {ps : List Part} (h : ∀ next ∈ ps.head?, next.isWildcard = false) :
    ∀ d ∈ (ps.flatMap Part.written).head?, d ≠ '%' ∧ d ≠ '_' := by
  intro d hd
  match ps with
  | [] => cases hd
  | .one :: _ | .run :: _ => cases h _ rfl
  | .exactly c :: ps =>
    rw [List.flatMap_cons, Part.written, escaped] at hd
    split at hd
    · cases hd
      decide
    · next hsign =>
      cases hd
      exact not_or.mp hsign

/-- **Written parts are read as themselves, but for backslashes before wildcards.** There the
backslash is read together with the sign of the wildcard, as that sign. -/
theorem parts_written (ps : List Part) : parts (ps.flatMap Part.written) = reread ps := by
  fun_induction reread ps with
  | case1 => rfl
  | case2 ps ih | case3 ps ih =>
    rw [← ih]
    rfl
  | case4 part ps hrun hone ih =>
    rw [List.flatMap_cons, ← ih]
    cases part with
    | one | run => rfl
    | exactly c =>
      refine parts_escaped fun hc => head?_written fun next hnext => ?_
      have hps := List.eq_cons_of_mem_head? hnext
      subst hc
      cases next with
      | exactly d => rfl
      | one => cases hone _ rfl hps
      | run => cases hrun _ rfl hps

/-! ## Written expressions -/

/-- What an item is read as once it is written: an edge is no more than the angle bracket that it is
spelled with. -/
def Item.asPart : Item → Part
  | part p => p
  | edge .first => .exactly '<'
  | edge .last => .exactly '>'

/-- A wildcard text and the pieces of an expression come from the same items. -/
def SameItems (like : List Char) (pieces : List Regex.Piece) : Prop :=
  ∃ items : List Item, like = (items.map Item.asPart).flatMap Part.written ∧
    pieces = items.flatMap Item.pieces ++ [.item .finish]

/-- One more item in front is one more on both sides. -/
theorem SameItems.cons {like : List Char} {pieces : List Regex.Piece} (item : Item)
    (h : SameItems like pieces) :
    SameItems (item.asPart.written ++ like) (item.pieces ++ pieces) := by
  obtain ⟨items, rfl, rfl⟩ := h
  exact ⟨item :: items, rfl, (List.append_assoc ..).symm⟩

open Regex in
/-- A backslash before what is no letter or digit makes an item of it that is written as the
character, if it may stand there at all. -/
theorem piece?_backslash {c : Char} {cs rest : List Char} {piece : Piece}
    (halpha : c.isAlphanum = false) (h : piece? '\\' (c :: cs) = some (piece, rest)) :
    ∃ item : Item, [piece] = item.pieces ∧ item.asPart = .exactly c ∧ rest = cs := by
  simp only [piece?] at h
  split at h
  · next edge hedge =>
    cases h
    refine ⟨.edge edge, rfl, ?_, rfl⟩
    unfold edge? at hedge
    split at hedge
    · cases hedge
      rfl
    · cases hedge
      rfl
    · cases hedge
  · obtain ⟨meaning, hmeaning, heq⟩ := Option.map_eq_some_iff.mp h
    cases heq
    unfold escaped? at hmeaning
    split at hmeaning
    case h_9 =>
      split at hmeaning
      · cases hmeaning
      · cases hmeaning
        exact ⟨.part (.exactly c), rfl, rfl, rfl⟩
    all_goals cases halpha

open Regex in
/-- A star behind a wildcard makes a run of it. No question mark follows, which would be an operator
by itself and cannot be turned back. -/
theorem piece?_star {cs like : List Char} (h : ofBody? cs = some like) :
    piece? '*' cs = some (.quantifier 0 none, cs) := by
  have hshort : dropShort cs = cs := by
    unfold dropShort
    split
    · cases h
    · rfl
  rw [piece?, hshort]

open Regex in
/-- An expression that can be turned back spells items and then the end of the text. The recursion
is that of turning back, which knows a run, a single wildcard, an escape and a character that means
nothing. -/
theorem sameItems_of_ofBody? {cs like : List Char} {pieces : List Piece}
    (h : ofBody? cs = some like) (hpieces : pieces? cs = some pieces) : SameItems like pieces := by
  fun_induction ofBody? cs generalizing like pieces with
  | case1 | case3 | case4 | case5 | case9 => cases h
  | case2 =>
    rw [pieces?_cons rfl (List.suffix_refl _), pieces?] at hpieces
    cases h
    cases hpieces
    exact ⟨[], rfl, rfl⟩
  | case6 c cs halpha ih =>
    obtain ⟨likeRest, hlike, rfl⟩ := Option.map_eq_some_iff.mp h
    cases hpiece : piece? '\\' (c :: cs) with
    | none =>
      rw [pieces?.eq_2, hpiece] at hpieces
      cases hpieces
    | some read =>
      obtain ⟨piece, rest⟩ := read
      obtain ⟨item, hitem, hpart, rfl⟩ := piece?_backslash (Bool.not_eq_true _ ▸ halpha) hpiece
      rw [pieces?_cons hpiece (List.suffix_cons ..)] at hpieces
      obtain ⟨piecesRest, hrest, rfl⟩ := Option.map_eq_some_iff.mp hpieces
      have hcons := (ih hlike hrest).cons item
      rw [hpart, ← hitem] at hcons
      exact hcons
  | case7 cs ih =>
    obtain ⟨likeRest, hlike, rfl⟩ := Option.map_eq_some_iff.mp h
    have hstar : piece? '*' cs = some (.quantifier 0 none, cs) := piece?_star hlike
    rw [pieces?_cons rfl (List.suffix_refl _), pieces?_cons hstar (List.suffix_refl _),
      Option.map_map] at hpieces
    obtain ⟨piecesRest, hrest, rfl⟩ := Option.map_eq_some_iff.mp hpieces
    exact (ih hlike hrest).cons (.part .run)
  | case8 cs hstar ih =>
    obtain ⟨likeRest, hlike, rfl⟩ := Option.map_eq_some_iff.mp h
    rw [pieces?_cons rfl (List.suffix_refl _)] at hpieces
    obtain ⟨piecesRest, hrest, rfl⟩ := Option.map_eq_some_iff.mp hpieces
    exact (ih hlike hrest).cons (.part .one)
  | case10 c cs hend hfinish hlast hescape hrun hone hoperator ih =>
    obtain ⟨likeRest, hlike, rfl⟩ := Option.map_eq_some_iff.mp h
    have hbackslash : c ≠ '\\' := by
      rintro rfl
      cases cs with
      | nil => cases hlike
      | cons d rest => exact hescape d rest rfl rfl
    have hpiece : piece? c cs = some (.item (.char c), cs) :=
      piece?_of_not_isOperator (Bool.eq_false_iff.mpr hoperator) hbackslash hone hfinish cs
    rw [pieces?_cons hpiece (List.suffix_refl _)] at hpieces
    obtain ⟨piecesRest, hrest, rfl⟩ := Option.map_eq_some_iff.mp hpieces
    exact (ih hlike hrest).cons (.part (.exactly c))

/-- **A pattern that can be turned back is an anchored row of items**, and what it is turned back
into are these items written one after the other. -/
theorem row_of_ofRegex? {pattern : Pattern} {like : String}
    (h : ofRegex? pattern.source = some like) :
    ∃ items : List Item, pattern.regex = row items ∧
      like.toList = (items.map Item.asPart).flatMap Part.written := by
  have hspells := pattern.spells
  unfold ofRegex? at h
  split at h
  · next cs hsource =>
    obtain ⟨likeChars, hlike, rfl⟩ := Option.map_eq_some_iff.mp h
    rw [Regex.ofText?, hsource, pieces?_cons rfl (List.suffix_refl _)] at hspells
    obtain ⟨_, hmap, hassemble⟩ := Option.bind_eq_some_iff.mp hspells
    obtain ⟨pieces, hpieces, rfl⟩ := Option.map_eq_some_iff.mp hmap
    obtain ⟨items, rfl, rfl⟩ := sameItems_of_ofBody? hlike hpieces
    have hrow := hassemble.symm.trans (assemble?_row assemble?_item items)
    exact ⟨items, Option.some.inj hrow, String.toList_ofList⟩
  · cases h

/-! ## Items lost -/

theorem cut_least (ps : List Part) : Cut ps (ps.flatMap Part.least) :=
  ⟨ps.map Part.least, List.forall₂_map_right_iff.mpr
    (List.forall₂_same.mpr fun part _ => part.standsFor_least), rfl⟩

/-- A text has every sign that its parts ask for. A wildcard asks for none. -/
theorem signs_le_of_cut {ps : List Part} {cs : List Char} (h : Cut ps cs) :
    signs ps ≤ cs.countP isSign := by
  induction ps generalizing cs with
  | nil => exact Nat.zero_le _
  | cons part ps ih =>
    obtain ⟨piece, rest, hpiece, hrest, rfl⟩ := cut_cons.mp h
    rw [signs_cons, List.countP_append]
    refine Nat.add_le_add ?_ (ih hrest)
    cases hpiece with
    | exactly c => exact Nat.le_refl _
    | one | run => exact Nat.zero_le _

/-- Reading parts again loses no sign that they ask for. Where a backslash goes, the wildcard behind
it becomes a sign. -/
theorem signs_le_reread (ps : List Part) : signs ps ≤ signs (reread ps) := by
  fun_induction reread ps with
  | case1 => exact Nat.le_refl _
  | case2 ps ih | case3 ps ih =>
    simp only [signs_cons]
    show 0 + (0 + signs ps) ≤ 1 + signs (reread ps)
    omega
  | case4 part ps _ _ ih =>
    rw [signs_cons, signs_cons]
    exact Nat.add_le_add_left ih _

/-- Behind a backslash a wildcard turns into a sign. So parts that are not kept are read as some
that ask for more signs. -/
theorem signs_lt_reread {ps : List Part} (h : ¬Kept ps) : signs ps < signs (reread ps) := by
  fun_induction reread ps with
  | case1 => exact absurd .nil h
  | case2 ps | case3 ps =>
    have hle := signs_le_reread ps
    simp only [signs_cons]
    show 0 + (0 + signs ps) < 1 + signs (reread ps)
    omega
  | case4 part ps hrun hone ih =>
    have hps : ¬Kept ps := fun hkept => by
      refine h (kept_cons.mpr ⟨fun next hnext hpart => ?_, hkept⟩)
      have hcons := List.eq_cons_of_mem_head? hnext
      cases next with
      | exactly c => rfl
      | one => cases hone _ hpart hcons
      | run => cases hrun _ hpart hcons
    rw [signs_cons, signs_cons]
    exact Nat.add_lt_add_left (ih hps) _

/-- What a row is read as once it is written asks for every sign that its parts ask for. -/
theorem signs_partsOf_le (items : List Item) :
    signs (partsOf items) ≤ signs (items.map Item.asPart) := by
  induction items with
  | nil => exact Nat.le_refl _
  | cons item items ih =>
    rw [List.map_cons, signs_cons]
    cases item with
    | part p =>
      rw [partsOf, signs_cons]
      exact Nat.add_le_add_left ih _
    | edge e => exact Nat.le_add_left_of_le ih

/-- Wherever there is an edge it asks for one more, since it is read as its bracket. So only a row
of parts alone asks for no more than before. -/
theorem parts_or_signs_lt (items : List Item) :
    (∃ ps : List Part, items = ps.map .part) ∨
      signs (partsOf items) < signs (items.map Item.asPart) := by
  induction items with
  | nil => exact .inl ⟨[], rfl⟩
  | cons item items ih =>
    cases item with
    | part p =>
      rcases ih with ⟨ps, rfl⟩ | hlt
      · exact .inl ⟨p :: ps, rfl⟩
      · rw [partsOf, List.map_cons, signs_cons, signs_cons]
        exact .inr (Nat.add_lt_add_left hlt _)
    | edge e =>
      have hbracket : (Item.edge e).asPart.least.countP isSign = 1 := by cases e <;> rfl
      have hle := signs_partsOf_le items
      rw [partsOf, List.map_cons, signs_cons, hbracket]
      exact .inr (by omega)

theorem partsOf_parts (ps : List Part) : partsOf (ps.map .part) = ps := by
  induction ps with
  | nil => rfl
  | cons part ps ih => rw [List.map_cons, partsOf, ih]

theorem asPart_parts (ps : List Part) : (ps.map Item.part).map Item.asPart = ps := by
  rw [List.map_map]
  exact List.map_id ps

/-- **A row asks for fewer signs than the wildcard text that it is turned back into**, unless it is a
row of parts that come back as they are. -/
theorem signs_lt_written {items : List Item} (h : ¬∃ ps : List Part, items = ps.map .part ∧ Kept ps) :
    signs (partsOf items) < signs (reread (items.map Item.asPart)) := by
  rcases parts_or_signs_lt items with ⟨ps, rfl⟩ | hlt
  · rw [partsOf_parts, asPart_parts]
    exact signs_lt_reread fun hkept => h ⟨ps, rfl, hkept⟩
  · exact Nat.lt_of_lt_of_le hlt (signs_le_reread _)

/-! ## What matches -/

/-- **The wildcard text of a pattern matches what the pattern does just when the pattern is a row of
parts and no backslash among them comes right before a wildcard.** The edge of a word is never
kept. -/
theorem isFoundIn_ofRegex?_iff {pattern : Pattern} {like : String}
    (h : ofRegex? pattern.source = some like) :
    ∃ items : List Item, pattern.regex = row items ∧
      ((∃ again, Pattern.ofText? (toRegex like) = some again ∧
        ∀ text, again.isFoundIn text = pattern.isFoundIn text) ↔
        ∃ ps : List Part, items = ps.map .part ∧ Kept ps) := by
  obtain ⟨items, hregex, hlike⟩ := row_of_ofRegex? h
  have hparts : parts like.toList = reread (items.map Item.asPart) := by rw [hlike, parts_written]
  have hfound : ∀ text : String, pattern.isFoundIn text = true ↔ Spans items [] text.toList := by
    intro text
    rw [Pattern.isFoundIn, hregex, isFoundIn_row_iff_spans]
  refine ⟨items, hregex, ?_, ?_⟩
  · rintro ⟨again, hagain, hsame⟩
    by_contra hlost
    have hcut : ∀ cs, Spans items [] cs ↔ Cut (reread (items.map Item.asPart)) cs := fun cs => by
      have hcs := hsame (String.ofList cs)
      rw [isFoundIn_toRegex hagain, admits, hparts, Bool.eq_iff_iff, hfound, String.toList_ofList,
        covers_iff] at hcs
      exact hcs.symm
    -- The wildcard text is found in some text, so the row is found in one with only its own signs.
    have hleast := (hcut _).mpr (cut_least (reread (items.map Item.asPart)))
    obtain ⟨cs, hspans, -, hsigns⟩ := hleast.exists_signs_eq rfl
    have hle := signs_le_of_cut ((hcut cs).mp hspans)
    exact Nat.not_le.mpr (signs_lt_written hlost) (hsigns ▸ hle)
  · rintro ⟨ps, rfl, hkept⟩
    have hread : Regex.ofText? (toRegex like) = some pattern.regex := by
      rw [ofText?_toRegex, hparts, asPart_parts, reread_of_kept hkept, hregex, row_parts]
    exact ⟨_, Pattern.ofText?_source ⟨toRegex like, pattern.regex, hread, pattern.fits⟩,
      fun _ => rfl⟩

/-- An expression written by hand: those of wildcard texts have a backslash before the hash sign. -/
theorem isFoundIn_ofRegex?_hashRun :
    ∃ pattern : Pattern, ofRegex? pattern.source = some "#1%" ∧
      ∃ items : List Item, pattern.regex = row items ∧
        ((∃ again, Pattern.ofText? (toRegex "#1%") = some again ∧
          ∀ text, again.isFoundIn text = pattern.isFoundIn text) ↔
          ∃ ps : List Part, items = ps.map .part ∧ Kept ps) :=
  have hlike : ofRegex? "^#1.*$" = some "#1%" := by decide
  ⟨⟨"^#1.*$", anchored [.exactly '#', .exactly '1', .run], by decide +kernel, by decide +kernel⟩,
    hlike, isFoundIn_ofRegex?_iff hlike⟩

/-- A backslash and a run come back as a percent sign, and a text that is only a backslash is lost.
The expression matched it. -/
theorem isFoundIn_ofRegex?_backslashRun :
    ∃ pattern again : Pattern, pattern.source = "^\\\\.*$" ∧
      ofRegex? pattern.source = some "\\%" ∧ Pattern.ofText? (toRegex "\\%") = some again ∧
      pattern.isFoundIn "\\" = true ∧ again.isFoundIn "\\" = false := by
  let pattern : Pattern :=
    ⟨"^\\\\.*$", anchored [.exactly '\\', .run], by decide +kernel, by decide +kernel⟩
  let again := toPattern "\\%" (by decide +kernel)
  refine ⟨pattern, again, rfl, by decide, Pattern.ofText?_source again, ?_, ?_⟩
  · rw [Pattern.isFoundIn, isFoundIn_anchored]
    decide
  · rw [Pattern.isFoundIn, show again.regex = anchored [.exactly '%'] from rfl, isFoundIn_anchored]
    decide

/-- An edge of a word comes back as its bracket: a word is lost, and a bracket is found. -/
example : ofRegex? "^\\<a$" = some "<a" ∧
    Regex.ofText? "^\\<a$" = some (row [.edge .first, .part (.exactly 'a')]) ∧
    (row [.edge .first, .part (.exactly 'a')]).isFoundIn ['a'] = true ∧
    admits "<a" "a" = false ∧ admits "<a" "<a" = true := by
  decide +kernel

end WhereRules.Like
