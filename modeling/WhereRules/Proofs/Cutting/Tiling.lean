import WhereRules.Proofs.Cutting.Lexemes
import WhereRules.Proofs.Serving.Scanning

/-!
# Texts are tiled by their tokens

A text that is cut is cut without overlap or loss: it is blanks and the characters of its tokens, one
after the other, each token at its own place, and each token what its characters are on their own
(`Tiled`). A text with a fault is cut as far as the fault (`ofChars_eq_error`). The scanner that has
cut other texts before does the same (`Scanner.tokenize_tiles`).
-/

namespace WhereRules

namespace Token

/-- Characters that are cut into this one token, whatever the scanner has cut before. -/
def StandsAlone (token : Token) (chars : List Char) : Prop :=
  ∀ scanner : Scanner, (scanner.tokenize (String.ofList chars)).1 =
    .ok ⟨[⟨token, 0⟩], chars.length⟩

/-- **Text that is blanks and tokens from a place on**, where each token has its characters to
itself. -/
inductive Tiled : Nat → List Placed → List Char → Prop
  | done (position : Nat) : Tiled position [] []
  | blank {position : Nat} {ps : List Placed} {c : Char} {cs : List Char} :
    c.toNat ≤ 32 → Tiled (position + 1) ps cs → Tiled position ps (c :: cs)
  | token {position : Nat} {token : Token} {ps : List Placed} {chars cs : List Char} :
    chars ≠ [] → token.StandsAlone chars → Tiled (position + chars.length) ps cs →
    Tiled position (⟨token, position⟩ :: ps) (chars ++ cs)

/-! ## Places -/

/-- No token stands before the place from which the text is tiled. With the next place taken for
that one, this makes the positions increase. -/
theorem Tiled.le_position {position : Nat} {ps : List Placed} {cs : List Char}
    (h : Tiled position ps cs) : ∀ placed ∈ ps, position ≤ placed.position := by
  induction h with
  | done => exact List.forall_mem_nil _
  | blank _ _ ih => exact fun placed hplaced => Nat.le_of_succ_le (ih placed hplaced)
  | token _ _ _ ih =>
    refine List.forall_mem_cons.mpr ⟨Nat.le_refl _, fun placed hplaced => ?_⟩
    exact Nat.le_of_add_right_le (ih placed hplaced)

/-- Each token is behind the one before it, and the end of the text behind them all. For every token
has characters to itself. -/
theorem Tiled.increasing {position : Nat} {ps : List Placed} {cs : List Char}
    (h : Tiled position ps cs) :
    (ps.map Placed.position ++ [position + cs.length]).Pairwise (· < ·) := by
  induction h with
  | done => exact List.pairwise_singleton _ _
  | @blank position ps c cs _ _ ih =>
    rw [List.length_cons, Nat.add_comm cs.length, ← Nat.add_assoc]
    exact ih
  | @token position token ps chars cs hchars _ htiled ih =>
    have hpos : 0 < chars.length := List.length_pos_iff.mpr hchars
    rw [List.length_append, ← Nat.add_assoc]
    refine List.pairwise_cons.mpr ⟨fun p hp => ?_, ih⟩
    rcases List.mem_append.mp hp with hp | hp
    · obtain ⟨placed, hplaced, rfl⟩ := List.mem_map.mp hp
      exact Nat.lt_of_lt_of_le (Nat.lt_add_of_pos_right hpos) (htiled.le_position placed hplaced)
    · rw [List.mem_singleton.mp hp, Nat.add_assoc]
      exact Nat.lt_add_of_pos_right (Nat.add_pos_left hpos _)

/-! ## Cutting -/

/-- A token is the same when the text is broken off behind it. So what stands alone is just the
characters that the token takes. -/
theorem lexeme_take {c : Char} {cs : List Char} {token : Token} {taken : Nat}
    (h : lexeme c cs = .ok (token, taken)) : lexeme c (cs.take taken) = .ok (token, taken) := by
  have hlength : (cs.take taken).length = taken := List.length_take_of_le (lexeme_taken_le h)
  rw [← List.take_append_drop taken cs] at h
  exact lexeme_of_append h (Nat.le_of_eq hlength.symm)

/-- The characters of a token are that token alone, for any scanner: what the scanner has cut before
is not looked at. -/
theorem standsAlone_of_lexeme {c : Char} {cs : List Char} {token : Token} {taken : Nat}
    (hblank : ¬isBlank c = true) (h : lexeme c cs = .ok (token, taken)) :
    token.StandsAlone (c :: cs.take taken) := by
  intro scanner
  rw [Scanner.tokenize_fst, TokenStream.ofText, String.toList_ofList, ofChars, if_neg hblank,
    lexeme_take h]
  simp only [List.drop_take_self, ofChars, Except.map, String.length_ofList]

/-- **A text that is cut is tiled by its tokens.** The induction follows the cutting: a blank is
skipped, or a token takes its characters off the front. -/
theorem tiled_of_ofChars {position : Nat} {cs : List Char} {ps : List Placed}
    (h : ofChars position cs = .ok ps) : Tiled position ps cs := by
  fun_induction ofChars position cs generalizing ps with
  | case1 position =>
    cases h
    exact .done position
  | case2 position c cs hblank ih => exact .blank (of_decide_eq_true hblank) (ih h)
  | case3 => cases h
  | case4 position c cs hblank token taken hlexeme ih =>
    obtain ⟨rest, hrest, rfl⟩ := map_eq_ok.mp h
    have hlength : (c :: cs.take taken).length = 1 + taken := by
      rw [List.length_cons, List.length_take_of_le (lexeme_taken_le hlexeme), Nat.add_comm]
    rw [← List.take_append_drop taken cs, ← List.cons_append]
    refine .token (List.cons_ne_nil _ _) (standsAlone_of_lexeme hblank hlexeme) ?_
    rw [hlength, ← Nat.add_assoc]
    exact ih hrest

/-- A text with a fault is cut up to the place of the fault, and the fault is within the text. What
stands before it can be cut by itself. -/
theorem ofChars_eq_error {position : Nat} {cs : List Char} {error : LexError}
    (h : ofChars position cs = .error error) :
    ∃ front back, cs = front ++ back ∧ back ≠ [] ∧ error.position = position + front.length ∧
      ∃ ps, ofChars position front = .ok ps := by
  fun_induction ofChars position cs with
  | case1 => cases h
  | case2 position c cs hblank ih =>
    obtain ⟨front, back, rfl, hback, hposition, ps, hps⟩ := ih h
    refine ⟨c :: front, back, rfl, hback, ?_, ps, ?_⟩
    · rw [hposition, List.length_cons]
      omega
    · rw [ofChars, if_pos hblank]
      exact hps
  | case3 position c cs =>
    cases h
    exact ⟨[], c :: cs, rfl, List.cons_ne_nil c cs, rfl, [], by rw [ofChars]⟩
  | case4 position c cs hblank token taken hlexeme ih =>
    obtain ⟨front, back, hsplit, hback, hposition, ps, hps⟩ := ih (map_eq_error.mp h)
    have hlength : (cs.take taken).length = taken := List.length_take_of_le (lexeme_taken_le hlexeme)
    have hcs : cs = cs.take taken ++ front ++ back := by
      rw [List.append_assoc, ← hsplit, List.take_append_drop]
    refine ⟨c :: (cs.take taken ++ front), back, congrArg (c :: ·) hcs, hback, ?_,
      ⟨token, position⟩ :: ps, ?_⟩
    · rw [hposition, List.length_cons, List.length_append, hlength]
      omega
    · -- the token is still there when the text is broken off behind it
      have hfront : lexeme c (cs.take taken ++ front) = .ok (token, taken) := by
        rw [hcs] at hlexeme
        refine lexeme_of_append hlexeme ?_
        rw [List.length_append, hlength]
        exact Nat.le_add_right _ _
      rw [ofChars, if_neg hblank, hfront]
      simp only [List.drop_left' hlength, hps, Except.map]

end Token

/-- **A scanner tiles its text.** However it was left, what it makes of a text is its tokens, at
places that go up to the end of the text, and the text is tiled by them; or a fault within the text,
and what stands before the fault is cut. -/
theorem Scanner.tokenize_tiles (scanner : Scanner) (source : String) :
    match (scanner.tokenize source).1 with
    | .ok stream => stream.stop = source.length ∧
        (stream.tokens.map Placed.position ++ [stream.stop]).Pairwise (· < ·) ∧
        Token.Tiled 0 stream.tokens source.toList
    | .error error => error.position < source.length ∧
        ∃ stream, ∀ other : Scanner,
          (other.tokenize (String.ofList (source.toList.take error.position))).1 = .ok stream := by
  rw [tokenize_fst, TokenStream.ofText]
  cases h : Token.ofChars 0 source.toList with
  | ok ps =>
    have htiled := Token.tiled_of_ofChars h
    have hincreasing := htiled.increasing
    rw [Nat.zero_add, String.length_toList] at hincreasing
    exact ⟨rfl, hincreasing, htiled⟩
  | error error =>
    obtain ⟨front, back, hsplit, hback, hposition, ps, hps⟩ := Token.ofChars_eq_error h
    rw [Nat.zero_add] at hposition
    have hlength : source.length = front.length + back.length := by
      rw [← String.length_toList, hsplit, List.length_append]
    refine ⟨?_, ⟨ps, front.length⟩, fun other => ?_⟩
    · rw [hposition, hlength]
      exact Nat.lt_add_of_pos_right (List.length_pos_iff.mpr hback)
    · rw [hsplit, hposition, List.take_left, tokenize_fst, TokenStream.ofText, String.toList_ofList,
        hps, String.length_ofList]
      rfl

end WhereRules
