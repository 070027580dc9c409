import WhereRules.Token.Scanner
import WhereRules.Proofs.Composition.Seams

/-!
# Scanners cut as texts are cut

What a scanner makes of a text does not depend on what it made of earlier ones: wherever it stands,
the tokens that it finds are those of the characters ahead (`Scanner.tokens_fst`), and a text that is
begun has all its characters ahead. The end that it reports is where it comes to a halt, which is
where the text stops.
-/

namespace WhereRules

open Token

/-! ## Blanks -/

/-- Blanks before a token count, and are no token: the tokens behind them are those of the text, at
the places they have in it. -/
theorem Token.ofChars_drop_blanks (position : Nat) (cs : List Char) :
    ofChars (position + (cs.takeWhile isBlank).length) (cs.drop (cs.takeWhile isBlank).length) =
      ofChars position cs := by
  induction cs generalizing position with
  | nil => rfl
  | cons c cs ih =>
    by_cases hblank : isBlank c = true
    · rw [List.takeWhile_cons_of_pos hblank, List.length_cons, List.drop_succ_cons, ofChars,
        if_pos hblank, ← ih, Nat.add_right_comm, Nat.add_assoc]
    · rw [List.takeWhile_cons_of_neg hblank]
      rfl

/-- Behind all blanks comes a character that is none. -/
theorem Token.isBlank_of_drop_blanks {c : Char} {cs rest : List Char}
    (h : cs.drop (cs.takeWhile isBlank).length = c :: rest) : ¬isBlank c = true := by
  induction cs with
  | nil => cases h
  | cons d cs ih =>
    by_cases hblank : isBlank d = true
    · rw [List.takeWhile_cons_of_pos hblank] at h
      exact ih h
    · rw [List.takeWhile_cons_of_neg hblank] at h
      cases h
      exact hblank

namespace Scanner

theorem rest_advance (scanner : Scanner) (n : Nat) :
    (scanner.advance n).rest = scanner.rest.drop n := by
  rw [rest, rest, List.drop_drop]
  rfl

theorem rest_skipBlanks (scanner : Scanner) :
    scanner.skipBlanks.rest = scanner.rest.drop (scanner.rest.takeWhile isBlank).length :=
  rest_advance _ _

/-! ## One token -/

/-- The tokens ahead are the next one and those ahead of it. What is cut from a list of characters
is cut by the scanner one token at a time. -/
theorem ofChars_rest (scanner : Scanner) :
    ofChars scanner.position scanner.rest =
      match scanner.next with
      | (.ok none, _) => .ok []
      | (.ok (some placed), after) =>
        (ofChars after.position after.rest).map fun placeds => placed :: placeds
      | (.error error, _) => .error error := by
  have hskip : ofChars scanner.skipBlanks.position scanner.skipBlanks.rest =
      ofChars scanner.position scanner.rest := by
    rw [rest_skipBlanks]
    exact ofChars_drop_blanks _ _
  rw [← hskip]
  obtain ⟨hrest, h⟩ | ⟨c, cs, token, taken, hrest, hlexeme, h⟩ | ⟨c, cs, fault, hrest, hlexeme, h⟩ :=
    scanner.next_cases
  · rw [h, hrest, ofChars]
  · have hblank : ¬isBlank c = true := isBlank_of_drop_blanks (scanner.rest_skipBlanks ▸ hrest)
    rw [h, hrest, ofChars, if_neg hblank, hlexeme]
    dsimp only
    rw [rest_advance, hrest, Nat.add_comm 1 taken, List.drop_succ_cons]
    show _ = (ofChars (scanner.skipBlanks.position + (taken + 1)) _).map _
    rw [Nat.add_right_comm, Nat.add_assoc]
  · have hblank : ¬isBlank c = true := isBlank_of_drop_blanks (scanner.rest_skipBlanks ▸ hrest)
    rw [h, hrest, ofChars, if_neg hblank, hlexeme]

/-- A scanner does not leave its text, unless it has to give it up. It never takes more characters
than there are ahead. -/
theorem position_next_le {scanner : Scanner} (hinside : scanner.position ≤ scanner.input.length)
    {result : Option Placed} (hnext : scanner.next.1 = .ok result) :
    scanner.next.2.position ≤ scanner.input.length := by
  have hskip : scanner.skipBlanks.position ≤ scanner.input.length := by
    have hblanks : (scanner.rest.takeWhile isBlank).length ≤ scanner.rest.length :=
      (List.takeWhile_prefix _).length_le
    rw [rest, List.length_drop] at hblanks
    show scanner.position + (scanner.rest.takeWhile isBlank).length ≤ _
    rw [rest]
    omega
  obtain ⟨-, h⟩ | ⟨c, cs, token, taken, hrest, hlexeme, h⟩ | ⟨c, cs, fault, -, -, h⟩ :=
    scanner.next_cases
  · rw [h]
    exact hskip
  · have hle := lexeme_taken_le hlexeme
    have hlength := congrArg List.length hrest
    rw [rest, List.length_drop, List.length_cons] at hlength
    rw [h]
    show scanner.skipBlanks.position + (1 + taken) ≤ scanner.skipBlanks.input.length
    omega
  · rw [h] at hnext
    cases hnext

/-- A scanner that finds no further token has come to the end of its text. -/
theorem rest_of_next_none {scanner : Scanner} (hnext : scanner.next.1 = .ok none) :
    scanner.next.2.rest = [] := by
  obtain ⟨hrest, h⟩ | ⟨c, cs, token, taken, -, -, h⟩ | ⟨c, cs, fault, -, -, h⟩ :=
    scanner.next_cases
  · rw [h]
    exact hrest
  · rw [h] at hnext
    cases hnext
  · rw [h] at hnext
    cases hnext

/-! ## Whole texts -/

/-- **The tokens that a scanner finds are those of the characters ahead**, and so is its fault. The
recursion is that of the scanner, from one token to the next. -/
theorem tokens_fst (scanner : Scanner) :
    scanner.tokens.1 = ofChars scanner.position scanner.rest := by
  fun_induction tokens scanner with
  | case1 scanner after hnext => rw [ofChars_rest, hnext]
  | case2 scanner placed after hnext result last hlast ih =>
    rw [ofChars_rest, hnext]
    dsimp only
    rw [← ih, hlast]
  | case3 scanner error after hnext => rw [ofChars_rest, hnext]

/-- A scanner that finds no fault comes to a halt where its text stops, which is the end that the
tokens report. -/
theorem position_tokens {scanner : Scanner} (hinside : scanner.position ≤ scanner.input.length)
    {ts : List Placed} (h : scanner.tokens.1 = .ok ts) :
    scanner.tokens.2.position = scanner.input.length := by
  fun_induction tokens scanner generalizing ts with
  | case1 scanner after hnext =>
    have hle := position_next_le hinside (congrArg Prod.fst hnext)
    have hrest := rest_of_next_none (congrArg Prod.fst hnext)
    have hinput := scanner.input_next
    rw [rest, List.drop_eq_nil_iff, hinput] at hrest
    rw [hnext] at hle hrest
    exact Nat.le_antisymm hle hrest
  | case2 scanner placed after hnext result last hlast ih =>
    have hle := position_next_le hinside (congrArg Prod.fst hnext)
    have hinput := scanner.input_next
    rw [hnext] at hle hinput
    dsimp only at hle hinput
    obtain ⟨rest, hrest, -⟩ := map_eq_ok.mp h
    rw [← hinput] at hle ⊢
    rw [hlast] at ih
    exact ih hle hrest
  | case3 scanner error after hnext => cases h

/-- **However a scanner was left, it cuts a text as the text is cut.** It begins the text at its
first character, and keeps nothing of the one before. -/
theorem tokenize_fst (scanner : Scanner) (source : String) :
    (scanner.tokenize source).1 = TokenStream.ofText source := by
  have htokens : (scanner.load source).tokens.1 = ofChars 0 source.toList := tokens_fst _
  have hhalt : ∀ ts, (scanner.load source).tokens.1 = .ok ts →
      (scanner.load source).tokens.2.position = source.length := by
    intro ts h
    rw [position_tokens (Nat.zero_le _) h]
    exact String.length_toList
  rw [tokenize, TokenStream.ofText, ← htokens]
  cases h : (scanner.load source).tokens.1 with
  | error error => simp only [h, Except.map]
  | ok ts => simp only [h, Except.map, hhalt ts h]

end Scanner

end WhereRules
