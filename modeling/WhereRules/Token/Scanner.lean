import WhereRules.Token.Lexer

/-!
# Scanners

A scanner cuts one text after the other. It keeps the text that it has in hand and the place that
it has reached there, and where a text has a fault it stays where it noticed. A new text is begun
at its start.
-/

namespace WhereRules

/-- How many characters of what is left have been looked at when the fault is known. -/
def LexFault.reach (rest : List Char) : LexFault → Nat
  | unexpected _ => 1
  | unterminated => rest.length
  | invalidNumber digits => digits.length

structure Scanner where
  /-- The characters of the text in hand. -/
  input : List Char := []
  /-- How many of them are behind. -/
  position : Nat := 0

namespace Scanner

/-- The characters that are ahead. -/
def rest (scanner : Scanner) : List Char := scanner.input.drop scanner.position

def advance (scanner : Scanner) (n : Nat) : Scanner :=
  { scanner with position := scanner.position + n }

def skipBlanks (scanner : Scanner) : Scanner :=
  scanner.advance (scanner.rest.takeWhile Token.isBlank).length

/-- The next token, if the text does not stop before one. -/
def next (scanner : Scanner) : Except LexError (Option Placed) × Scanner :=
  let scanner := scanner.skipBlanks
  match scanner.rest with
  | [] => (.ok none, scanner)
  | c :: cs =>
    match Token.lexeme c cs with
    | .ok (token, taken) => (.ok (some ⟨token, scanner.position⟩), scanner.advance (1 + taken))
    | .error fault => (.error ⟨fault, scanner.position⟩, scanner.advance (fault.reach (c :: cs)))

/-- What a scanner does for a token: it finds that the text stops, a token or a fault behind the
blanks. -/
theorem next_cases (scanner : Scanner) :
    (scanner.skipBlanks.rest = [] ∧ scanner.next = (.ok none, scanner.skipBlanks)) ∨
    (∃ c cs token taken, scanner.skipBlanks.rest = c :: cs ∧
      Token.lexeme c cs = .ok (token, taken) ∧
      scanner.next = (.ok (some ⟨token, scanner.skipBlanks.position⟩),
        scanner.skipBlanks.advance (1 + taken))) ∨
    (∃ c cs fault, scanner.skipBlanks.rest = c :: cs ∧ Token.lexeme c cs = .error fault ∧
      scanner.next = (.error ⟨fault, scanner.skipBlanks.position⟩,
        scanner.skipBlanks.advance (fault.reach (c :: cs)))) := by
  unfold next
  dsimp only
  cases hrest : scanner.skipBlanks.rest with
  | nil => exact .inl ⟨rfl, rfl⟩
  | cons c cs =>
    cases hlexeme : Token.lexeme c cs with
    | ok read => exact .inr (.inl ⟨c, cs, read.1, read.2, rfl, hlexeme, by simp only [hlexeme]⟩)
    | error fault => exact .inr (.inr ⟨c, cs, fault, rfl, hlexeme, by simp only [hlexeme]⟩)

theorem input_next (scanner : Scanner) : scanner.next.2.input = scanner.input := by
  obtain ⟨-, h⟩ | ⟨c, cs, token, taken, -, -, h⟩ | ⟨c, cs, fault, -, -, h⟩ := scanner.next_cases
  · rw [h]
    rfl
  · rw [h]
    rfl
  · rw [h]
    rfl

theorem position_lt_of_rest {scanner : Scanner} {c : Char} {cs : List Char}
    (h : scanner.rest = c :: cs) : scanner.position < scanner.input.length := by
  refine Nat.lt_of_not_le fun hle => ?_
  rw [rest, List.drop_eq_nil_of_le hle] at h
  cases h

/-- A token is found inside the text, and the scanner goes on behind its first character. -/
theorem position_next {scanner : Scanner} {placed : Placed}
    (hnext : scanner.next.1 = .ok (some placed)) :
    scanner.position < scanner.input.length ∧ scanner.position < scanner.next.2.position := by
  have hle : scanner.position ≤ scanner.skipBlanks.position := Nat.le_add_right _ _
  obtain ⟨-, h⟩ | ⟨c, cs, token, taken, hrest, -, h⟩ | ⟨c, cs, fault, -, -, h⟩ :=
    scanner.next_cases
  · rw [h] at hnext
    cases hnext
  · have hlt : scanner.skipBlanks.position < scanner.input.length := position_lt_of_rest hrest
    refine ⟨Nat.lt_of_le_of_lt hle hlt, Nat.lt_of_le_of_lt hle ?_⟩
    rw [h]
    show scanner.skipBlanks.position < scanner.skipBlanks.position + (1 + taken)
    omega
  · rw [h] at hnext
    cases hnext

/-- The tokens from here on. -/
def tokens (scanner : Scanner) : Except LexError (List Placed) × Scanner :=
  match _hnext : scanner.next with
  | (.ok none, after) => (.ok [], after)
  | (.ok (some placed), after) =>
    let (result, last) := after.tokens
    (result.map fun placeds => placed :: placeds, last)
  | (.error error, after) => (.error error, after)
termination_by scanner.input.length - scanner.position
decreasing_by
  have hinput := scanner.input_next
  obtain ⟨hinside, hlater⟩ := position_next (congrArg Prod.fst _hnext)
  rw [_hnext] at hinput hlater
  dsimp only at hinput hlater
  rw [hinput]
  omega

/-- Begins a text. -/
def load (scanner : Scanner) (source : String) : Scanner :=
  { scanner with input := source.toList, position := 0 }

/-- Cuts a whole text. -/
def tokenize (scanner : Scanner) (source : String) : Except LexError TokenStream × Scanner :=
  let (result, last) := (scanner.load source).tokens
  (result.map fun tokens => ⟨tokens, last.position⟩, last)

end Scanner

end WhereRules
