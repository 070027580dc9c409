import WhereRules.Proofs.Success
import WhereRules.Proofs.Spelling.Tokens

/-!
# Texts side by side

Text is cut into tokens from left to right, and a token takes as many characters as it can. So two
texts side by side need not be cut as they are cut alone: `a` and `b = 1` make one text that names
`ab`. They are, if the second begins with a character that continues no token (`StartsApart`), as a
blank and a parenthesis do (`ofChars_append`).

Which tokens a text is cut into does not depend on where it stands (`Cuts`), so texts are put
together by their tokens.
-/

namespace WhereRules

namespace Token

/-! ## What the lexer does -/

/-- The digits of a number are among what it takes, and there are more if it has a point. -/
theorem length_digits_le {negative : Bool} {cs : List Char} {token : Token} {taken : Nat}
    (h : numberBody negative cs = .ok (token, taken)) :
    (cs.takeWhile Char.isDigit).length ≤ taken := by
  simp only [numberBody] at h
  split at h
  · split at h
    · obtain ⟨_, -, heq⟩ := map_eq_ok.mp h
      cases heq
      exact Nat.le_refl _
    · cases h
      rw [Nat.add_assoc]
      exact Nat.le_add_right _ _
  · obtain ⟨_, -, heq⟩ := map_eq_ok.mp h
    cases heq
    exact Nat.le_refl _

/-- How a token begins and what its kind takes: a string, a number behind its sign or without one, a
word, or a sign or punctuation. -/
inductive Lexed (c : Char) (cs : List Char) : Token → Nat → Prop
  | string {text : List Char} {taken : Nat} : c = '\x27' → stringBody cs = some (text, taken) →
    Lexed c cs (string (String.ofList text)) taken
  | digits {token : Token} {taken : Nat} : c.isDigit = true →
    numberBody false (c :: cs) = .ok (token, taken + 1) → Lexed c cs token taken
  | minus {token : Token} {taken : Nat} : c = '-' → startsDigit cs = true →
    numberBody true cs = .ok (token, taken) → Lexed c cs token taken
  | word : startsName c = true →
    Lexed c cs (ofName (c :: cs.takeWhile continuesName)) (cs.takeWhile continuesName).length
  | symbol {token : Token} {taken : Nat} : symbol c cs = .ok (token, taken) → Lexed c cs token taken

/-- Signs and punctuation begin as nothing else does, and with no blank and no point. -/
theorem head_of_symbol {c : Char} {cs : List Char} {token : Token} {taken : Nat}
    (h : symbol c cs = .ok (token, taken)) :
    (c ≠ '\x27' ∧ c ≠ '-' ∧ c.isDigit = false ∧ startsName c = false) ∧ isBlank c = false ∧ c ≠ '.' := by
  unfold symbol at h
  split at h
  case h_11 => cases h
  all_goals decide

/-- Whatever token the lexer makes, it makes it as one of these kinds. Proofs about tokens go by the
kinds, so that the order in which the lexer tries them comes in here only. -/
theorem lexed_of_lexeme {c : Char} {cs : List Char} {token : Token} {taken : Nat}
    (h : lexeme c cs = .ok (token, taken)) : Lexed c cs token taken := by
  unfold lexeme at h
  split at h
  · next hquote =>
    split at h
    · next text n hbody =>
      cases h
      exact .string hquote hbody
    · cases h
  split at h
  · next hdigit =>
    obtain ⟨⟨token, n⟩, hbody, heq⟩ := map_eq_ok.mp h
    cases heq
    -- the first digit is one of the characters that the number takes
    have hpos : 0 < n := by
      refine Nat.lt_of_lt_of_le ?_ (length_digits_le hbody)
      rw [List.takeWhile_cons_of_pos hdigit]
      exact Nat.zero_lt_succ _
    exact .digits hdigit (hbody.trans (by rw [Nat.sub_add_cancel hpos]))
  split at h
  · next hminus => exact .minus hminus.1 hminus.2 h
  split at h
  · next hname =>
    cases h
    exact .word hname
  · exact .symbol h

/-- The kinds leave each other alone, since their first characters are different. So a token that is
of some kind is what the lexer makes. -/
theorem lexeme_of_lexed {c : Char} {cs : List Char} {token : Token} {taken : Nat}
    (h : Lexed c cs token taken) : lexeme c cs = .ok (token, taken) := by
  cases h with
  | string hquote hbody => rw [lexeme, if_pos hquote, hbody]
  | digits hdigit hbody =>
    have hquote : c ≠ '\x27' := by
      rintro rfl
      exact absurd hdigit (by decide)
    rw [lexeme, if_neg hquote, if_pos hdigit, hbody]
    rfl
  | minus hminus hstarts hbody =>
    subst hminus
    rw [lexeme, if_neg (by decide), if_neg (by decide), if_pos ⟨rfl, hstarts⟩, hbody]
  | word hname =>
    have hquote : c ≠ '\x27' := by
      rintro rfl
      exact absurd hname (by decide)
    have hminus : ¬(c = '-' ∧ startsDigit cs = true) := by
      rintro ⟨rfl, -⟩
      exact absurd hname (by decide)
    rw [lexeme, if_neg hquote, if_neg (not_isDigit_of_startsName hname), if_neg hminus, if_pos hname]
  | symbol hsymbol =>
    obtain ⟨⟨hquote, hminus, hdigit, hname⟩, -⟩ := head_of_symbol hsymbol
    rw [lexeme, if_neg hquote, if_neg (Bool.eq_false_iff.mp hdigit), if_neg fun h => hminus h.1,
      if_neg (Bool.eq_false_iff.mp hname), hsymbol]

/-- **What the lexer does**: the token that begins with a character is one of these. Which kind it
is depends on that character alone, but for a minus, which needs a digit behind it. -/
theorem lexeme_eq_ok {c : Char} {cs : List Char} {token : Token} {taken : Nat} :
    lexeme c cs = .ok (token, taken) ↔ Lexed c cs token taken :=
  ⟨lexed_of_lexeme, lexeme_of_lexed⟩

/-! ## Seams -/

/-- Whether a character behind a token leaves it as it is: it neither goes on with a name or a number,
nor doubles a quote, nor makes a sign of two characters. A point only goes on with a number if a digit
follows, and is refused all the same. -/
def seals : Token → Char → Bool
  | string _, d => d != '\x27'
  | int _, d | number _, d => !d.isDigit && d != '.'
  | keyword _, d | identifier _, d => !continuesName d
  | sign s, d =>
    match s with
    | .less => d != '=' && d != '>'
    | .greater => d != '='
    | .equal | .notEqual | .unequal | .lessOrEqual | .greaterOrEqual => true
  | leftParen, _ | rightParen, _ | comma, _ => true

/-- Text that begins with nothing that makes a token before it longer. -/
def Sealed (token : Token) (after : List Char) : Prop := ∀ d ∈ after.head?, token.seals d = true

/-- Text that begins with nothing that continues a token before it: a quote doubles a quote, and an
equals sign and a greater sign make signs of two characters. -/
def StartsApart (after : List Char) : Prop :=
  ∀ c ∈ after.head?, continuesName c = false ∧ c ≠ '\x27' ∧ c ≠ '=' ∧ c ≠ '>'

/-- What ends every token that is written continues no token. -/
theorem EndsToken.startsApart {after : List Char} (h : EndsToken after) : StartsApart after := by
  intro c hc
  rcases h c hc with rfl | rfl | rfl <;> decide

/-- An opening parenthesis continues no token. -/
theorem startsApart_leftParen (after : List Char) : StartsApart ('(' :: after) := by
  intro c hc
  obtain rfl : '(' = c := Option.some.inj hc
  decide

/-- A closing parenthesis ends every token. -/
theorem endsToken_rightParen (after : List Char) : EndsToken (')' :: after) := by
  intro c hc
  obtain rfl : ')' = c := Option.some.inj hc
  exact .inr (.inl rfl)

/-- A blank ends every token that is written. -/
theorem endsToken_blank (after : List Char) : EndsToken (' ' :: after) := by
  intro c hc
  obtain rfl : ' ' = c := Option.some.inj hc
  exact .inl rfl

/-- Digits go on with a name, so what continues no name continues no number either. -/
theorem continuesName_of_isDigit {c : Char} (h : c.isDigit = true) : continuesName c = true := by
  rw [continuesName, Char.isAlphanum, h, Bool.or_true, Bool.true_or, Bool.true_or]

/-- At a seam every token is sealed. The characters that go on with some token are those of names,
the quote, the equals sign and the greater sign. -/
theorem StartsApart.sealed {after : List Char} (h : StartsApart after) (token : Token) :
    token.Sealed after := by
  intro d hd
  obtain ⟨hname, hquote, hequal, hgreater⟩ := h d hd
  have hdigit : d.isDigit = false := by
    by_contra hd
    rw [continuesName_of_isDigit (Bool.eq_true_of_not_eq_false hd)] at hname
    cases hname
  have hpoint : d ≠ '.' := by
    rintro rfl
    cases hname
  cases token with
  | sign s => cases s <;> simp [seals, hequal, hgreater]
  | _ => simp [seals, hname, hquote, hdigit, hpoint]

theorem sealed_nil (token : Token) : token.Sealed [] := by
  intro d hd
  cases hd

section Lexeme

variable {after : List Char}

/-- A quote that is not doubled closes a string. -/
theorem stringBody_quote {cs : List Char} (h : ∀ c ∈ cs.head?, c ≠ '\x27') :
    stringBody ('\x27' :: cs) = some ([], 1) := by
  cases cs with
  | nil => rfl
  | cons c cs =>
    rw [stringBody.eq_3]
    intro rest heq
    have hc : c = '\x27' := (List.cons.inj heq).1
    exact h c rfl hc

/-- A string that is closed stays closed, since the quote that closes it is not doubled by what
follows. -/
theorem stringBody_append (h : ∀ d ∈ after.head?, d ≠ '\x27') {cs text : List Char} {taken : Nat}
    (hbody : stringBody cs = some (text, taken)) :
    taken ≤ cs.length ∧ stringBody (cs ++ after) = some (text, taken) := by
  fun_induction stringBody cs generalizing text taken with
  | case1 => cases hbody
  | case2 cs ih =>
    obtain ⟨⟨inner, n⟩, hinner, heq⟩ := Option.map_eq_some_iff.mp hbody
    cases heq
    obtain ⟨hle, happend⟩ := ih hinner
    refine ⟨Nat.add_le_add_right hle 2, ?_⟩
    rw [List.cons_append, List.cons_append, stringBody, happend]
    rfl
  | case3 cs hne =>
    cases hbody
    refine ⟨Nat.le_add_left 1 _, ?_⟩
    rw [List.cons_append]
    apply stringBody_quote
    intro c hc
    cases cs with
    | nil => exact h c hc
    | cons d cs =>
      obtain rfl : d = c := Option.some.inj hc
      rintro rfl
      exact hne cs rfl
  | case4 c cs hne hquote ih =>
    obtain ⟨⟨inner, n⟩, hinner, heq⟩ := Option.map_eq_some_iff.mp hbody
    cases heq
    obtain ⟨hle, happend⟩ := ih hinner
    refine ⟨Nat.add_le_add_right hle 1, ?_⟩
    rw [List.cons_append, stringBody_cons hquote, happend]
    rfl

/-- A number neither gains digits nor a point, before text that begins with neither. The same digits
are taken, and what is made of them does not look further. -/
theorem numberBody_append (h : ∀ d ∈ after.head?, d.isDigit = false ∧ d ≠ '.') {negative : Bool}
    {cs : List Char} {token : Token} {taken : Nat}
    (hbody : numberBody negative cs = .ok (token, taken)) :
    taken ≤ cs.length ∧ numberBody negative (cs ++ after) = .ok (token, taken) := by
  have hrunAppend : ∀ cs : List Char,
      (cs ++ after).takeWhile Char.isDigit = cs.takeWhile Char.isDigit :=
    takeWhile_append_of_head fun d hd => (h d hd).1
  have hlength : (cs.takeWhile Char.isDigit).length ≤ cs.length := (List.takeWhile_prefix _).length_le
  have hdrop : (cs ++ after).drop (cs.takeWhile Char.isDigit).length =
      cs.drop (cs.takeWhile Char.isDigit).length ++ after := List.drop_append_of_le_length hlength
  have hrest : (cs.drop (cs.takeWhile Char.isDigit).length).length =
      cs.length - (cs.takeWhile Char.isDigit).length := List.length_drop
  simp only [numberBody, hrunAppend, hdrop] at hbody ⊢
  split at hbody
  · next rest hpoint =>
    -- a point: what is behind it is a run of digits
    have hrun : (rest.takeWhile Char.isDigit).length ≤ rest.length := (List.takeWhile_prefix _).length_le
    rw [hpoint, List.length_cons] at hrest
    rw [hpoint, List.cons_append]
    simp only [hrunAppend]
    refine ⟨?_, hbody⟩
    split at hbody
    · obtain ⟨_, -, heq⟩ := map_eq_ok.mp hbody
      cases heq
      exact hlength
    · cases hbody
      omega
  · next hpoint =>
    have hnone : ∀ rest, cs.drop (cs.takeWhile Char.isDigit).length ++ after ≠ '.' :: rest := by
      intro rest heq
      cases hcs : cs.drop (cs.takeWhile Char.isDigit).length with
      | nil =>
        rw [hcs, List.nil_append] at heq
        exact (h '.' (by rw [heq]; rfl)).2 rfl
      | cons c others =>
        rw [hcs] at heq
        obtain ⟨rfl, -⟩ := List.cons.inj heq
        exact hpoint others hcs
    split
    · next rest heq => exact absurd heq (hnone rest)
    · refine ⟨?_, hbody⟩
      obtain ⟨_, -, heq⟩ := map_eq_ok.mp hbody
      cases heq
      exact hlength

/-- A number is sealed by what is no digit and no point. -/
theorem seals_of_numberBody {negative : Bool} {cs : List Char} {token : Token} {taken : Nat}
    (hbody : numberBody negative cs = .ok (token, taken)) (d : Char) :
    token.seals d = (!d.isDigit && d != '.') := by
  have hwhole : ∀ {digits : List Char} {n : Nat},
      (ofWhole negative digits).map (fun token => (token, n)) = .ok (token, taken) →
        token.seals d = (!d.isDigit && d != '.') := by
    intro digits n h
    obtain ⟨whole, hwhole, heq⟩ := map_eq_ok.mp h
    cases heq
    simp only [ofWhole] at hwhole
    split at hwhole
    · cases hwhole
      rfl
    · cases hwhole
  simp only [numberBody] at hbody
  split at hbody
  · split at hbody
    · exact hwhole hbody
    · cases hbody
      rfl
  · exact hwhole hbody

/-- A name or a keyword is sealed by what continues no name. -/
theorem seals_ofName (name : List Char) (d : Char) : (ofName name).seals d = !continuesName d := by
  unfold ofName
  split <;> rfl

/-- What neither begins with a character that would make the token longer nor is followed by one.
Where the text in front is empty, what follows it is at the front. -/
theorem Sealed.append {token : Token} {cs : List Char} (hcs : token.Sealed cs)
    (hafter : token.Sealed after) : token.Sealed (cs ++ after) := by
  cases cs with
  | nil => exact hafter
  | cons c cs => exact hcs

/-- A less sign is a sign by itself unless an equals or a greater sign follows. -/
theorem symbol_less {cs : List Char} (h : (sign .less).Sealed cs) :
    symbol '<' cs = .ok (sign .less, 0) := by
  cases cs with
  | nil => rfl
  | cons d cs =>
    obtain ⟨hequal, hgreater⟩ := Bool.and_eq_true_iff.mp (h d rfl)
    rw [symbol.eq_6]
    · intro rest heq
      exact bne_iff_ne.mp hgreater (List.cons.inj heq).1
    · intro rest heq
      exact bne_iff_ne.mp hequal (List.cons.inj heq).1

/-- A greater sign is a sign by itself unless an equals sign follows. -/
theorem symbol_greater {cs : List Char} (h : (sign .greater).Sealed cs) :
    symbol '>' cs = .ok (sign .greater, 0) := by
  cases cs with
  | nil => rfl
  | cons d cs =>
    rw [symbol.eq_7]
    intro rest heq
    exact bne_iff_ne.mp (h d rfl) (List.cons.inj heq).1

/-- Behind a sign nothing stands that would make one sign of two. The lexer takes the longer sign
where there is one. -/
theorem sealed_of_symbol {c : Char} {cs : List Char} {token : Token} {taken : Nat}
    (h : symbol c cs = .ok (token, taken)) : token.Sealed (cs.drop taken) := by
  unfold symbol at h
  split at h
  case h_6 hgreater hequal =>
    cases h
    intro d hd
    obtain ⟨rest, rfl⟩ : ∃ rest, cs = d :: rest := List.head?_eq_some_iff.mp hd
    rw [seals, Bool.and_eq_true, bne_iff_ne, bne_iff_ne]
    exact ⟨fun heq => hequal rest (heq ▸ rfl), fun heq => hgreater rest (heq ▸ rfl)⟩
  case h_7 hequal =>
    cases h
    intro d hd
    obtain ⟨rest, rfl⟩ : ∃ rest, cs = d :: rest := List.head?_eq_some_iff.mp hd
    rw [seals, bne_iff_ne]
    exact fun heq => hequal rest (heq ▸ rfl)
  case h_11 => cases h
  all_goals
    cases h
    exact fun _ _ => rfl

/-- Signs and punctuation do not grow before text that seals them. -/
theorem symbol_append {c : Char} {cs : List Char} {token : Token} {taken : Nat}
    (h : token.Sealed after) (hsymbol : symbol c cs = .ok (token, taken)) :
    taken ≤ cs.length ∧ symbol c (cs ++ after) = .ok (token, taken) := by
  have hcs : token.Sealed (cs.drop taken) := sealed_of_symbol hsymbol
  unfold symbol at hsymbol
  split at hsymbol
  case h_6 =>
    cases hsymbol
    exact ⟨Nat.zero_le _, symbol_less (hcs.append h)⟩
  case h_7 =>
    cases hsymbol
    exact ⟨Nat.zero_le _, symbol_greater (hcs.append h)⟩
  case h_11 => cases hsymbol
  all_goals
    cases hsymbol
    first | exact ⟨Nat.zero_le _, rfl⟩ | exact ⟨Nat.le_add_left 1 _, rfl⟩

/-- Text that begins with a digit still does with more behind it. -/
theorem startsDigit_append {cs : List Char} (h : startsDigit cs = true) (after : List Char) :
    startsDigit (cs ++ after) = true := by
  cases cs with
  | nil => cases h
  | cons c cs => exact h

/-- **A token is the same before text that seals it as at the end of a text.** Each kind of token
has the lemma for it above. -/
theorem Sealed.lexeme_append {token : Token} (h : token.Sealed after) {c : Char} {cs : List Char}
    {taken : Nat} (hlexeme : lexeme c cs = .ok (token, taken)) :
    taken ≤ cs.length ∧ lexeme c (cs ++ after) = .ok (token, taken) := by
  have hnumber : ∀ {negative : Bool} {cs : List Char} {n : Nat},
      numberBody negative cs = .ok (token, n) →
        n ≤ cs.length ∧ numberBody negative (cs ++ after) = .ok (token, n) := by
    intro negative cs n hbody
    refine numberBody_append (fun d hd => ?_) hbody
    have hseals := h d hd
    rw [seals_of_numberBody hbody] at hseals
    simpa using hseals
  rw [lexeme_eq_ok]
  cases lexeme_eq_ok.mp hlexeme with
  | string hquote hbody =>
    have hends : ∀ d ∈ after.head?, d ≠ '\x27' := fun d hd => bne_iff_ne.mp (h d hd)
    obtain ⟨hle, happend⟩ := stringBody_append hends hbody
    exact ⟨hle, .string hquote happend⟩
  | digits hdigit hbody =>
    obtain ⟨hle, happend⟩ := hnumber hbody
    exact ⟨Nat.le_of_succ_le_succ hle, .digits hdigit happend⟩
  | minus hminus hstarts hbody =>
    obtain ⟨hle, happend⟩ := hnumber hbody
    exact ⟨hle, .minus hminus (startsDigit_append hstarts after) happend⟩
  | word hname =>
    have hends : ∀ d ∈ after.head?, continuesName d = false := by
      intro d hd
      have hseals := h d hd
      rwa [seals_ofName, Bool.not_eq_true'] at hseals
    refine ⟨(List.takeWhile_prefix _).length_le, ?_⟩
    rw [← takeWhile_append_of_head hends cs]
    exact .word hname
  | symbol hsymbol =>
    obtain ⟨hle, happend⟩ := symbol_append h hsymbol
    exact ⟨hle, .symbol happend⟩

theorem lexeme_taken_le {c : Char} {cs : List Char} {token : Token} {taken : Nat}
    (h : lexeme c cs = .ok (token, taken)) : taken ≤ cs.length :=
  ((sealed_nil token).lexeme_append h).1

/-- Before a seam every token is cut as it is alone, whichever it is. The seam seals all tokens, so
none has to be named. -/
theorem StartsApart.lexeme_append (h : StartsApart after) {c : Char} {cs : List Char} {token : Token}
    {taken : Nat} (hlexeme : lexeme c cs = .ok (token, taken)) :
    taken ≤ cs.length ∧ lexeme c (cs ++ after) = .ok (token, taken) :=
  (h.sealed token).lexeme_append hlexeme

/-- **A text is cut at a seam as it is alone**, and what is behind it as it is in its place. The
recursion is that of cutting, token by token up to the seam. -/
theorem StartsApart.ofChars_append (h : StartsApart after) {position : Nat} {cs : List Char}
    {ps : List Placed} (hcs : ofChars position cs = .ok ps) :
    ofChars position (cs ++ after) = (ofChars (position + cs.length) after).map (ps ++ ·) := by
  induction hn : cs.length using Nat.strongRecOn generalizing position cs ps with
  | ind n ih =>
    cases cs with
    | nil =>
      rw [ofChars] at hcs
      cases hcs
      rw [← hn, List.nil_append, List.length_nil, Nat.add_zero]
      cases ofChars position after <;> rfl
    | cons c cs =>
      rw [List.length_cons] at hn
      rw [ofChars] at hcs
      rw [List.cons_append, ofChars]
      by_cases hblank : isBlank c = true
      · rw [if_pos hblank] at hcs ⊢
        rw [ih cs.length (by omega) hcs rfl, ← hn, Nat.add_right_comm, Nat.add_assoc]
      · rw [if_neg hblank] at hcs ⊢
        cases hlexeme : lexeme c cs with
        | error fault =>
          rw [hlexeme] at hcs
          cases hcs
        | ok read =>
          obtain ⟨token, taken⟩ := read
          rw [hlexeme] at hcs
          obtain ⟨rest, hrest, rfl⟩ := map_eq_ok.mp hcs
          obtain ⟨hle, happend⟩ := h.lexeme_append hlexeme
          have hlength : (cs.drop taken).length = cs.length - taken := List.length_drop
          have hplace : position + 1 + taken + (cs.drop taken).length = position + n := by omega
          simp only [happend]
          rw [List.drop_append_of_le_length hle, ih _ (by omega) hrest rfl, hplace]
          cases ofChars (position + n) after <;> rfl

end Lexeme

/-! ## Tokens without their places -/

/-- A text is cut into these tokens, wherever it stands. -/
def Cuts (cs : List Char) (ts : List Token) : Prop :=
  ∀ position, ∃ ps, ofChars position cs = .ok ps ∧ Expr.words ps = ts

/-- Where a text stands is no matter of its tokens. Only their places move with it, so the tokens
can be told without any. -/
theorem cuts_of_ofChars {position : Nat} {cs : List Char} {ps : List Placed}
    (h : ofChars position cs = .ok ps) : Cuts cs (Expr.words ps) := by
  induction hn : cs.length using Nat.strongRecOn generalizing position cs ps with
  | ind n ih =>
    intro place
    cases cs with
    | nil =>
      rw [ofChars] at h
      cases h
      exact ⟨[], by rw [ofChars], rfl⟩
    | cons c cs =>
      rw [List.length_cons] at hn
      rw [ofChars] at h ⊢
      by_cases hblank : isBlank c = true
      · rw [if_pos hblank] at h ⊢
        exact ih cs.length (by omega) h rfl (place + 1)
      · rw [if_neg hblank] at h ⊢
        cases hlexeme : lexeme c cs with
        | error fault =>
          rw [hlexeme] at h
          cases h
        | ok read =>
          obtain ⟨token, taken⟩ := read
          rw [hlexeme] at h
          obtain ⟨rest, hrest, rfl⟩ := map_eq_ok.mp h
          have hlength : (cs.drop taken).length = cs.length - taken := List.length_drop
          obtain ⟨ps, hps, hwords⟩ := ih _ (by omega) hrest rfl (place + 1 + taken)
          refine ⟨⟨token, place⟩ :: ps, ?_, congrArg (token :: ·) hwords⟩
          simp only [hps]
          rfl

/-- A text is cut into one row of tokens only. -/
theorem Cuts.unique {cs : List Char} {ts us : List Token} (h : Cuts cs ts) (h' : Cuts cs us) :
    ts = us := by
  obtain ⟨ps, hps, rfl⟩ := h 0
  obtain ⟨qs, hqs, rfl⟩ := h' 0
  rw [hps] at hqs
  cases hqs
  rfl

/-- Texts that are cut alone are cut side by side, with their tokens one after the other. All that
is asked is that the second begins apart. -/
theorem Cuts.append {cs after : List Char} {ts us : List Token} (h : Cuts cs ts)
    (hseam : StartsApart after) (hafter : Cuts after us) : Cuts (cs ++ after) (ts ++ us) := by
  intro position
  obtain ⟨ps, hps, rfl⟩ := h position
  obtain ⟨qs, hqs, rfl⟩ := hafter (position + cs.length)
  refine ⟨ps ++ qs, ?_, Expr.words_append ps qs⟩
  rw [hseam.ofChars_append hps, hqs]
  rfl

/-- What is behind a text that is cut alone was cut alone. So where the whole is cut, the text
behind the seam is. -/
theorem Cuts.of_append {cs after : List Char} {ts ws : List Token} (h : Cuts cs ts)
    (hseam : StartsApart after) (hall : Cuts (cs ++ after) ws) :
    ∃ us, Cuts after us ∧ ws = ts ++ us := by
  obtain ⟨ps, hps, rfl⟩ := h 0
  obtain ⟨whole, hwhole, rfl⟩ := hall 0
  rw [hseam.ofChars_append hps] at hwhole
  obtain ⟨qs, hqs, rfl⟩ := map_eq_ok.mp hwhole
  exact ⟨Expr.words qs, cuts_of_ofChars hqs, Expr.words_append ps qs⟩

/-- A token of one character does not look behind it. -/
theorem cuts_single {c : Char} {token : Token} (hblank : isBlank c = false)
    (hlexeme : ∀ after, lexeme c after = .ok (token, 0)) {after : List Char} {ws : List Token} :
    Cuts (c :: after) ws ↔ ∃ us, Cuts after us ∧ ws = token :: us := by
  constructor
  · intro h
    obtain ⟨ps, hps, rfl⟩ := h 0
    rw [ofChars_single hblank hlexeme] at hps
    obtain ⟨qs, hqs, rfl⟩ := map_eq_ok.mp hps
    exact ⟨Expr.words qs, cuts_of_ofChars hqs, rfl⟩
  · rintro ⟨us, hafter, rfl⟩ position
    obtain ⟨qs, hqs, rfl⟩ := hafter (position + 1)
    refine ⟨⟨token, position⟩ :: qs, ?_, rfl⟩
    rw [ofChars_single hblank hlexeme, hqs]
    rfl

/-- An opening parenthesis is a token in front of whatever is cut behind it. -/
theorem cuts_leftParen {after : List Char} {ws : List Token} :
    Cuts ('(' :: after) ws ↔ ∃ us, Cuts after us ∧ ws = leftParen :: us :=
  cuts_single (by decide) fun _ => rfl

/-- A closing parenthesis is a token by itself, whatever is behind it. -/
theorem cuts_rightParen {after : List Char} {ws : List Token} :
    Cuts (')' :: after) ws ↔ ∃ us, Cuts after us ∧ ws = rightParen :: us :=
  cuts_single (by decide) fun _ => rfl

/-- **A text in parentheses is cut as it is alone**, whatever is behind it. The closing parenthesis
ends its last token, and nothing is asked of what is before the opening one. -/
theorem Cuts.inParens {cs after : List Char} {ts ws : List Token} (h : Cuts cs ts) :
    Cuts ('(' :: (cs ++ ')' :: after)) ws ↔
      ∃ us, Cuts after us ∧ ws = Expr.inParens ts ++ us := by
  have hseam : StartsApart (')' :: after) := (endsToken_rightParen after).startsApart
  have hgroup : ∀ us, Expr.inParens ts ++ us = leftParen :: (ts ++ rightParen :: us) := by
    intro us
    rw [Expr.inParens, List.cons_append, List.cons_append, List.append_assoc,
      List.singleton_append]
  constructor
  · intro hall
    obtain ⟨vs, hopened, rfl⟩ := cuts_leftParen.mp hall
    obtain ⟨xs, hclosed, rfl⟩ := h.of_append hseam hopened
    obtain ⟨us, hafter, rfl⟩ := cuts_rightParen.mp hclosed
    exact ⟨us, hafter, (hgroup us).symm⟩
  · rintro ⟨us, hafter, rfl⟩
    have hclosed := h.append hseam (cuts_rightParen.mpr ⟨us, hafter, rfl⟩)
    exact cuts_leftParen.mpr ⟨_, hclosed, hgroup us⟩

theorem cuts_nil : Cuts [] [] := fun _ => ⟨[], by rw [ofChars], rfl⟩

/-- A blank in front of a text is left out. -/
theorem Cuts.cons_blank {c : Char} (hblank : isBlank c = true) {after : List Char} {us : List Token}
    (h : Cuts after us) : Cuts (c :: after) us := by
  intro position
  rw [ofChars, if_pos hblank]
  exact h (position + 1)

/-- A keyword between blanks. The blank behind it ends it, whatever follows. -/
theorem cuts_keyword (k : Keyword) {after : List Char} {us : List Token} (h : Cuts after us) :
    Cuts (k.text.toList ++ ' ' :: after) (keyword k :: us) :=
  (readsFrom_keyword k).ofChars_append (endsToken_blank after) (h.cons_blank rfl)

end Token

/-- The tokens of a text are those that its characters are cut into. -/
theorem TokenStream.cuts_of_ofText {source : String} {stream : TokenStream}
    (h : TokenStream.ofText source = .ok stream) :
    Token.Cuts source.toList (Expr.words stream.tokens) := by
  obtain ⟨tokens, htokens, rfl⟩ := map_eq_ok.mp h
  exact Token.cuts_of_ofChars htokens

/-- A text that is cut into tokens is cut into a stream of them, at the places where they stand. -/
theorem TokenStream.ofText_of_cuts {source : String} {ts : List Token}
    (h : Token.Cuts source.toList ts) :
    ∃ stream, TokenStream.ofText source = .ok stream ∧ Expr.words stream.tokens = ts := by
  obtain ⟨ps, hps, hwords⟩ := h 0
  exact ⟨⟨ps, source.length⟩, map_eq_ok.mpr ⟨ps, hps, rfl⟩, hwords⟩

end WhereRules
