import WhereRules.Proofs.Composition.Seams

/-!
# A token on its own

A token is told by the characters that it takes: what stands behind them may end it, and adds nothing
to it. So where the text is broken off behind a token, the token is the same (`lexeme_of_append`).
What stands behind a token can only matter by making it longer, which is where every kind of token
has its own lookahead: the second quote of a string, the digit behind a point, the second character
of a sign.
-/

namespace WhereRules.Token

variable {cs after : List Char}

/-- A run that ends within a text does not need what is behind the text. It could only be longer
with it, and it is not. -/
theorem takeWhile_of_append {q : Char → Bool}
    (h : ((cs ++ after).takeWhile q).length ≤ cs.length) :
    (cs ++ after).takeWhile q = cs.takeWhile q := by
  induction cs with
  | nil =>
    rw [List.takeWhile_nil]
    exact List.length_eq_zero_iff.mp (Nat.le_zero.mp h)
  | cons c cs ih =>
    rw [List.cons_append] at h ⊢
    by_cases hc : q c = true
    · rw [List.takeWhile_cons_of_pos hc, List.length_cons, List.length_cons] at h
      rw [List.takeWhile_cons_of_pos hc, List.takeWhile_cons_of_pos hc,
        ih (Nat.le_of_succ_le_succ h)]
    · rw [List.takeWhile_cons_of_neg hc, List.takeWhile_cons_of_neg hc]

/-! ## Strings -/

/-- A string takes at least the quote that closes it. -/
theorem stringBody_pos {text : List Char} {taken : Nat} (h : stringBody cs = some (text, taken)) :
    0 < taken := by
  unfold stringBody at h
  split at h
  · cases h
  · obtain ⟨⟨inner, n⟩, -, heq⟩ := Option.map_eq_some_iff.mp h
    cases heq
    exact Nat.zero_lt_succ _
  · cases h
    exact Nat.zero_lt_one
  · obtain ⟨⟨inner, n⟩, -, heq⟩ := Option.map_eq_some_iff.mp h
    cases heq
    exact Nat.zero_lt_succ _

/-- A string that ends within a text is closed there, and the quote that closes it is doubled by
nothing behind the text. -/
theorem stringBody_of_append {text : List Char} {taken : Nat}
    (h : stringBody (cs ++ after) = some (text, taken)) (hle : taken ≤ cs.length) :
    stringBody cs = some (text, taken) := by
  fun_induction stringBody cs generalizing text taken with
  | case1 => exact absurd (stringBody_pos h) (Nat.not_lt.mpr hle)
  | case2 cs ih =>
    rw [List.cons_append, List.cons_append, stringBody] at h
    obtain ⟨⟨inner, n⟩, hinner, heq⟩ := Option.map_eq_some_iff.mp h
    cases heq
    rw [ih hinner (Nat.le_of_add_le_add_right hle)]
    rfl
  | case3 cs hne =>
    cases cs with
    | nil =>
      -- a quote behind the text would belong to the string
      rw [← h, List.cons_append, List.nil_append]
      refine (stringBody_quote fun c hc hquote => ?_).symm
      obtain ⟨rest, rfl⟩ := List.head?_eq_some_iff.mp hc
      rw [List.cons_append, List.nil_append, hquote, stringBody] at h
      obtain ⟨⟨inner, n⟩, -, heq⟩ := Option.map_eq_some_iff.mp h
      cases heq
      exact absurd hle (by simp)
    | cons d cs =>
      have hquote : d ≠ '\x27' := fun hd => hne cs (hd ▸ rfl)
      rw [← h, List.cons_append, List.cons_append]
      refine (stringBody_quote fun c hc => ?_).symm
      obtain rfl : d = c := Option.some.inj hc
      exact hquote
  | case4 c cs hne hquote ih =>
    rw [List.cons_append, stringBody_cons hquote] at h
    obtain ⟨⟨inner, n⟩, hinner, heq⟩ := Option.map_eq_some_iff.mp h
    cases heq
    rw [ih hinner (Nat.le_of_succ_le_succ hle)]
    rfl

/-! ## Numbers -/

/-- A number that ends within a text is the same without what is behind the text. Where it has no
point, a point behind it would be refused or go on with it. -/
theorem numberBody_of_append {negative : Bool} {token : Token} {taken : Nat}
    (h : numberBody negative (cs ++ after) = .ok (token, taken)) (hle : taken ≤ cs.length) :
    numberBody negative cs = .ok (token, taken) := by
  have hwhole : (cs ++ after).takeWhile Char.isDigit = cs.takeWhile Char.isDigit :=
    takeWhile_of_append (Nat.le_trans (length_digits_le h) hle)
  have hlength : (cs.takeWhile Char.isDigit).length ≤ cs.length := (List.takeWhile_prefix _).length_le
  have hdrop : (cs ++ after).drop (cs.takeWhile Char.isDigit).length =
      cs.drop (cs.takeWhile Char.isDigit).length ++ after := List.drop_append_of_le_length hlength
  have hrest : (cs.drop (cs.takeWhile Char.isDigit).length).length =
      cs.length - (cs.takeWhile Char.isDigit).length := List.length_drop
  simp only [numberBody, hwhole, hdrop] at h ⊢
  generalize cs.drop (cs.takeWhile Char.isDigit).length = behind at h hrest ⊢
  cases behind with
  | nil =>
    -- the digits end the text: a point behind it has no part in the number
    split at h
    · split at h
      · exact h
      · cases h
        simp only [List.length_nil] at hrest
        omega
    · exact h
  | cons c rest =>
    rw [List.cons_append] at h
    by_cases hpoint : c = '.'
    · subst hpoint
      simp only at h ⊢
      by_cases hnone : (rest ++ after).takeWhile Char.isDigit = []
      · have hrun : rest.takeWhile Char.isDigit = [] := by
          rw [← takeWhile_of_append (by rw [hnone]; exact Nat.zero_le _), hnone]
        rw [if_pos hnone] at h
        rw [if_pos hrun]
        exact h
      · rw [if_neg hnone] at h
        cases h
        rw [List.length_cons] at hrest
        rw [takeWhile_of_append (by omega)] at hnone ⊢
        rw [if_neg hnone]
    · split at h
      · next heq => exact absurd (List.cons.inj heq).1 hpoint
      · split
        · next heq => exact absurd (List.cons.inj heq).1 hpoint
        · exact h

/-! ## Signs and punctuation -/

/-- A sign looks at no more than one character. -/
theorem symbol_cons_append (c d : Char) (cs after : List Char) :
    symbol c (d :: cs ++ after) = symbol c (d :: cs) := by
  rw [List.cons_append]
  unfold symbol
  split <;> simp_all

/-- A sign that ends within a text is the same without what is behind the text. -/
theorem symbol_of_append {c : Char} {token : Token} {taken : Nat}
    (h : symbol c (cs ++ after) = .ok (token, taken)) (hle : taken ≤ cs.length) :
    symbol c cs = .ok (token, taken) := by
  cases cs with
  | nil =>
    obtain rfl : taken = 0 := Nat.le_zero.mp hle
    unfold symbol at h
    split at h <;> cases h <;> rfl
  | cons d cs => rw [← h, symbol_cons_append]

/-! ## Tokens -/

/-- A minus that begins a number has a digit behind it within the text, for the number takes that
digit. -/
theorem startsDigit_of_append {negative : Bool} {token : Token} {taken : Nat}
    (hdigit : startsDigit (cs ++ after) = true)
    (h : numberBody negative (cs ++ after) = .ok (token, taken)) (hle : taken ≤ cs.length) :
    startsDigit cs = true := by
  cases cs with
  | nil =>
    -- the number would have no character of its own
    cases after with
    | nil => exact hdigit
    | cons d after =>
      have hd : d.isDigit = true := hdigit
      have hlength := Nat.le_trans (length_digits_le h) hle
      rw [List.nil_append, List.takeWhile_cons_of_pos hd] at hlength
      exact absurd hlength (Nat.not_succ_le_zero _)
  | cons d cs => exact hdigit

/-- **A token needs nothing of what stands behind it.** There is one lemma for each kind of token
that looks ahead. -/
theorem lexeme_of_append {c : Char} {token : Token} {taken : Nat}
    (h : lexeme c (cs ++ after) = .ok (token, taken)) (hle : taken ≤ cs.length) :
    lexeme c cs = .ok (token, taken) := by
  rw [lexeme_eq_ok] at h ⊢
  cases h with
  | string hquote hbody => exact .string hquote (stringBody_of_append hbody hle)
  | digits hdigit hbody =>
    rw [← List.cons_append] at hbody
    exact .digits hdigit (numberBody_of_append hbody (Nat.succ_le_succ hle))
  | minus hminus hstarts hbody =>
    exact .minus hminus (startsDigit_of_append hstarts hbody hle) (numberBody_of_append hbody hle)
  | word hname =>
    rw [takeWhile_of_append hle]
    exact .word hname
  | symbol hsymbol => exact .symbol (symbol_of_append hsymbol hle)

end WhereRules.Token
