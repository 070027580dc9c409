import WhereRules.Predicate.Written
import WhereRules.Proofs.Grammar.Completeness
import WhereRules.Proofs.Spelling.Double

/-!
# Tokens read back as they were written

A row of tokens is written with a blank between two neighbours, except inside parentheses and before
a comma. Reading the text finds the same tokens (`ofText_chars`), whatever the row: it need not be
rule text. Only tokens that no text has are left out (`Token.Legible`), which are endless numbers
and names that read as something else.

What comes behind a token decides whether it ends there. A blank, a closing parenthesis and a comma
end every token (`EndsToken`), and an opening parenthesis ends at once.
-/

namespace WhereRules

/-- An integer of 64 bits is in the range in which whole numbers are read. -/
theorem Value.fitsInt_toInt (n : Int64) : fitsInt n.toInt = true := by
  rw [fitsInt, Bool.and_eq_true, decide_eq_true_eq, decide_eq_true_eq]
  exact ⟨n.minValue_le_toInt, n.toInt_le⟩

namespace Token

/-- Whether a token has a text that reads back as it. -/
def Legible : Token → Prop
  | identifier name => isName name = true
  | number x => x.isFinite = true
  | _ => True

/-- Text behind a token at which the token ends, whichever it is. -/
def EndsToken (cs : List Char) : Prop := ∀ c ∈ cs.head?, c = ' ' ∨ c = ')' ∨ c = ','

/-- A text reads as a token wherever a token ends behind it. -/
def ReadsFrom (token : Token) (cs : List Char) : Prop :=
  ∃ c rest, cs = c :: rest ∧ isBlank c = false ∧
    ∀ after, EndsToken after → lexeme c (rest ++ after) = .ok (token, rest.length)

/-! ## Runs of characters -/

/-- What ends every token has none of the properties that a blank, a closing parenthesis and a comma
all lack. -/
theorem EndsToken.head_eq_false {after : List Char} (h : EndsToken after) {p : Char → Bool}
    (hblank : p ' ' = false) (hparen : p ')' = false) (hcomma : p ',' = false) :
    ∀ c ∈ after.head?, p c = false := by
  intro c hc
  rcases h c hc with rfl | rfl | rfl
  · exact hblank
  · exact hparen
  · exact hcomma

/-- A run that ends before a text does not go on in it if it has not ended before. -/
theorem takeWhile_append_of_head {q : Char → Bool} {after : List Char}
    (h : ∀ d ∈ after.head?, q d = false) (cs : List Char) : (cs ++ after).takeWhile q = cs.takeWhile q := by
  induction cs with
  | nil =>
    cases after with
    | nil => rfl
    | cons d rest =>
      have hd : ¬q d = true := Bool.eq_false_iff.mp (h d rfl)
      rw [List.nil_append, List.takeWhile_cons_of_neg hd, List.takeWhile_nil]
  | cons c cs ih =>
    rw [List.cons_append, List.takeWhile_cons, List.takeWhile_cons, ih]

/-- A run ends where its text does if nothing behind it belongs to the run. -/
theorem takeWhile_append {p : Char → Bool} {cs after : List Char} (hcs : ∀ c ∈ cs, p c = true)
    (hafter : ∀ c ∈ after.head?, p c = false) : (cs ++ after).takeWhile p = cs := by
  have hnone : after.takeWhile p = [] := takeWhile_append_of_head hafter []
  rw [List.takeWhile_append_of_pos hcs, hnone, List.append_nil]

theorem isBlank_of_isDigit {c : Char} (h : c.isDigit = true) : isBlank c = false := by
  have hle : (48 : Nat) ≤ c.toNat := by
    simp only [Char.isDigit, Bool.and_eq_true, decide_eq_true_eq] at h
    exact h.1
  simp only [isBlank, decide_eq_false_iff_not]
  omega

theorem le_toNat_of_startsName {c : Char} (h : startsName c = true) : 65 ≤ c.toNat := by
  have hranges : (decide (65 ≤ c.val ∧ c.val ≤ 90) || (97 ≤ c.val && c.val ≤ 122 : Bool) ||
      c == '_') = true := h
  simp only [Bool.or_eq_true, Bool.and_eq_true, decide_eq_true_eq, beq_iff_eq] at hranges
  rcases hranges with (hupper | hlower) | rfl
  · exact hupper.1
  · exact Nat.le_trans (by decide) hlower.1
  · decide

theorem isBlank_of_startsName {c : Char} (h : startsName c = true) : isBlank c = false := by
  have hle := le_toNat_of_startsName h
  simp only [isBlank, decide_eq_false_iff_not]
  omega

/-- What may begin a name is no digit, so a word is never mistaken for a number. -/
theorem not_isDigit_of_startsName {c : Char} (h : startsName c = true) : ¬c.isDigit = true := by
  intro hdigit
  have hle := le_toNat_of_startsName h
  simp only [Char.isDigit, Bool.and_eq_true, decide_eq_true_eq] at hdigit
  have hge : c.toNat ≤ 57 := hdigit.2
  omega

/-! ## Strings -/

theorem stringBody_cons {c : Char} (h : c ≠ '\x27') (cs : List Char) :
    stringBody (c :: cs) = (stringBody cs).map fun (text, taken) => (c :: text, taken + 1) := by
  rw [stringBody.eq_def]
  split
  · next heq => cases heq
  · next heq => exact absurd (List.cons.inj heq).1 h
  · next heq => exact absurd (List.cons.inj heq).1 h
  · next heq =>
    cases heq
    rfl

/-- The text of a string ends at the first quote that is not written twice. Quotes inside are
written twice, and behind the last one nothing comes that is a quote. -/
theorem stringBody_quoteDoubled (cs : List Char) {after : List Char} (h : EndsToken after) :
    stringBody (quoteDoubled cs ++ '\x27' :: after) = some (cs, (quoteDoubled cs).length + 1) := by
  induction cs with
  | nil =>
    rw [quoteDoubled, List.nil_append, stringBody]
    · rfl
    · rintro rest rfl
      exact absurd (h '\x27' rfl) (by decide)
  | cons c cs ih =>
    by_cases hquote : c = '\x27'
    · subst hquote
      simp only [quoteDoubled, if_true, List.cons_append, stringBody, ih, Option.map_some,
        List.length_cons]
    · simp only [quoteDoubled, if_neg hquote, List.cons_append, stringBody_cons hquote, ih,
        Option.map_some, List.length_cons]

/-- A string reads back whatever it holds. -/
theorem readsFrom_string (s : String) :
    ReadsFrom (string s) (string s).spelling.toList := by
  refine ⟨'\x27', quoteDoubled s.toList ++ ['\x27'], ?_, by decide, ?_⟩
  · show (String.ofList ('\x27' :: quoteDoubled s.toList ++ ['\x27'])).toList = _
    rw [String.toList_ofList, List.cons_append]
  · intro after h
    rw [lexeme, if_pos rfl, List.append_assoc, List.singleton_append, stringBody_quoteDoubled _ h]
    simp only [String.ofList_toList, List.length_append, List.length_singleton]

/-! ## Numbers -/

/-- Digits without a point are a whole number, up to where a token ends. -/
theorem numberBody_whole {digits after : List Char} (hdigits : ∀ c ∈ digits, c.isDigit = true)
    (h : EndsToken after) (negative : Bool) :
    numberBody negative (digits ++ after) =
      (ofWhole negative digits).map fun token => (token, digits.length) := by
  have hwhole : (digits ++ after).takeWhile Char.isDigit = digits :=
    takeWhile_append hdigits (h.head_eq_false rfl rfl rfl)
  rw [numberBody, hwhole]
  simp only [List.drop_left]
  split
  · exact absurd (h '.' rfl) (by decide)
  · rfl

/-- Digits with a point among them are a double, up to where a token ends. -/
theorem numberBody_pointed {whole fraction after : List Char} (hfraction : fraction ≠ [])
    (hdigits : ∀ c ∈ whole ++ fraction, c.isDigit = true) (h : EndsToken after) (negative : Bool) :
    numberBody negative (whole ++ '.' :: fraction ++ after) =
      .ok (number (Double.ofDigits negative whole fraction),
        (whole ++ '.' :: fraction).length) := by
  have hwhole : (whole ++ '.' :: (fraction ++ after)).takeWhile Char.isDigit = whole :=
    takeWhile_append (fun c hc => hdigits c (List.mem_append_left _ hc)) fun c hc => by
      cases hc
      rfl
  have hafter : (fraction ++ after).takeWhile Char.isDigit = fraction :=
    takeWhile_append (fun c hc => hdigits c (List.mem_append_right _ hc))
      (h.head_eq_false rfl rfl rfl)
  rw [List.append_assoc, List.cons_append, numberBody, hwhole]
  simp only [List.drop_left, hafter, if_neg hfraction, List.length_append, List.length_cons]
  rw [Nat.add_assoc, Nat.add_comm 1]

/-- A number under its sign is read by what reads it without. The lexer takes a minus sign for one
only before a digit. -/
theorem readsFrom_number {token : Token} {negative : Bool} {body : List Char} (hbody : body ≠ [])
    (hdigit : ∀ c ∈ body.head?, c.isDigit = true)
    (h : ∀ after, EndsToken after →
      numberBody negative (body ++ after) = .ok (token, body.length)) :
    ReadsFrom token (signText negative ++ body) := by
  obtain ⟨d, ds, rfl⟩ := List.exists_cons_of_ne_nil hbody
  have hd : d.isDigit = true := hdigit d rfl
  cases negative with
  | true =>
    refine ⟨'-', d :: ds, rfl, by decide, fun after hafter => ?_⟩
    have hminus : startsDigit (d :: ds ++ after) = true := hd
    rw [lexeme, if_neg (by decide), if_neg (by decide), if_pos ⟨rfl, hminus⟩, h after hafter]
  | false =>
    have hquote : d ≠ '\x27' := by
      rintro rfl
      exact absurd hd (by decide)
    have hblank : isBlank d = false := isBlank_of_isDigit hd
    refine ⟨d, ds, rfl, hblank, fun after hafter => ?_⟩
    rw [lexeme, if_neg hquote, if_pos hd, ← List.cons_append, h after hafter]
    rfl

/-- The text of a whole number is its sign and its digits. -/
theorem toList_repr (n : Int) :
    n.repr.toList = signText (n < 0) ++ Nat.toDigits 10 n.natAbs := by
  by_cases hneg : n < 0
  · have habs : (-n).toNat = n.natAbs := by omega
    rw [Int.repr_eq_if, if_neg (by omega), String.toList_append, Nat.toList_repr, habs,
      decide_eq_true hneg]
    rfl
  · have habs : n.toNat = n.natAbs := by omega
    rw [Int.repr_eq_if, if_pos (by omega), Nat.toList_repr, habs, decide_eq_false hneg]
    rfl

theorem signed_natAbs (n : Int) : Double.signed (n < 0) n.natAbs = n := by
  by_cases hneg : n < 0
  · rw [Double.signed, decide_eq_true hneg, if_pos rfl]
    omega
  · rw [Double.signed, decide_eq_false hneg, if_neg Bool.false_ne_true]
    omega

/-- An integer reads back, the least one too, whose size alone would not fit. -/
theorem readsFrom_int (n : Int64) : ReadsFrom (int n) (int n).spelling.toList := by
  show ReadsFrom (int n) n.toInt.repr.toList
  have hdigits : ∀ c ∈ Nat.toDigits 10 n.toInt.natAbs, c.isDigit = true := fun c hc =>
    isDigit_of_mem_toDigits hc
  have hwhole : ofWhole (n.toInt < 0) (Nat.toDigits 10 n.toInt.natAbs) = .ok (int n) := by
    simp only [ofWhole, Nat.ofDigitChars_ten_toDigits, signed_natAbs, Value.fitsInt_toInt,
      if_true, Int64.ofInt_toInt]
  rw [toList_repr]
  refine readsFrom_number Nat.toDigits_ne_nil (fun c hc => ?_) fun after hafter => ?_
  · exact hdigits c (List.mem_of_mem_head? hc)
  · rw [numberBody_whole hdigits hafter, hwhole]
    rfl

/-- A finite double reads back, by the digits that its text has around the point. -/
theorem readsFrom_finite {x : Double} (h : x.isFinite = true) :
    ReadsFrom (number x) (number x).spelling.toList := by
  cases x with
  | nan | infinity _ => cases h
  | finite negative m =>
    obtain ⟨whole, fraction, hwhole, hfraction, hdigits, htext, hvalue⟩ :=
      Double.ofDigits_spelling negative m
    rw [htext]
    refine readsFrom_number (by simp) (fun c hc => ?_) fun after hafter => ?_
    · obtain ⟨d, ds, rfl⟩ := List.exists_cons_of_ne_nil hwhole
      obtain rfl : d = c := Option.some.inj hc
      exact hdigits d List.mem_cons_self
    · rw [numberBody_pointed hfraction hdigits hafter, hvalue]

/-! ## Words -/

/-- A word is read whole, up to what ends every token. Whether it is a keyword or a name is decided
afterwards. -/
theorem readsFrom_word {c : Char} {cs : List Char} (hc : startsName c = true)
    (hcs : ∀ d ∈ cs, continuesName d = true) : ReadsFrom (ofName (c :: cs)) (c :: cs) := by
  refine ⟨c, cs, rfl, isBlank_of_startsName hc, fun after hafter => ?_⟩
  have hquote : c ≠ '\x27' := by
    rintro rfl
    exact absurd hc (by decide)
  have hminus : ¬(c = '-' ∧ startsDigit (cs ++ after) = true) := by
    rintro ⟨rfl, -⟩
    exact absurd hc (by decide)
  have hname : (cs ++ after).takeWhile continuesName = cs :=
    takeWhile_append hcs (hafter.head_eq_false rfl rfl rfl)
  rw [lexeme, if_neg hquote, if_neg (not_isDigit_of_startsName hc), if_neg hminus, if_pos hc, hname]

/-- A keyword reads back as that keyword. -/
theorem readsFrom_keyword (k : Keyword) : ReadsFrom (keyword k) (keyword k).spelling.toList := by
  have hword : Keyword.ofWord? k.text = some k := by cases k <;> decide +kernel
  have hletters : ∃ c cs, k.text.toList = c :: cs ∧ startsName c = true ∧
      cs.all continuesName = true := by
    cases k <;> exact ⟨_, _, rfl, rfl, rfl⟩
  obtain ⟨c, cs, htext, hc, hcs⟩ := hletters
  have htoken : ofName (c :: cs) = keyword k := by
    rw [ofName, ← htext, String.ofList_toList, hword]
  show ReadsFrom (keyword k) k.text.toList
  rw [htext, ← htoken]
  exact readsFrom_word hc (List.all_eq_true.mp hcs)

/-- A name reads back as that name, for it is a word that no keyword is spelled as. -/
theorem readsFrom_identifier {name : String} (h : isName name = true) :
    ReadsFrom (identifier name) (identifier name).spelling.toList := by
  show ReadsFrom _ name.toList
  unfold isName at h
  split at h
  · cases h
  · next c cs hname =>
    simp only [Bool.and_eq_true, List.all_eq_true, Option.isNone_iff_eq_none] at h
    have htoken : ofName (c :: cs) = identifier name := by
      rw [ofName, ← hname, String.ofList_toList, h.2]
    rw [hname, ← htoken]
    exact readsFrom_word h.1.1 h.1.2

/-! ## Signs and punctuation -/

/-- A sign ends before what makes no longer sign with it. `<` and `<=` begin alike, so this has to
be looked at for each sign. -/
theorem readsFrom_sign (s : Sign) : ReadsFrom (sign s) (sign s).spelling.toList := by
  have hshort : ∀ c, c ∈ ['=', '<', '>'] → ∀ after, EndsToken after →
      lexeme c after = lexeme c [] := by
    intro c hc after hafter
    cases after with
    | nil => rfl
    | cons d rest =>
      simp only [List.mem_cons, List.not_mem_nil, or_false] at hc
      rcases hafter d rfl with rfl | rfl | rfl <;> rcases hc with rfl | rfl | rfl <;> rfl
  cases s with
  | equal => exact ⟨'=', [], rfl, by decide, fun after h => hshort '=' (by decide) after h⟩
  | less => exact ⟨'<', [], rfl, by decide, fun after h => hshort '<' (by decide) after h⟩
  | greater => exact ⟨'>', [], rfl, by decide, fun after h => hshort '>' (by decide) after h⟩
  | notEqual => exact ⟨'!', ['='], rfl, by decide, fun _ _ => rfl⟩
  | unequal => exact ⟨'<', ['>'], rfl, by decide, fun _ _ => rfl⟩
  | lessOrEqual => exact ⟨'<', ['='], rfl, by decide, fun _ _ => rfl⟩
  | greaterOrEqual => exact ⟨'>', ['='], rfl, by decide, fun _ _ => rfl⟩

/-- **Each legible token reads back** wherever a token ends behind it. One case for each kind of
token, by the lemmas above. -/
theorem Legible.readsFrom {token : Token} (h : token.Legible) :
    ReadsFrom token token.spelling.toList := by
  cases token with
  | keyword k => exact readsFrom_keyword k
  | identifier name => exact readsFrom_identifier h
  | int n => exact readsFrom_int n
  | number x => exact readsFrom_finite h
  | string s => exact readsFrom_string s
  | sign s => exact readsFrom_sign s
  | leftParen => exact ⟨'(', [], rfl, by decide, fun _ _ => rfl⟩
  | rightParen => exact ⟨')', [], rfl, by decide, fun _ _ => rfl⟩
  | comma => exact ⟨',', [], rfl, by decide, fun _ _ => rfl⟩

/-! ## Rows of tokens -/

theorem ofChars_blank (position : Nat) (cs : List Char) :
    ofChars position (' ' :: cs) = ofChars (position + 1) cs := by
  rw [ofChars, if_pos (by decide)]

/-- A token and what comes behind it. That this ends the token is all that the token has to know of
it. -/
theorem ReadsFrom.ofChars_append {token : Token} {cs after : List Char}
    (h : ReadsFrom token cs) (hends : EndsToken after) {ts : List Token}
    (hrest : ∀ position, ∃ ps, ofChars position after = .ok ps ∧ Expr.words ps = ts)
    (position : Nat) :
    ∃ ps, ofChars position (cs ++ after) = .ok ps ∧ Expr.words ps = token :: ts := by
  obtain ⟨c, rest, rfl, hblank, hlexeme⟩ := h
  obtain ⟨ps, hps, rfl⟩ := hrest (position + 1 + rest.length)
  refine ⟨⟨token, position⟩ :: ps, ?_, rfl⟩
  rw [List.cons_append, ofChars, hblank, if_neg Bool.false_ne_true, hlexeme after hends]
  simp only [List.drop_left, hps, Except.map]

/-- A token of one character that needs nothing behind it. -/
theorem ofChars_single {c : Char} {token : Token} (hblank : isBlank c = false)
    (hlexeme : ∀ after, lexeme c after = .ok (token, 0)) (position : Nat) (after : List Char) :
    ofChars position (c :: after) =
      (ofChars (position + 1) after).map fun ps => ⟨token, position⟩ :: ps := by
  rw [ofChars, hblank, if_neg Bool.false_ne_true, hlexeme]
  simp only [List.drop_zero, Nat.add_zero]

/-- An opening parenthesis needs nothing behind it. -/
theorem ofChars_leftParen {after : List Char} {ts : List Token}
    (hrest : ∀ position, ∃ ps, ofChars position after = .ok ps ∧ Expr.words ps = ts)
    (position : Nat) :
    ∃ ps, ofChars position ('(' :: after) = .ok ps ∧ Expr.words ps = leftParen :: ts := by
  obtain ⟨ps, hps, rfl⟩ := hrest (position + 1)
  refine ⟨⟨leftParen, position⟩ :: ps, ?_, rfl⟩
  rw [ofChars_single (by decide) (fun _ => rfl), hps]
  rfl

/-- The characters of a row begin with those of its first token. -/
theorem chars_cons (t : Token) (ts : List Token) :
    ∃ after, chars (t :: ts) = t.spelling.toList ++ after := by
  cases ts with
  | nil => exact ⟨[], by rw [chars, List.append_nil]⟩
  | cons next rest => exact ⟨_, by rw [chars, List.append_assoc]⟩

/-- Where no blank is written behind a token that needs one, the next token ends it: it is a comma
or a closing parenthesis. -/
theorem endsToken_chars {left next : Token} (h : left.spaced next = false)
    (hleft : left ≠ leftParen) (rest : List Token) : EndsToken (chars (next :: rest)) := by
  obtain ⟨after, hchars⟩ := chars_cons next rest
  have hnext : next = rightParen ∨ next = comma := by
    simp only [spaced, Bool.and_eq_false_iff, bne_eq_false_iff_eq, hleft, false_or] at h
    exact h
  rw [hchars]
  rcases hnext with rfl | rfl
  · intro c hc
    obtain rfl : ')' = c := Option.some.inj hc
    exact .inr (.inl rfl)
  · intro c hc
    obtain rfl : ',' = c := Option.some.inj hc
    exact .inr (.inr rfl)

/-- **A row of legible tokens reads back**, at any place in a text. The induction is on the row; the
split is whether a blank is written behind the first token. -/
theorem ofChars_chars {ts : List Token} (h : ∀ t ∈ ts, t.Legible) (position : Nat) :
    ∃ ps, ofChars position (chars ts) = .ok ps ∧ Expr.words ps = ts := by
  induction ts generalizing position with
  | nil => exact ⟨[], by rw [chars, ofChars], rfl⟩
  | cons t ts ih =>
    have hread := (h t List.mem_cons_self).readsFrom
    have hrest := ih fun u hu => h u (List.mem_cons_of_mem _ hu)
    cases ts with
    | nil =>
      rw [chars, ← List.append_nil t.spelling.toList]
      exact hread.ofChars_append (fun c hc => by cases hc) hrest position
    | cons next rest =>
      -- A token ends at a blank, or at what needs no blank before it, or is a parenthesis that
      -- opens and ends wherever it stands.
      rw [chars, List.append_assoc]
      by_cases hspaced : t.spaced next = true
      · rw [if_pos hspaced]
        refine hread.ofChars_append (fun c hc => ?_) (fun p => ?_) position
        · obtain rfl : ' ' = c := Option.some.inj hc
          exact .inl rfl
        · rw [List.singleton_append, ofChars_blank]
          exact hrest (p + 1)
      · rw [if_neg hspaced, List.nil_append]
        by_cases hleft : t = leftParen
        · subst hleft
          exact ofChars_leftParen hrest position
        · exact hread.ofChars_append
            (endsToken_chars (Bool.eq_false_iff.mpr hspaced) hleft rest) hrest position

/-- No token is written without a character, so a row is no longer than its text. This is why a text
of some length needs no more room than that. -/
theorem length_le_length_chars {ts : List Token} (h : ∀ t ∈ ts, t.Legible) :
    ts.length ≤ (chars ts).length := by
  induction ts with
  | nil => exact Nat.zero_le _
  | cons t ts ih =>
    obtain ⟨c, rest, hspelling, -, -⟩ := (h t List.mem_cons_self).readsFrom
    have hrest := ih fun u hu => h u (List.mem_cons_of_mem _ hu)
    cases ts with
    | nil =>
      rw [chars, hspelling]
      exact Nat.succ_le_succ (Nat.zero_le _)
    | cons next ts =>
      rw [chars, hspelling]
      simp only [List.length_append, List.length_cons] at hrest ⊢
      omega

end Token

/-- **The text of a row of legible tokens is cut into the same row.** Nothing is asked of the row
but that each token has a text. -/
theorem TokenStream.ofText_chars {ts : List Token} (h : ∀ t ∈ ts, t.Legible) :
    ∃ stream, TokenStream.ofText (String.ofList (Token.chars ts)) = .ok stream ∧
      Expr.words stream.tokens = ts := by
  obtain ⟨ps, hps, hwords⟩ := Token.ofChars_chars h 0
  refine ⟨⟨ps, (String.ofList (Token.chars ts)).length⟩, ?_, hwords⟩
  rw [ofText, String.toList_ofList, hps]
  rfl

theorem Expr.legible_inParens {ts : List Token} (h : ∀ t ∈ ts, t.Legible) :
    ∀ t ∈ inParens ts, t.Legible :=
  List.forall_mem_cons.mpr ⟨trivial,
    List.forall_mem_append.mpr ⟨h, List.forall_mem_singleton.mpr trivial⟩⟩

end WhereRules
