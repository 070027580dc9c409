import WhereRules.Proofs.Grammar.Positions
import WhereRules.Proofs.Serving.Cursors
import WhereRules.Proofs.Serving.Scanning
import WhereRules.Proofs.Writing.Accepted

/-!
# Leaves read back in their surroundings

Rules are written by putting literals and names between words, so what is written for a leaf must be
that leaf wherever it comes to stand. Behind a literal there is the end of the text, a blank, a closing
parenthesis or a comma. There the literal is one token of the value that was written, and what is
behind it is cut as it is cut alone, only further on (`Scanner.tokenize_leaf`). Nothing that a value
holds, be it quotes, control characters or a sign, reaches beyond its literal.

A path is written as a name if and only if it is one token, and that a name.
-/

namespace WhereRules

/-! ## Cutting further on -/

/-- The same fault at another position. -/
def LexError.moved (f : Nat → Nat) (error : LexError) : LexError := ⟨error.fault, f error.position⟩

/-- What a text is cut into when a token of `n` characters stands before it; `alone` is what it is cut
into at the start. -/
def TokenStream.behind (token : Token) (n : Nat) :
    (alone : Except LexError TokenStream) → Except LexError TokenStream
  | .ok stream =>
    let stream := stream.moved (n + ·)
    .ok { stream with tokens := ⟨token, 0⟩ :: stream.tokens }
  | .error error => .error (error.moved (n + ·))

namespace Token

/-- The answer of cutting, `n` characters further on. -/
def movedPlaces (n : Nat) : Except LexError (List Placed) → Except LexError (List Placed)
  | .ok ps => .ok (ps.map (Placed.moved (n + ·)))
  | .error error => .error (error.moved (n + ·))

/-- Cutting does not look at positions: `n` characters further on, the tokens are the same and so is
a fault, all `n` further on. -/
theorem ofChars_moved (n position : Nat) (cs : List Char) :
    ofChars (n + position) cs = movedPlaces n (ofChars position cs) := by
  fun_induction ofChars position cs with
  | case1 => rw [ofChars, movedPlaces, List.map_nil]
  | case2 position c cs hblank ih =>
    rw [ofChars, if_pos hblank, Nat.add_assoc]
    exact ih
  | case3 position c cs hblank fault hlexeme =>
    rw [ofChars, if_neg hblank, hlexeme]
    rfl
  | case4 position c cs hblank token taken hlexeme ih =>
    have hplace : n + position + 1 + taken = n + (position + 1 + taken) := by omega
    rw [ofChars, if_neg hblank, hlexeme]
    dsimp only
    rw [hplace, ih]
    cases ofChars (position + 1 + taken) (cs.drop taken) <;> rfl

/-- **A token that reads from its characters ends where text begins that ends it**, and that text is
cut as it is alone. -/
theorem ReadsFrom.ofChars_behind {token : Token} {cs after : List Char} (h : ReadsFrom token cs)
    (hends : EndsToken after) :
    ofChars 0 (cs ++ after) =
      (movedPlaces cs.length (ofChars 0 after)).map fun ps => ⟨token, 0⟩ :: ps := by
  obtain ⟨c, rest, rfl, hblank, hlexeme⟩ := h
  have hplace : 0 + 1 + rest.length = (c :: rest).length + 0 := by
    rw [List.length_cons]
    omega
  rw [← ofChars_moved, List.cons_append, ofChars, hblank, if_neg Bool.false_ne_true,
    hlexeme after hends]
  simp only [List.drop_left, hplace]

end Token

/-- The same of a whole text that begins with such a token. -/
theorem TokenStream.ofText_behind {token : Token} {text after : String}
    (h : token.ReadsFrom text.toList) (hends : Token.EndsToken after.toList) :
    ofText (text ++ after) = behind token text.length (ofText after) := by
  rw [ofText, ofText, String.toList_append, h.ofChars_behind hends, String.length_append,
    String.length_toList]
  cases Token.ofChars 0 after.toList <;> rfl

theorem Token.ofList_chars (token : Token) : String.ofList (chars [token]) = token.spelling := by
  rw [chars, String.ofList_toList]

/-! ## Literals -/

/-- The text of a value as a literal. -/
def Value.toLiteral (value : Value) : Except WriteError String :=
  (Expr.writableValue value).map fun value => (Expr.literal value).toText

/-- A value that is written has a token that stands for it, and the text is the token's. The cases
are the kinds of values that have a literal. -/
theorem Value.exists_token_of_toLiteral {value : Value} {text : String}
    (h : value.toLiteral = .ok text) :
    ∃ token : Token, token.literal? = some value ∧ token.Legible ∧ text = token.spelling := by
  obtain ⟨written, hwritten, rfl⟩ := map_eq_ok.mp h
  obtain ⟨hwritable, rfl⟩ := Expr.writableValue_eq_ok.mp hwritten
  have htext : ∀ token, Token.ofValue? value = some token →
      (Expr.literal value).toText = token.spelling := by
    intro token htoken
    rw [Expr.toText, Expr.tokens, Expr.valueTokens, htoken, Option.toList_some, Token.ofList_chars]
  cases value with
  | null => exact ⟨.keyword .null, rfl, trivial, htext _ rfl⟩
  | bool b =>
    cases b with
    | true => exact ⟨.keyword .yes, rfl, trivial, htext _ rfl⟩
    | false => exact ⟨.keyword .no, rfl, trivial, htext _ rfl⟩
  | int n => exact ⟨.int n, rfl, trivial, htext _ rfl⟩
  | number x => exact ⟨.number x, rfl, hwritable, htext _ rfl⟩
  | text s => exact ⟨.string s, rfl, trivial, htext _ rfl⟩
  | list _ | map _ => cases hwritable

/-- A cursor before a literal takes its value and goes on behind it, whatever is behind it. -/
theorem Parsing.run_constant {cursor : Cursor} {token : Token} {value : Value}
    (htoken : cursor.current? = some token) (hvalue : token.literal? = some value) :
    Parsing.constant.run.run cursor = (.ok value, cursor.passed) := by
  obtain ⟨t, ht, rfl⟩ := Option.map_eq_some_iff.mp (cursor.current?_eq ▸ htoken)
  obtain ⟨ts, hrest⟩ := List.head?_eq_some_iff.mp ht
  have htakes : Takes MonadCursor.advance cursor := takes_advance hrest
  rw [constant, MonadCursor.constant, run_look_bind, htoken, Option.bind_some, hvalue, run_run_bind,
    htakes]
  rfl

/-! ## Names -/

/-- The name that a path is in rule text. -/
def Expr.ofPath (path : String) : Except WriteError Expr :=
  if isName path then .ok (Expr.field path) else .error (.value (.path path))

/-- A field is written by its path. -/
theorem Expr.ofField_eq_ofPath (named : Field) : ofField named = ofPath named.path := rfl

/-- A path is written only if it is a name, and then as that name. -/
theorem Expr.ofPath_eq_ok {path : String} {e : Expr} :
    ofPath path = .ok e ↔ isName path = true ∧ e = .field path := by
  rw [ofPath]
  split
  · next hname => simp only [Except.ok.injEq, hname, true_and, eq_comm]
  · next hname => simp only [reduceCtorEq, hname, false_and]

/-- **A name is what is cut into one name.** No other path can be written, for it would be read back
as something else. -/
theorem TokenStream.ofText_eq_identifier_iff {path : String} :
    ofText path = .ok ⟨[⟨.identifier path, 0⟩], path.length⟩ ↔ isName path = true := by
  constructor
  · intro h
    obtain ⟨ps, hps, heq⟩ := map_eq_ok.mp h
    cases heq
    exact Token.isName_of_ofChars hps path (List.mem_singleton_self _)
  · intro hname
    have hread : (Token.identifier path).ReadsFrom path.toList := Token.readsFrom_identifier hname
    have hempty : ofText "" = .ok ⟨[], 0⟩ := by
      show (Token.ofChars 0 []).map _ = _
      rw [Token.ofChars]
      rfl
    have hbehind := @ofText_behind _ path "" hread (by simp [Token.EndsToken])
    rw [String.append_empty, hempty] at hbehind
    exact hbehind

/-! ## Leaves -/

/-- **Leaves read back in their surroundings.** What is written for a value, before the end of the
text, a blank, a closing parenthesis or a comma, is cut into one token, which a cursor takes for the
value; what stands behind is cut as it is alone, or has the fault that it has alone, only further on.
And a path is written, as it is, just when it is cut into one name. -/
theorem Scanner.tokenize_leaf (scanner : Scanner) :
    (∀ (value : Value) (text : String), value.toLiteral = .ok text →
      ∃ token : Token, token.literal? = some value ∧
        (∀ cursor : Cursor, cursor.current? = some token →
          Parsing.constant.run.run cursor = (.ok value, cursor.passed)) ∧
        ∀ after : String, Token.EndsToken after.toList →
          (scanner.tokenize (text ++ after)).1 =
            TokenStream.behind token text.length (scanner.tokenize after).1) ∧
      ∀ path : String,
        ((∃ e, Expr.ofPath path = .ok e) ↔
          (scanner.tokenize path).1 = .ok ⟨[⟨.identifier path, 0⟩], path.length⟩) ∧
        ∀ e, Expr.ofPath path = .ok e → e.toText = path := by
  simp only [tokenize_fst]
  constructor
  · intro value text h
    obtain ⟨token, hvalue, hlegible, rfl⟩ := Value.exists_token_of_toLiteral h
    refine ⟨token, hvalue, fun cursor htoken => Parsing.run_constant htoken hvalue, ?_⟩
    exact fun after hends => TokenStream.ofText_behind hlegible.readsFrom hends
  · intro path
    simp only [Expr.ofPath_eq_ok, TokenStream.ofText_eq_identifier_iff]
    refine ⟨by simp, ?_⟩
    rintro e ⟨-, rfl⟩
    rw [Expr.toText, Expr.tokens]
    exact Token.ofList_chars (.identifier path)

/-- A text with a quote, before a parenthesis and a string that breaks off: the quote stays inside, the
fault is found where it is behind the literal. And a path with an empty step is a name all the same. -/
theorem Scanner.tokenize_leaf_quote :
    (Value.text "it's)").toLiteral = .ok "'it''s)'" ∧
      (∃ token : Token, token.literal? = some (.text "it's)") ∧
        (({ tokens := #[⟨token, 0⟩], maxDepth := 0 } : Cursor).current? = some token ∧
          (Parsing.constant.run.run { tokens := #[⟨token, 0⟩], maxDepth := 0 }).1 =
            .ok (.text "it's)")) ∧
        Token.EndsToken ") = 'b".toList ∧
        (({} : Scanner).tokenize "'it''s)') = 'b").1 =
          TokenStream.behind token 8 (({} : Scanner).tokenize ") = 'b").1 ∧
        (({} : Scanner).tokenize "'it''s)') = 'b").1 = .error ⟨.unterminated, 12⟩) ∧
      (({} : Scanner).tokenize "a..b").1 = .ok ⟨[⟨.identifier "a..b", 0⟩], 4⟩ ∧
      Expr.ofPath "a..b" = .ok (.field "a..b") ∧ (Expr.field "a..b").toText = "a..b" := by
  have hliteral : (Value.text "it's)").toLiteral = .ok "'it''s)'" := by cbv
  have hends : Token.EndsToken ") = 'b".toList := fun c hc => by
    obtain rfl : ')' = c := Option.some.inj hc
    exact .inr (.inl rfl)
  have hfault : TokenStream.ofText ") = 'b" = .error ⟨.unterminated, 4⟩ := by cbv
  have hpath : Expr.ofPath "a..b" = .ok (.field "a..b") := by cbv
  obtain ⟨hleaf, hname⟩ := Scanner.tokenize_leaf {}
  obtain ⟨token, hvalue, hcursor, hbehind⟩ := hleaf _ _ hliteral
  have hcut := hbehind _ hends
  have hcurrent : ({ tokens := #[⟨token, 0⟩], maxDepth := 0 } : Cursor).current? = some token := rfl
  refine ⟨hliteral, ⟨token, hvalue, ⟨hcurrent, by rw [hcursor _ hcurrent]⟩, hends, hcut, ?_⟩,
    (hname _).1.mp ⟨_, hpath⟩, hpath, (hname _).2 _ hpath⟩
  rw [tokenize_fst {} ") = 'b", hfault] at hcut
  exact hcut

end WhereRules
