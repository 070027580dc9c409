import Mathlib
import WhereRules.Proofs.Cutting.Lexemes
import WhereRules.Proofs.Grammar.Positions

/-!
# Layout and the case of keywords

Between the tokens of a text there may be blanks or none. Whether two neighbours can do without is
decided by the second one's first character: it seals the first token or makes it longer
(`Token.seals`). In a text that is cut each token is sealed by what follows it (`seals_of_lexeme`), and
a blank seals every token. So blanks may be added anywhere between tokens, and changed to other blanks
where there are some. A keyword may be written in other cases too, for letters of either case seal the
same tokens (`Relaid`).

None of this changes the tokens (`Relaid.cuts`), and so neither the tree that they make nor the error
but for its position (`TokenStream.ofText_relaid`).
-/

namespace WhereRules

namespace Token

/-! ## What seals a token in its place -/

/-- Behind a run nothing belongs to the run. -/
theorem head?_drop_takeWhile {q : Char → Bool} (cs : List Char) :
    ∀ d ∈ (cs.drop (cs.takeWhile q).length).head?, q d = false := by
  induction cs with
  | nil =>
    intro d hd
    cases hd
  | cons c cs ih =>
    by_cases hc : q c = true
    · rw [List.takeWhile_cons_of_pos hc, List.length_cons, List.drop_succ_cons]
      exact ih
    · rw [List.takeWhile_cons_of_neg hc]
      intro d hd
      obtain rfl : c = d := Option.some.inj hd
      exact Bool.eq_false_iff.mpr hc

/-- Behind a string no quote stands, or it would be doubled and the string would go on. -/
theorem head?_drop_stringBody {cs text : List Char} {taken : Nat}
    (h : stringBody cs = some (text, taken)) : ∀ d ∈ (cs.drop taken).head?, d ≠ '\x27' := by
  fun_induction stringBody cs generalizing text taken with
  | case1 => cases h
  | case2 cs ih | case4 c cs _ _ ih =>
    obtain ⟨⟨inner, n⟩, hinner, heq⟩ := Option.map_eq_some_iff.mp h
    cases heq
    exact ih hinner
  | case3 cs hne =>
    cases h
    rintro d hd rfl
    obtain ⟨rest, hrest⟩ := List.head?_eq_some_iff.mp hd
    exact hne rest hrest

/-- Behind a number no digit stands, neither behind its point nor where it has none. So a number can
be told from what follows without knowing which it is. -/
theorem head?_drop_numberBody {negative : Bool} {cs : List Char} {token : Token} {taken : Nat}
    (h : numberBody negative cs = .ok (token, taken)) :
    ∀ d ∈ (cs.drop taken).head?, d.isDigit = false := by
  simp only [numberBody] at h
  split at h
  · next rest hpoint =>
    split at h
    · obtain ⟨_, -, heq⟩ := map_eq_ok.mp h
      cases heq
      exact head?_drop_takeWhile cs
    · cases h
      rw [Nat.add_assoc, ← List.drop_drop, hpoint, Nat.add_comm 1, List.drop_succ_cons]
      exact head?_drop_takeWhile rest
  · obtain ⟨_, -, heq⟩ := map_eq_ok.mp h
    cases heq
    exact head?_drop_takeWhile cs

/-- **A token is sealed where it stands**, unless by a point, which begins no token. For each token
takes as many characters as it can. -/
theorem seals_of_lexeme {c : Char} {cs : List Char} {token : Token} {taken : Nat}
    (h : lexeme c cs = .ok (token, taken)) {d : Char} (hd : d ∈ (cs.drop taken).head?)
    (hpoint : d ≠ '.') : token.seals d = true := by
  have hnumber : ∀ {negative : Bool} {digits : List Char} {n : Nat},
      numberBody negative digits = .ok (token, n) → d ∈ (digits.drop n).head? →
        token.seals d = true := by
    intro negative digits n hbody hd
    rw [seals_of_numberBody hbody, head?_drop_numberBody hbody d hd]
    simpa using hpoint
  cases lexeme_eq_ok.mp h with
  | string _ hbody => exact bne_iff_ne.mpr (head?_drop_stringBody hbody d hd)
  | digits _ hbody => exact hnumber hbody hd
  | minus _ _ hbody => exact hnumber hbody hd
  | word _ =>
    rw [seals_ofName, head?_drop_takeWhile cs d hd]
    rfl
  | symbol hsymbol => exact sealed_of_symbol hsymbol d hd

/-- No token begins with a blank. -/
theorem isBlank_of_lexeme {c : Char} {cs : List Char} {token : Token} {taken : Nat}
    (h : lexeme c cs = .ok (token, taken)) : isBlank c = false := by
  cases lexeme_eq_ok.mp h with
  | string hquote _ =>
    rw [hquote]
    decide
  | digits hdigit _ => exact isBlank_of_isDigit hdigit
  | minus hminus _ _ =>
    rw [hminus]
    decide
  | word hname => exact isBlank_of_startsName hname
  | symbol hsymbol => exact (head_of_symbol hsymbol).2.1

/-- No token begins with a point. -/
theorem ne_point_of_lexeme {c : Char} {cs : List Char} {token : Token} {taken : Nat}
    (h : lexeme c cs = .ok (token, taken)) : c ≠ '.' := by
  rintro rfl
  cases lexeme_eq_ok.mp h with
  | string hquote _ => cases hquote
  | digits hdigit _ => cases hdigit
  | minus hminus _ _ => cases hminus
  | word hname => cases hname
  | symbol hsymbol => exact (head_of_symbol hsymbol).2.2 rfl

/-! ## Tokens at the front of a text -/

/-- In front of a text these characters are cut into this one token. -/
def CutsBefore (token : Token) (chars after : List Char) : Prop :=
  ∃ c cs, chars = c :: cs ∧ lexeme c (cs ++ after) = .ok (token, cs.length)

namespace CutsBefore

variable {token : Token} {chars after after' : List Char}

/-- A token stays the same in front of any text that seals it. -/
theorem before (h : token.CutsBefore chars after) (hsealed : token.Sealed after') :
    token.CutsBefore chars after' := by
  obtain ⟨c, cs, rfl, hlexeme⟩ := h
  have halone := lexeme_of_append hlexeme (Nat.le_refl _)
  exact ⟨c, cs, rfl, (hsealed.lexeme_append halone).2⟩

/-- A token in front of a text that is cut is the first of its tokens. The token has to be cut there
and not only alone, as the text may go on with it. -/
theorem cuts (h : token.CutsBefore chars after) {us : List Token} (hafter : Cuts after us) :
    Cuts (chars ++ after) (token :: us) := by
  obtain ⟨c, cs, rfl, hlexeme⟩ := h
  intro position
  obtain ⟨ps, hps, rfl⟩ := hafter (position + 1 + cs.length)
  refine ⟨⟨token, position⟩ :: ps, ?_, rfl⟩
  rw [List.cons_append, ofChars, isBlank_of_lexeme hlexeme, if_neg Bool.false_ne_true, hlexeme]
  simp only [List.drop_left, hps, Except.map]

end CutsBefore

/-! ## Letters of either case -/

/-- What has an upper case is a letter. -/
theorem isAlpha_of_toUpper {d : Char} (h : d.toUpper.isUpper = true) : d.isAlpha = true := by
  by_cases hlower : 'a'.val ≤ d.val ∧ d.val ≤ 'z'.val
  · rw [Char.isAlpha, Bool.or_eq_true]
    exact .inr (Bool.and_eq_true_iff.mpr ⟨decide_eq_true hlower.1, decide_eq_true hlower.2⟩)
  · rw [Char.toUpper, dif_neg hlower] at h
    rw [Char.isAlpha, h, Bool.true_or]

/-- A keyword is all letters, in whatever case. There are finitely many keywords, and each is looked
at. -/
theorem isAlpha_of_ofWord? {chars : List Char} {k : Keyword}
    (h : Keyword.ofWord? (String.ofList chars) = some k) : ∀ d ∈ chars, d.isAlpha = true := by
  have htext : k.text.toList = chars.map Char.toUpper := by
    have hfound := List.find?_some h
    rw [beq_iff_eq] at hfound
    rw [hfound, String.toList_ofList, String.toList_ofList]
  have hupper : k.text.toList.all Char.isUpper = true := by
    cases k <;> decide
  intro d hd
  refine isAlpha_of_toUpper (List.all_eq_true.mp hupper d.toUpper ?_)
  rw [htext]
  exact List.mem_map_of_mem hd

/-- All letters seal the same tokens: those that are no names and no keywords. So changing the case
of a letter seals what was sealed. -/
theorem seals_of_isAlpha (token : Token) {c : Char} (h : c.isAlpha = true) :
    token.seals c = token.seals 'a' := by
  have hname : continuesName c = true := by
    rw [continuesName, Char.isAlphanum, h, Bool.true_or, Bool.true_or, Bool.true_or]
  have hdigit : c.isDigit = false := by
    refine Bool.eq_false_iff.mpr (not_isDigit_of_startsName ?_)
    rw [startsName, h, Bool.true_or]
  have hne : ∀ d, d.isAlpha = false → (c != d) = true := by
    intro d hd
    rw [bne_iff_ne]
    rintro rfl
    rw [h] at hd
    cases hd
  cases token with
  | sign s =>
    cases s with
    | less => rw [seals, hne '=' rfl, hne '>' rfl]; rfl
    | greater => exact hne '=' rfl
    | _ => rfl
  | string _ => exact hne '\x27' rfl
  | int _ | number _ => rw [seals, hdigit, hne '.' rfl]; rfl
  | keyword _ | identifier _ => rw [seals, hname]; rfl
  | _ => rfl

/-- The characters of a keyword spell its word. -/
theorem ofWord?_of_cutsBefore {k : Keyword} {chars after : List Char}
    (h : (keyword k).CutsBefore chars after) :
    Keyword.ofWord? (String.ofList chars) = some k := by
  obtain ⟨c, cs, rfl, hlexeme⟩ := h
  have halone := lexeme_of_append hlexeme (Nat.le_refl _)
  have hnumber : ∀ {negative : Bool} {digits : List Char} {n : Nat},
      numberBody negative digits ≠ .ok (keyword k, n) := by
    intro negative digits n hbody
    have hseals : (!continuesName 'a') = (! 'a'.isDigit && 'a' != '.') :=
      seals_of_numberBody hbody 'a'
    exact absurd hseals (by decide)
  have hword : ∀ {token : Token} {taken : Nat}, Lexed c cs token taken → token = keyword k →
      taken = cs.length → Keyword.ofWord? (String.ofList (c :: cs)) = some k := by
    intro token taken hlexed htoken hlength
    cases hlexed with
    | string _ _ => cases htoken
    | digits _ hbody => exact absurd (htoken ▸ hbody) hnumber
    | minus _ _ hbody => exact absurd (htoken ▸ hbody) hnumber
    | word _ =>
      rw [(List.takeWhile_prefix _).eq_of_length hlength, ofName] at htoken
      split at htoken
      · next j hj =>
        cases htoken
        exact hj
      · cases htoken
    | symbol hsymbol =>
      subst htoken
      unfold symbol at hsymbol
      split at hsymbol <;> cases hsymbol
  exact hword (lexeme_eq_ok.mp halone) rfl rfl

/-! ## Blanks -/

/-- Nothing but control characters and spaces. -/
def Blank (gap : List Char) : Prop := ∀ c ∈ gap, c.toNat ≤ 32

instance (gap : List Char) : Decidable (Blank gap) :=
  List.decidableBAll (fun c : Char => c.toNat ≤ 32) gap

/-- Blanks in front of a text that is cut are left out. -/
theorem Blank.cuts {gap after : List Char} (h : Blank gap) {us : List Token} (hafter : Cuts after us) :
    Cuts (gap ++ after) us := by
  induction gap with
  | nil => exact hafter
  | cons c gap ih =>
    obtain ⟨hc, hgap⟩ := List.forall_mem_cons.mp h
    exact (ih hgap).cons_blank (decide_eq_true hc)

/-- What goes on with a name is no blank. -/
theorem isBlank_of_continuesName {c : Char} (h : continuesName c = true) : isBlank c = false := by
  simp only [continuesName, Char.isAlphanum, Bool.or_eq_true, beq_iff_eq] at h
  rcases h with ((halpha | hdigit) | rfl) | rfl
  · exact isBlank_of_startsName (by rw [startsName, halpha, Bool.true_or])
  · exact isBlank_of_isDigit hdigit
  · decide
  · decide

/-- A blank makes no token before it longer, so it may stand between any two tokens. A gap begins
with one, unless there is no gap. -/
theorem Blank.startsApart {gap : List Char} (h : Blank gap) (hne : gap ≠ []) (after : List Char) :
    StartsApart (gap ++ after) := by
  obtain ⟨c, gap, rfl⟩ := List.exists_cons_of_ne_nil hne
  have hblank : isBlank c = true := decide_eq_true (h c List.mem_cons_self)
  have hother : ∀ d, isBlank d = false → c ≠ d := by
    rintro d hd rfl
    rw [hblank] at hd
    cases hd
  intro d hd
  obtain rfl : c = d := Option.some.inj hd
  refine ⟨?_, hother '\x27' (by decide), hother '=' (by decide), hother '>' (by decide)⟩
  by_contra hname
  rw [isBlank_of_continuesName (Bool.eq_true_of_not_eq_false hname)] at hblank
  cases hblank

/-! ## Other layouts -/

/-- Another spelling of the characters of a token: a keyword may have its letters in other cases. -/
def Recased (token : Token) (chars chars' : List Char) : Prop :=
  chars' = chars ∨ (∃ k, token = keyword k) ∧ chars'.map Char.toUpper = chars.map Char.toUpper

/-- **The same tokens in another layout.** Blanks stand around the tokens of both texts, as many as
you like, and between two tokens there are some in the second text if there are some in the first;
keywords may have other cases. Behind a token (`inside`) what the first text has there counts. -/
inductive Relaid : (inside : Bool) → List Char → List Char → Prop
  | stop {inside : Bool} {gap gap' : List Char} : Blank gap → Blank gap' → Relaid inside gap gap'
  | token {inside : Bool} {gap gap' chars chars' after after' : List Char} {token : Token} :
    Blank gap → Blank gap' → (inside = true → gap ≠ [] → gap' ≠ []) →
    token.CutsBefore chars after → token.Recased chars chars' → Relaid true after after' →
    Relaid inside (gap ++ (chars ++ after)) (gap' ++ (chars' ++ after'))

/-- Case is no matter of keywords. -/
theorem ofWord?_congr {chars chars' : List Char}
    (h : chars'.map Char.toUpper = chars.map Char.toUpper) :
    Keyword.ofWord? (String.ofList chars') = Keyword.ofWord? (String.ofList chars) := by
  rw [Keyword.ofWord?, Keyword.ofWord?, String.toList_ofList, String.toList_ofList, h]

/-- A keyword in another case is the same keyword. Any other token keeps its characters, so nothing
has to be shown of it. -/
theorem CutsBefore.recased {token : Token} {chars chars' : List Char}
    (h : token.CutsBefore chars []) (hrecased : token.Recased chars chars') :
    token.CutsBefore chars' [] := by
  rcases hrecased with rfl | ⟨⟨k, rfl⟩, hupper⟩
  · exact h
  · have hword := (ofWord?_congr hupper).trans (ofWord?_of_cutsBefore h)
    obtain ⟨c, cs, rfl⟩ : ∃ c cs, chars' = c :: cs := by
      obtain ⟨c, cs, rfl, -⟩ := h
      cases chars' with
      | nil => cases hupper
      | cons d ds => exact ⟨d, ds, rfl⟩
    obtain ⟨halpha, hrest⟩ := List.forall_mem_cons.mp (isAlpha_of_ofWord? hword)
    have hstarts : startsName c = true := by rw [startsName, halpha, Bool.true_or]
    have hcontinues : ∀ d ∈ cs, continuesName d = true := by
      intro d hd
      rw [continuesName, Char.isAlphanum, hrest d hd]
      rfl
    obtain ⟨d, rest, heq, -, hread⟩ := readsFrom_word hstarts hcontinues
    cases heq
    have hend : EndsToken [] := by
      intro d hd
      cases hd
    have htoken : ofName (c :: cs) = keyword k := by rw [ofName, hword]
    refine ⟨c, cs, rfl, ?_⟩
    rw [hread [] hend, htoken]

/-- The first characters of two spellings of a token seal the same tokens. So tokens that touched
may touch in the other layout. -/
theorem Recased.seals_eq {token : Token} {chars chars' after : List Char}
    (h : token.Recased chars chars') (hcuts : token.CutsBefore chars after) (left : Token) {c d : Char}
    (hc : c ∈ chars.head?) (hd : d ∈ chars'.head?) : left.seals d = left.seals c := by
  rcases h with rfl | ⟨⟨k, rfl⟩, hupper⟩
  · rw [Option.mem_unique hc hd]
  · have hword := ofWord?_of_cutsBefore hcuts
    rw [seals_of_isAlpha left (isAlpha_of_ofWord? hword c (List.mem_of_mem_head? hc)),
      seals_of_isAlpha left (isAlpha_of_ofWord? ((ofWord?_congr hupper).trans hword) d
        (List.mem_of_mem_head? hd))]

/-- Each token of the first text is sealed by what stands behind it in the second. Either a blank
stands there, or the two tokens touched in the first text as well. -/
theorem Relaid.sealed {token : Token} {chars after after' : List Char}
    (h : Relaid true after after') (hcuts : token.CutsBefore chars after) : token.Sealed after' := by
  cases h with
  | stop _ hgap' =>
    by_cases hnil : after' = []
    · rw [hnil]
      exact sealed_nil token
    · have hapart := hgap'.startsApart hnil []
      rw [List.append_nil] at hapart
      exact hapart.sealed token
  | @token _ gap gap' others others' rest rest' next _ hgap' hkeeps hnext hrecased _ =>
    by_cases hnil : gap' = []
    · -- the two tokens touch in both texts
      obtain rfl : gap = [] := by_contra fun hne => hkeeps rfl hne hnil
      subst hnil
      obtain ⟨c, cs, rfl, hlexeme⟩ := hcuts
      obtain ⟨e, es, rfl, hfirst⟩ := id hnext
      have hseals : token.seals e = true :=
        seals_of_lexeme hlexeme (by rw [List.drop_left]; rfl) (ne_point_of_lexeme hfirst)
      obtain ⟨e', es', rfl, -⟩ := (hnext.before (sealed_nil next)).recased hrecased
      intro d hd
      obtain rfl : e' = d := Option.some.inj hd
      rw [hrecased.seals_eq hnext token rfl rfl]
      exact hseals
    · exact (hgap'.startsApart hnil _).sealed token

/-- **Both texts are cut into the same tokens.** The induction is along the layouts, token by
token. -/
theorem Relaid.cuts {inside : Bool} {cs cs' : List Char} (h : Relaid inside cs cs') :
    ∃ ts, Cuts cs ts ∧ Cuts cs' ts := by
  induction h with
  | stop hgap hgap' =>
    have hcuts := hgap.cuts cuts_nil
    have hcuts' := hgap'.cuts cuts_nil
    rw [List.append_nil] at hcuts hcuts'
    exact ⟨[], hcuts, hcuts'⟩
  | token hgap hgap' _ hcuts hrecased hafter ih =>
    obtain ⟨ts, hts, hts'⟩ := ih
    have halone := (hcuts.before (sealed_nil _)).recased hrecased
    exact ⟨_ :: ts, hgap.cuts (hcuts.cuts hts),
      hgap'.cuts ((halone.before (hafter.sealed hcuts)).cuts hts')⟩

/-! ### Which layouts there are -/

/-- A blank may be put in front of both layouts. This is what lets one relation cover gaps that are
added, widened and replaced. -/
theorem Relaid.cons_blank {inside : Bool} {cs cs' : List Char} (h : Relaid inside cs cs') {c : Char}
    (hc : c.toNat ≤ 32) : Relaid inside (c :: cs) (c :: cs') := by
  have hcons : ∀ {gap : List Char}, Blank gap → Blank (c :: gap) := fun hgap =>
    List.forall_mem_cons.mpr ⟨hc, hgap⟩
  cases h with
  | stop hgap hgap' => exact .stop (hcons hgap) (hcons hgap')
  | token hgap hgap' _ hcuts hrecased hafter =>
    exact .token (hcons hgap) (hcons hgap') (fun _ _ => List.cons_ne_nil _ _) hcuts hrecased hafter

/-- Each text that is cut is its own layout, and so one of those that others are made from. Nothing
but texts with a fault has no layout at all. -/
theorem relaid_of_ofChars {position : Nat} {cs : List Char} {ps : List Placed}
    (h : ofChars position cs = .ok ps) (inside : Bool) : Relaid inside cs cs := by
  fun_induction ofChars position cs generalizing ps inside with
  | case1 => exact .stop (List.forall_mem_nil _) (List.forall_mem_nil _)
  | case2 position c cs hblank ih => exact (ih h inside).cons_blank (of_decide_eq_true hblank)
  | case3 => cases h
  | case4 position c cs hblank token taken hlexeme ih =>
    obtain ⟨rest, hrest, -⟩ := map_eq_ok.mp h
    have hnone : Blank [] := List.forall_mem_nil _
    have hcuts : token.CutsBefore (c :: cs.take taken) (cs.drop taken) := by
      refine ⟨c, cs.take taken, rfl, ?_⟩
      rw [List.take_append_drop, List.length_take_of_le (lexeme_taken_le hlexeme)]
      exact hlexeme
    have hrelaid : Relaid inside ([] ++ (c :: cs.take taken ++ cs.drop taken))
        ([] ++ (c :: cs.take taken ++ cs.drop taken)) :=
      .token hnone hnone (fun _ hne => hne) hcuts (.inl rfl) (ih hrest true)
    rwa [List.nil_append, List.cons_append, List.take_append_drop] at hrelaid

end Token

/-- **Layout and the case of keywords do not matter.** A text in another layout has the same tokens,
and within each limit they make the same tree, or the same error at the same token: position `i` in
`result` is that of the token with number `i`. -/
theorem TokenStream.ofText_relaid {source source' : String} {stream : TokenStream}
    (h : TokenStream.ofText source = .ok stream)
    (hrelaid : Token.Relaid false source.toList source'.toList) :
    ∃ stream', TokenStream.ofText source' = .ok stream' ∧
      Expr.words stream'.tokens = Expr.words stream.tokens ∧
      ∀ limit, ∃ result : Except ParseError Expr,
        Expr.ofTokens limit stream = result.mapError (ParseError.moved stream.placeOf) ∧
        Expr.ofTokens limit stream' = result.mapError (ParseError.moved stream'.placeOf) := by
  obtain ⟨ts, hts, hts'⟩ := hrelaid.cuts
  obtain ⟨stream', hstream', hwords'⟩ := TokenStream.ofText_of_cuts hts'
  have hwords : Expr.words stream.tokens = ts := (TokenStream.cuts_of_ofText h).unique hts
  refine ⟨stream', hstream', hwords'.trans hwords.symm, fun limit => ?_⟩
  refine ⟨Expr.ofTokens limit (.ofWords ts), ?_, ?_⟩
  · rw [Expr.ofTokens_ofWords, hwords]
  · rw [Expr.ofTokens_ofWords, hwords']

/-- Four tokens that touch, and the same four apart. Both texts end where an expression is wanted,
and each reports its own end. -/
theorem TokenStream.ofText_relaid_touching :
    ∃ stream stream' : TokenStream,
      TokenStream.ofText "a<-1or" = .ok stream ∧
      Token.Relaid false "a<-1or".toList "\ta <\n-1 OR ".toList ∧
      TokenStream.ofText "\ta <\n-1 OR " = .ok stream' ∧
      Expr.words stream'.tokens = Expr.words stream.tokens ∧
      (∀ limit, ∃ result : Except ParseError Expr,
        Expr.ofTokens limit stream = result.mapError (ParseError.moved stream.placeOf) ∧
        Expr.ofTokens limit stream' = result.mapError (ParseError.moved stream'.placeOf)) ∧
      Expr.ofTokens 1 stream = .error (.ended .expression 6) ∧
      Expr.ofTokens 1 stream' = .error (.ended .expression 11) := by
  have hor := @Token.Relaid.token true [] [' '] ['o', 'r'] ['O', 'R'] [] [' '] (.keyword .or)
    (by decide) (by decide) (by decide) ⟨'o', ['r'], rfl, by cbv⟩ (.inr ⟨⟨.or, rfl⟩, by decide⟩)
    (.stop (by decide) (by decide))
  have hminusOne := @Token.Relaid.token true [] ['\n'] ['-', '1'] ['-', '1'] _ _ (.int (-1))
    (by decide) (by decide) (by decide) ⟨'-', ['1'], rfl, by cbv⟩ (.inl rfl) hor
  have hless := @Token.Relaid.token true [] [' '] ['<'] ['<'] _ _ (.sign .less)
    (by decide) (by decide) (by decide) ⟨'<', [], rfl, by cbv⟩ (.inl rfl) hminusOne
  have hname := @Token.Relaid.token false [] ['\t'] ['a'] ['a'] _ _ (.identifier "a")
    (by decide) (by decide) (by decide) ⟨'a', [], rfl, by cbv⟩ (.inl rfl) hless
  have hrelaid : Token.Relaid false "a<-1or".toList "\ta <\n-1 OR ".toList := by
    rw [String.toList_ofList, String.toList_ofList]
    exact hname
  obtain ⟨stream, hstream, hended⟩ : ∃ stream, TokenStream.ofText "a<-1or" = .ok stream ∧
      Expr.ofTokens 1 stream = .error (.ended .expression 6) := ⟨_, by cbv, by cbv⟩
  obtain ⟨apart, hapart, hended'⟩ : ∃ apart, TokenStream.ofText "\ta <\n-1 OR " = .ok apart ∧
      Expr.ofTokens 1 apart = .error (.ended .expression 11) := ⟨_, by cbv, by cbv⟩
  obtain ⟨stream', hstream', hwords, hparsed⟩ := TokenStream.ofText_relaid hstream hrelaid
  obtain rfl : apart = stream' := Except.ok.inj (hapart.symm.trans hstream')
  exact ⟨stream, apart, hstream, hrelaid, hstream', hwords, hparsed, hended, hended'⟩

end WhereRules
