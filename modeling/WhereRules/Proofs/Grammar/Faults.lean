import WhereRules.Proofs.Cutting.Tiling
import WhereRules.Proofs.Grammar.Continuations
import WhereRules.Proofs.Grammar.Roomy

/-!
# Errors stand where the text cannot go on

The error of a text that is no expression stands at the first token with which no expression goes on
(`ofTokens_eq_error`). It stands not too far behind: the tokens before it can be completed to an
expression. And it stands not too far before: no expression begins with these tokens and the one at
the error, or the next two if that one is a `NOT`, which belongs to the word behind it.
-/

namespace WhereRules

/-- What an error says of the token where it stands, or of the end of the text. -/
def ParseError.StandsAt (error : ParseError) (stop : Nat) : Option Placed → Prop
  | none => ∃ expected, error = .ended expected stop
  | some t => (∃ expected, error = .unexpected expected t.token t.position) ∨
      error = .trailing t.token t.position

/-- The places of a text's tokens are in the text, and it stops behind them. So an error stands in
the text, or at its end. -/
theorem TokenStream.places_of_ofText {source : String} {stream : TokenStream}
    (h : TokenStream.ofText source = .ok stream) :
    stream.stop = source.length ∧ ∀ t ∈ stream.tokens, t.position < source.length := by
  obtain ⟨ps, hps, rfl⟩ := map_eq_ok.mp h
  have hplaces := (List.pairwise_append.mp (Token.tiled_of_ofChars hps).increasing).2.2
  refine ⟨rfl, fun t ht => ?_⟩
  have hlt := hplaces t.position (List.mem_map_of_mem ht) _ List.mem_cons_self
  rwa [Nat.zero_add, String.length_toList] at hlt

namespace Expr

/-- What can be completed is read once it is, if there is room for the tokens that were there. The
completion opens no more levels than they pay for. -/
theorem Completes.exists_ofTokens {before : List Placed} (h : Completes .expr (words before))
    (stop : Nat) : ∃ more e, ∀ limit, before.length ≤ limit →
      ofTokens limit ⟨before ++ more, stop⟩ = .ok e := by
  obtain ⟨more, e, he, hmore⟩ := h
  obtain ⟨lts, hwords, hlts⟩ := he.leveled
  have hplaced : words (more.map fun t => ⟨t, stop⟩) = more := by
    rw [words, List.map_map]
    exact List.map_id more
  have hlevel : lts.level ≤ before.length := by
    have hle := hlts.climbs.level_le
    have hlength : (words before).length = (words before).countP Token.opensLevel +
        (words before).countP fun t => !t.opensLevel := by
      simpa only [Bool.not_eq_true, Bool.decide_eq_false] using
        List.length_eq_countP_add_countP Token.opensLevel
    rw [hwords, List.countP_append] at hle
    rw [length_words] at hlength
    omega
  refine ⟨more.map fun t => ⟨t, stop⟩, e, fun limit hlimit => ?_⟩
  have hnests : Nests .expr (words (before ++ more.map fun t => ⟨t, stop⟩)) e lts.level := by
    rw [words_append, hplaced, ← hwords]
    exact hlts.nests
  exact (hnests.ofTokens_eq_ok_iff limit).mpr (Nat.le_trans hlevel hlimit)

/-- Where the reader wants something, or stops short of the end, no expression goes on. For the
reader would answer the same with anything behind that looks alike, and it finds every derivation.
-/
theorem not_derives_of_deliver {limit : Nat} {ts rest : List Placed} {result : Except Expected Expr}
    (hread : disjunction limit ts = deliver result rest)
    (hshort : ∀ e, result = .ok e → rest ≠ []) :
    ∃ before, ts = before ++ rest ∧ ∀ back, LooksAlike back rest →
      ∀ e, ¬Derives .expr (words (before ++ back)) e := by
  obtain ⟨before, rfl, -⟩ := disjunction_settles (Nat.le_refl limit) _ _ _ hread
  refine ⟨before, rfl, fun back halike e he => ?_⟩
  -- with room for the other text too, its reader answers as this one did
  obtain ⟨before', hbefore, hsettled⟩ :=
    disjunction_settles (Nat.le_max_left limit (before ++ back).length) _ _ _ hread
  obtain rfl := List.append_cancel_right hbefore
  have haccepted := ofTokens_eq_ok.mp
    (@ofTokens_of_derives _ ⟨before ++ back, 0⟩ e he (Nat.le_max_right limit _))
  have hdeliver : deliver (.ok e) [] = deliver result back :=
    haccepted.symm.trans (hsettled back halike)
  obtain ⟨rfl, rfl⟩ := deliver_inj hdeliver
  refine hshort e rfl ?_
  cases rest with
  | nil => rfl
  | cons t rest => cases halike

/-- A text that is refused for its tokens has been read up to where the error stands, and what has
been read can be completed. -/
theorem exists_deliver_of_error {limit : Nat} {stream : TokenStream} {error : ParseError}
    (h : ofTokens limit stream = .error error) (hshallow : ∀ n p, error ≠ .tooDeep n p) :
    ∃ (result : Except Expected Expr) (before rest : List Placed),
      stream.tokens = before ++ rest ∧ disjunction limit stream.tokens = deliver result rest ∧
      (∀ e, result = .ok e → rest ≠ []) ∧ Completes .expr (words before) ∧
      error.StandsAt stream.stop rest.head? := by
  unfold ofTokens at h
  cases hread : disjunction limit stream.tokens with
  | error stuck =>
    rw [hread] at h
    obtain ⟨obstacle, rest⟩ := stuck
    cases obstacle with
    | noRoom =>
      obtain ⟨p, hp⟩ := exists_error_noRoom rest limit stream.stop
      cases h
      exact absurd hp (hshallow limit p)
    | wanted x =>
      obtain ⟨before, hbefore, hcompletes⟩ := disjunction_continues limit _ _ _ hread
      refine ⟨.error x, before, rest, hbefore, rfl, fun _ hok => (by cases hok), hcompletes,
        ?_⟩
      cases h
      cases rest with
      | nil => exact ⟨x, rfl⟩
      | cons t rest => exact .inl ⟨x, rfl⟩
  | ok read =>
    rw [hread] at h
    obtain ⟨e, rest⟩ := read
    cases rest with
    | nil => cases h
    | cons t rest =>
      obtain ⟨before, hbefore, he⟩ := disjunction_sound limit _ _ _ hread
      refine ⟨.ok e, before, t :: rest, hbefore, rfl, fun _ _ => List.cons_ne_nil t rest,
        ⟨[], e, ?_, Nat.zero_le _⟩, ?_⟩
      · rw [List.append_nil]
        exact he
      · cases h
        exact .inr rfl

/-- **An error stands at the first token with which no expression goes on**, unless it says that the
tokens nest too deep, which it never does where the limit is no smaller than they are many. The tokens
before it can be completed to an expression, which is read within any limit that is no smaller than
they are many. Within no limit is a text read that has these tokens and then the one at the error, and
the one behind that if it is a `NOT`, where the end of a text counts as a token. In a text the error
stands at a character of a token, or at the end. -/
theorem ofTokens_eq_error {limit : Nat} {stream : TokenStream} {error : ParseError}
    (h : ofTokens limit stream = .error error)
    (hroom : stream.tokens.length ≤ limit ∨ ∀ n p, error ≠ .tooDeep n p) :
    ∃ k ≤ stream.tokens.length, ParseError.StandsAt error stream.stop stream.tokens[k]? ∧
      (∃ more e, ∀ limit', k ≤ limit' →
        ofTokens limit' ⟨stream.tokens.take k ++ more, stream.stop⟩ = .ok e) ∧
      (∀ (limit' : Nat) (other : TokenStream) (e : Expr),
        words (other.tokens.take k) = words (stream.tokens.take k) →
        ahead (words (other.tokens.drop k)) = ahead (words (stream.tokens.drop k)) →
        ofTokens limit' other ≠ .ok e) ∧
      ∀ source, TokenStream.ofText source = .ok stream →
        stream.stop = source.length ∧ ∀ t ∈ stream.tokens, t.position < source.length := by
  have hshallow : ∀ n p, error ≠ .tooDeep n p := by
    rcases hroom with roomy | hshallow
    · rintro n p rfl
      exact ofTokens_ne_tooDeep roomy n p h
    · exact hshallow
  obtain ⟨result, before, rest, hsplit, hread, hshort, hcompletes, hstands⟩ :=
    exists_deliver_of_error h hshallow
  have htake : stream.tokens.take before.length = before := by rw [hsplit, List.take_left]
  have hdrop : stream.tokens.drop before.length = rest := by rw [hsplit, List.drop_left]
  refine ⟨before.length, ?_, ?_, ?_, ?_, fun source => TokenStream.places_of_ofText⟩
  · rw [hsplit, List.length_append]
    exact Nat.le_add_right _ _
  · rw [← List.head?_drop, hdrop]
    exact hstands
  · rw [htake]
    exact hcompletes.exists_ofTokens stream.stop
  · rw [htake, hdrop]
    intro limit' other e hfront halike haccepted
    obtain ⟨before', hbefore, hdead⟩ := not_derives_of_deliver hread hshort
    obtain rfl := List.append_cancel_right (hsplit.symm.trans hbefore)
    refine hdead (other.tokens.drop before.length) halike e ?_
    rw [words_append, ← hfront, ← words_append, List.take_append_drop]
    exact derives_of_ofTokens haccepted

/-- The tokens of `a = 1 AND NOT IN (2)`. -/
def brokenStream : TokenStream where
  tokens := [⟨.identifier "a", 0⟩, ⟨.sign .equal, 2⟩, ⟨.int 1, 4⟩, ⟨.keyword .and, 6⟩,
    ⟨.keyword .not, 10⟩, ⟨.keyword .among, 14⟩, ⟨.leftParen, 17⟩, ⟨.int 2, 18⟩, ⟨.rightParen, 19⟩]
  stop := 20

/-- The error is at the `NOT`, though a `NOT` could stand there: with `NOT IN` no operand begins. So
the tokens before the `NOT` can go on, and with both words nothing can. -/
theorem ofTokens_brokenStream :
    ofTokens 10 brokenStream = .error (.unexpected .expression (.keyword .not) 10) ∧
      (∃ more e, ofTokens 10 ⟨brokenStream.tokens.take 4 ++ more, 20⟩ = .ok e) ∧
      ∀ (limit : Nat) (other : TokenStream) (e : Expr) (more : List Token),
        words other.tokens = words (brokenStream.tokens.take 6) ++ more →
        ofTokens limit other ≠ .ok e := by
  have hread : ofTokens 10 brokenStream =
      .error (.unexpected .expression (.keyword .not) 10) := by cbv
  obtain ⟨k, hk, hstands, ⟨more, e, haccepted⟩, hdead, -⟩ :=
    ofTokens_eq_error hread (.inl (by decide))
  have hfour : k = 4 := by
    have hk : k ≤ 9 := hk
    interval_cases k <;> first | rfl | simp [ParseError.StandsAt, brokenStream] at hstands
  subst hfour
  refine ⟨hread, ⟨more, e, haccepted 10 (by decide)⟩, fun limit other e more hother => ?_⟩
  refine hdead limit other e ?_ ?_
  · rw [words, List.map_take, ← words, hother]
    rfl
  · rw [words, List.map_drop, ← words, hother]
    rfl

end Expr

end WhereRules
