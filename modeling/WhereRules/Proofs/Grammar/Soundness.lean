import Mathlib
import WhereRules.Proofs.Success
import WhereRules.Proofs.Grammar.Completeness

/-!
# What is read is derivable

A reader that succeeds has taken a stretch of tokens off the front of what was left, and the grammar
derives its answer from just these tokens (`Sound`). The readers call each other in
a circle, but each turn of it takes a level of the room: the proof goes up from parentheses to
disjunctions at one room, with all smaller rooms done.

Together with `Derives.reads` this settles which token streams are rule text and what tree they
have: `ofTokens_eq_ok_iff_derives`.
-/

namespace WhereRules.Expr

/-- The reader answers with trees that the grammar derives from the tokens it took. -/
def Sound (reader : List Placed → Except Stuck (Expr × List Placed)) (phrase : Phrase) : Prop :=
  ∀ ts e rest, reader ts = .ok (e, rest) →
    ∃ ps, ts = ps ++ rest ∧ Derives phrase (words ps) e

/-- What is derived as one phrase wherever it is derived as another may be read for it. -/
theorem Sound.mono {reader : List Placed → Except Stuck (Expr × List Placed)}
    {phrase phrase' : Phrase} (h : Sound reader phrase)
    (hle : ∀ ts e, Derives phrase ts e → Derives phrase' ts e) : Sound reader phrase' := by
  intro ts e rest hread
  obtain ⟨ps, hps, hder⟩ := h ts e rest hread
  exact ⟨ps, hps, hle _ _ hder⟩

/-! ## Rules without nesting -/

/-- A keyword that was read was the next token. -/
theorem keyword_eq_ok {k : Keyword} {ts rest : List Placed} {u : Unit}
    (h : keyword k ts = .ok (u, rest)) : ∃ p, ts = ⟨.keyword k, p⟩ :: rest := by
  unfold keyword at h
  split at h
  · split at h
    · next hk =>
      cases h
      exact ⟨_, by rw [hk]⟩
    · cases h
  · cases h

theorem leftParen_eq_ok {ts rest : List Placed} {u : Unit} (h : leftParen ts = .ok (u, rest)) :
    ∃ p, ts = ⟨.leftParen, p⟩ :: rest := by
  unfold leftParen at h
  split at h
  · cases h
    exact ⟨_, rfl⟩
  · cases h

theorem rightParen_eq_ok {ts rest : List Placed} {u : Unit} (h : rightParen ts = .ok (u, rest)) :
    ∃ p, ts = ⟨.rightParen, p⟩ :: rest := by
  unfold rightParen at h
  split at h
  · cases h
    exact ⟨_, rfl⟩
  · cases h

/-- A constant that was read denotes the value that it was read as. -/
theorem constant_eq_ok {ts rest : List Placed} {v : Value} (h : constant ts = .ok (v, rest)) :
    ∃ t p, ts = ⟨t, p⟩ :: rest ∧ t.Denotes v := by
  cases ts with
  | nil => cases h
  | cons t ts =>
    cases hvalue : t.token.literal? with
    | none =>
      simp only [constant, hvalue] at h
      cases h
    | some value =>
      simp only [constant, hvalue] at h
      cases h
      exact ⟨t.token, t.position, rfl, Token.literal?_eq_some_iff.mp hvalue⟩

/-- What was read of a list behind its first literal is commas, each with a literal behind it. The
recursion of the reader is that of the list. -/
theorem furtherConstants_eq_ok {ts rest : List Placed} {values : List Value}
    (h : furtherConstants ts = .ok (values, rest)) :
    ∃ (ps : List Placed) (items : List (Token × Value)), ts = ps ++ rest ∧
      words ps = items.flatMap (fun item => [.comma, item.1]) ∧
      (∀ item ∈ items, item.1.Denotes item.2) ∧ values = items.map (·.2) := by
  fun_induction furtherConstants ts generalizing values with
  | case1 => cases h
  | case2 p t ts value hvalue ih =>
    obtain ⟨⟨others, rest'⟩, hothers, heq⟩ := map_eq_ok.mp h
    cases heq
    obtain ⟨ps, items, rfl, hps, hitems, rfl⟩ := ih hothers
    refine ⟨_ :: t :: ps, (t.token, value) :: items, rfl, ?_, ?_, rfl⟩
    · simp only [words, List.map_cons, List.flatMap_cons, List.cons_append, List.nil_append]
      rw [← hps, words]
    · intro item hitem
      rcases List.mem_cons.mp hitem with rfl | hitem
      · exact Token.literal?_eq_some_iff.mp hvalue
      · exact hitems item hitem
  | case3 => cases h
  | case4 ts _ _ =>
    cases h
    exact ⟨[], [], rfl, rfl, by simp, rfl⟩

/-- A list of literals is what `IN` takes: one at least, commas between them, and parentheses around
them. -/
theorem constants_eq_ok {ts rest : List Placed} {values : List Value}
    (h : constants ts = .ok (values, rest)) :
    ∃ (ps : List Placed) (t : Token) (v : Value) (items : List (Token × Value)),
      ts = ps ++ rest ∧ words ps = inParens (t :: items.flatMap fun item => [.comma, item.1]) ∧
      t.Denotes v ∧ (∀ item ∈ items, item.1.Denotes item.2) ∧ values = v :: items.map (·.2) := by
  obtain ⟨⟨⟨⟩, ts₁⟩, hleft, h⟩ := bind_eq_ok.mp h
  obtain ⟨⟨v, ts₂⟩, hfirst, h⟩ := bind_eq_ok.mp h
  obtain ⟨⟨others, ts₃⟩, hothers, h⟩ := bind_eq_ok.mp h
  obtain ⟨⟨⟨⟩, ts₄⟩, hright, h⟩ := bind_eq_ok.mp h
  cases h
  obtain ⟨p, rfl⟩ := leftParen_eq_ok hleft
  obtain ⟨t, q, rfl, ht⟩ := constant_eq_ok hfirst
  obtain ⟨ps, items, rfl, hps, hitems, rfl⟩ := furtherConstants_eq_ok hothers
  obtain ⟨r, rfl⟩ := rightParen_eq_ok hright
  refine ⟨⟨.leftParen, p⟩ :: ⟨t, q⟩ :: (ps ++ [⟨.rightParen, r⟩]), t, v, items, ?_, ?_, ht, hitems,
    rfl⟩
  · simp only [List.cons_append, List.append_assoc, List.nil_append]
  · simp only [words_cons, words_append, hps, inParens, List.cons_append]
    rfl

/-- What was read behind `IS` is `NULL`, with a `NOT` before it if the test is negated. -/
theorem nullTest_eq_ok {ts rest : List Placed} {negated : Bool}
    (h : nullTest ts = .ok (negated, rest)) :
    ∃ ps, ts = ps ++ rest ∧ words ps = notTokens negated ++ [.keyword .null] := by
  unfold nullTest at h
  split at h
  · next q ts =>
    obtain ⟨⟨⟨⟩, rest'⟩, hnull, heq⟩ := map_eq_ok.mp h
    cases heq
    obtain ⟨p, rfl⟩ := keyword_eq_ok hnull
    exact ⟨[⟨.keyword .not, q⟩, ⟨.keyword .null, p⟩], rfl, rfl⟩
  · obtain ⟨⟨⟨⟩, rest'⟩, hnull, heq⟩ := map_eq_ok.mp h
    cases heq
    obtain ⟨p, rfl⟩ := keyword_eq_ok hnull
    exact ⟨[⟨.keyword .null, p⟩], rfl, rfl⟩

/-- A wildcard text that was read is that of the next token. -/
theorem wildcardText_eq_ok {ts rest : List Placed} {text : String}
    (h : wildcardText ts = .ok (text, rest)) : ∃ p, ts = ⟨.string text, p⟩ :: rest := by
  unfold wildcardText at h
  split at h
  · cases h
    exact ⟨_, rfl⟩
  · cases h

/-! ## Rules that nest -/

/-- What stands in parentheses was read with one level less. So a group is where the readers come
back to a disjunction, and where the induction on the room has something to stand on. -/
theorem group_eq_ok {room : Nat} {ts rest : List Placed} {e : Expr}
    (h : Expr.group room ts = .ok (e, rest)) :
    ∃ inner p q us, room = inner + 1 ∧ ts = ⟨.leftParen, p⟩ :: us ∧
      disjunction inner us = .ok (e, ⟨.rightParen, q⟩ :: rest) := by
  rw [Expr.group.eq_def] at h
  split at h
  · next p us =>
    cases room with
    | zero => cases h
    | succ room =>
      obtain ⟨⟨e', ts'⟩, hinner, h⟩ := bind_eq_ok.mp h
      obtain ⟨⟨⟨⟩, rest'⟩, hright, h⟩ := bind_eq_ok.mp h
      cases h
      obtain ⟨q, rfl⟩ := rightParen_eq_ok hright
      exact ⟨room, p, q, us, rfl, rfl, hinner⟩
  · cases h

/-- A group was read from tokens in parentheses, which derive its expression. -/
theorem group_sound {room : Nat} (ih : ∀ r < room, Sound (disjunction r) .expr)
    {ts rest : List Placed} {e : Expr} (h : Expr.group room ts = .ok (e, rest)) :
    ∃ ps us, ts = ps ++ rest ∧ words ps = inParens us ∧ Derives .expr us e := by
  obtain ⟨inner, p, q, us, rfl, rfl, hinner⟩ := group_eq_ok h
  obtain ⟨ps, rfl, hder⟩ := ih inner (Nat.lt_succ_self inner) _ _ _ hinner
  refine ⟨⟨.leftParen, p⟩ :: (ps ++ [⟨.rightParen, q⟩]), words ps, ?_, ?_, hder⟩
  · simp only [List.cons_append, List.append_assoc, List.nil_append]
  · simp only [words_cons, words_append, inParens, List.cons_append]
    rfl

/-- A primary was read from a field, a literal or a group. For the group the statement is needed in
a smaller room. -/
theorem primary_sound {room : Nat} (ih : ∀ r < room, Sound (disjunction r) .expr) :
    Sound (Expr.primary room) .primary := by
  intro ts e rest h
  cases ts with
  | nil =>
    rw [Expr.primary] at h
    cases h
  | cons t ts =>
    obtain ⟨t, p⟩ := t
    rw [Expr.primary.eq_def] at h
    simp only at h
    split at h
    · next path =>
      cases h
      exact ⟨[⟨.identifier path, p⟩], rfl, .field path⟩
    · obtain ⟨ps, us, hps, hus, hder⟩ := group_sound ih h
      exact ⟨ps, hps, hus ▸ .group hder⟩
    · split at h
      · next value hvalue =>
        cases h
        exact ⟨[⟨t, p⟩], rfl, .literal (Token.literal?_eq_some_iff.mp hvalue)⟩
      · cases h

/-- An operator part was read from an operator and what it takes. The primaries in it have the room
of the whole. -/
theorem suffix_sound {room : Nat} (hprimary : Sound (Expr.primary room) .primary) (left : Expr) :
    Sound (Expr.suffix room left) (.suffix left) := by
  intro ts e rest h
  rw [Expr.suffix.eq_def] at h
  split at h
  · next s p ts =>
    obtain ⟨⟨right, ts'⟩, hright, h⟩ := bind_eq_ok.mp h
    cases h
    obtain ⟨ps, rfl, hder⟩ := hprimary _ _ _ hright
    exact ⟨⟨.sign s, p⟩ :: ps, rfl, .sign s hder⟩
  · next p ts =>
    obtain ⟨⟨negated, ts'⟩, hnull, h⟩ := bind_eq_ok.mp h
    cases h
    obtain ⟨ps, rfl, hps⟩ := nullTest_eq_ok hnull
    refine ⟨⟨.keyword .is, p⟩ :: ps, rfl, ?_⟩
    rw [words_cons, hps]
    exact .isNull negated
  · next p ts =>
    obtain ⟨⟨low, ts₁⟩, hlow, h⟩ := bind_eq_ok.mp h
    obtain ⟨⟨⟨⟩, ts₂⟩, hand, h⟩ := bind_eq_ok.mp h
    obtain ⟨⟨high, ts₃⟩, hhigh, h⟩ := bind_eq_ok.mp h
    cases h
    obtain ⟨ps, rfl, hl⟩ := hprimary _ _ _ hlow
    obtain ⟨q, rfl⟩ := keyword_eq_ok hand
    obtain ⟨qs, rfl, hh⟩ := hprimary _ _ _ hhigh
    refine ⟨⟨.keyword .between, p⟩ :: ps ++ ⟨.keyword .and, q⟩ :: qs, ?_, ?_⟩
    · simp only [List.cons_append, List.append_assoc]
    · rw [words_append, words_cons, words_cons]
      exact .between hl hh
  · next p q ts =>
    obtain ⟨⟨values, ts'⟩, hvalues, h⟩ := bind_eq_ok.mp h
    cases h
    obtain ⟨ps, t, v, items, rfl, hps, ht, hitems, rfl⟩ := constants_eq_ok hvalues
    refine ⟨⟨.keyword .not, p⟩ :: ⟨.keyword .among, q⟩ :: ps, rfl, ?_⟩
    rw [words_cons, words_cons, hps]
    exact .member true ht hitems
  · next p q ts =>
    obtain ⟨⟨text, ts'⟩, htext, h⟩ := bind_eq_ok.mp h
    cases h
    obtain ⟨r, rfl⟩ := wildcardText_eq_ok htext
    exact ⟨[⟨.keyword .not, p⟩, ⟨.keyword .like, q⟩, ⟨.string text, r⟩], rfl, .like true text⟩
  · next p ts =>
    obtain ⟨⟨values, ts'⟩, hvalues, h⟩ := bind_eq_ok.mp h
    cases h
    obtain ⟨ps, t, v, items, rfl, hps, ht, hitems, rfl⟩ := constants_eq_ok hvalues
    refine ⟨⟨.keyword .among, p⟩ :: ps, rfl, ?_⟩
    rw [words_cons, hps]
    exact .member false ht hitems
  · next p ts =>
    obtain ⟨⟨text, ts'⟩, htext, h⟩ := bind_eq_ok.mp h
    cases h
    obtain ⟨r, rfl⟩ := wildcardText_eq_ok htext
    exact ⟨[⟨.keyword .like, p⟩, ⟨.string text, r⟩], rfl, .like false text⟩
  · cases h

/-- A comparison was read in one of the three ways in which the grammar has them: with a group on
its left, with a group alone, or with an operand on its left. -/
theorem compared_sound {room : Nat} (ih : ∀ r < room, Sound (disjunction r) .expr) :
    Sound (Expr.compared room) .comparison := by
  intro ts e rest h
  rw [Expr.compared] at h
  split at h
  · obtain ⟨⟨inner, ts'⟩, hgroup, hafter⟩ := bind_eq_ok.mp h
    obtain ⟨ps, us, rfl, hps, hinner⟩ := group_sound ih hgroup
    simp only at hafter
    split at hafter
    · obtain ⟨qs, rfl, hsuffix⟩ := suffix_sound (primary_sound ih) inner _ _ _ hafter
      refine ⟨ps ++ qs, (List.append_assoc ..).symm, ?_⟩
      rw [words_append, hps]
      exact .groupCompared hinner hsuffix
    · cases hafter
      exact ⟨ps, rfl, hps ▸ .groupAlone hinner⟩
  · obtain ⟨⟨left, ts'⟩, hleft, hafter⟩ := bind_eq_ok.mp h
    obtain ⟨ps, rfl, hprimary⟩ := primary_sound ih _ _ _ hleft
    obtain ⟨qs, rfl, hsuffix⟩ := suffix_sound (primary_sound ih) left _ _ _ hafter
    refine ⟨ps ++ qs, (List.append_assoc ..).symm, ?_⟩
    rw [words_append]
    exact .compared hprimary hsuffix

/-- A negation was read from a `NOT` and what it negates, with one level less. Anything else was
read as a comparison. -/
theorem negated_sound {room : Nat} (ih : ∀ r < room, Sound (disjunction r) .expr)
    (ihnot : ∀ r < room, Sound (negated r) .notExpr) : Sound (negated room) .notExpr := by
  intro ts e rest h
  rw [negated.eq_def] at h
  split at h
  · next hstarts =>
    obtain ⟨p, us, rfl⟩ := startsNegation_eq_true hstarts
    cases room with
    | zero => cases h
    | succ room =>
      obtain ⟨⟨operand, ts'⟩, hoperand, h⟩ := bind_eq_ok.mp h
      cases h
      obtain ⟨ps, hps, hder⟩ := ihnot room (Nat.lt_succ_self room) _ _ _ hoperand
      exact ⟨⟨.keyword .not, p⟩ :: ps, congrArg _ hps, .not hder⟩
  · exact (compared_sound ih).mono (fun _ _ => .notNegated) _ _ _ h

/-! ## Chains -/

section Chains

variable {k : Keyword} {join : Expr → Expr → Expr}
  {operand whole : Nat → List Placed → Except Stuck (Expr × List Placed)}
  {further : Nat → Expr → List Placed → Except Stuck (Expr × List Placed)} {phrase : Phrase}

/-- The rest of a chain is its word and an operand, over and over. The induction is on the room, for
each operand is read with less of it. -/
theorem ReadsChain.further_eq_ok (chain : ReadsChain k join operand whole further) {room : Nat}
    (hoperand : ∀ r < room, Sound (operand r) phrase) {left e : Expr} {ts rest : List Placed}
    (h : further room left ts = .ok (e, rest)) :
    ∃ (ps : List Placed) (parts : List (List Token × Expr)), ts = ps ++ rest ∧
      words ps = parts.flatMap (fun part => .keyword k :: part.1) ∧
      (∀ part ∈ parts, Derives phrase part.1 part.2) ∧
      e = parts.foldl (fun left part => join left part.2) left := by
  induction room generalizing left ts with
  | zero =>
    cases hword : startsWord k ts with
    | false =>
      rw [chain.stop 0 left ts hword] at h
      cases h
      exact ⟨[], [], rfl, rfl, by simp, rfl⟩
    | true =>
      obtain ⟨p, us, rfl⟩ := startsWord_eq_true hword
      rw [chain.full] at h
      cases h
  | succ room ih =>
    cases hword : startsWord k ts with
    | false =>
      rw [chain.stop (room + 1) left ts hword] at h
      cases h
      exact ⟨[], [], rfl, rfl, by simp, rfl⟩
    | true =>
      obtain ⟨p, us, rfl⟩ := startsWord_eq_true hword
      rw [chain.step] at h
      obtain ⟨⟨right, us'⟩, hright, hafter⟩ := bind_eq_ok.mp h
      obtain ⟨qs, rfl, hder⟩ := hoperand room (Nat.lt_succ_self room) _ _ _ hright
      obtain ⟨ps, parts, rfl, hps, hparts, rfl⟩ := ih (fun r hr => hoperand r (by omega)) hafter
      refine ⟨⟨.keyword k, p⟩ :: (qs ++ ps), (words qs, right) :: parts, ?_, ?_, ?_, rfl⟩
      · rw [List.cons_append, List.append_assoc]
      · rw [words_cons, words_append, hps, List.flatMap_cons]
        rfl
      · intro part hpart
        rcases List.mem_cons.mp hpart with rfl | hpart
        · exact hder
        · exact hparts part hpart

/-- A chain is sound when its operands are, at its own room and all below. It serves for both kinds
of chain. -/
theorem ReadsChain.sound (chain : ReadsChain k join operand whole further) {phrase' : Phrase}
    {room : Nat} (hoperand : ∀ r ≤ room, Sound (operand r) phrase)
    (hwhole : ∀ (ts : List Token) (e : Expr) (parts : List (List Token × Expr)),
      Derives phrase ts e → (∀ part ∈ parts, Derives phrase part.1 part.2) →
      Derives phrase' (ts ++ parts.flatMap fun part => .keyword k :: part.1)
        (parts.foldl (fun left part => join left part.2) e)) : Sound (whole room) phrase' := by
  intro ts e rest h
  rw [chain.start] at h
  obtain ⟨⟨first, us⟩, hfirst, hafter⟩ := bind_eq_ok.mp h
  obtain ⟨qs, rfl, hder⟩ := hoperand room (Nat.le_refl room) _ _ _ hfirst
  obtain ⟨ps, parts, rfl, hps, hparts, rfl⟩ :=
    chain.further_eq_ok (fun r hr => hoperand r (Nat.le_of_lt hr)) hafter
  refine ⟨qs ++ ps, (List.append_assoc ..).symm, ?_⟩
  rw [words_append, hps]
  exact hwhole _ _ _ hder hparts

end Chains

/-! ## Every room -/

/-- The readers of negations and of disjunctions are sound at every room. Each of them calls the
other only with less room. -/
theorem negated_disjunction_sound (room : Nat) :
    Sound (negated room) .notExpr ∧ Sound (disjunction room) .expr := by
  induction room using Nat.strongRecOn with
  | ind room ih =>
    -- A conjunction at this room reads negations at this room and below it, so these come first.
    have hnegated : ∀ r ≤ room, Sound (negated r) .notExpr := by
      intro r hr
      rcases Nat.lt_or_eq_of_le hr with hr | rfl
      · exact (ih r hr).1
      · exact negated_sound (fun s hs => (ih s hs).2) (fun s hs => (ih s hs).1)
    have hconjunction : ∀ r ≤ room, Sound (conjunction r) .andExpr := fun r hr =>
      readsChain_conjunction.sound (fun s hs => hnegated s (Nat.le_trans hs hr))
        fun _ _ _ => .andExpr
    refine ⟨hnegated room (Nat.le_refl room), ?_⟩
    exact (readsChain_disjunction.sound hconjunction fun _ _ _ => .orExpr).mono
      fun _ _ => .expr

/-- What was read as an expression is one. -/
theorem disjunction_sound (room : Nat) : Sound (disjunction room) .expr :=
  (negated_disjunction_sound room).2

/-! ## Whole streams -/

/-- The expression of a stream was read from all of its tokens. -/
theorem ofTokens_eq_ok {limit : Nat} {stream : TokenStream} {e : Expr} :
    ofTokens limit stream = .ok e ↔ disjunction limit stream.tokens = .ok (e, []) := by
  unfold ofTokens
  split
  · next h => simp only [h, reduceCtorEq]
  · next h => simp only [h, Except.ok.injEq, Prod.mk.injEq, and_true]
  · next h => simp only [h, reduceCtorEq, Except.ok.injEq, Prod.mk.injEq, and_false]

/-- What a stream was read as, the grammar derives from all its tokens. -/
theorem derives_of_ofTokens {limit : Nat} {stream : TokenStream} {e : Expr}
    (h : ofTokens limit stream = .ok e) : Derives .expr (words stream.tokens) e := by
  obtain ⟨ps, hps, hder⟩ := disjunction_sound limit _ _ _ (ofTokens_eq_ok.mp h)
  rw [List.append_nil] at hps
  exact hps ▸ hder

/-- What the grammar derives from the tokens is read, where there is as much room as tokens. A
derivation never nests deeper than it has tokens. -/
theorem ofTokens_of_derives {limit : Nat} {stream : TokenStream} {e : Expr}
    (h : Derives .expr (words stream.tokens) e) (hroom : stream.tokens.length ≤ limit) :
    ofTokens limit stream = .ok e := by
  have hread := h.reads stream.tokens [] limit rfl (by rwa [length_words]) ⟨rfl, rfl, rfl⟩
  rw [List.append_nil] at hread
  exact ofTokens_eq_ok.mpr hread

/-- One stretch of tokens has one tree, because the reader finds every derivation and has one
answer. -/
theorem Derives.unique {ts : List Token} {e f : Expr} (he : Derives .expr ts e)
    (hf : Derives .expr ts f) : e = f := by
  have hts : words (ts.map fun t => ⟨t, 0⟩) = ts := by
    simp only [words, List.map_map, Function.comp_def, List.map_id']
  have heread := he.reads (ts.map fun t => ⟨t, 0⟩) [] ts.length hts (Nat.le_refl _) ⟨rfl, rfl, rfl⟩
  have hfread := hf.reads (ts.map fun t => ⟨t, 0⟩) [] ts.length hts (Nat.le_refl _) ⟨rfl, rfl, rfl⟩
  rw [heread] at hfread
  cases hfread
  rfl

/-- **The reader recognises the grammar and builds its tree.** With no less room than there are
tokens, a stream is read as a tree just when the grammar derives that tree from all of its tokens,
and the grammar derives at most one. -/
theorem ofTokens_eq_ok_iff_derives {limit : Nat} {stream : TokenStream}
    (roomy : stream.tokens.length ≤ limit) :
    (∀ e, ofTokens limit stream = .ok e ↔ Derives .expr (words stream.tokens) e) ∧
      ∀ e f, Derives .expr (words stream.tokens) e → Derives .expr (words stream.tokens) f →
        e = f := by
  refine ⟨fun e => ⟨derives_of_ofTokens, fun h => ofTokens_of_derives h roomy⟩, ?_⟩
  intro e f he hf
  exact he.unique hf

/-- The tokens of `NOT (a = 0) = TRUE AND b BETWEEN 1 AND 2 OR c NOT IN (3, 4)`, places aside. -/
def mixedStream : TokenStream where
  tokens := [.keyword .not, .leftParen, .identifier "a", .sign .equal, .int 0, .rightParen,
    .sign .equal, .keyword .yes, .keyword .and, .identifier "b", .keyword .between, .int 1,
    .keyword .and, .int 2, .keyword .or, .identifier "c", .keyword .not, .keyword .among,
    .leftParen, .int 3, .comma, .int 4, .rightParen].map fun t => ⟨t, 0⟩
  stop := 0

/-- The tree that the grammar gives it. -/
def mixedTree : Expr :=
  either
    (both
      (negation (comparison .equal (comparison .equal (field "a") (literal (.int 0)))
        (literal (.bool true))))
      (between (field "b") (literal (.int 1)) (literal (.int 2))))
    (member (field "c") [.int 3, .int 4] true)

/-- The `AND` of the `BETWEEN` joins nothing, the `NOT` of the `NOT IN` negates nothing by itself,
and the parentheses of the `IN` enclose no expression. -/
theorem derives_mixedTree : mixedStream.tokens.length ≤ 23 ∧
    ofTokens 23 mixedStream = .ok mixedTree ∧
      ∀ e, Derives .expr (words mixedStream.tokens) e ↔ e = mixedTree := by
  have roomy : mixedStream.tokens.length ≤ 23 := by decide
  have hread : ofTokens 23 mixedStream = .ok mixedTree := by cbv
  obtain ⟨hreads, hunique⟩ := ofTokens_eq_ok_iff_derives roomy
  have hderives := (hreads mixedTree).mp hread
  refine ⟨roomy, hread, fun e => ⟨fun he => hunique e mixedTree he hderives, ?_⟩⟩
  rintro rfl
  exact hderives

end WhereRules.Expr
