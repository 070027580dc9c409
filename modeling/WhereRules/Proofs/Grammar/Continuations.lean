import WhereRules.Proofs.Grammar.Limits
import WhereRules.Proofs.Grammar.Lookahead

/-!
# What is read can be completed

A reader that wants a token which does not come has read nothing in vain: there are tokens that make a
phrase of what it has taken so far (`Continues`). They are few: a field or a literal where a primary
is missing, an `IS NULL` where an operator part is, a parenthesis where one is open.

The completion is also no harder to read. Each level that it opens is the `AND` of a `BETWEEN` or the
parenthesis of an `IN`, which opens none, so it is paid for by the word before it that opens none
either (`Completes`). What is completed nests no deeper than there were tokens before.
-/

namespace WhereRules.Expr

open Token

/-! ## Completions -/

/-- **Tokens can be completed to a phrase**, by tokens of which no more look as if they open a level
than there are tokens already that do not. -/
def Completes (phrase : Phrase) (us : List Token) : Prop :=
  ∃ more e, Derives phrase (us ++ more) e ∧
    more.countP opensLevel ≤ us.countP fun t => !t.opensLevel

/-- A phrase that has been completed is a part of another phrase. What stands behind it may open
levels as well, if what stands before it pays for them. -/
theorem Completes.within {phrase phrase' : Phrase} {us : List Token} (h : Completes phrase us)
    (front back : List Token)
    (hback : back.countP opensLevel ≤ front.countP fun t => !t.opensLevel)
    (hwithin : ∀ ts e, Derives phrase ts e → ∃ f, Derives phrase' (front ++ ts ++ back) f) :
    Completes phrase' (front ++ us) := by
  obtain ⟨more, e, he, hmore⟩ := h
  obtain ⟨f, hf⟩ := hwithin _ e he
  refine ⟨more ++ back, f, ?_, ?_⟩
  · simpa only [List.append_assoc] using hf
  · rw [List.countP_append, List.countP_append]
    omega

/-- A phrase that has been completed ends another phrase. -/
theorem Completes.behind {phrase phrase' : Phrase} {us : List Token} (h : Completes phrase us)
    (front : List Token)
    (hbehind : ∀ ts e, Derives phrase ts e → ∃ f, Derives phrase' (front ++ ts) f) :
    Completes phrase' (front ++ us) := by
  refine h.within front [] (Nat.zero_le _) fun ts e he => ?_
  rw [List.append_nil]
  exact hbehind ts e he

/-- Without room enough a reader says so; with room, what it has read when it wants something can be
completed. -/
def Continues (read : List Placed → Except Stuck (Expr × List Placed)) (phrase : Phrase) : Prop :=
  ∀ ts x rest, read ts = .error ⟨.wanted x, rest⟩ →
    ∃ before, ts = before ++ rest ∧ Completes phrase (words before)

/-! ## Rules without nesting -/

section Flat

variable {ts rest : List Placed} {x : Expected}

/-- A keyword that is wanted was not taken, and nothing was before it. -/
theorem keyword_eq_error {k : Keyword} (h : keyword k ts = .error ⟨.wanted x, rest⟩) : rest = ts := by
  rw [keyword_eq_takeToken] at h
  exact takeToken_eq_error h

theorem leftParen_eq_error (h : leftParen ts = .error ⟨.wanted x, rest⟩) : rest = ts := by
  rw [leftParen_eq_takeToken] at h
  exact takeToken_eq_error h

theorem rightParen_eq_error (h : rightParen ts = .error ⟨.wanted x, rest⟩) : rest = ts := by
  rw [rightParen_eq_takeToken] at h
  exact takeToken_eq_error h

theorem constant_eq_error (h : constant ts = .error ⟨.wanted x, rest⟩) : rest = ts := by
  rw [constant_eq_takeToken] at h
  exact takeToken_eq_error h

theorem wildcardText_eq_error (h : wildcardText ts = .error ⟨.wanted x, rest⟩) : rest = ts := by
  rw [wildcardText_eq_takeToken] at h
  exact takeToken_eq_error h

/-- Only a `NOT` is taken before the `NULL` that is missing. -/
theorem nullTest_eq_error (h : nullTest ts = .error ⟨.wanted x, rest⟩) :
    ∃ before negated, ts = before ++ rest ∧ words before = notTokens negated := by
  cases hword : startsWord .not ts with
  | true =>
    obtain ⟨p, us, rfl⟩ := startsWord_eq_true hword
    rw [nullTest_not] at h
    rw [keyword_eq_error (error_of_bind h fun _ hok => by cases hok)]
    exact ⟨[⟨.keyword .not, p⟩], true, rfl, rfl⟩
  | false =>
    rw [nullTest_of_startsWord hword] at h
    rw [keyword_eq_error (error_of_bind h fun _ hok => by cases hok)]
    exact ⟨[], false, rfl, rfl⟩

/-- A list goes wrong behind a comma, where a literal is missing. All literals before that were
read. -/
theorem furtherConstants_eq_error (h : furtherConstants ts = .error ⟨.wanted x, rest⟩) :
    ∃ (before : List Placed) (items : List (Token × Value)), ts = before ++ rest ∧
      words before = items.flatMap (fun item => [.comma, item.1]) ++ [.comma] ∧
      ∀ item ∈ items, item.1.Denotes item.2 := by
  induction hn : ts.length using Nat.strongRecOn generalizing ts with
  | ind n ih =>
    cases ts with
    | nil => cases h
    | cons t ts =>
      obtain ⟨t, p⟩ := t
      by_cases hcomma : t = .comma
      · subst hcomma
        rw [furtherConstants_comma] at h
        rcases bind_eq_error.mp h with hfirst | ⟨⟨value, us⟩, hvalue, hothers⟩
        · rw [constant_eq_error hfirst]
          exact ⟨[⟨.comma, p⟩], [], rfl, rfl, List.forall_mem_nil _⟩
        have hothers := error_of_bind hothers fun _ hok => by cases hok
        obtain ⟨u, q, rfl, hu⟩ := constant_eq_ok hvalue
        rw [List.length_cons, List.length_cons] at hn
        obtain ⟨before, items, rfl, hbefore, hitems⟩ := ih us.length (by omega) hothers rfl
        refine ⟨⟨.comma, p⟩ :: ⟨u, q⟩ :: before, (u, value) :: items, rfl, ?_,
          List.forall_mem_cons.mpr ⟨hu, hitems⟩⟩
        rw [words_cons, words_cons, hbefore]
        rfl
      · rw [furtherConstants_of_ne_comma fun _ _ heq => hcomma (by cases heq; rfl)] at h
        cases h

/-- A list of literals can be completed from anywhere in it, with its parentheses. At most the
opening one is missing, and it looks as if it opened a level. -/
theorem constants_eq_error (h : constants ts = .error ⟨.wanted x, rest⟩) :
    ∃ (before : List Placed) (more : List Token) (t : Token) (v : Value)
      (items : List (Token × Value)), ts = before ++ rest ∧
      words before ++ more = inParens (t :: items.flatMap fun item => [.comma, item.1]) ∧
      t.Denotes v ∧ (∀ item ∈ items, item.1.Denotes item.2) ∧ more.countP opensLevel ≤ 1 := by
  have hnull : (Token.keyword .null).Denotes .null := .null
  rcases bind_eq_error.mp h with hleft | ⟨⟨⟨⟩, ts₁⟩, hleft, hafter₁⟩
  · rw [leftParen_eq_error hleft]
    exact ⟨[], [.leftParen, .keyword .null, .rightParen], _, _, [], rfl, rfl, hnull,
      List.forall_mem_nil _, Nat.le_refl 1⟩
  obtain ⟨p, rfl⟩ := leftParen_eq_ok hleft
  rcases bind_eq_error.mp hafter₁ with hfirst | ⟨⟨v, ts₂⟩, hfirst, hafter₂⟩
  · rw [constant_eq_error hfirst]
    exact ⟨[⟨.leftParen, p⟩], [.keyword .null, .rightParen], _, _, [], rfl, rfl, hnull,
      List.forall_mem_nil _, Nat.zero_le 1⟩
  obtain ⟨t, q, rfl, ht⟩ := constant_eq_ok hfirst
  rcases bind_eq_error.mp hafter₂ with hothers | ⟨⟨others, ts₃⟩, hothers, hafter₃⟩
  · obtain ⟨before, items, rfl, hbefore, hitems⟩ := furtherConstants_eq_error hothers
    refine ⟨⟨.leftParen, p⟩ :: ⟨t, q⟩ :: before, [.keyword .null, .rightParen], t, v,
      items ++ [(.keyword .null, .null)], rfl, ?_, ht, ?_, Nat.zero_le 1⟩
    · rw [words_cons, words_cons, hbefore]
      simp only [inParens, List.flatMap_append, List.cons_append, List.append_assoc,
        List.flatMap_cons, List.flatMap_nil, List.nil_append]
    · exact List.forall_mem_append.mpr ⟨hitems, List.forall_mem_singleton.mpr hnull⟩
  obtain ⟨before, items, rfl, hbefore, hitems, rfl⟩ := furtherConstants_eq_ok hothers
  rw [rightParen_eq_error (error_of_bind hafter₃ fun _ hok => by cases hok)]
  refine ⟨⟨.leftParen, p⟩ :: ⟨t, q⟩ :: before, [.rightParen], t, v, items, rfl, ?_, ht, hitems,
    Nat.zero_le 1⟩
  rw [words_cons, words_cons, hbefore]
  rfl

end Flat

/-! ## Rules that nest -/

/-- A field or a literal is missing, and a literal does. -/
theorem completes_primary : Completes .primary [] :=
  ⟨[.keyword .null], literal .null, .literal .null, Nat.le_refl 0⟩

/-- A primary that is completed is a comparison with a test for nothing behind it. So whatever
begins like a comparison can be made one. -/
theorem Completes.comparison {us : List Token} (h : Completes .primary us) :
    Completes .comparison us :=
  h.within [] [.keyword .is, .keyword .null] (Nat.le_refl 0) fun _ e he =>
    ⟨isNull e false, .compared he (.isNull false)⟩

/-- What stands behind an open parenthesis is completed, and then the parenthesis is closed. What
the group was wanted for is up to the phrase it is. -/
theorem group_continues {room : Nat} (ih : ∀ r < room, Continues (disjunction r) .expr)
    {phrase : Phrase} (hgroup : ∀ us e, Derives .expr us e → Derives phrase (inParens us) e)
    {ts rest : List Placed} {x : Expected} (hstarts : startsGroup ts = true)
    (h : Expr.group room ts = .error ⟨.wanted x, rest⟩) :
    ∃ before, ts = before ++ rest ∧ Completes phrase (words before) := by
  obtain ⟨p, ts, rfl⟩ := startsGroup_eq_true hstarts
  cases room with
  | zero =>
    rw [Expr.group] at h
    cases h
  | succ room =>
    rw [group_succ] at h
    rcases bind_eq_error.mp h with hinner | ⟨⟨e, us⟩, hinner, hright⟩
    · obtain ⟨before, rfl, hbefore⟩ := ih room (Nat.lt_succ_self room) _ _ _ hinner
      refine ⟨⟨.leftParen, p⟩ :: before, rfl,
        hbefore.within [.leftParen] [.rightParen] (Nat.le_refl 0) ?_⟩
      exact fun us e he => ⟨e, hgroup us e he⟩
    · rw [rightParen_eq_error (error_of_bind hright fun _ hok => by cases hok)]
      obtain ⟨before, rfl, he⟩ := disjunction_sound room _ _ _ hinner
      exact ⟨⟨.leftParen, p⟩ :: before, rfl, [.rightParen], e, hgroup _ e he, Nat.zero_le _⟩

/-- A primary goes wrong inside its parentheses, or at once. In the one case the inside is
completed, in the other any literal will do. -/
theorem primary_continues {room : Nat} (ih : ∀ r < room, Continues (disjunction r) .expr) :
    Continues (Expr.primary room) .primary := by
  intro ts x rest h
  cases hgroup : startsGroup ts with
  | true =>
    rw [primary_of_startsGroup hgroup] at h
    exact group_continues ih (fun _ _ => .group) hgroup h
  | false =>
    rw [primary_of_not_startsGroup hgroup] at h
    obtain rfl : rest = ts := takeToken_eq_error h
    exact ⟨[], rfl, completes_primary⟩

/-! ### Operator parts -/

section Suffixes

variable {left : Expr} {ts rest : List Placed} {x : Expected}

/-- Both bounds of a `BETWEEN` can be missing, and so can the `AND` between them. Whatever comes
first is completed, and literals stand for the rest. -/
theorem between_continues {room : Nat} (hprimary : Continues (Expr.primary room) .primary) (p : Nat)
    (h : Expr.suffix room left (⟨.keyword .between, p⟩ :: ts) = .error ⟨.wanted x, rest⟩) :
    ∃ before, ts = before ++ rest ∧
      Completes (.suffix left) (.keyword .between :: words before) := by
  have hsound : Sound (Expr.primary room) .primary := primary_sound fun r _ => disjunction_sound r
  rw [suffix_between] at h
  rcases bind_eq_error.mp h with hlow | ⟨⟨low, vs⟩, hlow, hafter₁⟩
  · obtain ⟨before, rfl, hbefore⟩ := hprimary _ _ _ hlow
    refine ⟨before, rfl,
      hbefore.within [.keyword .between] [.keyword .and, .keyword .null] (Nat.le_refl 1) ?_⟩
    exact fun us e he => ⟨_, .between he (.literal .null)⟩
  obtain ⟨lows, rfl, hlows⟩ := hsound _ _ _ hlow
  rcases bind_eq_error.mp hafter₁ with hand | ⟨⟨⟨⟩, ws⟩, hand, hafter₂⟩
  · rw [keyword_eq_error hand]
    refine ⟨lows, rfl, [.keyword .and, .keyword .null], _, .between hlows (.literal .null), ?_⟩
    have hone : [Token.keyword .and, .keyword .null].countP opensLevel = 1 := rfl
    rw [hone, List.countP_cons_of_pos rfl]
    exact Nat.le_add_left 1 _
  obtain ⟨q, rfl⟩ := keyword_eq_ok hand
  have hhigh := error_of_bind hafter₂ fun _ hok => by cases hok
  obtain ⟨before, rfl, hbefore⟩ := hprimary _ _ _ hhigh
  refine ⟨lows ++ ⟨.keyword .and, q⟩ :: before, by rw [List.append_assoc, List.cons_append], ?_⟩
  rw [words_append, words_cons, List.append_cons, ← List.cons_append]
  refine hbefore.behind (.keyword .between :: (words lows ++ [.keyword .and])) fun us e he => ?_
  rw [List.cons_append, ← List.append_cons]
  exact ⟨_, .between hlows he⟩

/-- The list of an `IN` can be completed. -/
theorem member_continues (negated : Bool) (h : constants ts = .error ⟨.wanted x, rest⟩) :
    ∃ before, ts = before ++ rest ∧
      Completes (.suffix left) (notTokens negated ++ .keyword .among :: words before) := by
  obtain ⟨before, more, t, v, items, rfl, hwords, ht, hitems, hmore⟩ := constants_eq_error h
  refine ⟨before, rfl, more, member left (v :: items.map (·.2)) negated, ?_, ?_⟩
  · rw [List.append_assoc, List.cons_append, hwords]
    exact .member negated ht hitems
  · -- the parenthesis of the list is paid for by the `IN`
    rw [List.countP_append, List.countP_cons_of_pos rfl]
    omega

/-- The text of a `LIKE` can be completed. -/
theorem completes_like (negated : Bool) :
    Completes (.suffix left) (notTokens negated ++ [.keyword .like]) := by
  refine ⟨[.string ""], like left "" negated, ?_, Nat.zero_le _⟩
  rw [List.append_assoc]
  exact .like negated ""

/-- An operator part goes wrong in one of its primaries, or behind an operator that wants more. The
case split is by operator. -/
theorem suffix_continues {room : Nat} (hprimary : Continues (Expr.primary room) .primary)
    (left : Expr) : Continues (Expr.suffix room left) (.suffix left) := by
  intro ts x rest h
  cases hsuffix : startsSuffix ts with
  | false =>
    rw [suffix_of_not_startsSuffix room left ts hsuffix] at h
    cases h
    exact ⟨[], rfl, [.keyword .is, .keyword .null], _, .isNull false, Nat.le_refl 0⟩
  | true =>
    cases operatorAhead_of_startsSuffix hsuffix with
    | sign s p us =>
      rw [suffix_sign] at h
      have hright := error_of_bind h fun _ hok => by cases hok
      obtain ⟨before, rfl, hbefore⟩ := hprimary _ _ _ hright
      exact ⟨⟨.sign s, p⟩ :: before, rfl,
        hbefore.behind [.sign s] fun vs e he => ⟨_, .sign s he⟩⟩
    | is p us =>
      rw [suffix_is] at h
      have hnull := error_of_bind h fun _ hok => by cases hok
      obtain ⟨before, negated, rfl, hbefore⟩ := nullTest_eq_error hnull
      refine ⟨⟨.keyword .is, p⟩ :: before, rfl, [.keyword .null], isNull left negated, ?_,
        Nat.zero_le _⟩
      rw [words_cons, hbefore]
      exact .isNull negated
    | between p us =>
      obtain ⟨before, rfl, hbefore⟩ := between_continues hprimary p h
      exact ⟨⟨.keyword .between, p⟩ :: before, rfl, hbefore⟩
    | among p us =>
      rw [suffix_among] at h
      have hlist := error_of_bind h fun _ hok => by cases hok
      obtain ⟨before, rfl, hbefore⟩ := member_continues false hlist
      exact ⟨⟨.keyword .among, p⟩ :: before, rfl, hbefore⟩
    | like p us =>
      rw [suffix_like] at h
      rw [wildcardText_eq_error (error_of_bind h fun _ hok => by cases hok)]
      exact ⟨[⟨.keyword .like, p⟩], rfl, completes_like false⟩
    | notAmong p q us =>
      rw [suffix_notAmong] at h
      have hlist := error_of_bind h fun _ hok => by cases hok
      obtain ⟨before, rfl, hbefore⟩ := member_continues true hlist
      exact ⟨⟨.keyword .not, p⟩ :: ⟨.keyword .among, q⟩ :: before, rfl, hbefore⟩
    | notLike p q us =>
      rw [suffix_notLike] at h
      rw [wildcardText_eq_error (error_of_bind h fun _ hok => by cases hok)]
      exact ⟨[⟨.keyword .not, p⟩, ⟨.keyword .like, q⟩], rfl, completes_like true⟩

end Suffixes

/-! ### Comparisons and negations -/

/-- A comparison goes wrong on its left, or in its operator part. Where the operator is missing, a
test for nothing is put there. -/
theorem compared_continues {room : Nat} (ih : ∀ r < room, Continues (disjunction r) .expr) :
    Continues (Expr.compared room) .comparison := by
  intro ts x rest h
  have hprimary : Continues (Expr.primary room) .primary := primary_continues ih
  cases hgroup : startsGroup ts with
  | true =>
    rw [compared_of_startsGroup hgroup] at h
    rcases bind_eq_error.mp h with hinner | ⟨⟨inner, us⟩, hinner, hafter⟩
    · exact group_continues ih (fun _ _ => .groupAlone) hgroup hinner
    · obtain ⟨ps, vs, rfl, hps, hder⟩ := group_sound (fun r _ => disjunction_sound r) hinner
      simp only at hafter
      cases hsuffix : startsSuffix us with
      | false =>
        rw [hsuffix] at hafter
        cases hafter
      | true =>
        rw [hsuffix] at hafter
        obtain ⟨before, rfl, hbefore⟩ := suffix_continues hprimary inner _ _ _ hafter
        refine ⟨ps ++ before, (List.append_assoc ..).symm, ?_⟩
        rw [words_append, hps]
        exact hbefore.behind (inParens vs) fun ws e he => ⟨e, .groupCompared hder he⟩
  | false =>
    rw [compared_of_not_startsGroup hgroup] at h
    rcases bind_eq_error.mp h with hleft | ⟨⟨left, us⟩, hleft, hafter⟩
    · obtain ⟨before, rfl, hbefore⟩ := hprimary _ _ _ hleft
      exact ⟨before, rfl, hbefore.comparison⟩
    · obtain ⟨ps, rfl, hder⟩ := primary_sound (fun r _ => disjunction_sound r) _ _ _ hleft
      obtain ⟨before, rfl, hbefore⟩ := suffix_continues hprimary left _ _ _ hafter
      refine ⟨ps ++ before, (List.append_assoc ..).symm, ?_⟩
      rw [words_append]
      exact hbefore.behind (words ps) fun ws e he => ⟨e, .compared hder he⟩

/-- A negation goes wrong in what it negates. The `NOT` was read, and what it negates can be
completed. -/
theorem negated_continues {room : Nat} (ih : ∀ r < room, Continues (disjunction r) .expr)
    (ihnot : ∀ r < room, Continues (negated r) .notExpr) : Continues (negated room) .notExpr := by
  intro ts x rest h
  cases hstarts : startsNegation ts with
  | true =>
    obtain ⟨p, us, rfl⟩ := startsNegation_eq_true hstarts
    cases room with
    | zero =>
      rw [negated.eq_def, if_pos hstarts] at h
      cases h
    | succ room =>
      rw [negated_of_startsNegation hstarts] at h
      have hoperand := error_of_bind h fun _ hok => by cases hok
      obtain ⟨before, hbefore, hcompletes⟩ := ihnot room (Nat.lt_succ_self room) _ _ _ hoperand
      exact ⟨⟨.keyword .not, p⟩ :: before, congrArg (_ :: ·) hbefore,
        hcompletes.behind [.keyword .not] fun vs e he => ⟨negation e, .not he⟩⟩
  | false =>
    rw [negated_of_not_startsNegation hstarts] at h
    obtain ⟨before, rfl, hbefore⟩ := compared_continues ih _ _ _ h
    exact ⟨before, rfl, hbefore.behind [] fun vs e he => ⟨e, .notNegated he⟩⟩

/-! ### Chains -/

section Chains

variable {k : Keyword} {join : Expr → Expr → Expr}
  {operand whole : Nat → List Placed → Except Stuck (Expr × List Placed)}
  {further : Nat → Expr → List Placed → Except Stuck (Expr × List Placed)} {phrase : Phrase}

/-- A chain goes wrong in one of its operands. Those before it were read, so they are derived, and
the one that goes wrong can be completed to one that is. -/
theorem ReadsChain.further_eq_error (chain : ReadsChain k join operand whole further) {room : Nat}
    (hsound : ∀ r < room, Sound (operand r) phrase)
    (hoperand : ∀ r < room, Continues (operand r) phrase) {left : Expr} {ts rest : List Placed}
    {x : Expected} (h : further room left ts = .error ⟨.wanted x, rest⟩) :
    ∃ (before : List Placed) (parts : List (List Token × Expr)) (us : List Token),
      ts = before ++ rest ∧
      words before = (parts.flatMap fun part => .keyword k :: part.1) ++ .keyword k :: us ∧
      (∀ part ∈ parts, Derives phrase part.1 part.2) ∧ Completes phrase us := by
  induction room using Nat.strongRecOn generalizing left ts with
  | ind room ih =>
    cases hword : startsWord k ts with
    | false =>
      rw [chain.stop room left ts hword] at h
      cases h
    | true =>
      obtain ⟨p, us, rfl⟩ := startsWord_eq_true hword
      cases room with
      | zero =>
        rw [chain.full] at h
        cases h
      | succ room =>
        rw [chain.step] at h
        rcases bind_eq_error.mp h with hright | ⟨⟨right, vs⟩, hright, hafter⟩
        · obtain ⟨before, rfl, hbefore⟩ := hoperand room (Nat.lt_succ_self room) _ _ _ hright
          exact ⟨⟨.keyword k, p⟩ :: before, [], words before, rfl, rfl, List.forall_mem_nil _,
            hbefore⟩
        · obtain ⟨qs, rfl, hder⟩ := hsound room (Nat.lt_succ_self room) _ _ _ hright
          obtain ⟨before, parts, us, rfl, hbefore, hparts, hus⟩ := ih room (Nat.lt_succ_self room)
            (fun r hr => hsound r (Nat.lt_succ_of_lt hr))
            (fun r hr => hoperand r (Nat.lt_succ_of_lt hr)) hafter
          refine ⟨⟨.keyword k, p⟩ :: (qs ++ before), (words qs, right) :: parts, us, ?_, ?_,
            List.forall_mem_cons.mpr ⟨hder, hparts⟩, hus⟩
          · rw [List.cons_append, List.append_assoc]
          · rw [words_cons, words_append, hbefore, List.flatMap_cons]
            simp only [List.cons_append, List.append_assoc]

/-- A chain can be completed where its operands can be: the operand that went wrong is completed,
and the chain ends with it. -/
theorem ReadsChain.continues (chain : ReadsChain k join operand whole further) {phrase' : Phrase}
    {room : Nat} (hsound : ∀ r ≤ room, Sound (operand r) phrase)
    (hoperand : ∀ r ≤ room, Continues (operand r) phrase)
    (hwhole : ∀ (ts : List Token) (e : Expr) (parts : List (List Token × Expr)),
      Derives phrase ts e → (∀ part ∈ parts, Derives phrase part.1 part.2) →
      Derives phrase' (ts ++ parts.flatMap fun part => .keyword k :: part.1)
        (parts.foldl (fun left part => join left part.2) e)) : Continues (whole room) phrase' := by
  intro ts x rest h
  rw [chain.start] at h
  rcases bind_eq_error.mp h with hfirst | ⟨⟨first, us⟩, hfirst, hafter⟩
  · obtain ⟨before, rfl, hbefore⟩ := hoperand room (Nat.le_refl room) _ _ _ hfirst
    refine ⟨before, rfl, hbefore.within [] [] (Nat.zero_le _) fun vs e he => ⟨e, ?_⟩⟩
    exact hwhole vs e [] he (List.forall_mem_nil _)
  · obtain ⟨qs, rfl, hder⟩ := hsound room (Nat.le_refl room) _ _ _ hfirst
    obtain ⟨before, parts, us, rfl, hbefore, hparts, hus⟩ := chain.further_eq_error
      (fun r hr => hsound r (Nat.le_of_lt hr)) (fun r hr => hoperand r (Nat.le_of_lt hr)) hafter
    refine ⟨qs ++ before, (List.append_assoc ..).symm, ?_⟩
    rw [words_append, hbefore, List.append_cons, ← List.append_assoc]
    refine hus.behind _ fun vs e he => ?_
    -- the operand that has been completed is the last of the chain
    have htokens : words qs ++ ((parts.flatMap fun part => .keyword k :: part.1) ++ [.keyword k]) ++
        vs = words qs ++ (parts ++ [(vs, e)]).flatMap fun part => .keyword k :: part.1 := by
      simp only [List.flatMap_append, List.flatMap_cons, List.flatMap_nil, List.append_assoc,
        List.cons_append, List.nil_append, List.append_nil]
    have hall : ∀ part ∈ parts ++ [(vs, e)], Derives phrase part.1 part.2 :=
      List.forall_mem_append.mpr ⟨hparts, List.forall_mem_singleton.mpr he⟩
    rw [htokens]
    exact ⟨_, hwhole _ _ _ hder hall⟩

end Chains

/-! ### Every room -/

/-- What negations and disjunctions have read can be completed, in every room. By induction on the
room, as for their soundness. -/
theorem negated_disjunction_continues (room : Nat) :
    Continues (negated room) .notExpr ∧ Continues (disjunction room) .expr := by
  have hnegated_sound : ∀ r, Sound (negated r) .notExpr := fun r => (negated_disjunction_sound r).1
  induction room using Nat.strongRecOn with
  | ind room ih =>
    have hnegated : ∀ r ≤ room, Continues (negated r) .notExpr := by
      intro r hr
      rcases Nat.lt_or_eq_of_le hr with hr | rfl
      · exact (ih r hr).1
      · exact negated_continues (fun s hs => (ih s hs).2) fun s hs => (ih s hs).1
    have hconjunction : ∀ r ≤ room, Continues (conjunction r) .andExpr := fun r hr =>
      readsChain_conjunction.continues (fun s _ => hnegated_sound s)
        (fun s hs => hnegated s (Nat.le_trans hs hr)) fun _ _ _ => .andExpr
    have hconjunction_sound : ∀ r, Sound (conjunction r) .andExpr := fun r =>
      readsChain_conjunction.sound (fun s _ => hnegated_sound s) fun _ _ _ => .andExpr
    refine ⟨hnegated room (Nat.le_refl room), ?_⟩
    exact readsChain_disjunction.continues (fun s _ => hconjunction_sound s) hconjunction
      fun ts e parts he hparts => .expr (.orExpr he hparts)

/-- **What an expression's reader has taken when it wants something can be completed to an
expression.** -/
theorem disjunction_continues (room : Nat) : Continues (disjunction room) .expr :=
  (negated_disjunction_continues room).2

end WhereRules.Expr
