import WhereRules.Proofs.Grammar.Lookahead

/-!
# Readers do not look at positions

A reader goes by the tokens that it is given and never by where they stand. Positions are only carried
along, to where an error stands. So if all positions of a text are changed the answer is the same but
for them (`Expr.ofTokens_moved`): the same tree, or the same error at the same token. Counted in tokens
instead of characters (`TokenStream.ofWords`), positions are those of the words alone, and each text
of these words has the same answer with its own positions put in (`Expr.ofTokens_ofWords`).
-/

namespace WhereRules

/-! ## Other positions -/

/-- The same token at another position. -/
def Placed.moved (f : Nat → Nat) (t : Placed) : Placed := ⟨t.token, f t.position⟩

/-- The same error at another position. -/
def ParseError.moved (f : Nat → Nat) : ParseError → ParseError
  | unexpected expected got p => .unexpected expected got (f p)
  | ended expected p => .ended expected (f p)
  | trailing got p => .trailing got (f p)
  | tooDeep limit p => .tooDeep limit (f p)

/-- The same tokens at other positions. -/
def TokenStream.moved (f : Nat → Nat) (stream : TokenStream) : TokenStream where
  tokens := stream.tokens.map (Placed.moved f)
  stop := f stream.stop

namespace Expr

variable {α β : Type} (f : Nat → Nat)

/-- The same obstacle, in front of the same tokens at other positions. -/
def Stuck.moved (stuck : Stuck) : Stuck := ⟨stuck.obstacle, stuck.rest.map (Placed.moved f)⟩

/-- The answer about the tokens at other positions. -/
def movedAnswer : Except Stuck (α × List Placed) → Except Stuck (α × List Placed)
  | .ok (a, ts) => .ok (a, ts.map (Placed.moved f))
  | .error stuck => .error (stuck.moved f)

/-- A reader answers the same wherever the tokens stand. -/
def Moves (read : Reader α) : Prop :=
  ∀ ts, read (ts.map (Placed.moved f)) = movedAnswer f (read ts)

/-- Moving tokens changes no word. -/
theorem words_moved (ts : List Placed) : words (ts.map (Placed.moved f)) = words ts := by
  unfold words
  rw [List.map_map]
  rfl

/-- Tokens that are moved look the same, because readers look at words only. -/
theorem looksAlike_moved (ts : List Placed) : LooksAlike (ts.map (Placed.moved f)) ts :=
  congrArg ahead (words_moved f ts)

variable {f}

/-- One step after the other: if the first moves its answer, the second is given the moved tokens.
-/
theorem movedAnswer_bind {x y : Except Stuck (α × List Placed)}
    {next : α × List Placed → Except Stuck (β × List Placed)} (h : y = movedAnswer f x)
    (hnext : ∀ a ts, x = .ok (a, ts) →
      next (a, ts.map (Placed.moved f)) = movedAnswer f (next (a, ts))) :
    y >>= next = movedAnswer f (x >>= next) := by
  subst h
  cases x with
  | error stuck => rfl
  | ok read => exact hnext read.1 read.2 rfl

/-! ## Rules without nesting -/

/-- A reader of one token takes it or leaves it, wherever it stands. -/
theorem takeToken_moves (answer : Token → Option α) (expected : Expected) :
    Moves f (takeToken answer expected) := by
  intro ts
  cases ts with
  | nil => rfl
  | cons t ts =>
    show takeToken answer expected (⟨t.token, f t.position⟩ :: ts.map (Placed.moved f)) = _
    simp only [takeToken]
    cases answer t.token <;> rfl

theorem keyword_moves (k : Keyword) : Moves f (keyword k) := by
  rw [keyword_eq_takeToken]
  exact takeToken_moves _ _

theorem leftParen_moves : Moves f leftParen := by
  rw [leftParen_eq_takeToken]
  exact takeToken_moves _ _

theorem rightParen_moves : Moves f rightParen := by
  rw [rightParen_eq_takeToken]
  exact takeToken_moves _ _

theorem constant_moves : Moves f constant := by
  rw [constant_eq_takeToken]
  exact takeToken_moves _ _

theorem wildcardText_moves : Moves f wildcardText := by
  rw [wildcardText_eq_takeToken]
  exact takeToken_moves _ _

/-- A null test goes by the next word. -/
theorem nullTest_moves : Moves f nullTest := by
  intro ts
  cases hword : startsWord .not ts with
  | true =>
    obtain ⟨p, us, rfl⟩ := startsWord_eq_true hword
    show nullTest (⟨.keyword .not, f p⟩ :: us.map (Placed.moved f)) = _
    rw [nullTest_not, nullTest_not]
    exact movedAnswer_bind (keyword_moves .null us) fun _ _ _ => rfl
  | false =>
    rw [nullTest_of_startsWord hword,
      nullTest_of_startsWord (((looksAlike_moved f ts).startsWord .not).trans hword)]
    exact movedAnswer_bind (keyword_moves .null ts) fun _ _ _ => rfl

/-- A list goes by its commas. -/
theorem furtherConstants_moves : Moves f furtherConstants := by
  intro ts
  induction hn : ts.length using Nat.strongRecOn generalizing ts with
  | ind n ih =>
    cases ts with
    | nil => rfl
    | cons t ts =>
      obtain ⟨t, p⟩ := t
      show furtherConstants (⟨t, f p⟩ :: ts.map (Placed.moved f)) = _
      by_cases hcomma : t = .comma
      · subst hcomma
        rw [furtherConstants_comma, furtherConstants_comma]
        refine movedAnswer_bind (constant_moves ts) fun value us hvalue => ?_
        rw [constant_eq_takeToken] at hvalue
        obtain ⟨u, q, rfl, -⟩ := takeToken_eq_ok hvalue
        rw [List.length_cons, List.length_cons] at hn
        exact movedAnswer_bind (ih us.length (by omega) us rfl) fun _ _ _ => rfl
      · have hstop : ∀ q us, furtherConstants (⟨t, q⟩ :: us) = .ok ([], ⟨t, q⟩ :: us) :=
          fun q us => furtherConstants_of_ne_comma fun _ _ heq => hcomma (by cases heq; rfl)
        rw [hstop, hstop]
        rfl

/-- A list in parentheses goes by them, and then by its commas. -/
theorem constants_moves : Moves f constants := by
  intro ts
  unfold constants
  refine movedAnswer_bind (leftParen_moves ts) fun _ us _ => ?_
  refine movedAnswer_bind (constant_moves us) fun first vs _ => ?_
  refine movedAnswer_bind (furtherConstants_moves vs) fun others ws _ => ?_
  exact movedAnswer_bind (rightParen_moves ws) fun _ _ _ => rfl

/-! ## Rules that nest -/

/-- A group goes by what it encloses, with one level less. -/
theorem group_moves {room : Nat} (ih : ∀ r < room, Moves f (disjunction r)) {ts : List Placed}
    (hstarts : startsGroup ts = true) :
    Expr.group room (ts.map (Placed.moved f)) = movedAnswer f (Expr.group room ts) := by
  obtain ⟨p, us, rfl⟩ := startsGroup_eq_true hstarts
  show Expr.group room (⟨.leftParen, f p⟩ :: us.map (Placed.moved f)) = _
  cases room with
  | zero =>
    rw [Expr.group, Expr.group]
    rfl
  | succ room =>
    rw [group_succ, group_succ]
    refine movedAnswer_bind (ih room (Nat.lt_succ_self room) us) fun e vs _ => ?_
    exact movedAnswer_bind (rightParen_moves vs) fun _ _ _ => rfl

/-- A primary goes by whether a parenthesis comes next. -/
theorem primary_moves {room : Nat} (ih : ∀ r < room, Moves f (disjunction r)) :
    Moves f (Expr.primary room) := by
  intro ts
  have halike := (looksAlike_moved f ts).startsGroup
  cases hgroup : startsGroup ts with
  | true =>
    rw [primary_of_startsGroup hgroup, primary_of_startsGroup (halike.trans hgroup)]
    exact group_moves ih hgroup
  | false =>
    rw [primary_of_not_startsGroup hgroup, primary_of_not_startsGroup (halike.trans hgroup)]
    exact takeToken_moves leaf? .expression ts

/-! ### Operator parts -/

/-- An operator part goes by its operator. -/
theorem suffix_moves {room : Nat} (hprimary : Moves f (Expr.primary room)) (left : Expr) :
    Moves f (Expr.suffix room left) := by
  intro ts
  have halike := (looksAlike_moved f ts).startsSuffix
  cases hsuffix : startsSuffix ts with
  | false =>
    rw [suffix_of_not_startsSuffix room left ts hsuffix,
      suffix_of_not_startsSuffix room left _ (halike.trans hsuffix)]
    rfl
  | true =>
    cases operatorAhead_of_startsSuffix hsuffix with
    | sign s p us =>
      rw [suffix_sign]
      refine (suffix_sign room left (f p) _ s).trans ?_
      exact movedAnswer_bind (hprimary us) fun _ _ _ => rfl
    | is p us =>
      rw [suffix_is]
      refine (suffix_is room left (f p) _).trans ?_
      exact movedAnswer_bind (nullTest_moves us) fun _ _ _ => rfl
    | between p us =>
      rw [suffix_between]
      refine (suffix_between room left (f p) _).trans ?_
      refine movedAnswer_bind (hprimary us) fun low vs _ => ?_
      refine movedAnswer_bind (keyword_moves .and vs) fun _ ws _ => ?_
      exact movedAnswer_bind (hprimary ws) fun _ _ _ => rfl
    | among p us =>
      rw [suffix_among]
      refine (suffix_among room left (f p) _).trans ?_
      exact movedAnswer_bind (constants_moves us) fun _ _ _ => rfl
    | like p us =>
      rw [suffix_like]
      refine (suffix_like room left (f p) _).trans ?_
      exact movedAnswer_bind (wildcardText_moves us) fun _ _ _ => rfl
    | notAmong p q us =>
      rw [suffix_notAmong]
      refine (suffix_notAmong room left (f p) _ (f q)).trans ?_
      exact movedAnswer_bind (constants_moves us) fun _ _ _ => rfl
    | notLike p q us =>
      rw [suffix_notLike]
      refine (suffix_notLike room left (f p) _ (f q)).trans ?_
      exact movedAnswer_bind (wildcardText_moves us) fun _ _ _ => rfl

/-! ### Comparisons and negations -/

/-- A comparison goes by whether it begins with a group, and an operator follows. Neither has to do
with where the tokens stand. -/
theorem compared_moves {room : Nat} (ih : ∀ r < room, Moves f (disjunction r)) :
    Moves f (Expr.compared room) := by
  intro ts
  have hprimary : Moves f (Expr.primary room) := primary_moves ih
  have halike := (looksAlike_moved f ts).startsGroup
  cases hgroup : startsGroup ts with
  | true =>
    rw [compared_of_startsGroup hgroup, compared_of_startsGroup (halike.trans hgroup)]
    refine movedAnswer_bind (group_moves ih hgroup) fun inner us _ => ?_
    show (if startsSuffix (us.map (Placed.moved f)) then _ else _) =
      movedAnswer f (if startsSuffix us then _ else _)
    rw [(looksAlike_moved f us).startsSuffix]
    cases startsSuffix us with
    | true => exact suffix_moves hprimary inner us
    | false => rfl
  | false =>
    rw [compared_of_not_startsGroup hgroup, compared_of_not_startsGroup (halike.trans hgroup)]
    exact movedAnswer_bind (hprimary ts) fun left us _ => suffix_moves hprimary left us

/-- A negation goes by its `NOT`, and by the word behind it. -/
theorem negated_moves {room : Nat} (ih : ∀ r < room, Moves f (disjunction r))
    (ihnot : ∀ r < room, Moves f (negated r)) : Moves f (negated room) := by
  intro ts
  have halike := (looksAlike_moved f ts).startsNegation
  cases hstarts : startsNegation ts with
  | true =>
    cases room with
    | zero =>
      rw [negated.eq_def, negated.eq_def, if_pos hstarts, if_pos (halike.trans hstarts)]
      rfl
    | succ room =>
      rw [negated_of_startsNegation hstarts, negated_of_startsNegation (halike.trans hstarts),
        ← List.map_tail]
      exact movedAnswer_bind (ihnot room (Nat.lt_succ_self room) ts.tail) fun _ _ _ => rfl
  | false =>
    rw [negated_of_not_startsNegation hstarts,
      negated_of_not_startsNegation (halike.trans hstarts)]
    exact compared_moves ih ts

/-! ### Chains -/

section Chains

variable {k : Keyword} {join : Expr → Expr → Expr}
  {operand whole : Nat → List Placed → Except Stuck (Expr × List Placed)}
  {further : Nat → Expr → List Placed → Except Stuck (Expr × List Placed)}

/-- The rest of a chain goes by its word. -/
theorem ReadsChain.further_moves (chain : ReadsChain k join operand whole further) {room : Nat}
    (hoperand : ∀ r < room, Moves f (operand r)) (left : Expr) : Moves f (further room left) := by
  intro ts
  induction room using Nat.strongRecOn generalizing left ts with
  | ind room ih =>
    have halike := (looksAlike_moved f ts).startsWord k
    cases hword : startsWord k ts with
    | false =>
      rw [chain.stop room left ts hword, chain.stop room left _ (halike.trans hword)]
      rfl
    | true =>
      obtain ⟨p, us, rfl⟩ := startsWord_eq_true hword
      show further room left (⟨.keyword k, f p⟩ :: us.map (Placed.moved f)) = _
      cases room with
      | zero =>
        rw [chain.full, chain.full]
        rfl
      | succ room =>
        rw [chain.step, chain.step]
        refine movedAnswer_bind (hoperand room (Nat.lt_succ_self room) us) fun right vs _ => ?_
        exact ih room (Nat.lt_succ_self room) (fun r hr => hoperand r (Nat.lt_succ_of_lt hr))
          (join left right) vs

/-- A chain moves where its operands do, at its own room and all below. -/
theorem ReadsChain.moves (chain : ReadsChain k join operand whole further) {room : Nat}
    (hoperand : ∀ r ≤ room, Moves f (operand r)) : Moves f (whole room) := by
  intro ts
  rw [chain.start, chain.start]
  refine movedAnswer_bind (hoperand room (Nat.le_refl room) ts) fun first us _ => ?_
  exact chain.further_moves (fun r hr => hoperand r (Nat.le_of_lt hr)) first us

end Chains

/-! ### Every room -/

/-- Negations and disjunctions answer the same wherever the tokens stand, in every room. The
induction is on the room, for both at once, since each goes back to the other. -/
theorem negated_disjunction_moves (room : Nat) : Moves f (negated room) ∧ Moves f (disjunction room) := by
  induction room using Nat.strongRecOn with
  | ind room ih =>
    have hnegated : ∀ r ≤ room, Moves f (negated r) := by
      intro r hr
      rcases Nat.lt_or_eq_of_le hr with hr | rfl
      · exact (ih r hr).1
      · exact negated_moves (fun s hs => (ih s hs).2) fun s hs => (ih s hs).1
    have hconjunction : ∀ r ≤ room, Moves f (conjunction r) := fun r hr =>
      readsChain_conjunction.moves fun s hs => hnegated s (Nat.le_trans hs hr)
    exact ⟨hnegated room (Nat.le_refl room), readsChain_disjunction.moves hconjunction⟩

/-! ## Whole streams -/

/-- The error of an obstacle is about the first token that is left, and moves with it. -/
theorem Stuck.error_moved (stuck : Stuck) (limit stop : Nat) :
    (stuck.moved f).error limit (f stop) = (stuck.error limit stop).moved f := by
  obtain ⟨obstacle, rest⟩ := stuck
  cases obstacle <;> cases rest <;> rfl

/-- **The answer about a text moves with its tokens.** The tree stays as it is, and an error stands
where its token does. -/
theorem ofTokens_moved (f : Nat → Nat) (limit : Nat) (stream : TokenStream) :
    ofTokens limit (stream.moved f) = (ofTokens limit stream).mapError (ParseError.moved f) := by
  have hread := (negated_disjunction_moves (f := f) limit).2 stream.tokens
  unfold ofTokens TokenStream.moved
  rw [hread]
  cases disjunction limit stream.tokens with
  | error stuck => exact congrArg Except.error (stuck.error_moved limit stream.stop)
  | ok read =>
    obtain ⟨e, rest⟩ := read
    cases rest <;> rfl

end Expr

/-! ## Positions counted in tokens -/

/-- The stream of some words, each at its place among them. -/
def TokenStream.ofWords (ts : List Token) : TokenStream where
  tokens := ts.mapIdx fun i t => ⟨t, i⟩
  stop := ts.length

/-- The position of the token with a number, or of the end of the text. -/
def TokenStream.placeOf (stream : TokenStream) (i : Nat) : Nat :=
  (stream.tokens[i]?.map Placed.position).getD stream.stop

/-- A stream is that of its words, at its own positions. -/
theorem TokenStream.moved_ofWords (stream : TokenStream) :
    (TokenStream.ofWords (Expr.words stream.tokens)).moved stream.placeOf = stream := by
  obtain ⟨tokens, stop⟩ := stream
  have htokens : ((Expr.words tokens).mapIdx fun i t => (⟨t, i⟩ : Placed)).map
      (Placed.moved (TokenStream.placeOf ⟨tokens, stop⟩)) = tokens := by
    refine List.ext_getElem (by simp [Expr.words]) fun i hi hi' => ?_
    simp [Expr.words, Placed.moved, TokenStream.placeOf, hi']
  have hstop : TokenStream.placeOf ⟨tokens, stop⟩ (Expr.words tokens).length = stop := by
    simp [TokenStream.placeOf, Expr.words]
  rw [TokenStream.moved, TokenStream.ofWords]
  simp only [htokens, hstop]

/-- **What the tokens of a text make depends on the words**, and where an error stands on the number of
the word. -/
theorem Expr.ofTokens_ofWords (limit : Nat) (stream : TokenStream) :
    ofTokens limit stream = (ofTokens limit (.ofWords (words stream.tokens))).mapError
      (ParseError.moved stream.placeOf) := by
  rw [← ofTokens_moved, TokenStream.moved_ofWords]

end WhereRules
