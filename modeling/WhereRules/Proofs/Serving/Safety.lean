import WhereRules.Proofs.Serving.History
import WhereRules.Proofs.Serving.Trails

/-!
# A parser keeps its cursor in order

Whatever a parser is given, its cursor stays in the text and never goes back, it has one level too
many open at most, and it closes no level that is not open (`Parser.inOrder_parse`). This is said of
every cursor on the way and not only of the one that the parser is left with, and just as well where
the text is given up in the middle, with levels still open.

Each rule of the grammar has its account: where it succeeds it has passed a token at least, and has
closed the levels that it opened (`Settles`). The rest of a chain has to close the levels of its
folds besides, and these are open (`Parsing.WorksChain.accounted_further`).
-/

namespace WhereRules

open Cursor MonadCursor

variable {α : Type} {cursor : Cursor} {taken closed : Nat}

/-! ## Rules without nesting -/

namespace Cursor

theorem isSome_of_current? {token : Token} (h : cursor.current? = some token) :
    cursor.current?.isSome = true := Option.isSome_of_eq_some h

theorem isSome_of_isAt {token : Token} (h : cursor.isAt token = true) :
    cursor.current?.isSome = true := isSome_of_current? (beq_iff_eq.mp h)

end Cursor

/-- To give the text up for an unexpected token makes no move, so it accounts for every promise. -/
theorem accounted_unexpected (expected : Expected) (cursor : Cursor) :
    Accounted (unexpected expected : Traced α) (unexpected expected) cursor taken closed := by
  refine Accounted.look ?_
  cases cursor.current? with
  | none => exact accounted_giveUp _
  | some got => exact accounted_giveUp _

/-- To expect a token is to take it or to give the text up. -/
theorem accounted_expect (expected : Expected) (token : Token) (cursor : Cursor) :
    Accounted (expect expected token) (expect expected token) cursor 1 0 := by
  refine Accounted.look ?_
  refine Accounted.ite (fun hat => ?_) fun _ => ?_
  · exact accounted_advance (isSome_of_isAt hat)
  · exact accounted_unexpected expected cursor

theorem accounted_expectToken (token : Token) (cursor : Cursor) :
    Accounted (expectToken token) (expectToken token) cursor 1 0 :=
  accounted_expect (.token token) token cursor

theorem accounted_expectKeyword (k : Keyword) (cursor : Cursor) :
    Accounted (expectKeyword k) (expectKeyword k) cursor 1 0 :=
  accounted_expect (.keyword k) (.keyword k) cursor

/-- To expect a string takes one token. -/
theorem accounted_expectString (cursor : Cursor) :
    Accounted expectString expectString cursor 1 0 := by
  refine Accounted.look ?_
  cases hcurrent : cursor.current? with
  | none => exact accounted_unexpected .string cursor
  | some token =>
    cases token with
    | string s =>
      exact (accounted_advance (isSome_of_current? hcurrent)).bind
        fun _ next _ => accounted_pure s next
    | _ => exact accounted_unexpected .string cursor

/-- A literal takes one token. -/
theorem accounted_constant (cursor : Cursor) : Accounted constant constant cursor 1 0 := by
  refine Accounted.look ?_
  cases hcurrent : cursor.current? with
  | none => exact accounted_unexpected .literal cursor
  | some token =>
    rw [Option.bind_some]
    cases token.literal? with
    | none => exact accounted_unexpected .literal cursor
    | some value =>
      exact (accounted_advance (isSome_of_current? hcurrent)).bind
        fun _ next _ => accounted_pure value next

/-- Behind `IS`, one token is taken at least, and no level is opened. -/
theorem accounted_nullTest (cursor : Cursor) : Accounted nullTest nullTest cursor 1 0 := by
  refine Accounted.look ?_
  have hnull : ∀ (b : Bool) (next : Cursor),
      Accounted (expectKeyword .null >>= fun _ => pure b) (expectKeyword .null >>= fun _ => pure b)
        next 1 0 :=
    fun b next => (accounted_expectKeyword .null next).bind fun _ next _ => accounted_pure b next
  refine Accounted.ite (fun hat => ?_) fun _ => ?_
  · exact (accounted_advance (isSome_of_isAt hat)).bind fun _ next _ => (hnull true next).any
  · exact hnull false cursor

/-- Further literals may be none, so no token is promised; each brings a comma and itself. -/
theorem accounted_furtherConstants (n : Nat) (cursor : Cursor) :
    Accounted (furtherConstants n) (furtherConstants n) cursor 0 0 := by
  induction n generalizing cursor with
  | zero => exact accounted_pure [] cursor
  | succ n ih =>
    rw [furtherConstants, furtherConstants]
    refine Accounted.look ?_
    refine Accounted.ite (fun hat => ?_) fun _ => ?_
    · refine (accounted_advance (isSome_of_isAt hat)).any.bind fun _ next _ => ?_
      refine (accounted_constant next).any.bind fun value next _ => ?_
      exact (ih next).bind fun values next _ => accounted_pure _ next
    · exact accounted_pure [] cursor

/-- A list takes a token at least, its parenthesis. -/
theorem accounted_constants (cursor : Cursor) : Accounted constants constants cursor 1 0 := by
  rw [constants, constants]
  refine (accounted_expectToken .leftParen cursor).bind fun _ next _ => ?_
  refine (accounted_constant next).any.bind fun first next _ => ?_
  refine Accounted.look ?_
  refine (accounted_furtherConstants _ next).bind fun others next _ => ?_
  refine (accounted_expectToken .rightParen next).any.bind fun _ next _ => ?_
  exact accounted_pure _ next

/-- `IN` or `LIKE` with what follows takes a token at least, and opens no level. -/
theorem accounted_amongOrLike (left : Expr) (negated : Bool) (cursor : Cursor) :
    Accounted (amongOrLike left negated) (amongOrLike left negated) cursor 1 0 := by
  refine Accounted.look ?_
  refine Accounted.ite (fun hat => ?_) fun _ => ?_
  · refine (accounted_advance (isSome_of_isAt hat)).bind fun _ next _ => ?_
    exact (accounted_expectString next).any.bind fun text next _ => accounted_pure _ next
  · refine (accounted_expectKeyword .among cursor).bind fun _ next _ => ?_
    exact (accounted_constants next).any.bind fun values next _ => accounted_pure _ next

/-! ## Rules that nest -/

/-- From every cursor on, work passes a token at least and closes the levels that it opens. -/
def Settles (traced : Traced α) (work : Parsing α) : Prop :=
  ∀ cursor : Cursor, Accounted traced work cursor 1 0

variable {room : Nat}

/-- A group closes the level that it opens, behind what is inside. What is inside is read in a
smaller room. -/
theorem settles_group (ih : ∀ r < room, Settles (disjunction r) (disjunction r)) :
    Settles (group room) (group room) := by
  intro cursor
  rw [group, group]
  refine Accounted.look ?_
  refine (accounted_expectToken .leftParen cursor).bind fun _ next hnext => ?_
  refine Accounted.enter ?_
  cases room with
  | zero => exact accounted_tooDeep _
  | succ room =>
    refine (ih room (Nat.lt_succ_self room) _).any.bind fun inner next hnext => ?_
    refine (accounted_expectToken .rightParen next).any.bind fun _ last hlast => ?_
    exact accounted_leave inner (by rw [hlast, hnext]; exact Nat.succ_pos _)

/-- An operand that is no group takes a single token and opens nothing. -/
theorem settles_primary (ih : ∀ r < room, Settles (disjunction r) (disjunction r)) :
    Settles (primary room) (primary room) := by
  intro cursor
  rw [primary, primary]
  refine Accounted.look ?_
  cases hcurrent : cursor.current? with
  | none => exact accounted_unexpected .expression cursor
  | some token =>
    have hconstant : Accounted (constant >>= fun value => pure (Expr.literal value))
        (constant >>= fun value => pure (Expr.literal value)) cursor 1 0 :=
      (accounted_constant cursor).bind fun value next _ => accounted_pure _ next
    have hunexpected : Accounted (unexpected .expression : Traced Expr) (unexpected .expression)
        cursor 1 0 := accounted_unexpected .expression cursor
    cases token with
    | identifier path =>
      exact (accounted_advance (isSome_of_current? hcurrent)).bind
        fun _ next _ => accounted_pure _ next
    | leftParen => exact settles_group ih cursor
    | keyword k =>
      cases k with
      | null | yes | no => exact hconstant
      | _ => exact hunexpected
    | sign s => exact hunexpected
    | rightParen | comma => exact hunexpected
    | int n => exact hconstant
    | number x => exact hconstant
    | string s => exact hconstant

/-- The operator part of a comparison takes its operator at least. Its operands are accounted for by
what is known of operands. -/
theorem settles_suffix (hprimary : Settles (primary room) (primary room)) (left : Expr) :
    Settles (suffix room left) (suffix room left) := by
  intro cursor
  rw [suffix, suffix]
  refine Accounted.look ?_
  have hunexpected : Accounted (unexpected .sign : Traced Expr) (unexpected .sign) cursor 1 0 :=
    accounted_unexpected .sign cursor
  cases hcurrent : cursor.current? with
  | none => exact hunexpected
  | some token =>
    have hadvance : Accounted advance advance cursor 1 0 :=
      accounted_advance (isSome_of_current? hcurrent)
    cases token with
    | sign s =>
      refine hadvance.bind fun _ next _ => ?_
      exact (hprimary next).any.bind fun right next _ => accounted_pure _ next
    | keyword k =>
      cases k with
      | is =>
        refine hadvance.bind fun _ next _ => ?_
        exact (accounted_nullTest next).any.bind fun negated next _ => accounted_pure _ next
      | between =>
        refine hadvance.bind fun _ next _ => ?_
        refine (hprimary next).any.bind fun low next _ => ?_
        refine (accounted_expectKeyword .and next).any.bind fun _ next _ => ?_
        exact (hprimary next).any.bind fun high next _ => accounted_pure _ next
      | among | like => exact accounted_amongOrLike left false cursor
      | not =>
        refine Accounted.ite (fun _ => ?_) fun _ => hunexpected
        exact hadvance.bind fun _ next _ => (accounted_amongOrLike left true next).any
      | _ => exact hunexpected
    | _ => exact hunexpected

/-- A comparison begins with a group or an operand, which takes the first token. -/
theorem settles_compared (ih : ∀ r < room, Settles (disjunction r) (disjunction r)) :
    Settles (compared room) (compared room) := by
  intro cursor
  have hprimary : Settles (primary room) (primary room) := settles_primary ih
  rw [compared, compared]
  refine Accounted.look ?_
  refine Accounted.ite (fun _ => ?_) fun _ => ?_
  · refine (settles_group ih cursor).bind fun inner next _ => ?_
    refine Accounted.look ?_
    refine Accounted.ite (fun _ => ?_) fun _ => accounted_pure inner next
    exact (settles_suffix hprimary inner next).any
  · exact (hprimary cursor).bind fun left next _ => (settles_suffix hprimary left next).any

/-- A negation takes its `NOT` and closes the level of it behind what it negates. -/
theorem settles_negated (ih : ∀ r < room, Settles (disjunction r) (disjunction r))
    (ihnot : ∀ r < room, Settles (negated r) (negated r)) :
    Settles (negated room) (negated room) := by
  intro cursor
  rw [negated, negated]
  refine Accounted.look ?_
  refine Accounted.ite (fun hnot => ?_) fun _ => settles_compared ih cursor
  have hat : cursor.isAt (.keyword .not) = true := (Bool.and_eq_true_iff.mp hnot).1
  refine (accounted_advance (isSome_of_isAt hat)).bind fun _ next _ => ?_
  refine Accounted.enter ?_
  cases room with
  | zero => exact accounted_tooDeep _
  | succ room =>
    refine (ihnot room (Nat.lt_succ_self room) _).any.bind fun operand last hlast => ?_
    exact accounted_leave _ (by rw [hlast]; exact Nat.succ_pos _)

/-! ## Chains -/

section Chains

variable {k : Keyword} {join : Expr → Expr → Expr}
  {tracedOperand tracedWhole : Nat → Traced Expr}
  {tracedFurther : Nat → Nat → Expr → Traced Expr}
  {operand whole : Nat → Parsing Expr} {further : Nat → Nat → Expr → Parsing Expr}

/-- Where a chain ends the levels of its folds are closed, if they are open. Each operand behind the
first adds a fold with its level, so they are open all along the recursion. -/
theorem Parsing.WorksChain.accounted_further
    (traced : WorksChain k join tracedOperand tracedWhole tracedFurther)
    (works : WorksChain k join operand whole further)
    (hoperand : ∀ r < room, Settles (tracedOperand r) (operand r)) (folds : Nat) (left : Expr)
    (cursor : Cursor) (hfolds : folds ≤ cursor.depth) :
    Accounted (tracedFurther room folds left) (further room folds left) cursor 0 folds := by
  -- A fold opens a level before it is counted, so the folds are never more than the levels.
  induction room generalizing folds left cursor with
  | zero =>
    rw [traced.full, works.full]
    refine Accounted.look ?_
    refine Accounted.ite (fun hat => ?_) fun _ => ?_
    · refine (accounted_advance (isSome_of_isAt hat)).any.bind fun _ next _ => ?_
      exact Accounted.enter (accounted_tooDeep _)
    · exact accounted_leave left hfolds
  | succ room ih =>
    rw [traced.step, works.step]
    refine Accounted.look ?_
    refine Accounted.ite (fun hat => ?_) fun _ => ?_
    · refine (accounted_advance (isSome_of_isAt hat)).any.bind fun _ next hnext => ?_
      refine Accounted.enter ?_
      refine (hoperand room (Nat.lt_succ_self room) _).any.bind fun right last hlast => ?_
      have hlevels : folds + 1 ≤ last.depth := by
        rw [hlast]
        exact Nat.succ_le_succ (hnext ▸ hfolds)
      exact ih (fun r hr => hoperand r (Nat.lt_succ_of_lt hr)) (folds + 1) _ last hlevels
    · exact accounted_leave left hfolds

/-- A chain settles if its operands do: the first takes a token, and at the end there are as many
levels to close as there were folds. -/
theorem Parsing.WorksChain.settles
    (traced : WorksChain k join tracedOperand tracedWhole tracedFurther)
    (works : WorksChain k join operand whole further)
    (hoperand : ∀ r ≤ room, Settles (tracedOperand r) (operand r)) :
    Settles (tracedWhole room) (whole room) := by
  intro cursor
  rw [traced.start, works.start]
  refine (hoperand room (Nat.le_refl room) cursor).bind fun first next _ => ?_
  exact traced.accounted_further works (fun r hr => hoperand r (Nat.le_of_lt hr)) 0 first next
    (Nat.zero_le _)

end Chains

/-- A conjunction settles if negations do, in this room and in smaller ones. -/
theorem settles_conjunction (hnegated : ∀ r ≤ room, Settles (negated r) (negated r)) :
    Settles (conjunction room) (conjunction room) :=
  Parsing.worksChain_conjunction.settles Parsing.worksChain_conjunction hnegated

/-- **In every room the rules of the grammar settle.** Only negations and disjunctions are called in
a smaller room, so the induction is on these two. -/
theorem settles_negated_disjunction (room : Nat) :
    Settles (negated room) (negated room) ∧ Settles (disjunction room) (disjunction room) := by
  -- Only parentheses and `NOT` come back to these two rules, and what they enclose has less room.
  induction room using Nat.strongRecOn with
  | ind room ih =>
    have hnegated : ∀ r ≤ room, Settles (negated r) (negated r) := by
      intro r hr
      exact settles_negated (fun q hq => (ih q (Nat.lt_of_lt_of_le hq hr)).2)
        (fun q hq => (ih q (Nat.lt_of_lt_of_le hq hr)).1)
    refine ⟨hnegated room (Nat.le_refl room), ?_⟩
    exact Parsing.worksChain_disjunction.settles Parsing.worksChain_disjunction fun r hr =>
      settles_conjunction fun q hq => hnegated q (Nat.le_trans hq hr)

/-! ## Whole texts -/

/-- To look for the end of the text makes no move. -/
theorem accounted_finish (cursor : Cursor) : Accounted finish finish cursor 0 0 := by
  refine Accounted.look ?_
  cases cursor.current? with
  | none => exact accounted_pure () cursor
  | some got => exact accounted_giveUp _

/-- A whole text that is read has taken a token at least, and leaves no level open. -/
theorem accounted_whole (cursor : Cursor) :
    Accounted (MonadCursor.whole) Parsing.whole cursor 1 0 := by
  refine Accounted.look ?_
  refine ((settles_negated_disjunction cursor.maxDepth).2 cursor).bind fun e next _ => ?_
  exact (accounted_finish next).bind fun _ next _ => accounted_pure e next

/-- The trail of a cursor that stays in its text and keeps its levels in order. -/
structure Trail.InOrder (trail : Trail α) (start : Cursor) : Prop where
  /-- Each step is made from where the one before it led. -/
  leads : Leads start trail.steps trail.last
  /-- The cursor is on a token of the text or at the end, which counts as one more. -/
  inside : ∀ c ∈ trail.cursors, c.tokens = start.tokens ∧ c.position < start.tokens.size + 1
  /-- It never goes back. -/
  forward : trail.cursors.Pairwise fun c next => c.position ≤ next.position
  /-- One level too many is opened at most. -/
  bounded : ∀ c ∈ trail.cursors, c.depth ≤ start.maxDepth + 1
  /-- No more levels are closed than are open. -/
  covered : ∀ c n, ⟨c, .leave n⟩ ∈ trail.steps → n ≤ c.depth

/-- A cursor that begins in its text with no level too many stays in order. The account says that
its steps are fair, and fair steps keep the cursor in its bounds. -/
theorem Trail.Accounts.inOrder {trail : Trail α} {work : Parsing α} {start : Cursor}
    (h : trail.Accounts work start taken closed) (hposition : start.position ≤ start.tokens.size)
    (hdepth : start.depth ≤ start.maxDepth) : trail.InOrder start := by
  have hfair := h.fair hdepth
  have hlater := h.leads.later
  have hbounds := h.leads.inBounds hfair
    ⟨Nat.lt_succ_of_le hposition, Nat.le_succ_of_le hdepth⟩
  exact {
    leads := h.leads
    inside := fun c hc => by
      have htokens := (hlater c hc).tokens_eq
      exact ⟨htokens, htokens ▸ (hbounds c hc).position_lt⟩
    forward := h.leads.sorted
    bounded := fun c hc => (hlater c hc).maxDepth_eq ▸ (hbounds c hc).depth_le
    covered := fun c n hstep => hfair _ hstep }

/-- The rules of the grammar, by what they answer. -/
inductive GrammarRule : Type → Type
  | disjunction : GrammarRule Expr
  | conjunction : GrammarRule Expr
  | negated : GrammarRule Expr
  | compared : GrammarRule Expr
  | suffix (left : Expr) : GrammarRule Expr
  | amongOrLike (left : Expr) (isNegated : Bool) : GrammarRule Expr
  | group : GrammarRule Expr
  | primary : GrammarRule Expr
  | constant : GrammarRule Value

/-- What a rule does where there is this room. -/
def GrammarRule.work {m : Type → Type} [Monad m] [MonadCursor m] {α : Type} :
    GrammarRule α → (room : Nat) → m α
  | disjunction, room => MonadCursor.disjunction room
  | conjunction, room => MonadCursor.conjunction room
  | negated, room => MonadCursor.negated room
  | compared, room => MonadCursor.compared room
  | suffix left, room => MonadCursor.suffix room left
  | amongOrLike left isNegated, _ => MonadCursor.amongOrLike left isNegated
  | group, room => MonadCursor.group room
  | primary, room => MonadCursor.primary room
  | constant, _ => MonadCursor.constant

/-- Every rule of the grammar settles, in every room. This puts the lemmas above into one statement,
with the rule as a variable. -/
theorem GrammarRule.settles (rule : GrammarRule α) (room : Nat) :
    Settles (rule.work room) (rule.work room) := by
  have hnegated : ∀ r, Settles (MonadCursor.negated r) (MonadCursor.negated r) :=
    fun r => (settles_negated_disjunction r).1
  have hdisjunction : ∀ r, Settles (MonadCursor.disjunction r) (MonadCursor.disjunction r) :=
    fun r => (settles_negated_disjunction r).2
  have hprimary : Settles (MonadCursor.primary room) (MonadCursor.primary room) :=
    settles_primary fun r _ => hdisjunction r
  cases rule with
  | disjunction => exact hdisjunction room
  | conjunction => exact settles_conjunction fun r _ => hnegated r
  | negated => exact hnegated room
  | compared => exact settles_compared fun r _ => hdisjunction r
  | suffix left => exact settles_suffix hprimary left
  | amongOrLike left isNegated => exact accounted_amongOrLike left isNegated
  | group => exact settles_group fun r _ => hdisjunction r
  | primary => exact hprimary
  | constant => exact accounted_constant

/-- A rule that succeeds has passed a token at least, and has closed the levels that it opened. -/
theorem GrammarRule.balanced (rule : GrammarRule α) {room : Nat} {last : Cursor} {a : α}
    (h : (rule.work room : Parsing α).run.run cursor = (.ok a, last)) :
    cursor.position < last.position ∧ last.depth = cursor.depth := by
  have haccount := rule.settles room cursor
  rw [haccount.run_eq, Prod.mk.injEq] at h
  rw [← h.2]
  exact haccount.balanced a h.1

/-- What a parser does with a text, by what cutting makes of it: a fault is answered with the cursor
as it was, and tokens are read from the first on. -/
theorem Parser.run_parse (parser : Parser) (source : String) (log : List Event) :
    ((parse source).run.run parser).run log =
      match (parser.scanner.tokenize source).1 with
      | .error error =>
        ((.error (.lex error), { parser with scanner := (parser.scanner.tokenize source).2 }), log)
      | .ok stream =>
        let read := Parsing.whole.run.run (parser.cursor.load stream)
        ((read.1.mapError .parse, ⟨(parser.scanner.tokenize source).2, read.2⟩),
          log ++ [.tokenized stream.count]) := by
  have hscan : ((scan source).run.run parser).run log =
      (((parser.scanner.tokenize source).1.mapError .lex,
        { parser with scanner := (parser.scanner.tokenize source).2 }), log) := rfl
  rw [parse, run_bind_logged, hscan]
  cases (parser.scanner.tokenize source).1 with
  | error error => rfl
  | ok stream => rfl

/-- **A parser keeps its cursor in order, whatever it was left as and whatever the text.** A text
with a lexical fault moves no cursor. Any other is read by a cursor that begins before its first
token, and the parser answers and is left as the trail of that cursor says: at every step, up to the
end or to where the text is given up, the cursor is in the text and not before where it was, one
level too many is open at most, and no more levels are closed than are open. Each rule of the
grammar, from wherever it is begun, has passed a token where it succeeds, and as many levels are open
as before. -/
theorem Parser.inOrder_parse (parser : Parser) (source : String) (log : List Event) :
    (match (parser.scanner.tokenize source).1 with
    | .error error =>
      ((parse source).run.run parser).run log =
        ((.error (.lex error), { parser with scanner := (parser.scanner.tokenize source).2 }), log)
    | .ok stream =>
      let start := parser.cursor.load stream
      let trail := (MonadCursor.whole : Traced Expr) start
      ((parse source).run.run parser).run log =
          ((trail.answer.mapError .parse, ⟨(parser.scanner.tokenize source).2, trail.last⟩),
            log ++ [.tokenized stream.count]) ∧
        trail.InOrder start) ∧
      ∀ {α : Type} (rule : GrammarRule α) (room : Nat) (cursor : Cursor) (a : α) (last : Cursor),
        (rule.work room : Parsing α).run.run cursor = (.ok a, last) →
          cursor.position < last.position ∧ last.depth = cursor.depth := by
  refine ⟨?_, fun rule room cursor a last h => rule.balanced h⟩
  have hrun := parser.run_parse source log
  cases hstream : (parser.scanner.tokenize source).1 with
  | error error =>
    rw [hstream] at hrun
    exact hrun
  | ok stream =>
    have haccount := accounted_whole (parser.cursor.load stream)
    rw [hstream] at hrun
    dsimp only at hrun ⊢
    rw [haccount.run_eq] at hrun
    exact ⟨hrun, haccount.inOrder (Nat.zero_le _) (Nat.zero_le _)⟩

/-- The tokens of `(a = 1) AND (b = 2)`. -/
def TokenStream.twoGroups : TokenStream where
  tokens := [⟨.leftParen, 0⟩, ⟨.identifier "a", 1⟩, ⟨.sign .equal, 3⟩, ⟨.int 1, 5⟩,
    ⟨.rightParen, 6⟩, ⟨.keyword .and, 8⟩, ⟨.leftParen, 12⟩, ⟨.identifier "b", 13⟩,
    ⟨.sign .equal, 15⟩, ⟨.int 2, 17⟩, ⟨.rightParen, 18⟩]
  stop := 19

/-- With one level the text is given up at its second parenthesis. The level of the first one is
closed before `AND` opens one, and the rule for parentheses goes behind them with no level open.
This is the order in which a fair cursor has to move. -/
theorem Parser.inOrder_parse_twoGroups :
    let start := (new 1).cursor.load .twoGroups
    let trail := (MonadCursor.whole : Traced Expr) start
    ((new 1).scanner.tokenize "(a = 1) AND (b = 2)").1 = .ok .twoGroups ∧
      (trail.steps.map fun step => (step.before.position, step.before.depth, step.move)) =
        [(0, 0, .advance), (1, 0, .deepen), (1, 1, .advance), (2, 1, .advance), (3, 1, .advance),
          (4, 1, .leave 0), (4, 1, .leave 0), (4, 1, .advance), (5, 1, .leave 1), (5, 0, .advance),
          (6, 0, .deepen), (6, 1, .advance), (7, 1, .deepen)] ∧
      trail.InOrder start ∧
      (GrammarRule.group.work 1 : Parsing Expr).run.run start =
        (.ok (.comparison .equal (.field "a") (.literal (.int 1))), start.moved 5 0) ∧
      start.position < (start.moved 5 0).position ∧ (start.moved 5 0).depth = start.depth := by
  intro start trail
  have hstream : ((new 1).scanner.tokenize "(a = 1) AND (b = 2)").1 = .ok .twoGroups := by cbv
  have hgroup : (GrammarRule.group.work 1 : Parsing Expr).run.run
      ((new 1).cursor.load .twoGroups) =
        (.ok (.comparison .equal (.field "a") (.literal (.int 1))), start.moved 5 0) := by cbv
  obtain ⟨htrail, hrules⟩ := inOrder_parse (new 1) "(a = 1) AND (b = 2)" []
  rw [hstream] at htrail
  exact ⟨hstream, by cbv, htrail.2, hgroup, hrules _ _ _ _ _ hgroup⟩

end WhereRules
