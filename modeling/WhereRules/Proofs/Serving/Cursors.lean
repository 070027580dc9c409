import WhereRules.Proofs.Grammar.Readers
import WhereRules.Proofs.Grammar.Soundness
import WhereRules.Proofs.Serving.Following

/-!
# Cursors follow readers

Each rule of the grammar is read in two ways, by a reader that answers the tokens left and by work on
a cursor. From any cursor on the work follows the reader and leaves as many levels open as there were
(`Parsing.Tracks`). The room of the reader is how many levels the cursor can still open, so that both
refuse at the same token. As the rules call each other in a circle, all are shown for one room with
those for smaller rooms at hand.
-/

namespace WhereRules.Parsing

open Cursor MonadCursor

variable {α : Type} {cursor : Cursor} {t : Placed} {ts : List Placed}

/-! ## Rules without nesting -/

/-- Where a pattern is wanted, the cursor takes a string or says what is there instead. -/
theorem follows_expectString (cursor : Cursor) :
    Follows expectString cursor cursor.depth (Expr.wildcardText cursor.rest) := by
  refine Follows.look ?_
  rw [current?_eq]
  cases hrest : cursor.rest with
  | nil => exact follows_unexpected_of_rest .string hrest
  | cons t ts =>
    obtain ⟨t, p⟩ := t
    cases t with
    | string s =>
      refine (takes_advance hrest).follows ?_
      exact follows_pure_of_rest s (rest_passed hrest)
    | _ => exact follows_unexpected_of_rest .string hrest

/-- A literal is one token, which the cursor passes. At any other token the text is given up, and
the error names that token. -/
theorem follows_constant (cursor : Cursor) :
    Follows constant cursor cursor.depth (Expr.constant cursor.rest) := by
  refine Follows.look ?_
  rw [current?_eq]
  cases hrest : cursor.rest with
  | nil => exact follows_unexpected_of_rest .literal hrest
  | cons t ts =>
    have hliteral : ((t :: ts).head?.map Placed.token).bind Token.literal? = t.token.literal? := rfl
    rw [Expr.constant, hliteral]
    cases t.token.literal? with
    | none => exact follows_unexpected_of_rest .literal hrest
    | some value =>
      refine (takes_advance hrest).follows ?_
      exact follows_pure_of_rest value (rest_passed hrest)

/-- Behind `IS` the cursor takes a `NOT` if there is one, and then `NULL`. -/
theorem follows_nullTest (cursor : Cursor) :
    Follows nullTest cursor cursor.depth (Expr.nullTest cursor.rest) := by
  refine Follows.look ?_
  rw [isAt_keyword]
  by_cases hnot : Expr.startsWord .not cursor.rest = true
  · rw [if_pos hnot]
    obtain ⟨p, us, hrest⟩ := Expr.startsWord_eq_true hnot
    rw [hrest]
    refine (takes_advance hrest).follows ?_
    have hnull := follows_expectKeyword .null cursor.passed
    rw [rest_passed hrest] at hnull
    exact hnull.map fun _ => true
  · rw [if_neg hnot, Expr.nullTest_of_startsWord (Bool.eq_false_iff.mpr hnot)]
    exact (follows_expectKeyword .null cursor).bind fun _ _ _ => follows_pure _ _

/-- A list of literals ends before the tokens do. So a bound of as many turns as tokens are left is
never reached, and the work goes as far as the reader. -/
theorem follows_furtherConstants {n : Nat} (cursor : Cursor) (hn : cursor.rest.length ≤ n) :
    Follows (furtherConstants n) cursor cursor.depth (Expr.furtherConstants cursor.rest) := by
  -- A comma and a literal are two tokens, so the count of those ahead goes down in each turn.
  induction n generalizing cursor with
  | zero =>
    have hrest : cursor.rest = [] := List.eq_nil_of_length_eq_zero (Nat.le_zero.mp hn)
    rw [hrest]
    exact follows_pure_of_rest [] hrest
  | succ n ih =>
    refine Follows.look ?_
    by_cases hat : cursor.isAt .comma = true
    · obtain ⟨p, us, hrest⟩ := exists_rest_of_isAt hat
      rw [if_pos hat, hrest, Expr.furtherConstants_comma]
      refine (takes_advance hrest).follows ?_
      have hconstant := follows_constant cursor.passed
      rw [rest_passed hrest] at hconstant
      refine hconstant.bind fun value position hvalue => ?_
      obtain ⟨t, q, hus, -⟩ := Expr.constant_eq_ok hvalue
      have hfewer : (cursor.passed.moved position cursor.passed.depth).rest.length ≤ n := by
        rw [hrest, hus, List.length_cons, List.length_cons] at hn
        omega
      exact (ih _ hfewer).bind fun values position _ => follows_pure _ _
    · have hnot : ∀ p us, cursor.rest ≠ ⟨.comma, p⟩ :: us := by
        intro p us hrest
        exact hat (isAt_of_rest hrest)
      rw [if_neg hat, Expr.furtherConstants_of_ne_comma hnot]
      exact follows_pure [] cursor

/-- No more tokens are ahead than there are in the text, which bounds the turns of a loop over
them. -/
theorem length_rest_le (cursor : Cursor) : cursor.rest.length ≤ cursor.tokens.size := by
  rw [Cursor.rest, List.length_drop, Array.length_toList]
  exact Nat.sub_le _ _

/-- A list in parentheses is read as one. All its tokens are in the text, so there are turns
enough. -/
theorem follows_constants (cursor : Cursor) :
    Follows constants cursor cursor.depth (Expr.constants cursor.rest) := by
  refine (follows_leftParen cursor).bind fun _ _ _ => ?_
  refine (follows_constant _).bind fun first _ _ => ?_
  refine Follows.look ?_
  refine (follows_furtherConstants _ (length_rest_le _)).bind fun others _ _ => ?_
  exact (follows_rightParen _).bind fun _ _ _ => follows_pure _ _

/-- Before `IN` the work that is shared by `IN` and `LIKE` follows the reader of a list. -/
theorem follows_among (left : Expr) (negated : Bool) {p : Nat}
    (h : cursor.rest = ⟨.keyword .among, p⟩ :: ts) :
    Follows (amongOrLike left negated) cursor cursor.depth (do
      let (values, ts) ← Expr.constants ts
      .ok (.member left values negated, ts)) := by
  refine Follows.look ?_
  have hlike : ¬cursor.isAt (.keyword .like) = true := by
    rw [isAt_keyword, h]
    exact Bool.false_ne_true
  rw [if_neg hlike]
  refine (takes_expect h _).follows ?_
  have hvalues := follows_constants cursor.passed
  rw [rest_passed h] at hvalues
  exact hvalues.bind fun values _ _ => follows_pure _ _

/-- Before `LIKE` the work that is shared by `IN` and `LIKE` follows the reader of a pattern. -/
theorem follows_like (left : Expr) (negated : Bool) {p : Nat}
    (h : cursor.rest = ⟨.keyword .like, p⟩ :: ts) :
    Follows (amongOrLike left negated) cursor cursor.depth (do
      let (text, ts) ← Expr.wildcardText ts
      .ok (.like left text negated, ts)) := by
  refine Follows.look ?_
  rw [if_pos (isAt_of_rest h)]
  refine (takes_advance h).follows ?_
  have htext := follows_expectString cursor.passed
  rw [rest_passed h] at htext
  exact htext.bind fun text position _ => follows_pure _ _

/-! ## Rules that nest -/

/-- From every cursor that has this room, work follows a reader and opens no level for good. -/
def Tracks (room : Nat) (work : Parsing α) (reader : Expr.Reader α) : Prop :=
  ∀ cursor : Cursor, cursor.depth + room = cursor.maxDepth →
    Follows work cursor cursor.depth (reader cursor.rest)

variable {room : Nat}

/-- Where there is no parenthesis, a group is refused for that, however much room there is. -/
theorem group_of_not_startsGroup {ts : List Placed} (h : Expr.startsGroup ts = false) :
    Expr.group room ts = Expr.wanted (.token .leftParen) ts := by
  rw [Expr.group.eq_def]
  split
  · cases h
  · rfl

/-- Where there is no parenthesis, the reader of one asks for it. -/
theorem leftParen_of_not_startsGroup {ts : List Placed} (h : Expr.startsGroup ts = false) :
    Expr.leftParen ts = Expr.wanted (.token .leftParen) ts := by
  unfold Expr.leftParen
  split
  · cases h
  · rfl

/-- A group opens a level for what is inside and closes it behind. At the limit both sides refuse at
the parenthesis itself. -/
theorem group_tracks (ih : ∀ r < room, Tracks r (disjunction r) (Expr.disjunction r)) :
    Tracks room (group room) (Expr.group room) := by
  intro cursor hroom
  rw [group]
  refine Follows.look ?_
  by_cases hat : cursor.isAt .leftParen = true
  · obtain ⟨p, ts, hrest⟩ := exists_rest_of_isAt hat
    have htakes : Takes (expectToken .leftParen) cursor := takes_expect hrest _
    rw [hrest, place_of_rest hrest]
    cases room with
    | zero =>
      rw [Expr.group]
      exact htakes.follows_full (Nat.le_of_eq hroom.symm)
    | succ room =>
      rw [Expr.group]
      refine htakes.follows_enter (by omega) ?_
      have hinner := ih room (Nat.lt_succ_self room) (opened cursor) (room_opened hroom)
      rw [rest_opened hrest] at hinner
      refine hinner.bind fun inner _ _ => ?_
      refine (follows_rightParen _).bind fun _ _ _ => ?_
      exact Follows.leave (follows_pure _ _)
  · rw [isAt_leftParen, Bool.not_eq_true] at hat
    have hparen := follows_leftParen cursor
    rw [leftParen_of_not_startsGroup hat] at hparen
    rw [group_of_not_startsGroup hat]
    exact hparen.stuck _

/-- An operand is a group, or a single token. Which it is both sides see from the first token, and
they complain of any other at the same place. -/
theorem primary_tracks (ih : ∀ r < room, Tracks r (disjunction r) (Expr.disjunction r)) :
    Tracks room (primary room) (Expr.primary room) := by
  intro cursor hroom
  rw [primary]
  refine Follows.look ?_
  have hgroup := group_tracks ih cursor hroom
  rw [current?_eq]
  cases hrest : cursor.rest with
  | nil =>
    rw [Expr.primary]
    exact follows_unexpected_of_rest .expression hrest
  | cons t ts =>
    rw [hrest] at hgroup
    obtain ⟨t, p⟩ := t
    have hunexpected : Follows (unexpected .expression : Parsing Expr) cursor cursor.depth
        (Expr.wanted .expression (⟨t, p⟩ :: ts)) := follows_unexpected_of_rest .expression hrest
    have hconstant := (follows_constant cursor).map Expr.literal
    rw [hrest, Expr.constant] at hconstant
    rw [Expr.primary.eq_def]
    cases t with
    | identifier path =>
      refine (takes_advance hrest).follows ?_
      exact follows_pure_of_rest _ (rest_passed hrest)
    | leftParen => exact hgroup
    | keyword k =>
      cases k with
      | null | yes | no => exact hconstant
      | _ => exact hunexpected
    | sign s => exact hunexpected
    | rightParen | comma => exact hunexpected
    | int n => exact hconstant
    | number x => exact hconstant
    | string s => exact hconstant

/-- A `NOT` is the beginning of an operator part only before `IN` and `LIKE`. The cursor looks two
tokens ahead for that, where the reader has the list. -/
theorem follows_suffix_not (left : Expr) {p : Nat}
    (h : cursor.rest = ⟨.keyword .not, p⟩ :: ts) :
    Follows (if cursor.isBeforeNegatable then (do
        advance
        amongOrLike left true) else unexpected .sign)
      cursor cursor.depth (Expr.suffix room left (⟨.keyword .not, p⟩ :: ts)) := by
  rw [isBeforeNegatable_eq, h, List.tail_cons]
  by_cases hnegatable : Expr.startsNegatable ts = true
  · rw [if_pos hnegatable]
    refine (takes_advance h).follows ?_
    have hpassed := rest_passed h
    rw [Expr.startsNegatable_eq, Bool.or_eq_true] at hnegatable
    rcases hnegatable with hamong | hlike
    · obtain ⟨q, us, rfl⟩ := Expr.startsWord_eq_true hamong
      rw [Expr.suffix]
      exact follows_among left true hpassed
    · obtain ⟨q, us, rfl⟩ := Expr.startsWord_eq_true hlike
      rw [Expr.suffix]
      exact follows_like left true hpassed
  · have hstarts : Expr.startsSuffix (⟨.keyword .not, p⟩ :: ts) = false :=
      Bool.eq_false_iff.mpr hnegatable
    rw [if_neg hnegatable, Expr.suffix_of_not_startsSuffix _ _ _ hstarts]
    exact follows_unexpected_of_rest .sign h

/-- An operator part is followed by the token it begins with. It opens no level of its own, so all
that it needs are its operands. -/
theorem suffix_tracks (hprimary : Tracks room (primary room) (Expr.primary room)) (left : Expr) :
    Tracks room (suffix room left) (Expr.suffix room left) := by
  intro cursor hroom
  rw [suffix]
  refine Follows.look ?_
  rw [current?_eq]
  cases hrest : cursor.rest with
  | nil =>
    rw [Expr.suffix.eq_def]
    exact follows_unexpected_of_rest .sign hrest
  | cons t ts =>
    obtain ⟨t, p⟩ := t
    have hunexpected : Follows (unexpected .sign : Parsing Expr) cursor cursor.depth
        (Expr.wanted .sign (⟨t, p⟩ :: ts)) := follows_unexpected_of_rest .sign hrest
    cases t with
    | sign s =>
      rw [Expr.suffix]
      refine (takes_advance hrest).follows ?_
      have hright := hprimary cursor.passed hroom
      rw [rest_passed hrest] at hright
      exact hright.bind fun right _ _ => follows_pure _ _
    | keyword k =>
      cases k with
      | is =>
        rw [Expr.suffix]
        refine (takes_advance hrest).follows ?_
        have hnull := follows_nullTest cursor.passed
        rw [rest_passed hrest] at hnull
        exact hnull.bind fun negated _ _ => follows_pure _ _
      | between =>
        rw [Expr.suffix]
        refine (takes_advance hrest).follows ?_
        have hlow := hprimary cursor.passed hroom
        rw [rest_passed hrest] at hlow
        refine hlow.bind fun low _ _ => ?_
        refine (follows_expectKeyword .and _).bind fun _ _ _ => ?_
        refine (hprimary _ ?_).bind fun high _ _ => follows_pure _ _
        exact hroom
      | among =>
        rw [Expr.suffix]
        exact follows_among left false hrest
      | like =>
        rw [Expr.suffix]
        exact follows_like left false hrest
      | not =>
        exact follows_suffix_not left hrest
      | _ =>
        rw [Expr.suffix.eq_def]
        exact hunexpected
    | _ =>
      rw [Expr.suffix.eq_def]
      exact hunexpected

/-- A comparison is a group with or without an operator part, or an operand with one. Behind a group
both look whether an operator comes. -/
theorem compared_tracks (ih : ∀ r < room, Tracks r (disjunction r) (Expr.disjunction r)) :
    Tracks room (compared room) (Expr.compared room) := by
  intro cursor hroom
  rw [compared, Expr.compared]
  refine Follows.look ?_
  rw [isAt_leftParen]
  by_cases hgroup : Expr.startsGroup cursor.rest = true
  · rw [if_pos hgroup, if_pos hgroup]
    refine (group_tracks ih cursor hroom).bind fun inner _ _ => ?_
    refine Follows.look ?_
    rw [isAtSuffix_eq]
    dsimp only
    split
    · refine suffix_tracks (primary_tracks ih) inner _ ?_
      exact hroom
    · exact follows_pure _ _
  · rw [if_neg hgroup, if_neg hgroup]
    refine (primary_tracks ih cursor hroom).bind fun left _ _ => ?_
    refine suffix_tracks (primary_tracks ih) left _ ?_
    exact hroom

/-- A negation opens a level for each `NOT`. What it negates is read in the smaller room, so this
and the groups are shown together. -/
theorem negated_tracks (ih : ∀ r < room, Tracks r (disjunction r) (Expr.disjunction r))
    (ihnot : ∀ r < room, Tracks r (negated r) (Expr.negated r)) :
    Tracks room (negated room) (Expr.negated room) := by
  intro cursor hroom
  rw [negated, Expr.negated.eq_def]
  refine Follows.look ?_
  rw [isAt_keyword, isBeforeNegatable_eq, ← Expr.startsNegation_eq]
  by_cases hnot : Expr.startsNegation cursor.rest = true
  · rw [if_pos hnot, if_pos hnot]
    obtain ⟨p, ts, hrest⟩ := Expr.startsNegation_eq_true hnot
    have htakes : Takes advance cursor := takes_advance hrest
    rw [hrest, place_of_rest hrest]
    cases room with
    | zero => exact htakes.follows_full (Nat.le_of_eq hroom.symm)
    | succ room =>
      refine htakes.follows_enter (by omega) ?_
      have hoperand := ihnot room (Nat.lt_succ_self room) (opened cursor) (room_opened hroom)
      rw [rest_opened hrest] at hoperand
      refine hoperand.bind fun operand _ _ => ?_
      exact Follows.leave (follows_pure _ _)
  · rw [if_neg hnot, if_neg hnot]
    exact compared_tracks ih cursor hroom

/-! ## Chains -/

section Chains

variable {m : Type → Type} [Monad m] [MonadCursor m]

/-- How work goes through a chain: each operand after the first opens a level, and all these levels
are closed together at the end. -/
structure WorksChain (k : Keyword) (join : Expr → Expr → Expr)
    (operandWork wholeWork : Nat → m Expr) (furtherWork : Nat → Nat → Expr → m Expr) : Prop where
  start : ∀ room, wholeWork room = do
    let first ← operandWork room
    furtherWork room 0 first
  full : ∀ folds left, furtherWork 0 folds left = do
    let cursor ← look
    if cursor.isAt (.keyword k) then
      advance
      enter cursor.place
      tooDeep cursor.place
    else
      leave folds
      return left
  step : ∀ room folds left, furtherWork (room + 1) folds left = do
    let cursor ← look
    if cursor.isAt (.keyword k) then
      advance
      enter cursor.place
      let right ← operandWork room
      furtherWork room (folds + 1) (join left right)
    else
      leave folds
      return left

/-- A disjunction goes through its chain as `WorksChain` says. -/
theorem worksChain_disjunction :
    WorksChain (m := m) .or Expr.either conjunction disjunction disjunctionRest where
  start room := by rw [disjunction]
  full folds left := by rw [disjunctionRest]
  step room folds left := by rw [disjunctionRest]

/-- A conjunction goes through its chain as `WorksChain` says, with operands that may be
negations. -/
theorem worksChain_conjunction :
    WorksChain (m := m) .and Expr.both negated conjunction conjunctionRest where
  start room := by rw [conjunction]
  full folds left := by rw [conjunctionRest]
  step room folds left := by rw [conjunctionRest]

variable {k : Keyword} {join : Expr → Expr → Expr}
  {operand whole : Nat → List Placed → Except Expr.Stuck (Expr × List Placed)}
  {further : Nat → Expr → List Placed → Except Expr.Stuck (Expr × List Placed)}
  {operandWork wholeWork : Nat → Parsing Expr} {furtherWork : Nat → Nat → Expr → Parsing Expr}

/-- Behind the operands so far a chain goes on as it is read, and closes the levels of its folds.
The induction is on the room, of which each further operand takes one level. -/
theorem WorksChain.follows_further (works : WorksChain k join operandWork wholeWork furtherWork)
    (reads : Expr.ReadsChain k join operand whole further)
    (hoperand : ∀ r < room, Tracks r (operandWork r) (operand r)) (folds : Nat) (left : Expr)
    (cursor : Cursor) (hroom : cursor.depth + room = cursor.maxDepth) :
    Follows (furtherWork room folds left) cursor (cursor.depth - folds)
      (further room left cursor.rest) := by
  -- Each fold takes a level of the room and opens one, which stays open until the chain ends: the
  -- levels without those of the folds are the same all the way.
  induction room generalizing folds left cursor with
  | zero =>
    rw [works.full]
    refine Follows.look ?_
    by_cases hword : Expr.startsWord k cursor.rest = true
    · obtain ⟨p, us, hrest⟩ := Expr.startsWord_eq_true hword
      rw [isAt_keyword, if_pos hword, hrest, reads.full, place_of_rest hrest]
      exact (takes_advance hrest).follows_full (Nat.le_of_eq hroom.symm)
    · rw [isAt_keyword, if_neg hword, reads.stop _ _ _ (Bool.eq_false_iff.mpr hword)]
      exact Follows.leave (follows_pure _ _)
  | succ room ih =>
    rw [works.step]
    refine Follows.look ?_
    by_cases hword : Expr.startsWord k cursor.rest = true
    · obtain ⟨p, us, hrest⟩ := Expr.startsWord_eq_true hword
      rw [isAt_keyword, if_pos hword, hrest, reads.step]
      refine (takes_advance hrest).follows_enter (by omega) ?_
      have hright := hoperand room (Nat.lt_succ_self room) (opened cursor) (room_opened hroom)
      rw [rest_opened hrest] at hright
      refine hright.bind fun right position _ => ?_
      have hfurther := ih (fun r hr => hoperand r (Nat.lt_succ_of_lt hr)) (folds + 1)
        (join left right) ((opened cursor).moved position (opened cursor).depth)
        (room_opened hroom)
      have hlevels : (opened cursor).depth - (folds + 1) = cursor.depth - folds :=
        Nat.add_sub_add_right _ 1 _
      exact hlevels ▸ hfurther
    · rw [isAt_keyword, if_neg hword, reads.stop _ _ _ (Bool.eq_false_iff.mpr hword)]
      exact Follows.leave (follows_pure _ _)

/-- A chain leaves as many levels open as there were, if its operands do. -/
theorem WorksChain.tracks (works : WorksChain k join operandWork wholeWork furtherWork)
    (reads : Expr.ReadsChain k join operand whole further)
    (hoperand : ∀ r ≤ room, Tracks r (operandWork r) (operand r)) :
    Tracks room (wholeWork room) (whole room) := by
  intro cursor hroom
  rw [works.start, reads.start]
  refine (hoperand room (Nat.le_refl room) cursor hroom).bind fun first position _ => ?_
  exact works.follows_further reads (fun r hr => hoperand r (Nat.le_of_lt hr)) 0 first
    (cursor.moved position cursor.depth) hroom

end Chains

/-! ## Whole texts -/

/-- **In every room the work of the grammar follows its readers.** Groups go back to disjunctions in
a smaller room, and negations to negations, so the induction is on the room for both at once. -/
theorem negated_disjunction_tracks (room : Nat) :
    Tracks room (negated room) (Expr.negated room) ∧
      Tracks room (disjunction room) (Expr.disjunction room) := by
  -- Only parentheses and `NOT` come back to these two rules, and what they enclose has less room.
  induction room using Nat.strongRecOn with
  | ind room ih =>
    have hnegated : ∀ r ≤ room, Tracks r (negated r) (Expr.negated r) := by
      intro r hr
      exact negated_tracks (fun q hq => (ih q (Nat.lt_of_lt_of_le hq hr)).2)
        (fun q hq => (ih q (Nat.lt_of_lt_of_le hq hr)).1)
    have hconjunction : ∀ r ≤ room, Tracks r (conjunction r) (Expr.conjunction r) := by
      intro r hr
      exact worksChain_conjunction.tracks Expr.readsChain_conjunction
        fun q hq => hnegated q (Nat.le_trans hq hr)
    exact ⟨hnegated room (Nat.le_refl room),
      worksChain_disjunction.tracks Expr.readsChain_disjunction hconjunction⟩

/-- A cursor that is given a text has all its tokens ahead, whatever it had before. -/
theorem rest_load (cursor : Cursor) (stream : TokenStream) :
    (cursor.load stream).rest = stream.tokens := by
  show stream.tokens.toArray.toList.drop 0 = stream.tokens
  rw [List.drop_zero, List.toList_toArray]

theorem run_look_bind (f : Cursor → Parsing α) (cursor : Cursor) :
    (look >>= f).run.run cursor = (f cursor).run.run cursor := rfl

theorem run_finish_nil (h : cursor.rest = []) : (finish : Parsing Unit).run.run cursor = (.ok (), cursor) := by
  rw [finish, run_look_bind, current?_eq, h]
  rfl

theorem run_finish_cons (h : cursor.rest = t :: ts) :
    (finish : Parsing Unit).run.run cursor = (.error (.trailing t.token t.position), cursor) := by
  rw [finish, run_look_bind, current?_eq, h, place_of_rest h]
  rfl

/-- **A cursor before a text finds the expression of the text, or the same error**, and its limit is
what it was. -/
theorem run_whole (cursor : Cursor) (stream : TokenStream) :
    ∃ position left, Parsing.whole.run.run (cursor.load stream) =
      (Expr.ofTokens cursor.maxDepth stream, (cursor.load stream).moved position left) := by
  have hrun : Parsing.whole.run.run (cursor.load stream) =
      (disjunction cursor.maxDepth >>= fun e => finish >>= fun _ => pure e : Parsing Expr).run.run
        (cursor.load stream) := rfl
  have hdisjunction := (negated_disjunction_tracks cursor.maxDepth).2 (cursor.load stream)
    (Nat.zero_add _)
  rw [rest_load] at hdisjunction
  rw [hrun, run_run_bind, Expr.ofTokens]
  cases hanswer : Expr.disjunction cursor.maxDepth stream.tokens with
  | error stuck =>
    rw [hanswer] at hdisjunction
    obtain ⟨position, left, hstuck⟩ := hdisjunction
    rw [hstuck]
    exact ⟨position, left, rfl⟩
  | ok read =>
    obtain ⟨e, rest⟩ := read
    rw [hanswer] at hdisjunction
    obtain ⟨position, hread, hrest⟩ := hdisjunction
    refine ⟨position, (cursor.load stream).depth, ?_⟩
    rw [hread]
    dsimp only
    rw [run_run_bind]
    cases rest with
    | nil =>
      rw [run_finish_nil hrest]
      rfl
    | cons t ts => rw [run_finish_cons hrest]

end WhereRules.Parsing
