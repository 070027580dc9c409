import WhereRules.Expr.Cursor
import WhereRules.Proofs.Success
import WhereRules.Proofs.Grammar.Phrases

/-!
# Work that follows a reader

A cursor means the tokens ahead of it (`Cursor.rest`), whatever was done with it before. Work on a
cursor follows a reader when it does what the reader answers for these tokens (`Parsing.Follows`):
where the reader succeeds, the cursor goes to the tokens left; where it is stuck, the work throws its
error and gives the cursor up. Following is closed under one step after another (`Follows.bind`), and
the steps that all rules are made of follow the readers of one token.
-/

namespace WhereRules

/-! ## What is ahead -/

namespace Expr

/-- Tokens of which none begins with a word do not start with it. -/
theorem startsWord_eq_false {k : Keyword} {ts : List Placed}
    (h : ∀ p us, ts ≠ ⟨.keyword k, p⟩ :: us) : startsWord k ts = false := by
  rw [← Bool.not_eq_true]
  intro hstarts
  obtain ⟨p, us, hts⟩ := startsWord_eq_true hstarts
  exact h p us hts

/-- Whether tokens start with a word can be seen from the first of them, as a cursor does. -/
theorem startsWord_eq (k : Keyword) (ts : List Placed) :
    startsWord k ts = (ts.head?.map Placed.token == some (.keyword k)) := by
  rw [Bool.eq_iff_iff, beq_iff_eq]
  constructor
  · intro h
    obtain ⟨p, us, rfl⟩ := startsWord_eq_true h
    rfl
  · intro h
    obtain ⟨t, ht, htoken⟩ := Option.map_eq_some_iff.mp h
    obtain ⟨us, rfl⟩ := List.head?_eq_some_iff.mp ht
    obtain ⟨token, p⟩ := t
    subst htoken
    exact decide_eq_true rfl

/-- What may stand behind `NOT` in an operator part is `IN` or `LIKE`. -/
theorem startsNegatable_eq (ts : List Placed) :
    startsNegatable ts = (startsWord .among ts || startsWord .like ts) := by
  unfold startsNegatable
  split
  · rfl
  · rfl
  · next hamong hlike => rw [startsWord_eq_false hamong, startsWord_eq_false hlike, Bool.or_false]

/-- A `NOT` is a negation unless `IN` or `LIKE` comes next. -/
theorem startsNegation_eq (ts : List Placed) :
    startsNegation ts = (startsWord .not ts && !startsNegatable ts.tail) := by
  unfold startsNegation
  split
  · rfl
  · next hnot => rw [startsWord_eq_false hnot, Bool.false_and]

end Expr

namespace Cursor

/-- The tokens ahead. -/
def rest (cursor : Cursor) : List Placed := cursor.tokens.toList.drop cursor.position

/-- The cursor at another place of its text, with other levels open. -/
def moved (cursor : Cursor) (position depth : Nat) : Cursor := { cursor with position, depth }

/-- The cursor one token later. -/
def passed (cursor : Cursor) : Cursor := cursor.moved (cursor.position + 1) cursor.depth

variable {cursor : Cursor} {t : Placed} {ts : List Placed}

theorem getElem?_tokens (cursor : Cursor) (n : Nat) :
    cursor.tokens[cursor.position + n]? = cursor.rest[n]? := by
  rw [rest, List.getElem?_drop, Array.getElem?_toList]

theorem current?_eq (cursor : Cursor) : cursor.current? = cursor.rest.head?.map Placed.token := by
  rw [current?, List.head?_eq_getElem?, ← getElem?_tokens, Nat.add_zero]

theorem next?_eq (cursor : Cursor) : cursor.next? = cursor.rest.tail.head?.map Placed.token := by
  rw [next?, List.head?_eq_getElem?, List.getElem?_tail, ← getElem?_tokens]

/-- A cursor reports the place of the first token ahead, or the end of the text if there is none. -/
theorem place_eq (cursor : Cursor) :
    cursor.place = (cursor.rest.head?.map Placed.position).getD cursor.stop := by
  rw [place, List.head?_eq_getElem?, ← getElem?_tokens, Nat.add_zero]

/-- The place of a cursor that has a token ahead is the place of that token. -/
theorem place_of_rest (h : cursor.rest = t :: ts) : cursor.place = t.position := by
  rw [place_eq, h]
  rfl

/-- One token later, the first of those ahead is gone. -/
theorem rest_passed (h : cursor.rest = t :: ts) : cursor.passed.rest = ts := by
  show cursor.tokens.toList.drop (cursor.position + 1) = ts
  rw [← List.tail_drop]
  show cursor.rest.tail = ts
  rw [h, List.tail_cons]

theorem isAt_of_rest {token : Token} {p : Nat} (h : cursor.rest = ⟨token, p⟩ :: ts) :
    cursor.isAt token = true := by
  rw [isAt, current?_eq, h]
  exact beq_iff_eq.mpr rfl

theorem exists_rest_of_isAt {token : Token} (h : cursor.isAt token = true) :
    ∃ p us, cursor.rest = ⟨token, p⟩ :: us := by
  rw [isAt, current?_eq, beq_iff_eq] at h
  obtain ⟨t, ht, rfl⟩ := Option.map_eq_some_iff.mp h
  obtain ⟨us, hus⟩ := List.head?_eq_some_iff.mp ht
  exact ⟨t.position, us, hus⟩

theorem isAt_keyword (cursor : Cursor) (k : Keyword) :
    cursor.isAt (.keyword k) = Expr.startsWord k cursor.rest := by
  rw [isAt, current?_eq, Expr.startsWord_eq]

/-- A cursor is before `IN` or `LIKE` just when the tokens behind the first start with one of
them. -/
theorem isBeforeNegatable_eq (cursor : Cursor) :
    cursor.isBeforeNegatable = Expr.startsNegatable cursor.rest.tail := by
  rw [isBeforeNegatable, next?_eq, Expr.startsNegatable_eq, Expr.startsWord_eq, Expr.startsWord_eq]

theorem isAt_leftParen (cursor : Cursor) :
    cursor.isAt .leftParen = Expr.startsGroup cursor.rest := by
  rw [isAt, current?_eq]
  cases cursor.rest with
  | nil => rfl
  | cons t ts =>
    obtain ⟨t, p⟩ := t
    cases t <;> rfl

/-- A cursor is at an operator part just when the tokens ahead start one. Both tell a comparison
with a group from a group alone by this. -/
theorem isAtSuffix_eq (cursor : Cursor) : cursor.isAtSuffix = Expr.startsSuffix cursor.rest := by
  rw [isAtSuffix, current?_eq, isBeforeNegatable_eq]
  cases cursor.rest with
  | nil => rfl
  | cons t ts =>
    obtain ⟨t, p⟩ := t
    cases t with
    | keyword k => cases k <;> rfl
    | _ => rfl

end Cursor

namespace Parsing

open Cursor MonadCursor

variable {α β : Type} {cursor : Cursor} {t : Placed} {ts : List Placed} {depth last : Nat}

/-! ## Following a reader -/

/-- From a cursor on, work does what a reader answered for the tokens ahead, and leaves `depth`
levels open. -/
def Follows (work : Parsing α) (cursor : Cursor) (depth : Nat) :
    Except Expr.Stuck (α × List Placed) → Prop
  | .ok (a, rest) => ∃ position,
    work.run.run cursor = (.ok a, cursor.moved position depth) ∧
      (cursor.moved position depth).rest = rest
  | .error stuck => ∃ position left,
    work.run.run cursor =
      (.error (stuck.error cursor.maxDepth cursor.stop), cursor.moved position left)

/-- **Following is closed under one step after another.** The second step begins where the first has
brought the cursor, with the tokens that the first reader left. -/
theorem Follows.bind {work : Parsing α} {f : α → Parsing β}
    {answer : Except Expr.Stuck (α × List Placed)}
    {next : α × List Placed → Except Expr.Stuck (β × List Placed)}
    (hwork : Follows work cursor depth answer)
    (hf : ∀ a position, answer = .ok (a, (cursor.moved position depth).rest) →
      Follows (f a) (cursor.moved position depth) last
        (next (a, (cursor.moved position depth).rest))) :
    Follows (work >>= f) cursor last (answer >>= next) := by
  cases answer with
  | error stuck =>
    obtain ⟨position, left, hrun⟩ := hwork
    refine ⟨position, left, ?_⟩
    rw [run_run_bind, hrun]
  | ok read =>
    obtain ⟨a, rest⟩ := read
    obtain ⟨position, hrun, rfl⟩ := hwork
    have hnext := hf a position rfl
    show Follows (work >>= f) cursor last (next (a, (cursor.moved position depth).rest))
    cases hanswer : next (a, (cursor.moved position depth).rest) with
    | error stuck =>
      rw [hanswer] at hnext
      obtain ⟨position', left, hrun'⟩ := hnext
      refine ⟨position', left, ?_⟩
      rw [run_run_bind, hrun]
      exact hrun'
    | ok read =>
      rw [hanswer] at hnext
      obtain ⟨position', hrun', hrest⟩ := hnext
      refine ⟨position', ?_, hrest⟩
      rw [run_run_bind, hrun]
      exact hrun'

theorem follows_pure (a : α) (cursor : Cursor) :
    Follows (pure a) cursor cursor.depth (.ok (a, cursor.rest)) := ⟨cursor.position, rfl, rfl⟩

theorem follows_pure_of_rest (a : α) (h : cursor.rest = ts) :
    Follows (pure a) cursor cursor.depth (.ok (a, ts)) := h ▸ follows_pure a cursor

/-- Behind work that has given the text up nothing else is done, whatever levels are open then. -/
theorem Follows.stuck {work : Parsing α} {stuck : Expr.Stuck}
    (h : Follows work cursor depth (.error stuck)) (f : α → Parsing β) :
    Follows (work >>= f) cursor last (.error stuck) := by
  obtain ⟨position, left, hrun⟩ := h
  refine ⟨position, left, ?_⟩
  rw [run_run_bind, hrun]

/-- What is answered may be changed on both sides, as long as no token is read for it. -/
theorem Follows.map {work : Parsing α} {answer : Except Expr.Stuck (α × List Placed)}
    (h : Follows work cursor depth answer) (g : α → β) :
    Follows (work >>= fun a => pure (g a)) cursor depth
      (answer.map fun (a, ts) => (g a, ts)) := by
  cases answer with
  | error stuck =>
    obtain ⟨position, left, hrun⟩ := h
    refine ⟨position, left, ?_⟩
    rw [run_run_bind, hrun]
  | ok read =>
    obtain ⟨position, hrun, hrest⟩ := h
    refine ⟨position, ?_, hrest⟩
    rw [run_run_bind, hrun]
    rfl

/-- Work that does the same from a cursor of the same text follows the same reader. This is how
tokens that were taken, and levels, are put before a following. -/
theorem Follows.of_run_eq {work work' : Parsing α} {position left : Nat}
    {answer : Except Expr.Stuck (α × List Placed)}
    (h : Follows work' (cursor.moved position left) depth answer)
    (hrun : work.run.run cursor = work'.run.run (cursor.moved position left)) :
    Follows work cursor depth answer := by
  cases answer with
  | error stuck =>
    obtain ⟨position', left', hrun'⟩ := h
    exact ⟨position', left', hrun.trans hrun'⟩
  | ok read =>
    obtain ⟨position', hrun', hrest⟩ := h
    exact ⟨position', hrun.trans hrun', hrest⟩

/-- Work that looks at the cursor first follows a reader as what it does then. The readers look at
nothing but the tokens. -/
theorem Follows.look {f : Cursor → Parsing α} {answer : Except Expr.Stuck (α × List Placed)}
    (h : Follows (f cursor) cursor depth answer) : Follows (look >>= f) cursor depth answer := by
  have hsame : Follows (f cursor) (cursor.moved cursor.position cursor.depth) depth answer := h
  exact hsame.of_run_eq rfl

/-! ## Steps -/

/-- A step that does nothing but go to the next token. -/
def Takes (take : Parsing Unit) (cursor : Cursor) : Prop :=
  take.run.run cursor = (.ok (), cursor.passed)

/-- To advance is to take the token ahead. -/
theorem takes_advance (h : cursor.rest = t :: ts) : Takes advance cursor := by
  have hcurrent : cursor.current?.isSome = true := by
    rw [current?_eq, h]
    rfl
  show (Except.ok (), if cursor.current?.isSome then _ else _) = _
  rw [if_pos hcurrent]
  rfl

/-- To expect the token that is ahead is to take it. -/
theorem takes_expect {token : Token} {p : Nat} (h : cursor.rest = ⟨token, p⟩ :: ts)
    (expected : Expected) : Takes (expect expected token) cursor := by
  have hat : cursor.isAt token = true := isAt_of_rest h
  show (if cursor.isAt token then advance else unexpected expected : Parsing Unit).run.run cursor = _
  rw [if_pos hat]
  exact takes_advance h

/-- A token is taken before work that follows a reader of those behind it. -/
theorem Takes.follows {take : Parsing Unit} {f : Unit → Parsing α}
    {answer : Except Expr.Stuck (α × List Placed)} (htake : Takes take cursor)
    (h : Follows (f ()) cursor.passed depth answer) : Follows (take >>= f) cursor depth answer := by
  refine h.of_run_eq ?_
  rw [run_run_bind, htake]
  rfl

/-- Work and reader complain of the same token at the same place, or of the same end of the text. -/
theorem follows_unexpected (expected : Expected) (cursor : Cursor) (depth : Nat) :
    Follows (unexpected expected : Parsing α) cursor depth (Expr.wanted expected cursor.rest) := by
  refine Follows.look ?_
  rw [current?_eq, place_eq]
  cases cursor.rest with
  | nil => exact ⟨cursor.position, cursor.depth, rfl⟩
  | cons t ts => exact ⟨cursor.position, cursor.depth, rfl⟩

theorem follows_unexpected_of_rest (expected : Expected) (h : cursor.rest = ts) :
    Follows (unexpected expected : Parsing α) cursor depth (Expr.wanted expected ts) :=
  h ▸ follows_unexpected expected cursor depth

/-- A reader of one token that is known beforehand is followed by expecting that token. It is shown
once for words and for both parentheses. -/
theorem follows_expect {expected : Expected} {token : Token} {reader : Expr.Reader Unit}
    (htoken : ∀ p ts, reader (⟨token, p⟩ :: ts) = .ok ((), ts))
    (hother : ∀ ts, (∀ p us, ts ≠ ⟨token, p⟩ :: us) → reader ts = Expr.wanted expected ts)
    (cursor : Cursor) :
    Follows (expect expected token) cursor cursor.depth (reader cursor.rest) := by
  by_cases hat : cursor.isAt token = true
  · obtain ⟨p, us, hrest⟩ := exists_rest_of_isAt hat
    rw [hrest, htoken]
    exact ⟨cursor.position + 1, takes_expect hrest expected, rest_passed hrest⟩
  · have hnot : ∀ p us, cursor.rest ≠ ⟨token, p⟩ :: us := by
      intro p us hrest
      exact hat (isAt_of_rest hrest)
    refine Follows.look ?_
    rw [if_neg hat, hother _ hnot]
    exact follows_unexpected expected cursor cursor.depth

theorem follows_expectKeyword (k : Keyword) (cursor : Cursor) :
    Follows (expectKeyword k) cursor cursor.depth (Expr.keyword k cursor.rest) := by
  refine follows_expect (fun p ts => ?_) (fun ts hts => ?_) cursor
  · rw [Expr.keyword, if_pos rfl]
  · unfold Expr.keyword
    split
    · next j p us => rw [if_neg fun hj => hts p us (by rw [hj])]
    · rfl

theorem follows_leftParen (cursor : Cursor) :
    Follows (expectToken .leftParen) cursor cursor.depth (Expr.leftParen cursor.rest) := by
  refine follows_expect (fun p ts => rfl) (fun ts hts => ?_) cursor
  unfold Expr.leftParen
  split
  · next p us => exact absurd rfl (hts p us)
  · rfl

theorem follows_rightParen (cursor : Cursor) :
    Follows (expectToken .rightParen) cursor cursor.depth (Expr.rightParen cursor.rest) := by
  refine follows_expect (fun p ts => rfl) (fun ts hts => ?_) cursor
  unfold Expr.rightParen
  split
  · next p us => exact absurd rfl (hts p us)
  · rfl

/-! ## Levels -/

/-- The cursor one token later, with one more level open. -/
def opened (cursor : Cursor) : Cursor := cursor.moved (cursor.position + 1) (cursor.depth + 1)

/-- A level is opened first and then found to be one too many, so the cursor has it open even if the
text is given up for it. -/
theorem run_enter (place : Nat) (cursor : Cursor) :
    (enter place : Parsing Unit).run.run cursor =
      (if cursor.maxDepth < cursor.depth + 1 then .error (.tooDeep cursor.maxDepth place) else .ok (),
        cursor.after .deepen) := by
  show (if cursor.maxDepth < cursor.depth + 1 then tooDeep place else pure ()
    : Parsing Unit).run.run (cursor.after .deepen) = _
  split
  · rfl
  · rfl

/-- A level that is opened behind a token is opened from one token later on. -/
theorem Takes.run_enter_bind {take : Parsing Unit} {f : Unit → Parsing α} (htake : Takes take cursor)
    (place : Nat) :
    (take >>= fun _ => enter place >>= f).run.run cursor =
      (enter place >>= f : Parsing α).run.run cursor.passed := by
  rw [run_run_bind, htake]

/-- At the limit no level is opened: the text is given up, and the error names the token that asked
for the level. -/
theorem Takes.follows_full {take : Parsing Unit} {f : Unit → Parsing α} (htake : Takes take cursor)
    (hfull : cursor.maxDepth ≤ cursor.depth) :
    Follows (take >>= fun _ => enter t.position >>= f) cursor depth
      (.error ⟨.noRoom, t :: ts⟩) := by
  refine ⟨cursor.position + 1, cursor.depth + 1, ?_⟩
  have hdeep : cursor.passed.maxDepth < cursor.passed.depth + 1 := Nat.lt_succ_of_le hfull
  rw [htake.run_enter_bind, run_run_bind, run_enter, if_pos hdeep]
  rfl

/-- Below the limit a level is opened for a token. -/
theorem Takes.follows_enter {take : Parsing Unit} {f : Unit → Parsing α} {place : Nat}
    {answer : Except Expr.Stuck (α × List Placed)} (htake : Takes take cursor)
    (hroom : cursor.depth < cursor.maxDepth) (h : Follows (f ()) (opened cursor) depth answer) :
    Follows (take >>= fun _ => enter place >>= f) cursor depth answer := by
  refine h.of_run_eq ?_
  have hdeep : ¬cursor.passed.maxDepth < cursor.passed.depth + 1 := Nat.not_lt_of_le hroom
  rw [htake.run_enter_bind, run_run_bind, run_enter, if_neg hdeep]
  rfl

/-- To open a level takes one from the room that is left, and the limit stays what it is. -/
theorem room_opened {room : Nat} (h : cursor.depth + (room + 1) = cursor.maxDepth) :
    (opened cursor).depth + room = (opened cursor).maxDepth := by
  show cursor.depth + 1 + room = cursor.maxDepth
  omega

theorem rest_opened (h : cursor.rest = t :: ts) : (opened cursor).rest = ts := rest_passed h

/-- Levels are closed without reading, before what is done next. -/
theorem Follows.leave {n : Nat} {f : Unit → Parsing α}
    {answer : Except Expr.Stuck (α × List Placed)}
    (h : Follows (f ()) (cursor.moved cursor.position (cursor.depth - n)) depth answer) :
    Follows (leave n >>= f) cursor depth answer :=
  h.of_run_eq rfl

end Parsing

end WhereRules
