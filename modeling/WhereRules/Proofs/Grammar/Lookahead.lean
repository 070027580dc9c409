import WhereRules.Proofs.Success
import WhereRules.Proofs.Grammar.Readers

/-!
# How far a reader looks

A reader decides by the next token, and by the one behind it where the next is a `NOT` (`ahead`). So
what it answers, whether it is a tree or what it wants, depends on the tokens that it has taken and on
those it looks at, and on nothing behind them (`Settles`). More room does not change the answer either.

The relation is closed under steps (`Settles.bind`), and one turn around the readers takes a level of
the room, so it is proved as their soundness is: from parentheses up to disjunctions at one room, with
all smaller rooms done.
-/

namespace WhereRules.Expr

/-! ## Looking ahead -/

/-- What a reader looks at before it takes a token: the next one, and the one behind it if that is a
`NOT`. Where the tokens end there is nothing to look at. -/
def ahead : List Token → List Token
  | [] => []
  | t :: ts => t :: if t = .keyword .not then ts.take 1 else []

/-- Where a reader looks at the same, the next token is the same. -/
theorem take_one_of_ahead {ts us : List Token} (h : ahead ts = ahead us) :
    ts.take 1 = us.take 1 := by
  cases ts with
  | nil =>
    cases us with
    | nil => rfl
    | cons u us => cases h
  | cons t ts =>
    cases us with
    | nil => cases h
    | cons u us =>
      obtain ⟨rfl, -⟩ := List.cons.inj h
      rfl

/-- Behind the same tokens it looks at the same, if it does so in what follows them. This is what a
reader hands on to the next one. -/
theorem ahead_append {ts us : List Token} (h : ahead ts = ahead us) (front : List Token) :
    ahead (front ++ ts) = ahead (front ++ us) := by
  cases front with
  | nil => exact h
  | cons t front =>
    cases front with
    | nil => rw [List.singleton_append, List.singleton_append, ahead, ahead, take_one_of_ahead h]
    | cons u front => rfl

/-- Tokens that look like a row with a first token begin with that token. If it is a `NOT`, the one
behind it is the same too. -/
theorem ahead_cons {t : Token} {ts us : List Token} (h : ahead us = ahead (t :: ts)) :
    ∃ vs, us = t :: vs ∧ (t = .keyword .not → vs.take 1 = ts.take 1) := by
  cases us with
  | nil => cases h
  | cons u us =>
    obtain ⟨rfl, hbehind⟩ := List.cons.inj h
    refine ⟨us, rfl, fun hnot => ?_⟩
    rw [if_pos hnot, if_pos hnot] at hbehind
    exact hbehind

/-- Readers look at the same in these tokens. -/
def LooksAlike (ps qs : List Placed) : Prop := ahead (words ps) = ahead (words qs)

namespace LooksAlike

variable {ps qs : List Placed}

/-- Behind the same tokens, what looks alike looks alike. -/
theorem append (h : LooksAlike ps qs) (front : List Placed) :
    LooksAlike (front ++ ps) (front ++ qs) := by
  rw [LooksAlike, words_append, words_append]
  exact ahead_append h _

/-- What looks like the end is the end. -/
theorem nil (h : LooksAlike ps []) : ps = [] := by
  cases ps with
  | nil => rfl
  | cons p ps => cases h

/-- What looks like a row with a first token begins with that token, at some place. -/
theorem cons {t : Token} {p : Nat} (h : LooksAlike ps (⟨t, p⟩ :: qs)) :
    ∃ q rs, ps = ⟨t, q⟩ :: rs ∧ (t = .keyword .not → (words rs).take 1 = (words qs).take 1) := by
  obtain ⟨vs, hvs, hbehind⟩ := ahead_cons h
  obtain ⟨q, rs, rfl, rfl⟩ := words_eq_cons hvs
  exact ⟨q, rs, rfl, hbehind⟩

end LooksAlike

/-! ### What the tests look at -/

section Tests

variable {ps qs : List Placed}

/-- Whether the word of a negated operator comes next is told by the next token. -/
theorem startsNegatable_congr (h : (words ps).take 1 = (words qs).take 1) :
    startsNegatable ps = startsNegatable qs := by
  cases ps with
  | nil =>
    cases qs with
    | nil => rfl
    | cons q qs => cases h
  | cons p ps =>
    cases qs with
    | nil => cases h
    | cons q qs =>
      obtain ⟨t, p⟩ := p
      obtain ⟨u, q⟩ := q
      obtain ⟨rfl, -⟩ := List.cons.inj h
      cases t with
      | keyword k => cases k <;> rfl
      | _ => rfl

/-- Which keyword comes next is the same where readers look at the same. -/
theorem LooksAlike.startsWord (h : LooksAlike ps qs) (k : Keyword) :
    startsWord k ps = startsWord k qs := by
  cases qs with
  | nil => rw [h.nil]
  | cons q qs =>
    obtain ⟨t, q⟩ := q
    obtain ⟨p, rs, rfl, -⟩ := h.cons
    cases t with
    | _ => rfl

/-- Whether a group comes next is the same where readers look at the same. -/
theorem LooksAlike.startsGroup (h : LooksAlike ps qs) : startsGroup ps = startsGroup qs := by
  cases qs with
  | nil => rw [h.nil]
  | cons q qs =>
    obtain ⟨t, q⟩ := q
    obtain ⟨p, rs, rfl, -⟩ := h.cons
    cases t with
    | _ => rfl

/-- Whether a negation comes next takes the token behind the `NOT` too. Where readers look at the
same they look at that one as well. -/
theorem LooksAlike.startsNegation (h : LooksAlike ps qs) :
    startsNegation ps = startsNegation qs := by
  cases qs with
  | nil => rw [h.nil]
  | cons q qs =>
    obtain ⟨t, q⟩ := q
    obtain ⟨p, rs, rfl, hbehind⟩ := h.cons
    cases t with
    | keyword k =>
      cases k with
      | not => exact congrArg Bool.not (startsNegatable_congr (hbehind rfl))
      | _ => rfl
    | _ => rfl

/-- Whether an operator part comes next is the same where readers look at the same. -/
theorem LooksAlike.startsSuffix (h : LooksAlike ps qs) : startsSuffix ps = startsSuffix qs := by
  cases qs with
  | nil => rw [h.nil]
  | cons q qs =>
    obtain ⟨t, q⟩ := q
    obtain ⟨p, rs, rfl, hbehind⟩ := h.cons
    cases t with
    | keyword k =>
      cases k with
      | not => exact startsNegatable_congr (hbehind rfl)
      | _ => rfl
    | _ => rfl

end Tests

/-! ## Settled answers -/

/-- What a reader answers that has room: what it read or what it wants, and the tokens from there
on. -/
def deliver {α : Type} (result : Except Expected α) (rest : List Placed) :
    Except Stuck (α × List Placed) :=
  match result with
  | .ok a => .ok (a, rest)
  | .error expected => wanted expected rest

/-- **The answer to these tokens is settled by what was taken and what is looked at**: a reader gives
the same answer, with what then follows, to the same tokens with anything behind that looks alike. -/
def Settles {α : Type} (ts : List Placed) (answer : Except Stuck (α × List Placed))
    (read : Reader α) : Prop :=
  ∀ result rest, answer = deliver result rest → ∃ before, ts = before ++ rest ∧
    ∀ rest', LooksAlike rest' rest → read (before ++ rest') = deliver result rest'

section Settles

variable {α β : Type} {ts : List Placed} {answer : Except Stuck (α × List Placed)} {read : Reader α}

/-- An answer that was delivered tells what was read or wanted, and what is left. So an equation of
answers can be taken apart. -/
theorem deliver_inj {result result' : Except Expected α} {rest rest' : List Placed}
    (h : deliver result rest = deliver result' rest') : result = result' ∧ rest = rest' := by
  cases result with
  | ok a =>
    cases result' with
    | ok b =>
      cases h
      exact ⟨rfl, rfl⟩
    | error y => cases h
  | error x =>
    cases result' with
    | ok b => cases h
    | error y =>
      cases h
      exact ⟨rfl, rfl⟩

/-- What is answered without taking a token is settled by the tokens that are looked at. -/
theorem settles_here {result : Except Expected α}
    (h : ∀ ts', LooksAlike ts' ts → read ts' = deliver result ts') :
    Settles ts (deliver result ts) read := by
  intro result' rest heq
  obtain ⟨rfl, rfl⟩ := deliver_inj heq
  exact ⟨[], rfl, h⟩

theorem settles_ok {a : α} (h : ∀ ts', LooksAlike ts' ts → read ts' = .ok (a, ts')) :
    Settles ts (.ok (a, ts)) read :=
  @settles_here α ts read (.ok a) h

theorem settles_wanted {expected : Expected}
    (h : ∀ ts', LooksAlike ts' ts → read ts' = wanted expected ts') :
    Settles ts (wanted expected ts) read :=
  @settles_here α ts read (.error expected) h

/-- Without room there is no answer to settle. -/
theorem settles_noRoom (rest : List Placed) (ts : List Placed) (read : Reader α) :
    Settles ts (.error ⟨.noRoom, rest⟩) read := by
  intro result rest' heq
  cases result with
  | ok a => cases heq
  | error x => cases heq

/-- Behind a token that is taken the answer is as settled as that of the reader that goes on. -/
theorem Settles.cons {next : Reader α} (h : Settles ts answer next) {t : Placed}
    (hread : ∀ us, read (t :: us) = next us) : Settles (t :: ts) answer read := by
  intro result rest heq
  obtain ⟨before, rfl, hbefore⟩ := h result rest heq
  exact ⟨t :: before, rfl, fun rest' halike => (hread _).trans (hbefore rest' halike)⟩

/-- A reader that only looks at the tokens goes on as another. -/
theorem Settles.congr {next : Reader α} (h : Settles ts answer next)
    (hread : ∀ us, LooksAlike us ts → read us = next us) : Settles ts answer read := by
  intro result rest heq
  obtain ⟨before, rfl, hbefore⟩ := h result rest heq
  refine ⟨before, rfl, fun rest' halike => ?_⟩
  rw [hread _ (halike.append before)]
  exact hbefore rest' halike

/-- One step after the other. Where what follows the second step looks alike, so does what follows
the first, since the tokens between are the same. -/
theorem Settles.bind (h : Settles ts answer read)
    {next next' : α × List Placed → Except Stuck (β × List Placed)}
    (hnext : ∀ a us, answer = .ok (a, us) → Settles us (next (a, us)) fun us => next' (a, us)) :
    Settles ts (answer >>= next) fun us => read us >>= next' := by
  intro result rest heq
  cases answer with
  | error stuck =>
    cases result with
    | ok b => cases heq
    | error expected =>
      cases heq
      obtain ⟨before, rfl, hbefore⟩ := h (.error expected) rest rfl
      refine ⟨before, rfl, fun rest' halike => ?_⟩
      show read (before ++ rest') >>= next' = _
      rw [hbefore rest' halike]
      rfl
  | ok read₁ =>
    obtain ⟨a, us⟩ := read₁
    obtain ⟨front, rfl, hfront⟩ := h (.ok a) us rfl
    obtain ⟨before, rfl, hbefore⟩ := hnext a us rfl result rest heq
    refine ⟨front ++ before, (List.append_assoc ..).symm, fun rest' halike => ?_⟩
    show read (front ++ before ++ rest') >>= next' = _
    rw [List.append_assoc, hfront _ (halike.append before)]
    exact hbefore rest' halike

end Settles

/-! ## Rules without nesting -/

/-- A reader of one token looks at that token and no other. -/
theorem takeToken_settles {α : Type} (f : Token → Option α) (expected : Expected)
    (ts : List Placed) : Settles ts (takeToken f expected ts) (takeToken f expected) := by
  cases ts with
  | nil => exact settles_wanted fun ts' halike => by rw [halike.nil]; rfl
  | cons t ts =>
    obtain ⟨t, p⟩ := t
    cases hf : f t with
    | some a =>
      rw [takeToken_of_some hf]
      exact (settles_ok fun _ _ => rfl).cons (takeToken_of_some hf expected p)
    | none =>
      rw [takeToken_of_none hf]
      refine settles_wanted fun ts' halike => ?_
      obtain ⟨q, us, rfl, -⟩ := halike.cons
      exact takeToken_of_none hf expected q us

theorem keyword_settles (k : Keyword) (ts : List Placed) : Settles ts (keyword k ts) (keyword k) := by
  rw [keyword_eq_takeToken]
  exact takeToken_settles _ _ ts

theorem rightParen_settles (ts : List Placed) : Settles ts (rightParen ts) rightParen := by
  rw [rightParen_eq_takeToken]
  exact takeToken_settles _ _ ts

theorem constant_settles (ts : List Placed) : Settles ts (constant ts) constant := by
  rw [constant_eq_takeToken]
  exact takeToken_settles _ _ ts

theorem wildcardText_settles (ts : List Placed) : Settles ts (wildcardText ts) wildcardText := by
  rw [wildcardText_eq_takeToken]
  exact takeToken_settles _ _ ts

/-- A null test looks at the word behind `IS`, and behind the `NOT` if it takes one. Behind its
`NULL` it looks at nothing. -/
theorem nullTest_settles (ts : List Placed) : Settles ts (nullTest ts) nullTest := by
  cases hword : startsWord .not ts with
  | true =>
    obtain ⟨p, us, rfl⟩ := startsWord_eq_true hword
    rw [nullTest_not]
    refine Settles.cons ?_ (nullTest_not p)
    exact (keyword_settles .null us).bind fun _ vs _ => settles_ok fun _ _ => rfl
  | false =>
    rw [nullTest_of_startsWord hword]
    refine Settles.congr ?_ fun us halike =>
      nullTest_of_startsWord ((halike.startsWord .not).trans hword)
    exact (keyword_settles .null ts).bind fun _ vs _ => settles_ok fun _ _ => rfl

/-- A list goes on as long as there are commas, and looks at no more than what follows the last
literal. -/
theorem furtherConstants_settles (ts : List Placed) :
    Settles ts (furtherConstants ts) furtherConstants := by
  induction hn : ts.length using Nat.strongRecOn generalizing ts with
  | ind n ih =>
    cases ts with
    | nil => exact settles_ok fun ts' halike => by rw [halike.nil]; rfl
    | cons t ts =>
      obtain ⟨t, p⟩ := t
      by_cases hcomma : t = .comma
      · subst hcomma
        rw [furtherConstants_comma]
        refine Settles.cons ?_ (furtherConstants_comma p)
        refine (constant_settles ts).bind fun value us hvalue => ?_
        rw [constant_eq_takeToken] at hvalue
        obtain ⟨u, q, rfl, -⟩ := takeToken_eq_ok hvalue
        rw [List.length_cons, List.length_cons] at hn
        refine (ih us.length (by omega) us rfl).bind fun values vs _ => ?_
        exact settles_ok fun _ _ => rfl
      · have hstop : ∀ q us, furtherConstants (⟨t, q⟩ :: us) = .ok ([], ⟨t, q⟩ :: us) :=
          fun q us => furtherConstants_of_ne_comma fun _ _ heq => hcomma (by cases heq; rfl)
        rw [hstop]
        refine settles_ok fun ts' halike => ?_
        obtain ⟨q, us, rfl, -⟩ := halike.cons
        exact hstop q us

/-- What `IN` takes ends with its own parenthesis. -/
theorem constants_settles (ts : List Placed) : Settles ts (constants ts) constants := by
  have hleft : Settles ts (leftParen ts) leftParen := by
    rw [leftParen_eq_takeToken]
    exact takeToken_settles _ _ ts
  unfold constants
  refine hleft.bind fun _ us _ => ?_
  refine (constant_settles us).bind fun first vs _ => ?_
  refine (furtherConstants_settles vs).bind fun others ws _ => ?_
  refine (rightParen_settles ws).bind fun _ xs _ => ?_
  exact settles_ok fun _ _ => rfl

/-! ## Rules that nest -/

/-- A reader settles all its answers, in this room as in more. -/
def Settled {α : Type} (read read' : Reader α) : Prop := ∀ ts, Settles ts (read ts) read'

/-- The readers of a phrase, in two rooms of which the second is no smaller. -/
def SettledFrom (read : Nat → List Placed → Except Stuck (Expr × List Placed)) (room : Nat) : Prop :=
  ∀ room', room ≤ room' → Settled (read room) (read room')

/-- A group ends with its own parenthesis, so what it encloses has nothing behind it to look at. -/
theorem group_settles {room : Nat} (ih : ∀ r < room, SettledFrom disjunction r) {ts : List Placed}
    (hstarts : startsGroup ts = true) {room' : Nat} (hle : room ≤ room') :
    Settles ts (Expr.group room ts) (Expr.group room') := by
  obtain ⟨p, us, rfl⟩ := startsGroup_eq_true hstarts
  cases room with
  | zero =>
    rw [Expr.group]
    exact settles_noRoom _ _ _
  | succ room =>
    obtain ⟨room', rfl⟩ := Nat.exists_eq_add_of_le' (Nat.lt_of_lt_of_le (Nat.zero_lt_succ room) hle)
    rw [group_succ]
    refine Settles.cons ?_ (group_succ room' p)
    refine (ih room (Nat.lt_succ_self room) room' (Nat.le_of_succ_le_succ hle) us).bind
      fun e vs _ => ?_
    exact (rightParen_settles vs).bind fun _ ws _ => settles_ok fun _ _ => rfl

/-- A primary is one token or a group. -/
theorem primary_settles {room : Nat} (ih : ∀ r < room, SettledFrom disjunction r) :
    SettledFrom Expr.primary room := by
  intro room' hle ts
  cases hgroup : startsGroup ts with
  | true =>
    rw [primary_of_startsGroup hgroup]
    exact (group_settles ih hgroup hle).congr fun us halike =>
      primary_of_startsGroup (halike.startsGroup.trans hgroup)
  | false =>
    rw [primary_of_not_startsGroup hgroup]
    exact (takeToken_settles leaf? .expression ts).congr fun us halike =>
      primary_of_not_startsGroup (halike.startsGroup.trans hgroup) room'

/-! ### Operator parts -/

/-- An operator part is settled where its primaries are. Its last primary or word has nothing of the
operator behind it. -/
theorem suffix_settles {room room' : Nat} (hprimary : SettledFrom Expr.primary room)
    (hle : room ≤ room') (left : Expr) :
    Settled (Expr.suffix room left) (Expr.suffix room' left) := by
  intro ts
  cases hsuffix : startsSuffix ts with
  | false =>
    rw [suffix_of_not_startsSuffix room left ts hsuffix]
    exact settles_wanted fun us halike =>
      suffix_of_not_startsSuffix room' left us (halike.startsSuffix.trans hsuffix)
  | true =>
    cases operatorAhead_of_startsSuffix hsuffix with
    | sign s p us =>
      rw [suffix_sign]
      refine Settles.cons ?_ fun vs => suffix_sign room' left p vs s
      exact (hprimary room' hle us).bind fun right vs _ => settles_ok fun _ _ => rfl
    | is p us =>
      rw [suffix_is]
      refine Settles.cons ?_ (suffix_is room' left p)
      exact (nullTest_settles us).bind fun negated vs _ => settles_ok fun _ _ => rfl
    | between p us =>
      rw [suffix_between]
      refine Settles.cons ?_ (suffix_between room' left p)
      refine (hprimary room' hle us).bind fun low vs _ => ?_
      refine (keyword_settles .and vs).bind fun _ ws _ => ?_
      exact (hprimary room' hle ws).bind fun high xs _ => settles_ok fun _ _ => rfl
    | among p us =>
      rw [suffix_among]
      refine Settles.cons ?_ (suffix_among room' left p)
      exact (constants_settles us).bind fun values vs _ => settles_ok fun _ _ => rfl
    | like p us =>
      rw [suffix_like]
      refine Settles.cons ?_ (suffix_like room' left p)
      exact (wildcardText_settles us).bind fun text vs _ => settles_ok fun _ _ => rfl
    | notAmong p q us =>
      rw [suffix_notAmong]
      refine Settles.cons (Settles.cons ?_ fun vs => suffix_notAmong room' left p vs q) fun _ => rfl
      exact (constants_settles us).bind fun values vs _ => settles_ok fun _ _ => rfl
    | notLike p q us =>
      rw [suffix_notLike]
      refine Settles.cons (Settles.cons ?_ fun vs => suffix_notLike room' left p vs q) fun _ => rfl
      exact (wildcardText_settles us).bind fun text vs _ => settles_ok fun _ _ => rfl

/-! ### Comparisons and negations -/

/-- A comparison in parentheses looks at whether an operator follows. Every other one ends with its
operator part. -/
theorem compared_settles {room : Nat} (ih : ∀ r < room, SettledFrom disjunction r) :
    SettledFrom Expr.compared room := by
  intro room' hle ts
  have hprimary : SettledFrom Expr.primary room := primary_settles ih
  cases hgroup : startsGroup ts with
  | true =>
    rw [compared_of_startsGroup hgroup]
    refine Settles.congr ?_ fun us halike =>
      compared_of_startsGroup (halike.startsGroup.trans hgroup) room'
    refine (group_settles ih hgroup hle).bind fun inner us _ => ?_
    show Settles us (if startsSuffix us then Expr.suffix room inner us else .ok (inner, us)) fun us =>
      if startsSuffix us then Expr.suffix room' inner us else .ok (inner, us)
    cases hsuffix : startsSuffix us with
    | true =>
      exact (suffix_settles hprimary hle inner us).congr fun vs halike =>
        if_pos (halike.startsSuffix.trans hsuffix)
    | false =>
      refine settles_ok fun vs halike => ?_
      rw [halike.startsSuffix.trans hsuffix]
      rfl
  | false =>
    rw [compared_of_not_startsGroup hgroup]
    refine Settles.congr ?_ fun us halike =>
      compared_of_not_startsGroup (halike.startsGroup.trans hgroup) room'
    exact (hprimary room' hle ts).bind fun left us _ => suffix_settles hprimary hle left us

/-- A negation looks at the token behind its `NOT`, which may make the two an operator. It is then
settled where what it negates is. -/
theorem negated_settles {room : Nat} (ih : ∀ r < room, SettledFrom disjunction r)
    (ihnot : ∀ r < room, SettledFrom negated r) : SettledFrom negated room := by
  intro room' hle ts
  cases hstarts : startsNegation ts with
  | true =>
    obtain ⟨p, us, rfl⟩ := startsNegation_eq_true hstarts
    cases room with
    | zero =>
      rw [negated.eq_def, if_pos hstarts]
      exact settles_noRoom _ _ _
    | succ room =>
      obtain ⟨room', rfl⟩ :=
        Nat.exists_eq_add_of_le' (Nat.lt_of_lt_of_le (Nat.zero_lt_succ room) hle)
      rw [negated_of_startsNegation hstarts]
      refine Settles.congr ?_ fun us halike =>
        negated_of_startsNegation (halike.startsNegation.trans hstarts) room'
      refine Settles.cons ?_ fun _ => rfl
      refine (ihnot room (Nat.lt_succ_self room) room' (Nat.le_of_succ_le_succ hle) us).bind
        fun operand vs _ => ?_
      exact settles_ok fun _ _ => rfl
  | false =>
    rw [negated_of_not_startsNegation hstarts]
    exact (compared_settles ih room' hle ts).congr fun us halike =>
      negated_of_not_startsNegation (halike.startsNegation.trans hstarts) room'

/-! ### Chains -/

section Chains

variable {k : Keyword} {join : Expr → Expr → Expr}
  {operand whole : Nat → List Placed → Except Stuck (Expr × List Placed)}
  {further : Nat → Expr → List Placed → Except Stuck (Expr × List Placed)}

/-- The rest of a chain looks at whether its word comes again. It goes on from operand to operand,
in less and less room. -/
theorem ReadsChain.further_settles (chain : ReadsChain k join operand whole further) {room : Nat}
    (hoperand : ∀ r < room, SettledFrom operand r) {room' : Nat} (hle : room ≤ room') (left : Expr)
    (ts : List Placed) : Settles ts (further room left ts) (further room' left) := by
  induction room using Nat.strongRecOn generalizing room' left ts with
  | ind room ih =>
    cases hword : startsWord k ts with
    | false =>
      rw [chain.stop room left ts hword]
      exact settles_ok fun us halike =>
        chain.stop room' left us ((halike.startsWord k).trans hword)
    | true =>
      obtain ⟨p, us, rfl⟩ := startsWord_eq_true hword
      cases room with
      | zero =>
        rw [chain.full]
        exact settles_noRoom _ _ _
      | succ room =>
        obtain ⟨room', rfl⟩ :=
          Nat.exists_eq_add_of_le' (Nat.lt_of_lt_of_le (Nat.zero_lt_succ room) hle)
        have hle : room ≤ room' := Nat.le_of_succ_le_succ hle
        rw [chain.step]
        refine Settles.cons ?_ (chain.step room' left p)
        refine (hoperand room (Nat.lt_succ_self room) room' hle us).bind fun right vs _ => ?_
        exact ih room (Nat.lt_succ_self room) (fun r hr => hoperand r (Nat.lt_succ_of_lt hr)) hle
          (join left right) vs

/-- A chain is settled where its operands are, at its own room and all below. -/
theorem ReadsChain.settles (chain : ReadsChain k join operand whole further) {room : Nat}
    (hoperand : ∀ r ≤ room, SettledFrom operand r) : SettledFrom whole room := by
  intro room' hle ts
  rw [chain.start]
  refine Settles.congr ?_ fun us _ => chain.start room' us
  refine (hoperand room (Nat.le_refl room) room' hle ts).bind fun first us _ => ?_
  exact chain.further_settles (fun r hr => hoperand r (Nat.le_of_lt hr)) hle first us

end Chains

/-! ### Every room -/

/-- The answers of negations and of disjunctions are settled in every room. By induction on the
room, as for their soundness. -/
theorem negated_disjunction_settles (room : Nat) :
    SettledFrom negated room ∧ SettledFrom disjunction room := by
  induction room using Nat.strongRecOn with
  | ind room ih =>
    have hnegated : ∀ r ≤ room, SettledFrom negated r := by
      intro r hr
      rcases Nat.lt_or_eq_of_le hr with hr | rfl
      · exact (ih r hr).1
      · exact negated_settles (fun s hs => (ih s hs).2) fun s hs => (ih s hs).1
    have hconjunction : ∀ r ≤ room, SettledFrom conjunction r := fun r hr =>
      readsChain_conjunction.settles fun s hs => hnegated s (Nat.le_trans hs hr)
    exact ⟨hnegated room (Nat.le_refl room), readsChain_disjunction.settles hconjunction⟩

/-- **What the reader of expressions answers depends on the tokens that it took and on those it
looks at**, whether it answers a tree or what it wants, and no more room changes it. -/
theorem disjunction_settles {room room' : Nat} (hle : room ≤ room') :
    Settled (disjunction room) (disjunction room') :=
  (negated_disjunction_settles room).2 room' hle

end WhereRules.Expr
