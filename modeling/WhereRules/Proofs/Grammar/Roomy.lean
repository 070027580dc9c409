import WhereRules.Proofs.Grammar.Readers
import WhereRules.Proofs.Grammar.Soundness

/-!
# Room for all tokens

A reader takes a level of its room only together with the token that opens the level, so one that has
as much room as there are tokens never lacks room (`Roomy`). Whatever it takes, it leaves no more
tokens than it was given, and that is enough for the reader that goes on behind it.

For whole texts this says that a limit on the levels does nothing where it is no smaller than the
number of tokens (`ofTokens_ne_tooDeep`).
-/

namespace WhereRules.Expr

variable {α β : Type} {m n room : Nat} {ts us : List Placed}

/-- The answer leaves at most `n` tokens, and if it is none it is not for a lack of room. -/
def Fits (n : Nat) : Except Stuck (α × List Placed) → Prop
  | .ok (_, rest) => rest.length ≤ n
  | .error stuck => stuck.obstacle ≠ .noRoom

/-- The reader does not lack room for as many tokens as it has levels. -/
def Roomy (room : Nat) (read : Reader α) : Prop :=
  ∀ ts, ts.length ≤ room → Fits ts.length (read ts)

/-- What leaves few tokens leaves no more than many. -/
theorem Fits.mono {x : Except Stuck (α × List Placed)} (h : Fits m x) (hle : m ≤ n) :
    Fits n x := by
  cases x with
  | ok read => exact Nat.le_trans h hle
  | error stuck => exact h

/-- One reader after the other: the second one is given what the first one leaves. -/
theorem Fits.bind {x : Except Stuck (α × List Placed)}
    {next : α × List Placed → Except Stuck (β × List Placed)} (h : Fits m x)
    (hnext : ∀ a rest, rest.length ≤ m → Fits n (next (a, rest))) : Fits n (x >>= next) := by
  cases x with
  | ok read => exact hnext read.1 read.2 h
  | error stuck => exact h

/-- Nothing is lacking where another token is wanted. -/
theorem fits_wanted (expected : Expected) (ts : List Placed) :
    Fits n (wanted expected ts : Except Stuck (α × List Placed)) := Obstacle.noConfusion

/-! ## Rules without nesting -/

/-- A reader of one token leaves one token less, or wants another. -/
theorem fits_takeToken (f : Token → Option α) (expected : Expected) (ts : List Placed) :
    Fits ts.length (takeToken f expected ts) := by
  cases ts with
  | nil => exact fits_wanted expected []
  | cons t ts =>
    rw [takeToken]
    cases f t.token with
    | none => exact fits_wanted expected _
    | some a => exact Nat.le_succ ts.length

theorem fits_keyword (k : Keyword) (ts : List Placed) : Fits ts.length (keyword k ts) :=
  keyword_eq_takeToken k ▸ fits_takeToken _ _ ts

theorem fits_constant (ts : List Placed) : Fits ts.length (constant ts) :=
  constant_eq_takeToken ▸ fits_takeToken _ _ ts

theorem fits_leftParen (ts : List Placed) : Fits ts.length (leftParen ts) :=
  leftParen_eq_takeToken ▸ fits_takeToken _ _ ts

theorem fits_rightParen (ts : List Placed) : Fits ts.length (rightParen ts) :=
  rightParen_eq_takeToken ▸ fits_takeToken _ _ ts

theorem fits_wildcardText (ts : List Placed) : Fits ts.length (wildcardText ts) :=
  wildcardText_eq_takeToken ▸ fits_takeToken _ _ ts

/-- Behind `IS` come at most two tokens, whichever they are. Neither of them takes any room, so it
does not matter how much there is. -/
theorem fits_nullTest (ts : List Placed) : Fits ts.length (nullTest ts) := by
  cases hword : startsWord .not ts with
  | true =>
    obtain ⟨p, us, rfl⟩ := startsWord_eq_true hword
    rw [nullTest_not]
    exact (fits_keyword .null us).bind fun _ _ hrest => Nat.le_succ_of_le hrest
  | false =>
    rw [nullTest_of_startsWord hword]
    exact (fits_keyword .null ts).bind fun _ _ hrest => hrest

/-- A list takes tokens and no room. -/
theorem fits_furtherConstants (ts : List Placed) : Fits ts.length (furtherConstants ts) := by
  fun_induction furtherConstants ts with
  | case1 => exact fits_wanted .literal []
  | case2 p t ts value hvalue ih =>
    cases hread : furtherConstants ts with
    | error stuck =>
      rw [hread] at ih
      exact ih
    | ok read =>
      rw [hread] at ih
      exact Nat.le_trans ih (Nat.le_add_right ts.length 2)
  | case3 p t ts => exact fits_wanted .literal (t :: ts)
  | case4 ts => exact Nat.le_refl ts.length

/-- The parentheses of a list of literals are no level. -/
theorem fits_constants (ts : List Placed) : Fits ts.length (constants ts) := by
  refine (fits_leftParen ts).bind fun _ us hus => ?_
  refine (fits_constant us).bind fun first vs hvs => ?_
  refine (fits_furtherConstants vs).bind fun others ws hws => ?_
  refine (fits_rightParen ws).bind fun _ rest hrest => ?_
  exact Nat.le_trans hrest (Nat.le_trans hws (Nat.le_trans hvs hus))

/-! ## Rules that nest -/

/-- The level of a group is paid for by its opening parenthesis: what is inside has a token less and
a level less. -/
theorem fits_group (ih : ∀ r < room, Roomy r (disjunction r)) (hstarts : startsGroup ts = true)
    (h : ts.length ≤ room) : Fits ts.length (Expr.group room ts) := by
  obtain ⟨p, us, rfl⟩ := startsGroup_eq_true hstarts
  cases room with
  | zero => cases h
  | succ room =>
    rw [group_succ]
    have hinner := ih room (Nat.lt_succ_self room) us (Nat.le_of_succ_le_succ h)
    refine hinner.bind fun e vs hvs => ?_
    exact (fits_rightParen vs).bind fun _ rest hrest => Nat.le_succ_of_le (Nat.le_trans hrest hvs)

/-- A primary takes a level only for a group. -/
theorem roomy_primary (ih : ∀ r < room, Roomy r (disjunction r)) :
    Roomy room (Expr.primary room) := by
  intro ts h
  cases hgroup : startsGroup ts with
  | true =>
    rw [primary_of_startsGroup hgroup]
    exact fits_group ih hgroup h
  | false =>
    rw [primary_of_not_startsGroup hgroup]
    exact fits_takeToken leaf? .expression ts

/-- The operands of an operator part have the room of the whole, and a token less. So they lack room
only if the whole would. -/
theorem roomy_suffix (hprimary : Roomy room (Expr.primary room)) (left : Expr) :
    Roomy room (Expr.suffix room left) := by
  intro ts h
  cases hsuffix : startsSuffix ts with
  | false =>
    rw [suffix_of_not_startsSuffix room left ts hsuffix]
    exact fits_wanted .sign ts
  | true =>
    cases operatorAhead_of_startsSuffix hsuffix with
    | sign s p us =>
      rw [suffix_sign]
      exact (hprimary us (Nat.le_of_succ_le h)).bind fun _ _ hrest => Nat.le_succ_of_le hrest
    | is p us =>
      rw [suffix_is]
      exact (fits_nullTest us).bind fun _ _ hrest => Nat.le_succ_of_le hrest
    | between p us =>
      rw [suffix_between]
      refine (hprimary us (Nat.le_of_succ_le h)).bind fun low vs hvs => ?_
      refine (fits_keyword .and vs).bind fun _ ws hws => ?_
      have hle : ws.length ≤ us.length := Nat.le_trans hws hvs
      refine (hprimary ws (Nat.le_trans hle (Nat.le_of_succ_le h))).bind fun high rest hrest => ?_
      exact Nat.le_succ_of_le (Nat.le_trans hrest hle)
    | among p us =>
      rw [suffix_among]
      exact (fits_constants us).bind fun _ _ hrest => Nat.le_succ_of_le hrest
    | like p us =>
      rw [suffix_like]
      exact (fits_wildcardText us).bind fun _ _ hrest => Nat.le_succ_of_le hrest
    | notAmong p q us =>
      rw [suffix_notAmong]
      exact (fits_constants us).bind fun _ _ hrest => Nat.le_succ_of_le (Nat.le_succ_of_le hrest)
    | notLike p q us =>
      rw [suffix_notLike]
      exact (fits_wildcardText us).bind fun _ _ hrest => Nat.le_succ_of_le (Nat.le_succ_of_le hrest)

/-- A comparison reads a group or a primary, and what it leaves is room enough for an operator
part. -/
theorem roomy_compared (ih : ∀ r < room, Roomy r (disjunction r)) :
    Roomy room (Expr.compared room) := by
  intro ts h
  have hprimary : Roomy room (Expr.primary room) := roomy_primary ih
  cases hgroup : startsGroup ts with
  | true =>
    rw [compared_of_startsGroup hgroup]
    refine (fits_group ih hgroup h).bind fun inner us hus => ?_
    show Fits ts.length (if startsSuffix us then _ else _)
    split
    · exact (roomy_suffix hprimary inner us (Nat.le_trans hus h)).mono hus
    · exact hus
  | false =>
    rw [compared_of_not_startsGroup hgroup]
    refine (hprimary ts h).bind fun left us hus => ?_
    exact (roomy_suffix hprimary left us (Nat.le_trans hus h)).mono hus

/-- The level of a negation is paid for by its `NOT`, as that of a group is by its parenthesis. -/
theorem roomy_negated (ih : ∀ r < room, Roomy r (disjunction r))
    (ihnot : ∀ r < room, Roomy r (negated r)) : Roomy room (negated room) := by
  intro ts h
  cases hstarts : startsNegation ts with
  | true =>
    obtain ⟨p, us, rfl⟩ := startsNegation_eq_true hstarts
    cases room with
    | zero => cases h
    | succ room =>
      rw [negated_of_startsNegation hstarts]
      have hoperand := ihnot room (Nat.lt_succ_self room) us (Nat.le_of_succ_le_succ h)
      exact hoperand.bind fun _ _ hrest => Nat.le_succ_of_le hrest
  | false =>
    rw [negated_of_not_startsNegation hstarts]
    exact roomy_compared ih ts h

/-! ### Chains -/

section Chains

variable {k : Keyword} {join : Expr → Expr → Expr}
  {operand whole : Nat → List Placed → Except Stuck (Expr × List Placed)}
  {further : Nat → Expr → List Placed → Except Stuck (Expr × List Placed)}

/-- Each word of a chain pays for the level that the chain goes down with it. -/
theorem ReadsChain.roomy_further (chain : ReadsChain k join operand whole further)
    (hoperand : ∀ r < room, Roomy r (operand r)) (left : Expr) : Roomy room (further room left) := by
  intro ts h
  induction room generalizing left ts with
  | zero =>
    obtain rfl := List.length_eq_zero_iff.mp (Nat.le_zero.mp h)
    rw [chain.stop 0 left [] rfl]
    exact Nat.le_refl 0
  | succ room ih =>
    cases hword : startsWord k ts with
    | false =>
      rw [chain.stop (room + 1) left ts hword]
      exact Nat.le_refl ts.length
    | true =>
      obtain ⟨p, us, rfl⟩ := startsWord_eq_true hword
      have hus : us.length ≤ room := Nat.le_of_succ_le_succ h
      rw [chain.step]
      refine (hoperand room (Nat.lt_succ_self room) us hus).bind fun right vs hvs => ?_
      have hfurther := ih (fun r hr => hoperand r (Nat.lt_succ_of_lt hr)) (join left right) vs
        (Nat.le_trans hvs hus)
      exact hfurther.mono (Nat.le_succ_of_le hvs)

/-- A chain never lacks room where its operands do not, at its own room and all below. -/
theorem ReadsChain.roomy (chain : ReadsChain k join operand whole further)
    (hoperand : ∀ r ≤ room, Roomy r (operand r)) : Roomy room (whole room) := by
  intro ts h
  rw [chain.start]
  refine (hoperand room (Nat.le_refl room) ts h).bind fun first us hus => ?_
  have hfurther := chain.roomy_further (fun r hr => hoperand r (Nat.le_of_lt hr)) first us
    (Nat.le_trans hus h)
  exact hfurther.mono hus

end Chains

/-! ### Every room -/

/-- Negations and disjunctions never lack room for as many tokens as they have levels. Each calls the
other with less room, and behind a token. -/
theorem roomy_negated_disjunction (room : Nat) :
    Roomy room (negated room) ∧ Roomy room (disjunction room) := by
  induction room using Nat.strongRecOn with
  | ind room ih =>
    have hnegated : ∀ r ≤ room, Roomy r (negated r) := by
      intro r hr
      rcases Nat.lt_or_eq_of_le hr with hr | rfl
      · exact (ih r hr).1
      · exact roomy_negated (fun s hs => (ih s hs).2) fun s hs => (ih s hs).1
    have hconjunction : ∀ r ≤ room, Roomy r (conjunction r) := fun r hr =>
      readsChain_conjunction.roomy fun s hs => hnegated s (Nat.le_trans hs hr)
    exact ⟨hnegated room (Nat.le_refl room), readsChain_disjunction.roomy hconjunction⟩

/-- **A limit that is no smaller than the number of tokens is never exceeded.** Each level is paid
for by a token that opens it, so the tokens run out before the levels do. -/
theorem ofTokens_ne_tooDeep {limit : Nat} {stream : TokenStream}
    (roomy : stream.tokens.length ≤ limit) (n p : Nat) :
    ofTokens limit stream ≠ .error (.tooDeep n p) := by
  have hfits := (roomy_negated_disjunction limit).2 stream.tokens roomy
  unfold ofTokens
  cases hread : disjunction limit stream.tokens with
  | ok read =>
    obtain ⟨e, rest⟩ := read
    cases rest with
    | nil | cons t rest => rintro ⟨⟩
  | error stuck =>
    rw [hread] at hfits
    obtain ⟨obstacle, rest⟩ := stuck
    cases obstacle with
    | noRoom => exact absurd rfl hfits
    | wanted expected =>
      cases rest with
      | nil | cons t rest => rintro ⟨⟩

end WhereRules.Expr
