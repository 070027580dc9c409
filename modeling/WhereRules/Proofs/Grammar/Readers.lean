import WhereRules.Proofs.Grammar.Phrases

/-!
# The readers, step by step

What each reader of `Expr.Parser` does with the tokens in hand, as one step and the readers that go on
behind it. The readers of one token are one reader (`takeToken`) that takes different tokens. The
others look at the next token, or the next two, and then take it or leave it to another reader.
-/

namespace WhereRules.Expr

/-! ## One token -/

/-- Takes the next token if it makes an answer. -/
def takeToken {α : Type} (f : Token → Option α) (expected : Expected) : Reader α
  | [] => wanted expected []
  | t :: ts =>
    match f t.token with
    | some a => .ok (a, ts)
    | none => wanted expected (t :: ts)

theorem takeToken_of_some {α : Type} {f : Token → Option α} {t : Token} {a : α} (h : f t = some a)
    (expected : Expected) (p : Nat) (ts : List Placed) :
    takeToken f expected (⟨t, p⟩ :: ts) = .ok (a, ts) := by
  simp only [takeToken, h]

theorem takeToken_of_none {α : Type} {f : Token → Option α} {t : Token} (h : f t = none)
    (expected : Expected) (p : Nat) (ts : List Placed) :
    takeToken f expected (⟨t, p⟩ :: ts) = wanted expected (⟨t, p⟩ :: ts) := by
  simp only [takeToken, h]

/-- What was taken was the next token. -/
theorem takeToken_eq_ok {α : Type} {f : Token → Option α} {expected : Expected}
    {ts us : List Placed} {a : α} (h : takeToken f expected ts = .ok (a, us)) :
    ∃ t p, ts = ⟨t, p⟩ :: us ∧ f t = some a := by
  cases ts with
  | nil => cases h
  | cons t ts =>
    obtain ⟨t, p⟩ := t
    cases hf : f t with
    | none =>
      rw [takeToken_of_none hf] at h
      cases h
    | some b =>
      rw [takeToken_of_some hf] at h
      cases h
      exact ⟨t, p, rfl, hf⟩

/-- A reader of one token takes nothing where it fails, so the error is about the token that it has
not taken. -/
theorem takeToken_eq_error {α : Type} {f : Token → Option α} {expected : Expected}
    {ts : List Placed} {stuck : Stuck} (h : takeToken f expected ts = .error stuck) :
    stuck.rest = ts := by
  cases ts with
  | nil =>
    cases h
    rfl
  | cons t ts =>
    obtain ⟨t, p⟩ := t
    cases hf : f t with
    | some a =>
      rw [takeToken_of_some hf] at h
      cases h
    | none =>
      rw [takeToken_of_none hf] at h
      cases h
      rfl

/-- Whether a token is the given one. -/
def exactly (u : Token) : Token → Option Unit := fun t => if t = u then some () else none

/-- A keyword is read by taking it. -/
theorem keyword_eq_takeToken (k : Keyword) :
    keyword k = takeToken (exactly (.keyword k)) (.keyword k) := by
  funext ts
  cases ts with
  | nil => rfl
  | cons t ts =>
    obtain ⟨t, p⟩ := t
    cases t with
    | keyword j =>
      by_cases hj : j = k
      · simp only [keyword, takeToken, exactly, hj, if_true]
      · simp only [keyword, takeToken, exactly, hj, Token.keyword.injEq, if_false]
    | _ => rfl

/-- An opening parenthesis is read by taking it. -/
theorem leftParen_eq_takeToken :
    leftParen = takeToken (exactly .leftParen) (.token .leftParen) := by
  funext ts
  cases ts with
  | nil => rfl
  | cons t ts =>
    obtain ⟨t, p⟩ := t
    cases t with
    | _ => rfl

/-- A closing parenthesis is read by taking it. -/
theorem rightParen_eq_takeToken :
    rightParen = takeToken (exactly .rightParen) (.token .rightParen) := by
  funext ts
  cases ts with
  | nil => rfl
  | cons t ts =>
    obtain ⟨t, p⟩ := t
    cases t with
    | _ => rfl

/-- A constant is read by taking a literal. -/
theorem constant_eq_takeToken : constant = takeToken Token.literal? .literal := by
  funext ts
  cases ts with
  | nil => rfl
  | cons t ts =>
    rw [constant, takeToken]
    cases t.token.literal? <;> rfl

/-- The text of a string. -/
def stringText? : Token → Option String
  | .string s => some s
  | _ => none

/-- A wildcard text is read by taking a string. -/
theorem wildcardText_eq_takeToken : wildcardText = takeToken stringText? .string := by
  funext ts
  cases ts with
  | nil => rfl
  | cons t ts =>
    obtain ⟨t, p⟩ := t
    cases t with
    | _ => rfl

/-! ## Rules without nesting -/

/-- What follows `IS` is `NULL`, behind a `NOT` or not. -/
theorem nullTest_not (p : Nat) (ts : List Placed) : nullTest (⟨.keyword .not, p⟩ :: ts) =
    keyword .null ts >>= fun (_, ts) => .ok (true, ts) := by
  rw [nullTest]
  cases keyword .null ts <;> rfl

/-- Without a `NOT` the null test is not negated. -/
theorem nullTest_of_startsWord {ts : List Placed} (h : startsWord .not ts = false) :
    nullTest ts = keyword .null ts >>= fun (_, ts) => .ok (false, ts) := by
  have hmap : nullTest ts = (keyword .null ts).map fun (_, ts) => (false, ts) := by
    rw [nullTest.eq_def]
    split
    · cases h
    · rfl
  rw [hmap]
  cases keyword .null ts <;> rfl

/-- A comma makes the list go on. -/
theorem furtherConstants_comma (p : Nat) (ts : List Placed) :
    furtherConstants (⟨.comma, p⟩ :: ts) =
      constant ts >>= fun (value, ts) =>
        furtherConstants ts >>= fun (values, ts) => .ok (value :: values, ts) := by
  cases ts with
  | nil => rfl
  | cons t ts =>
    rw [furtherConstants, constant]
    cases t.token.literal? with
    | none => rfl
    | some value =>
      simp only [bind, Except.bind]
      cases furtherConstants ts with
      | error stuck => rfl
      | ok read => rfl

/-- The list ends where no comma is. -/
theorem furtherConstants_of_ne_comma {ts : List Placed} (h : ∀ p us, ts ≠ ⟨.comma, p⟩ :: us) :
    furtherConstants ts = .ok ([], ts) := by
  rw [furtherConstants.eq_def]
  split
  · next p => exact absurd rfl (h p [])
  · next p t us => exact absurd rfl (h p (t :: us))
  · rfl

/-! ## Rules that nest -/

/-- A group takes a level of the room for what it encloses, and both parentheses. -/
theorem group_succ (room p : Nat) (ts : List Placed) :
    Expr.group (room + 1) (⟨.leftParen, p⟩ :: ts) =
      disjunction room ts >>= fun (e, ts) => rightParen ts >>= fun (_, ts) => .ok (e, ts) := by
  rw [Expr.group]

/-- A field or a literal. -/
def leaf? : Token → Option Expr
  | .identifier path => some (field path)
  | t => t.literal?.map literal

/-- A primary without parentheses is one token. -/
theorem primary_of_not_startsGroup {ts : List Placed} (h : startsGroup ts = false) (room : Nat) :
    Expr.primary room ts = takeToken leaf? .expression ts := by
  cases ts with
  | nil => rw [Expr.primary]; rfl
  | cons t ts =>
    obtain ⟨t, p⟩ := t
    cases t with
    | leftParen => cases h
    | keyword k =>
      rw [Expr.primary.eq_def]
      simp only [takeToken, leaf?]
      cases (Token.keyword k).literal? <;> rfl
    | _ => rw [Expr.primary.eq_def]; rfl

section Suffixes

variable (room : Nat) (left : Expr) (p : Nat) (ts : List Placed)

theorem suffix_sign (s : Sign) : Expr.suffix room left (⟨.sign s, p⟩ :: ts) =
    Expr.primary room ts >>= fun (right, ts) => .ok (comparison s left right, ts) := by
  rw [Expr.suffix]

theorem suffix_is : Expr.suffix room left (⟨.keyword .is, p⟩ :: ts) =
    nullTest ts >>= fun (negated, ts) => .ok (isNull left negated, ts) := by
  rw [Expr.suffix]

theorem suffix_between : Expr.suffix room left (⟨.keyword .between, p⟩ :: ts) =
    Expr.primary room ts >>= fun (low, ts) => keyword .and ts >>= fun (_, ts) =>
      Expr.primary room ts >>= fun (high, ts) => .ok (between left low high, ts) := by
  rw [Expr.suffix]

theorem suffix_among : Expr.suffix room left (⟨.keyword .among, p⟩ :: ts) =
    constants ts >>= fun (values, ts) => .ok (member left values false, ts) := by
  rw [Expr.suffix]

theorem suffix_like : Expr.suffix room left (⟨.keyword .like, p⟩ :: ts) =
    wildcardText ts >>= fun (text, ts) => .ok (like left text false, ts) := by
  rw [Expr.suffix]

theorem suffix_notAmong (q : Nat) :
    Expr.suffix room left (⟨.keyword .not, p⟩ :: ⟨.keyword .among, q⟩ :: ts) =
      constants ts >>= fun (values, ts) => .ok (member left values true, ts) := by
  rw [Expr.suffix]

theorem suffix_notLike (q : Nat) :
    Expr.suffix room left (⟨.keyword .not, p⟩ :: ⟨.keyword .like, q⟩ :: ts) =
      wildcardText ts >>= fun (text, ts) => .ok (like left text true, ts) := by
  rw [Expr.suffix]

/-- Where no operator comes next one was expected. -/
theorem suffix_of_not_startsSuffix (h : startsSuffix ts = false) :
    Expr.suffix room left ts = wanted .sign ts := by
  rw [Expr.suffix.eq_def]
  split
  case h_8 => rfl
  all_goals cases h

end Suffixes

/-- What an operator part begins with. A `NOT` belongs to it only with the word behind it. -/
inductive OperatorAhead : List Placed → Prop
  | sign (s : Sign) (p : Nat) (ts : List Placed) : OperatorAhead (⟨.sign s, p⟩ :: ts)
  | is (p : Nat) (ts : List Placed) : OperatorAhead (⟨.keyword .is, p⟩ :: ts)
  | between (p : Nat) (ts : List Placed) : OperatorAhead (⟨.keyword .between, p⟩ :: ts)
  | among (p : Nat) (ts : List Placed) : OperatorAhead (⟨.keyword .among, p⟩ :: ts)
  | like (p : Nat) (ts : List Placed) : OperatorAhead (⟨.keyword .like, p⟩ :: ts)
  | notAmong (p q : Nat) (ts : List Placed) :
    OperatorAhead (⟨.keyword .not, p⟩ :: ⟨.keyword .among, q⟩ :: ts)
  | notLike (p q : Nat) (ts : List Placed) :
    OperatorAhead (⟨.keyword .not, p⟩ :: ⟨.keyword .like, q⟩ :: ts)

/-- What a `NOT` of an operator stands before is `IN` or `LIKE`. -/
theorem startsNegatable_eq_true {ts : List Placed} (h : startsNegatable ts = true) :
    (∃ q us, ts = ⟨.keyword .among, q⟩ :: us) ∨ ∃ q us, ts = ⟨.keyword .like, q⟩ :: us := by
  unfold startsNegatable at h
  split at h
  · exact .inl ⟨_, _, rfl⟩
  · exact .inr ⟨_, _, rfl⟩
  · cases h

/-- An operator part begins in one of these ways. So what comes next can be told by cases, with the
tokens at hand. -/
theorem operatorAhead_of_startsSuffix {ts : List Placed} (h : startsSuffix ts = true) :
    OperatorAhead ts := by
  unfold startsSuffix at h
  split at h
  · exact .sign _ _ _
  · exact .is _ _
  · exact .between _ _
  · obtain ⟨q, us, rfl⟩ | ⟨q, us, rfl⟩ := startsNegatable_eq_true h
    · exact .notAmong _ q us
    · exact .notLike _ q us
  · obtain ⟨q, us, rfl⟩ | ⟨q, us, rfl⟩ := startsNegatable_eq_true h
    · exact .among q us
    · exact .like q us

/-- A comparison that begins with a group is the group alone, unless an operator follows. -/
theorem compared_of_startsGroup {ts : List Placed} (h : startsGroup ts = true) (room : Nat) :
    Expr.compared room ts = Expr.group room ts >>= fun (inner, ts) =>
      if startsSuffix ts then Expr.suffix room inner ts else .ok (inner, ts) := by
  rw [Expr.compared, if_pos h]

/-- Any other comparison has an operator. -/
theorem compared_of_not_startsGroup {ts : List Placed} (h : startsGroup ts = false) (room : Nat) :
    Expr.compared room ts =
      Expr.primary room ts >>= fun (left, ts) => Expr.suffix room left ts := by
  rw [Expr.compared, h]
  rfl

/-- A negation takes its `NOT` and a level of the room. -/
theorem negated_of_startsNegation {ts : List Placed} (h : startsNegation ts = true) (room : Nat) :
    negated (room + 1) ts =
      negated room ts.tail >>= fun (operand, ts) => .ok (negation operand, ts) := by
  rw [negated.eq_def, if_pos h]

/-- What is not negated is a comparison. -/
theorem negated_of_not_startsNegation {ts : List Placed} (h : startsNegation ts = false)
    (room : Nat) : negated room ts = Expr.compared room ts := by
  rw [negated.eq_def, h]
  rfl

end WhereRules.Expr
