import WhereRules.Expr.Parser
import WhereRules.Proofs.Grammar.Derivation

/-!
# Phrases and what surrounds them

What the readers of `Expr.Parser` go by, apart from the phrases that they read. What follows a phrase
must not continue it (`Phrase.stops`). The first tokens tell negations, comparisons and their
operator parts from one another. The rules that do not nest are read from their words, and the two
kinds of chain are read in one way (`ReadsChain`).
-/

namespace WhereRules.Expr

/-! ## Phrases and their readers -/

/-- The reader of a phrase. -/
def Phrase.reader : Phrase → Nat → List Placed → Except Stuck (Expr × List Placed)
  | .expr | .orExpr => disjunction
  | .andExpr => conjunction
  | .notExpr => negated
  | .comparison => Expr.compared
  | .suffix left => fun room ts => Expr.suffix room left ts
  | .primary => Expr.primary

/-- Whether a keyword comes next. -/
def startsWord (k : Keyword) : List Placed → Bool
  | ⟨.keyword j, _⟩ :: _ => j = k
  | _ => false

/-- Where a keyword comes next it is the first token. -/
theorem startsWord_eq_true {k : Keyword} {ts : List Placed} (h : startsWord k ts = true) :
    ∃ p us, ts = ⟨.keyword k, p⟩ :: us := by
  unfold startsWord at h
  split at h
  · next j p us => exact ⟨p, us, by rw [of_decide_eq_true h]⟩
  · cases h

/-- Whether a phrase ends before these tokens, whatever it is. -/
def Phrase.stops : Phrase → List Placed → Prop
  | .expr, ts | .orExpr, ts =>
    startsWord .or ts = false ∧ startsWord .and ts = false ∧ startsSuffix ts = false
  | .andExpr, ts => startsWord .and ts = false ∧ startsSuffix ts = false
  | .notExpr, ts | .comparison, ts => startsSuffix ts = false
  | .suffix _, _ | .primary, _ => True

/-! ## Placed tokens -/

/-- The tokens without their places. -/
def words (ps : List Placed) : List Token := ps.map Placed.token

theorem words_cons (t : Token) (p : Nat) (ps : List Placed) :
    words (⟨t, p⟩ :: ps) = t :: words ps := rfl

theorem words_append (ps qs : List Placed) : words (ps ++ qs) = words ps ++ words qs :=
  List.map_append

theorem length_words (ps : List Placed) : (words ps).length = ps.length := List.length_map ..

/-- Tokens whose words begin with a token begin with it, at some place. -/
theorem words_eq_cons {ps : List Placed} {t : Token} {ts : List Token} (h : words ps = t :: ts) :
    ∃ p qs, ps = ⟨t, p⟩ :: qs ∧ words qs = ts := by
  obtain ⟨⟨u, p⟩, qs, rfl, rfl, rfl⟩ := List.map_eq_cons_iff.mp h
  exact ⟨p, qs, rfl, rfl⟩

/-- Tokens whose words are in two stretches are in two stretches. -/
theorem words_eq_append {ps : List Placed} {ts us : List Token} (h : words ps = ts ++ us) :
    ∃ qs rs, ps = qs ++ rs ∧ words qs = ts ∧ words rs = us := by
  obtain ⟨qs, rs, rfl, hq, hr⟩ := List.map_eq_append_iff.mp h
  exact ⟨qs, rs, rfl, hq, hr⟩

/-- Tokens whose words are in parentheses are in parentheses. -/
theorem words_eq_inParens {ps : List Placed} {ts : List Token} (h : words ps = inParens ts) :
    ∃ p qs q, ps = ⟨.leftParen, p⟩ :: (qs ++ [⟨.rightParen, q⟩]) ∧ words qs = ts := by
  obtain ⟨p, rest, rfl, hrest⟩ := words_eq_cons h
  obtain ⟨qs, rs, rfl, hq, hr⟩ := words_eq_append hrest
  obtain ⟨q, empty, rfl, hn⟩ := words_eq_cons hr
  obtain rfl := List.map_eq_nil_iff.mp hn
  exact ⟨p, qs, q, rfl, hq⟩

/-! ## The first tokens decide -/

/-- What begins an expression is neither `IN` nor `LIKE`, the two words that a `NOT` belongs to. -/
theorem startsNegatable_of_beginsExpr {t : Token} (ht : beginsExpr t = true) (p : Nat)
    (rest : List Placed) : startsNegatable (⟨t, p⟩ :: rest) = false := by
  cases t with
  | keyword k =>
    cases k with
    | among | like => cases ht
    | _ => rfl
  | _ => rfl

/-- What begins a primary begins no negation. -/
theorem startsNegation_of_beginsPrimary {t : Token} (ht : beginsPrimary t = true) (p : Nat)
    (rest : List Placed) : startsNegation (⟨t, p⟩ :: rest) = false := by
  cases t with
  | keyword k =>
    cases k with
    | not => cases ht
    | _ => rfl
  | _ => rfl

/-- A negation begins with `NOT`. -/
theorem startsNegation_eq_true {ts : List Placed} (h : startsNegation ts = true) :
    ∃ p us, ts = ⟨.keyword .not, p⟩ :: us := by
  unfold startsNegation at h
  split at h
  · exact ⟨_, _, rfl⟩
  · cases h

/-- A group begins with a parenthesis. -/
theorem startsGroup_eq_true {ts : List Placed} (h : startsGroup ts = true) :
    ∃ p us, ts = ⟨.leftParen, p⟩ :: us := by
  unfold startsGroup at h
  split at h
  · exact ⟨_, _, rfl⟩
  · cases h

/-- A phrase that can stand after `NOT` is told apart from `NOT IN` and `NOT LIKE` by its first
token. -/
theorem startsNegatable_of_derives {ps : List Placed} {ts : List Token} {e : Expr}
    (h : Derives .notExpr ts e) (hps : words ps = ts) (rest : List Placed) :
    startsNegatable (ps ++ rest) = false := by
  obtain ⟨t, us, rfl, ht⟩ := h.beginsAs
  obtain ⟨p, qs, rfl, -⟩ := words_eq_cons hps
  exact startsNegatable_of_beginsExpr ht p _

/-- A comparison begins no negation. -/
theorem startsNegation_of_derives {ps : List Placed} {ts : List Token} {e : Expr}
    (h : Derives .comparison ts e) (hps : words ps = ts) (rest : List Placed) :
    startsNegation (ps ++ rest) = false := by
  obtain ⟨t, us, rfl, ht⟩ := h.beginsAs
  obtain ⟨p, qs, rfl, -⟩ := words_eq_cons hps
  exact startsNegation_of_beginsPrimary ht p _

/-- A suffix is told by its first token, or by its first two where the first is `NOT`. The grammar
has no other way to begin one. -/
theorem startsSuffix_of_derives {left e : Expr} {ps : List Placed} {ts : List Token}
    (h : Derives (.suffix left) ts e) (hps : words ps = ts) (rest : List Placed) :
    startsSuffix (ps ++ rest) = true := by
  cases h with
  | sign s _ =>
    obtain ⟨p, qs, rfl, -⟩ := words_eq_cons hps
    rfl
  | isNull _ | between _ _ =>
    obtain ⟨p, qs, rfl, -⟩ := words_eq_cons hps
    rfl
  | member negated _ _ | like negated _ =>
    cases negated with
    | false =>
      obtain ⟨p, qs, rfl, -⟩ := words_eq_cons hps
      rfl
    | true =>
      obtain ⟨p, qs, rfl, hqs⟩ := words_eq_cons hps
      obtain ⟨q, rs, rfl, -⟩ := words_eq_cons hqs
      rfl

/-! ## Rules without nesting -/

/-- A literal is read as the value that it denotes. -/
theorem constant_of_denotes {t : Token} {v : Value} (h : t.Denotes v) (p : Nat)
    (rest : List Placed) : constant (⟨t, p⟩ :: rest) = .ok (v, rest) := by
  simp only [constant, Token.literal?_eq_some_iff.mpr h]

/-- Literals behind commas are read one by one up to the closing parenthesis. -/
theorem furtherConstants_of_denotes {items : List (Token × Value)}
    (h : ∀ item ∈ items, item.1.Denotes item.2) {ps : List Placed}
    (hps : words ps = items.flatMap fun item => [.comma, item.1]) (q : Nat) (rest : List Placed) :
    furtherConstants (ps ++ ⟨.rightParen, q⟩ :: rest) =
      .ok (items.map (·.2), ⟨.rightParen, q⟩ :: rest) := by
  induction items generalizing ps with
  | nil =>
    obtain rfl := List.map_eq_nil_iff.mp hps
    rfl
  | cons item items ih =>
    obtain ⟨p₁, qs, rfl, hqs⟩ := words_eq_cons hps
    obtain ⟨p₂, rs, rfl, hrs⟩ := words_eq_cons hqs
    have head := Token.literal?_eq_some_iff.mpr (h item List.mem_cons_self)
    have tail := ih (fun i hi => h i (List.mem_cons_of_mem _ hi)) hrs
    simp only [List.cons_append, furtherConstants, head, tail, Except.map, List.map_cons]

/-- What `IN` encloses is read with its parentheses, as the values that the literals denote. -/
theorem constants_of_denotes {t : Token} {v : Value} {items : List (Token × Value)}
    (ht : t.Denotes v) (hitems : ∀ item ∈ items, item.1.Denotes item.2) {ps : List Placed}
    (hps : words ps = inParens (t :: items.flatMap fun item => [.comma, item.1]))
    (rest : List Placed) : constants (ps ++ rest) = .ok (v :: items.map (·.2), rest) := by
  obtain ⟨p, qs, q, rfl, hqs⟩ := words_eq_inParens hps
  obtain ⟨p₁, rs, rfl, hrs⟩ := words_eq_cons hqs
  have further := furtherConstants_of_denotes hitems hrs q rest
  simp only [constants, leftParen, List.cons_append, List.append_assoc, List.nil_append,
    constant_of_denotes ht, further, rightParen, bind, Except.bind]

/-- What follows `IS` is read with its `NOT`, if it has one. -/
theorem nullTest_of_words {negated : Bool} {ps : List Placed}
    (hps : words ps = notTokens negated ++ [.keyword .null]) (rest : List Placed) :
    nullTest (ps ++ rest) = .ok (negated, rest) := by
  cases negated with
  | false =>
    obtain ⟨p, qs, rfl, hqs⟩ := words_eq_cons hps
    obtain rfl := List.map_eq_nil_iff.mp hqs
    rfl
  | true =>
    obtain ⟨p, qs, rfl, hqs⟩ := words_eq_cons hps
    obtain ⟨q, rs, rfl, hrs⟩ := words_eq_cons hqs
    obtain rfl := List.map_eq_nil_iff.mp hrs
    rfl

/-! ## Chains -/

/-- How a chain is read: its first operand, and then, as long as its word comes next and there is
room for it, one more operand with one level less, which is joined to the left. Disjunctions and
conjunctions are read in this one way, and what is proved of it is proved of both. -/
structure ReadsChain (k : Keyword) (join : Expr → Expr → Expr)
    (operand whole : Nat → List Placed → Except Stuck (Expr × List Placed))
    (further : Nat → Expr → List Placed → Except Stuck (Expr × List Placed)) : Prop where
  start : ∀ room ts, whole room ts = do
    let (first, ts) ← operand room ts
    further room first ts
  stop : ∀ room left ts, startsWord k ts = false → further room left ts = .ok (left, ts)
  full : ∀ left p ts, further 0 left (⟨.keyword k, p⟩ :: ts) =
    .error ⟨.noRoom, ⟨.keyword k, p⟩ :: ts⟩
  step : ∀ room left p ts, further (room + 1) left (⟨.keyword k, p⟩ :: ts) = do
    let (right, ts) ← operand room ts
    further room (join left right) ts

/-- A disjunction is a chain of conjunctions. -/
theorem readsChain_disjunction :
    ReadsChain .or either conjunction disjunction disjunctionRest where
  start room ts := by rw [disjunction]
  stop room left ts h := by
    rw [disjunctionRest.eq_def]
    split
    · simp only [startsWord, decide_true, Bool.true_eq_false] at h
    · rfl
  full left p ts := by rw [disjunctionRest]
  step room left p ts := by rw [disjunctionRest]

/-- A conjunction is a chain of negated or plain comparisons. -/
theorem readsChain_conjunction : ReadsChain .and both negated conjunction conjunctionRest where
  start room ts := by rw [conjunction]
  stop room left ts h := by
    rw [conjunctionRest.eq_def]
    split
    · simp only [startsWord, decide_true, Bool.true_eq_false] at h
    · rfl
  full left p ts := by rw [conjunctionRest]
  step room left p ts := by rw [conjunctionRest]

/-- A primary that begins with a parenthesis is a group. -/
theorem primary_of_startsGroup {room : Nat} {ts : List Placed} (h : startsGroup ts = true) :
    Expr.primary room ts = Expr.group room ts := by
  cases ts with
  | nil => cases h
  | cons t ts =>
    obtain ⟨t, p⟩ := t
    cases t with
    | leftParen => rw [primary]
    | _ => cases h

end WhereRules.Expr
