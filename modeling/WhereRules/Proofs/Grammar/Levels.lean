import WhereRules.Proofs.Grammar.Counts
import WhereRules.Proofs.Grammar.Phrases

/-!
# The room that reading takes

The reader of a phrase needs just the room that the largest count says. With less it stops at the
first token whose count is beyond its room, whatever comes after that token (`Leveled.answers`). So a
stream that the grammar derives is read as its tree if its level is within the limit, and is refused
at a known place otherwise (`ofTokens_of_leveled`).

Two things are said of a reader at once, when it succeeds and where it stops, because the parts of a
phrase are read one after the other: the first part that runs out of room is where the whole phrase
does (`outcome_bind`).
-/

namespace WhereRules.Expr

/-! ## Answers -/

/-- What a reader answers that may run out of room: it is stuck at the tokens where it did, or else
answers. -/
def outcome {α : Type} (stuck : Option (List Placed)) (answer : α) : Except Stuck α :=
  match stuck with
  | some ts => .error ⟨.noRoom, ts⟩
  | none => .ok answer

/-- The first of two steps that runs out of room is where both do. -/
theorem outcome_bind {α β : Type} {s t : Option (List Placed)} {a : α} {b : β}
    {f : α → Except Stuck β} (h : f a = outcome t b) : outcome s a >>= f = outcome (s.or t) b := by
  cases s with
  | some ts => rfl
  | none => exact h

/-- A second step that does not run out of room leaves it to the first. -/
theorem outcome_bind_ok {α β : Type} {s : Option (List Placed)} {a : α} {b : β}
    {f : α → Except Stuck β} (h : f a = .ok b) : outcome s a >>= f = outcome s b := by
  cases s with
  | some ts => rfl
  | none => exact h

/-- A reader reads counted tokens as the tree wherever the phrase stops behind them, as far as its
room goes. -/
def Answers (reader : Nat → List Placed → Except Stuck (Expr × List Placed)) (phrase : Phrase)
    (lts : Counted) (e : Expr) : Prop :=
  ∀ (ps rest : List Placed) (room : Nat), words ps = lts.plain → phrase.stops rest →
    reader room (ps ++ rest) = outcome (lts.overflow? room (ps ++ rest)) (e, rest)

theorem length_eq_of_words {ps : List Placed} {lts : Counted} (h : words ps = lts.plain) :
    ps.length = lts.length := by
  rw [← length_words, h, Counted.plain, List.length_map]

/-- Counted tokens in two stretches. Where the room runs out is told by the counts of the first
stretch, and only then by those of the second. -/
theorem overflow?_append {lts mts : Counted} {ps : List Placed} (h : words ps = lts.plain)
    (room : Nat) (rest : List Placed) : (lts ++ mts).overflow? room (ps ++ rest) =
      (lts.overflow? room (ps ++ rest)).or (mts.overflow? room rest) :=
  Counted.overflow?_append (length_eq_of_words h) rest

/-! ### Chains -/

section Chains

variable {k : Keyword} {join : Expr → Expr → Expr}
  {operand whole : Nat → List Placed → Except Stuck (Expr × List Placed)}
  {further : Nat → Expr → List Placed → Except Stuck (Expr × List Placed)}
  {phrase : Phrase}

/-- Behind an operand comes the chain's word again, or what follows the chain. Either way the
operand ends there. -/
theorem stops_chained (hword : ∀ p ts, phrase.stops (⟨.keyword k, p⟩ :: ts))
    {parts : List Counted} {ps rest : List Placed} (hps : words ps = (Counted.chained k parts).plain)
    (hrest : phrase.stops rest) : phrase.stops (ps ++ rest) := by
  cases parts with
  | nil =>
    obtain rfl := List.map_eq_nil_iff.mp hps
    exact hrest
  | cons part parts =>
    rw [Counted.chained, Counted.plain_opens] at hps
    obtain ⟨p, _, rfl, _⟩ := words_eq_cons hps
    exact hword p _

/-- The operands of a chain after its first are read one by one, each with one level less, and
folded to the left. -/
theorem ReadsChain.answers_further (chain : ReadsChain k join operand whole further)
    (hword : ∀ p ts, phrase.stops (⟨.keyword k, p⟩ :: ts)) {parts : List (Counted × Expr)}
    (hparts : ∀ part ∈ parts, Answers operand phrase part.1 part.2) {ps rest : List Placed}
    {room : Nat} {left : Expr} (hps : words ps = (Counted.chained k (parts.map Prod.fst)).plain)
    (hrest : startsWord k rest = false) (hstops : phrase.stops rest) :
    further room left (ps ++ rest) =
      outcome ((Counted.chained k (parts.map Prod.fst)).overflow? room (ps ++ rest))
        (parts.foldl (fun left part => join left part.2) left, rest) := by
  -- On the operands still to come; what was read so far has been joined into the left side.
  induction parts generalizing ps room left with
  | nil =>
    obtain rfl := List.map_eq_nil_iff.mp hps
    exact chain.stop room left rest hrest
  | cons part parts ih =>
    rw [List.map_cons, Counted.chained] at hps ⊢
    rw [Counted.plain_opens, Counted.plain_append] at hps
    obtain ⟨p, tail, rfl, htail⟩ := words_eq_cons hps
    obtain ⟨qs, rs, rfl, hqs, hrs⟩ := words_eq_append htail
    cases room with
    | zero =>
      rw [List.cons_append, chain.full, Counted.overflow?_opens_zero]
      rfl
    | succ room =>
      obtain ⟨hpart, hparts⟩ := List.forall_mem_cons.mp hparts
      rw [List.cons_append, chain.step, Counted.overflow?_opens_succ, List.append_assoc,
        overflow?_append hqs, hpart qs (rs ++ rest) room hqs (stops_chained hword hrs hstops)]
      exact outcome_bind (ih hparts hrs)

/-- A chain is read as its operands are, whatever phrase it is. Its operands after the first are
read in less and less room, as their counts are deeper and deeper. -/
theorem ReadsChain.answers (chain : ReadsChain k join operand whole further) {phrase' : Phrase}
    {lts : Counted} {e : Expr} {parts : List (Counted × Expr)}
    (hfirst : Answers operand phrase lts e)
    (hparts : ∀ part ∈ parts, Answers operand phrase part.1 part.2)
    (hword : ∀ p ts, phrase.stops (⟨.keyword k, p⟩ :: ts))
    (hstops : ∀ rest, phrase'.stops rest → startsWord k rest = false ∧ phrase.stops rest) :
    Answers whole phrase' (lts ++ Counted.chained k (parts.map Prod.fst))
      (parts.foldl (fun left part => join left part.2) e) := by
  intro ps rest room hps hrest
  obtain ⟨hnot, hrest⟩ := hstops rest hrest
  rw [Counted.plain_append] at hps
  obtain ⟨qs, rs, rfl, hqs, hrs⟩ := words_eq_append hps
  rw [chain.start, List.append_assoc, overflow?_append hqs,
    hfirst qs (rs ++ rest) room hqs (stops_chained hword hrs hrest)]
  exact outcome_bind (chain.answers_further hword hparts hrs hnot hrest)

end Chains

/-! ### Groups and comparisons -/

/-- An expression in parentheses is read by what reads the expression. The parenthesis is the first
token that may want more room than there is. -/
theorem group_of_answers {lts : Counted} {e : Expr} (h : Answers disjunction .expr lts e)
    {ps : List Placed} (hps : words ps = lts.grouped.plain) (rest : List Placed) (room : Nat) :
    Expr.group room (ps ++ rest) = outcome (lts.grouped.overflow? room (ps ++ rest)) (e, rest) := by
  rw [Counted.plain_grouped] at hps
  obtain ⟨p, qs, q, rfl, hqs⟩ := words_eq_inParens hps
  rw [List.cons_append, List.append_assoc, List.singleton_append, Counted.grouped]
  cases room with
  | zero =>
    rw [Expr.group, Counted.overflow?_opens_zero]
    rfl
  | succ room =>
    have hparen : Counted.overflow? room [(.rightParen, 0)] (⟨.rightParen, q⟩ :: rest) = none :=
      Counted.overflow?_flat [.rightParen] _
    rw [Expr.group, Counted.overflow?_opens_succ, overflow?_append hqs, hparen, Option.or_none,
      h qs (⟨.rightParen, q⟩ :: rest) room hqs ⟨rfl, rfl, rfl⟩]
    exact outcome_bind_ok rfl

theorem startsGroup_of_words {ps : List Placed} {ts : List Token} (hps : words ps = inParens ts)
    (rest : List Placed) : startsGroup (ps ++ rest) = true := by
  obtain ⟨p, qs, q, rfl, -⟩ := words_eq_inParens hps
  rfl

/-- A primary in parentheses is read as a group. -/
theorem answers_primary_of_group {lts : Counted} {e : Expr} (h : Answers disjunction .expr lts e) :
    Answers Expr.primary .primary lts.grouped e := by
  intro ps rest room hps _
  have hgroup : startsGroup (ps ++ rest) = true :=
    startsGroup_of_words (hps.trans (Counted.plain_grouped lts)) rest
  rw [primary_of_startsGroup hgroup]
  exact group_of_answers h hps rest room

/-- A comparison with an operator part is its left side and then its operator part, also where the
left side stands in parentheses. So the two ways in which the grammar derives such a comparison are
read in one way. -/
theorem compared_of_primary {room : Nat} {ts us : List Placed} {left : Expr}
    {s : Option (List Placed)} (h : Expr.primary room ts = outcome s (left, us))
    (hsuffix : startsSuffix us = true) :
    Expr.compared room ts = outcome s (left, us) >>= fun (left, us) => Expr.suffix room left us := by
  rw [Expr.compared]
  by_cases hgroup : startsGroup ts = true
  · rw [if_pos hgroup, ← primary_of_startsGroup hgroup, h]
    cases s with
    | some _ => rfl
    | none => exact if_pos hsuffix
  · rw [if_neg hgroup, h]

/-- A left side and its operator part make a comparison. -/
theorem answers_compared {lts mts : Counted} {left e : Expr}
    (hleft : Answers Expr.primary .primary lts left) (hsuffix : Derives (.suffix left) mts.plain e)
    (h : Answers (fun room => Expr.suffix room left) (.suffix left) mts e) :
    Answers Expr.compared .comparison (lts ++ mts) e := by
  intro ps rest room hps _
  rw [Counted.plain_append] at hps
  obtain ⟨qs, rs, rfl, hqs, hrs⟩ := words_eq_append hps
  rw [List.append_assoc, overflow?_append hqs, compared_of_primary
    (hleft qs (rs ++ rest) room hqs trivial) (startsSuffix_of_derives hsuffix hrs rest)]
  exact outcome_bind (h rs rest room hrs trivial)

/-- Parentheses that are no left side are what stands in them. -/
theorem answers_groupAlone {lts : Counted} {e : Expr} (h : Answers disjunction .expr lts e) :
    Answers Expr.compared .comparison lts.grouped e := by
  intro ps rest room hps hstops
  have hgroup : startsGroup (ps ++ rest) = true :=
    startsGroup_of_words (hps.trans (Counted.plain_grouped lts)) rest
  have hstops : ¬ startsSuffix rest = true := Bool.not_eq_true _ ▸ hstops
  rw [Expr.compared, if_pos hgroup, group_of_answers h hps rest room]
  exact outcome_bind_ok (if_neg hstops)

/-- `NOT` before a phrase that it can negate opens a level, and the phrase is read in the room that
is left. -/
theorem answers_not {lts : Counted} {e : Expr} (hinner : Derives .notExpr lts.plain e)
    (h : Answers negated .notExpr lts e) :
    Answers negated .notExpr (Counted.opens (.keyword .not) lts) (negation e) := by
  intro ps rest room hps hstops
  rw [Counted.plain_opens] at hps
  obtain ⟨p, qs, rfl, hqs⟩ := words_eq_cons hps
  have hneg : startsNegation (⟨.keyword .not, p⟩ :: (qs ++ rest)) = true := by
    simp only [startsNegation, startsNegatable_of_derives hinner hqs rest, Bool.not_false]
  rw [List.cons_append, negated.eq_def, if_pos hneg]
  cases room with
  | zero => rfl
  | succ room =>
    rw [Counted.overflow?_opens_succ]
    simp only [List.tail_cons, h qs rest room hqs hstops]
    exact outcome_bind_ok rfl

/-- What does not begin with a `NOT` of its own is a comparison. -/
theorem answers_notNegated {lts : Counted} {e : Expr} (hinner : Derives .comparison lts.plain e)
    (h : Answers Expr.compared .comparison lts e) : Answers negated .notExpr lts e := by
  intro ps rest room hps hstops
  have hneg : ¬ startsNegation (ps ++ rest) = true := by
    rw [startsNegation_of_derives hinner hps rest]
    exact Bool.false_ne_true
  rw [negated.eq_def, if_neg hneg]
  exact h ps rest room hps hstops

/-! ### Operator parts -/

/-- What is read without levels is read in any room. -/
theorem answers_of_flat {reader : Nat → List Placed → Except Stuck (Expr × List Placed)}
    {phrase : Phrase} {ts : List Token} {e : Expr}
    (h : ∀ (ps rest : List Placed) (room : Nat), words ps = ts →
      reader room (ps ++ rest) = .ok (e, rest)) : Answers reader phrase (Counted.flat ts) e := by
  intro ps rest room hps _
  rw [Counted.overflow?_flat]
  exact h ps rest room (hps.trans (Counted.plain_flat ts))

section Suffixes

variable {left : Expr}

/-- Behind a sign stands the right side. -/
theorem answers_sign (s : Sign) {lts : Counted} {e : Expr}
    (h : Answers Expr.primary .primary lts e) :
    Answers (fun room => Expr.suffix room left) (.suffix left) (Counted.flat [.sign s] ++ lts)
      (comparison s left e) := by
  intro ps rest room hps _
  obtain ⟨p, qs, rfl, hqs⟩ := words_eq_cons hps
  simp only [List.cons_append, Expr.suffix, Counted.overflow?_flat_append,
    h qs rest room hqs trivial]
  exact outcome_bind_ok rfl

/-- `IS NULL` and `IS NOT NULL` open no level. -/
theorem answers_isNull (negated : Bool) :
    Answers (fun room => Expr.suffix room left) (.suffix left)
      (Counted.flat (.keyword .is :: notTokens negated ++ [.keyword .null]))
      (isNull left negated) := by
  refine answers_of_flat fun ps rest room hps => ?_
  obtain ⟨p, qs, rfl, hqs⟩ := words_eq_cons hps
  simp only [List.cons_append, Expr.suffix, nullTest_of_words hqs, bind, Except.bind]

/-- The bounds are primaries, so the `AND` between them is read before a conjunction can be. No
level is opened for it. -/
theorem answers_between {lts mts : Counted} {low high : Expr}
    (hlow : Answers Expr.primary .primary lts low)
    (hhigh : Answers Expr.primary .primary mts high) :
    Answers (fun room => Expr.suffix room left) (.suffix left)
      (Counted.flat [.keyword .between] ++ (lts ++ (Counted.flat [.keyword .and] ++ mts)))
      (between left low high) := by
  intro ps rest room hps _
  simp only [Counted.plain_append, Counted.plain_flat, List.singleton_append] at hps
  obtain ⟨p, tail, rfl, htail⟩ := words_eq_cons hps
  obtain ⟨qs, tail', rfl, hqs, htail'⟩ := words_eq_append htail
  obtain ⟨q, rs, rfl, hrs⟩ := words_eq_cons htail'
  simp only [List.cons_append, List.append_assoc, Expr.suffix, Counted.overflow?_flat_append,
    overflow?_append hqs, hlow qs (⟨.keyword .and, q⟩ :: (rs ++ rest)) room hqs trivial]
  refine outcome_bind ?_
  show (Expr.primary room (rs ++ rest) >>= fun (high, ts) => .ok (between left low high, ts)) = _
  rw [hhigh rs rest room hrs trivial]
  exact outcome_bind_ok rfl

/-- `IN` and its values open no level, in spite of the parentheses. -/
theorem answers_member (negated : Bool) {t : Token} {v : Value} {items : List (Token × Value)}
    (ht : t.Denotes v) (hitems : ∀ item ∈ items, item.1.Denotes item.2) :
    Answers (fun room => Expr.suffix room left) (.suffix left)
      (Counted.flat (notTokens negated ++ .keyword .among ::
        inParens (t :: items.flatMap fun item => [.comma, item.1])))
      (member left (v :: items.map (·.2)) negated) := by
  refine answers_of_flat fun ps rest room hps => ?_
  obtain ⟨qs, tail, rfl, hqs, htail⟩ := words_eq_append hps
  obtain ⟨q, rs, rfl, hrs⟩ := words_eq_cons htail
  have values := constants_of_denotes ht hitems hrs rest
  cases negated with
  | false =>
    obtain rfl := List.map_eq_nil_iff.mp hqs
    simp only [List.nil_append, List.cons_append, Expr.suffix, values, bind, Except.bind]
  | true =>
    obtain ⟨p, empty, rfl, hn⟩ := words_eq_cons hqs
    obtain rfl := List.map_eq_nil_iff.mp hn
    simp only [List.nil_append, List.cons_append, Expr.suffix, values, bind, Except.bind]

/-- `LIKE` and its text open no level. -/
theorem answers_like (negated : Bool) (text : String) :
    Answers (fun room => Expr.suffix room left) (.suffix left)
      (Counted.flat (notTokens negated ++ [.keyword .like, .string text]))
      (like left text negated) := by
  refine answers_of_flat fun ps rest room hps => ?_
  obtain ⟨qs, tail, rfl, hqs, htail⟩ := words_eq_append hps
  obtain ⟨q, tail', rfl, htail'⟩ := words_eq_cons htail
  obtain ⟨r, empty, rfl, hn⟩ := words_eq_cons htail'
  obtain rfl := List.map_eq_nil_iff.mp hn
  cases negated with
  | false =>
    obtain rfl := List.map_eq_nil_iff.mp hqs
    simp only [List.nil_append, List.cons_append, Expr.suffix, wildcardText, bind, Except.bind]
  | true =>
    obtain ⟨p, empty, rfl, hp⟩ := words_eq_cons hqs
    obtain rfl := List.map_eq_nil_iff.mp hp
    simp only [List.nil_append, List.cons_append, Expr.suffix, wildcardText, bind, Except.bind]

end Suffixes

/-! ### Primaries of one token -/

/-- A literal is read as itself. -/
theorem answers_literal {t : Token} {v : Value} (h : t.Denotes v) :
    Answers Expr.primary .primary (Counted.flat [t]) (literal v) := by
  refine answers_of_flat fun ps rest room hps => ?_
  obtain ⟨p, qs, rfl, hqs⟩ := words_eq_cons hps
  obtain rfl := List.map_eq_nil_iff.mp hqs
  cases h <;>
    simp only [List.cons_append, List.nil_append, Expr.primary, Token.literal?, Keyword.value?]

/-- A field is read as a primary in any room. -/
theorem answers_field (path : String) :
    Answers Expr.primary .primary (Counted.flat [.identifier path]) (field path) := by
  refine answers_of_flat fun ps rest room hps => ?_
  obtain ⟨p, qs, rfl, hqs⟩ := words_eq_cons hps
  obtain rfl := List.map_eq_nil_iff.mp hqs
  simp only [List.cons_append, List.nil_append, Expr.primary]

/-! ### All phrases -/

/-- **The reader of a phrase reads it as far as its room goes**: it answers the tree if no count is
beyond the room, and otherwise stops at the first token whose count is. By induction on the counted
derivation, with one of the lemmas above for each rule. -/
theorem Leveled.answers {phrase : Phrase} {lts : Counted} {e : Expr} (h : Leveled phrase lts e) :
    Answers phrase.reader phrase lts e := by
  induction h with
  | expr _ ih => exact ih
  | orExpr _ _ ih ihparts =>
    exact readsChain_disjunction.answers ih ihparts (fun _ _ => ⟨rfl, rfl⟩) (fun _ h => h)
  | andExpr _ _ ih ihparts =>
    exact readsChain_conjunction.answers ih ihparts (fun _ _ => rfl) (fun _ h => h)
  | not hinner ih => exact answers_not hinner.derives ih
  | notNegated hinner ih => exact answers_notNegated hinner.derives ih
  | groupAlone _ ih => exact answers_groupAlone ih
  | groupCompared _ hsuffix ih ihsuffix =>
    exact answers_compared (answers_primary_of_group ih) hsuffix.derives ihsuffix
  | compared _ hsuffix ih ihsuffix => exact answers_compared ih hsuffix.derives ihsuffix
  | sign s _ ih => exact answers_sign s ih
  | isNull negated => exact answers_isNull negated
  | between _ _ ihlow ihhigh => exact answers_between ihlow ihhigh
  | member negated ht hitems => exact answers_member negated ht hitems
  | like negated text => exact answers_like negated text
  | group _ ih => exact answers_primary_of_group ih
  | literal h => exact answers_literal h
  | field path => exact answers_field path

/-! ## Whole streams -/

/-- **A stream is read as its tree if its level is within the limit**, and otherwise refused at the
first token that opens a level too many. -/
theorem ofTokens_of_leveled {lts : Counted} {e : Expr} (h : Leveled .expr lts e)
    {stream : TokenStream} (hwords : words stream.tokens = lts.plain) (limit : Nat) :
    ofTokens limit stream =
      match lts.overflow? limit stream.tokens with
      | some ts => .error (Stuck.error ⟨.noRoom, ts⟩ limit stream.stop)
      | none => .ok e := by
  have hread := h.answers stream.tokens [] limit hwords ⟨rfl, rfl, rfl⟩
  rw [List.append_nil] at hread
  rw [ofTokens, show disjunction limit stream.tokens = _ from hread]
  cases lts.overflow? limit stream.tokens with
  | some ts => rfl
  | none => rfl

/-- Whatever was left when the room ran out, the error is that the text nests too deep. -/
theorem exists_error_noRoom (ts : List Placed) (limit stop : Nat) :
    ∃ position, Stuck.error ⟨.noRoom, ts⟩ limit stop = .tooDeep limit position := by
  cases ts with
  | nil => exact ⟨stop, rfl⟩
  | cons t _ => exact ⟨t.position, rfl⟩

end WhereRules.Expr
