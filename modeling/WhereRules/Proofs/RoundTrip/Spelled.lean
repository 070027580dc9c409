import WhereRules.Proofs.Grammar.Trees
import WhereRules.Proofs.RoundTrip.Compiled
import WhereRules.Proofs.Spelling.Tokens
import WhereRules.Proofs.Wildcard.Inversion
import WhereRules.Proofs.Writing.Steps

/-!
# Written tokens spell the predicate

The tokens that a predicate is written with are derived by the grammar, and the tree that they stand
for compiles to what the predicate reads back as (`spells_of_written`). The tree is in general not
the expression that the tokens were taken from, so nothing is said of that expression but its
tokens: what is followed from the operands to the whole is that tokens spell a predicate (`Spells`).

Every connective puts its operands down as phrases that it can have as operands. This is where the
parentheses matter: an operand that binds too loosely is put in them, and one that does not is a
phrase already.
-/

namespace WhereRules

/-- The text that a wildcard pattern is written as has that pattern. It is the text that the pattern
came from, for patterns can be told back. -/
theorem Pattern.IsWildcard.ofText?_toRegex {pattern : Pattern} {text : String}
    (h : pattern.IsWildcard) (hlike : Like.ofRegex? pattern.source = some text) :
    Pattern.ofText? (Like.toRegex text) = some pattern := by
  obtain ⟨like, hsource⟩ := h
  rw [hsource, Like.ofRegex?_toRegex] at hlike
  rw [← Option.some.inj hlike, ← hsource, Pattern.ofText?_source]

namespace Expr

/-! ## Trees that compile whatever the limit -/

/-- Whether an expression compiles to a predicate in any room that is no less than its size. -/
def CompilesTo (e : Expr) (p : Predicate) : Prop :=
  ∀ limit room, e.size ≤ room → condition FieldPolicy.any.resolve limit room e = .ok p

/-- Whether an expression is an operand in any room that is no less than its size. -/
def CompilesToOperand (e : Expr) (o : Operand) : Prop :=
  ∀ limit room, e.size ≤ room →
    CompilesOperand FieldPolicy.any.resolve
      (fun e p => condition FieldPolicy.any.resolve limit room e = .ok p) e o

/-- An expression compiles whatever the limit, if its level does with one room less. Every
expression has a size of one at least, so there is a level of room to take. -/
theorem compilesTo_of_level {e : Expr} {p : Predicate}
    (h : ∀ limit room, e.size ≤ room + 1 →
      Compiles FieldPolicy.any.resolve
        (fun e p => condition FieldPolicy.any.resolve limit room e = .ok p) e p) :
    e.CompilesTo p := by
  intro limit room hsize
  cases room with
  | zero => exact absurd hsize (Nat.not_le_of_lt e.size_pos)
  | succ room => exact condition_succ_eq_ok.mpr (h limit room hsize)

/-- What compiles whatever the limit was compiled by one of the rules, with the inside in any room
that is no less than its size. -/
theorem CompilesTo.level {e : Expr} {p : Predicate} (h : e.CompilesTo p) {limit room : Nat}
    (hsize : e.size ≤ room) :
    Compiles FieldPolicy.any.resolve
      (fun e p => condition FieldPolicy.any.resolve limit room e = .ok p) e p :=
  condition_succ_eq_ok.mp (h limit (room + 1) (Nat.le_succ_of_le hsize))

/-- A condition that compiles is an operand, the decision of its predicate. -/
theorem CompilesTo.decision {e : Expr} {p : Predicate} (h : e.CompilesTo p) :
    e.CompilesToOperand (.decision p) := by
  intro limit room hsize
  have hcompiled := h limit room hsize
  exact .decision (isCondition_of_condition hcompiled) hcompiled

/-- The operands that an expression brings into a chain compile to those its predicate brings. So
opening on the side of expressions and opening on the side of predicates are the same. -/
theorem CompilesTo.flatten {c : Connective} (hc : c ≠ .not) {e : Expr} {p : Predicate}
    (h : e.CompilesTo p) {limit room : Nat} (hsize : e.size ≤ room) :
    List.Forall₂ (fun e p => condition FieldPolicy.any.resolve limit room e = .ok p)
      (flatten c [e]) (p.opened c) := by
  by_cases hcont : e.continues c = true
  · obtain ⟨operands, rfl⟩ := eq_logical_of_continues hcont
    rw [flatten_logical_self, List.append_nil]
    cases h.level hsize with
    | chain _ hps =>
      cases c with
      | and | or => exact hps
      | not => exact absurd rfl hc
    | negation _ => exact absurd rfl hc
  · have hnot : e.continues c = false := Bool.eq_false_iff.mpr hcont
    have hp : p.continues c = false := by
      rw [continues_of_condition hc (h 0 room hsize), hnot]
    rw [flatten_of_not_continues hnot, Expr.flatten, Predicate.opened_of_not_continues hp]
    exact .cons (h limit room hsize) .nil

/-- An operation of a connective compiles to one chain of the operands of both sides. The parser
makes such operations one by one from left to right. -/
theorem compilesTo_joined {c : Connective} (hc : c ≠ .not) {e f : Expr} {es : List Expr}
    {p q : Predicate} (he : e.CompilesTo p) (hf : f.CompilesTo q)
    (hflatten : flatten c es = flatten c [e] ++ flatten c [f])
    (hsize : (logical c es).size = e.size + f.size + 1) :
    (logical c es).CompilesTo (Predicate.joined c p q) := by
  refine compilesTo_of_level fun limit room hroom => ?_
  obtain ⟨first, rest, hopened, hjoined⟩ := Predicate.joined_eq_chain c p q
  rw [hjoined]
  refine .chain hc ?_
  rw [hflatten, ← List.cons_append, ← hopened]
  exact List.rel_append (he.flatten hc (by omega)) (hf.flatten hc (by omega))

/-! ## Spelling -/

/-- Whether tokens are a phrase that compiles to a predicate, and can be read back one by one. -/
structure Spells (phrase : Phrase) (ts : List Token) (p : Predicate) : Prop where
  legible : ∀ t ∈ ts, t.Legible
  tree : ∃ e, Derives phrase ts e ∧ e.CompilesTo p

/-- The same for an operand. -/
structure SpellsOperand (ts : List Token) (o : Operand) : Prop where
  legible : ∀ t ∈ ts, t.Legible
  tree : ∃ e, Derives .primary ts e ∧ e.CompilesToOperand o

theorem legible_notTokens (negated : Bool) : ∀ t ∈ notTokens negated, t.Legible := by
  cases negated with
  | false => exact List.forall_mem_nil _
  | true => exact List.forall_mem_singleton.mpr trivial

/-! ## Phrases within phrases -/

/-- Tokens that spell a predicate as one phrase spell it as every phrase that the tree is derived
as. -/
theorem Spells.of_derives {phrase phrase' : Phrase} {ts : List Token} {p : Predicate}
    (hderives : ∀ e, Derives phrase ts e → Derives phrase' ts e) (h : Spells phrase ts p) :
    Spells phrase' ts p := by
  obtain ⟨legible, e, he, hcompiles⟩ := h
  exact ⟨legible, e, hderives e he, hcompiles⟩

end Expr

/-- The phrase that a connective makes. -/
def Connective.phrase : Connective → Expr.Phrase
  | .and => .andExpr
  | .or => .orExpr
  | .not => .notExpr

/-- The phrases that a connective takes as operands. -/
def Connective.operandPhrase : Connective → Expr.Phrase
  | .and => .notExpr
  | .or => .andExpr
  | .not => .notExpr

namespace Expr

/-- What `AND` or `OR` makes is a chain of what it takes, which is how the grammar says it. -/
theorem derives_phrase_iff {c : Connective} (hc : c ≠ .not) {ts : List Token} {e : Expr} :
    Derives c.phrase ts e ↔ Chains c c.operandPhrase ts e := by
  cases c with
  | and => exact derives_andExpr_iff
  | or => exact derives_orExpr_iff
  | not => exact absurd rfl hc

/-- A chain may have one operand only. Then there is no word of the connective and the tree is that
of the operand. -/
theorem derives_phrase_of_operand {c : Connective} {ts : List Token} {e : Expr}
    (h : Derives c.operandPhrase ts e) : Derives c.phrase ts e := by
  by_cases hc : c = .not
  · subst hc
    exact h
  · exact (derives_phrase_iff hc).mpr
      ⟨ts, e, [], h, List.forall_mem_nil _, (List.append_nil ts).symm, rfl⟩

/-- What can stand under `NOT` can stand under every connective: `NOT` is the one that binds
tightest. -/
theorem derives_phrase_of_notExpr {ts : List Token} {e : Expr} (h : Derives .notExpr ts e)
    (c : Connective) : Derives c.phrase ts e := by
  have hand : Derives Connective.and.phrase ts e := derives_phrase_of_operand h
  cases c with
  | and => exact hand
  | or => exact derives_phrase_of_operand (c := .or) hand
  | not => exact h

/-- What any connective makes is an expression. -/
theorem derives_expr_of_phrase {c : Connective} {ts : List Token} {e : Expr}
    (h : Derives c.phrase ts e) : Derives .expr ts e := by
  cases c with
  | and => exact .expr (derives_phrase_of_operand (c := .or) h)
  | or => exact .expr h
  | not => exact .expr (derives_phrase_of_notExpr h .or)

/-- The phrase that an expression is by itself. -/
def phrase : Expr → Phrase
  | logical c _ => c.phrase
  | _ => .comparison

/-- What an expression spells by itself it spells as a whole rule. -/
theorem Spells.expr {e : Expr} {ts : List Token} {p : Predicate} (h : Spells e.phrase ts p) :
    Spells .expr ts p := by
  cases e with
  | logical c _ => exact h.of_derives fun _ => derives_expr_of_phrase
  | _ => exact h.of_derives fun _ he => derives_expr_of_phrase (c := .not) (.notNegated he)

/-- In parentheses everything is a comparison. -/
theorem Spells.grouped {ts : List Token} {p : Predicate} (h : Spells .expr ts p) :
    Spells .comparison (inParens ts) p := by
  obtain ⟨legible, e, he, hcompiles⟩ := h
  exact ⟨legible_inParens legible, e, .groupAlone he, hcompiles⟩

/-- A comparison can stand under every connective without parentheses, so a group can too. -/
theorem Spells.phrase_of_comparison {ts : List Token} {p : Predicate}
    (h : Spells .comparison ts p) (c : Connective) : Spells c.phrase ts p :=
  h.of_derives fun _ he => derives_phrase_of_notExpr (.notNegated he) c

/-- The words of an operand under a connective. -/
def tokensIn (c : Connective) (e : Expr) : List Token :=
  if groupedUnder c e then inParens e.tokens else e.tokens

/-- The operands of a connective are put down one by one, each by itself. -/
theorem tokensUnder_eq_map (c : Connective) (es : List Expr) :
    tokensUnder c es = es.map (tokensIn c) := by
  induction es with
  | nil => rw [tokensUnder, List.map_nil]
  | cons e es ih => rw [tokensUnder, List.map_cons, ih, tokensIn]

/-- **An operand of a connective is put down as a phrase of it**: what binds too loosely stands in
parentheses, and what does not is a phrase of the connective already. -/
theorem Spells.tokensIn {e : Expr} {p : Predicate} (h : Spells e.phrase e.tokens p)
    (c : Connective) : Spells c.phrase (e.tokensIn c) p := by
  have hgrouped : Spells c.phrase (inParens e.tokens) p := h.expr.grouped.phrase_of_comparison c
  unfold Expr.tokensIn
  split
  · exact hgrouped
  · next hnot =>
    cases e with
    | logical d operands =>
      cases d with
      | not => exact h.of_derives fun _ he => derives_phrase_of_notExpr he c
      | and =>
        cases c with
        | and => exact h
        | or | not => exact absurd rfl hnot
      | or =>
        cases c with
        | or => exact h
        | and | not => exact absurd rfl hnot
    | _ => exact h.phrase_of_comparison c

/-! ## Chains -/

/-- The words of two chains with the word of their connective between them spell the two joined in
one. The grammar takes the second as a further part of the first. -/
theorem Spells.append {c : Connective} (hc : c ≠ .not) {ts us : List Token} {p q : Predicate}
    (hp : Spells c.phrase ts p) (hq : Spells c.phrase us q) :
    Spells c.phrase (ts ++ .keyword c.word :: us) (Predicate.joined c p q) := by
  obtain ⟨hts, e, he, hep⟩ := hp
  obtain ⟨hus, f, hf, hfq⟩ := hq
  obtain ⟨es, hchain, hflatten, hsize⟩ :=
    ((derives_phrase_iff hc).mp he).append ((derives_phrase_iff hc).mp hf)
  refine ⟨?_, logical c es, (derives_phrase_iff hc).mpr hchain, ?_⟩
  · exact List.forall_mem_append.mpr ⟨hts, List.forall_mem_cons.mpr ⟨trivial, hus⟩⟩
  · exact compilesTo_joined hc hep hfq hflatten hsize

/-- Operands with the word of a connective between them spell their row. The induction is on the
operands behind the first, each joined to the row of those after it. -/
theorem spells_separated {c : Connective} (hc : c ≠ .not) {ts : List Token} {p : Predicate}
    {tss : List (List Token)} {ps : List Predicate} (hp : Spells c.phrase ts p)
    (hps : List.Forall₂ (fun ts p => Spells c.phrase ts p) tss ps) :
    Spells c.phrase (separated (.keyword c.word) (ts :: tss)) (Predicate.row c p ps) := by
  -- From the right, as the row is made: the words are the same however a chain is nested.
  induction hps generalizing ts p with
  | nil => exact hp
  | cons hq _ ih => exact hp.append hc (ih hq)

/-! ## Operands -/

/-- A value that can be written has a single token, one that denotes it and that can be read back.
-/
theorem valueTokens_of_writable {v : Value} (h : v.Writable) :
    ∃ t, valueTokens v = [t] ∧ t.Denotes v ∧ t.Legible := by
  cases v with
  | null => exact ⟨_, rfl, .null, trivial⟩
  | bool b =>
    cases b with
    | true => exact ⟨_, rfl, .yes, trivial⟩
    | false => exact ⟨_, rfl, .no, trivial⟩
  | int n => exact ⟨_, rfl, .int n, trivial⟩
  | number x => exact ⟨_, rfl, .number x, h⟩
  | text s => exact ⟨_, rfl, .string s, trivial⟩
  | list _ | map _ => cases h

/-- A constant that can be written is put down as an operand, by its literal. -/
theorem spellsOperand_literal {v : Value} (h : v.Writable) :
    SpellsOperand (operandTokens (literal v)) (.constant v) := by
  obtain ⟨t, htokens, hdenotes, hlegible⟩ := valueTokens_of_writable h
  have hwords : operandTokens (literal v) = [t] := by
    rw [operandTokens, isCondition, if_neg Bool.false_ne_true, tokens, htokens]
  rw [hwords]
  exact ⟨List.forall_mem_singleton.mpr hlegible, _, .literal hdenotes, fun _ _ _ => .literal v⟩

/-- Without a list of fields every path is that of its field. -/
theorem resolve_any_path (named : Field) : FieldPolicy.any.resolve named.path = .ok named := by
  rw [FieldPolicy.resolve, FieldPolicy.admits, if_pos rfl, Field.ofPath, dif_pos named.segments_ne]

/-- A field whose path is a name is put down as an operand, by its identifier. -/
theorem spellsOperand_field {named : Field} (h : isName named.path = true) :
    SpellsOperand (operandTokens (field named.path)) (.field named) := by
  have hwords : operandTokens (field named.path) = [.identifier named.path] := by
    rw [operandTokens, isCondition, if_neg Bool.false_ne_true, tokens]
  rw [hwords]
  exact ⟨List.forall_mem_singleton.mpr h, _, .field named.path,
    fun _ _ _ => .field (resolve_any_path named)⟩

/-- A condition is put down as an operand in parentheses, and is there the decision of its
predicate. -/
theorem Spells.operand {e : Expr} {p : Predicate} (hcondition : e.isCondition = true)
    (h : Spells e.phrase e.tokens p) : SpellsOperand (operandTokens e) (.decision p) := by
  obtain ⟨legible, f, hf, hcompiles⟩ := h.expr
  rw [operandTokens, if_pos hcondition]
  exact ⟨legible_inParens legible, f, .group hf, hcompiles.decision⟩

/-! ## Comparisons -/

section Comparisons

variable {ts us ws : List Token} {a b c : Operand}

/-- The sign that a relation is written with is read as that relation. The two spellings of
inequality make the other direction fail. -/
theorem relation_signOf (relation : Relation) : (signOf relation).relation = relation := by
  cases relation <;> rfl

/-- Operands with a sign between them spell the comparison by the relation of the sign. -/
theorem SpellsOperand.comparison (s : Sign) (ha : SpellsOperand ts a) (hb : SpellsOperand us b) :
    Spells .comparison (ts ++ .sign s :: us) (.comparison s.relation a b) := by
  obtain ⟨hts, e, he, hea⟩ := ha
  obtain ⟨hus, f, hf, hfb⟩ := hb
  refine ⟨List.forall_mem_append.mpr ⟨hts, List.forall_mem_cons.mpr ⟨trivial, hus⟩⟩,
    _, .compared he (.sign s hf), compilesTo_of_level fun limit room hroom => ?_⟩
  rw [size] at hroom
  exact .comparison s (hea limit room (by omega)) (hfb limit room (by omega))

/-- An operand before `IS NULL` or `IS NOT NULL` spells its null test. As a predicate this is an
equality with null, negated if the word `NOT` is there. -/
theorem SpellsOperand.isNull (negated : Bool) (ha : SpellsOperand ts a) :
    Spells .comparison (ts ++ .keyword .is :: notTokens negated ++ [.keyword .null])
      (Predicate.isNull a negated) := by
  obtain ⟨hts, e, he, hea⟩ := ha
  refine ⟨?_, Expr.isNull e negated, ?_, compilesTo_of_level fun limit room hroom => ?_⟩
  · refine List.forall_mem_append.mpr ⟨List.forall_mem_append.mpr ⟨hts, ?_⟩, ?_⟩
    · exact List.forall_mem_cons.mpr ⟨trivial, legible_notTokens negated⟩
    · exact List.forall_mem_singleton.mpr trivial
  · rw [List.append_assoc]
    exact .compared he (.isNull negated)
  · rw [size] at hroom
    exact .isNull negated (hea limit room (by omega))

/-- Three operands with `BETWEEN` and `AND` between them spell the range. Operands are primary
phrases, so no `AND` of theirs can be taken for that of the range. -/
theorem SpellsOperand.between (ha : SpellsOperand ts a) (hb : SpellsOperand us b)
    (hc : SpellsOperand ws c) :
    Spells .comparison (ts ++ .keyword .between :: us ++ .keyword .and :: ws) (.between a b c) := by
  obtain ⟨hts, e, he, hea⟩ := ha
  obtain ⟨hus, f, hf, hfb⟩ := hb
  obtain ⟨hws, g, hg, hgc⟩ := hc
  refine ⟨?_, Expr.between e f g, ?_, compilesTo_of_level fun limit room hroom => ?_⟩
  · refine List.forall_mem_append.mpr ⟨List.forall_mem_append.mpr ⟨hts, ?_⟩, ?_⟩
    · exact List.forall_mem_cons.mpr ⟨trivial, hus⟩
    · exact List.forall_mem_cons.mpr ⟨trivial, hws⟩
  · rw [List.append_assoc]
    exact .compared he (.between hf hg)
  · rw [size] at hroom
    exact .between (hea limit room (by omega)) (hfb limit room (by omega))
      (hgc limit room (by omega))

/-- An operand before `LIKE` and a string spells the match with the pattern of that string. -/
theorem SpellsOperand.like (negated : Bool) {pattern : Pattern} {text : String}
    (hpattern : Pattern.ofText? (Like.toRegex text) = some pattern) (ha : SpellsOperand ts a) :
    Spells .comparison (ts ++ notTokens negated ++ [.keyword .like, .string text])
      (.matching negated a pattern) := by
  obtain ⟨hts, e, he, hea⟩ := ha
  refine ⟨?_, Expr.like e text negated, ?_, compilesTo_of_level fun limit room hroom => ?_⟩
  · refine List.forall_mem_append.mpr
      ⟨List.forall_mem_append.mpr ⟨hts, legible_notTokens negated⟩, ?_⟩
    exact List.forall_mem_cons.mpr ⟨trivial, List.forall_mem_singleton.mpr trivial⟩
  · rw [List.append_assoc]
    exact .compared he (.like negated text)
  · rw [size] at hroom
    exact .like negated (hea limit room (by omega)) hpattern

/-- Each value of a list has its literal. The tokens and their values are kept side by side, as the
grammar takes the items of a list. -/
theorem literals_of_writable {vs : List Value} (h : ∀ v ∈ vs, v.Writable) :
    ∃ items : List (Token × Value), items.map Prod.snd = vs ∧
      vs.map valueTokens = items.map (fun item => [item.1]) ∧
      ∀ item ∈ items, item.1.Denotes item.2 ∧ item.1.Legible := by
  induction vs with
  | nil => exact ⟨[], rfl, rfl, List.forall_mem_nil _⟩
  | cons v vs ih =>
    obtain ⟨hv, hvs⟩ := List.forall_mem_cons.mp h
    obtain ⟨t, ht, hdenotes, hlegible⟩ := valueTokens_of_writable hv
    obtain ⟨items, hvalues, htokens, hitems⟩ := ih hvs
    refine ⟨(t, v) :: items, ?_, ?_, List.forall_mem_cons.mpr ⟨⟨hdenotes, hlegible⟩, hitems⟩⟩
    · rw [List.map_cons, hvalues]
    · rw [List.map_cons, List.map_cons, ht, htokens]

/-- What stands between two stands before each but the first. -/
theorem separated_cons (separator : Token) (ts : List Token) (tss : List (List Token)) :
    separated separator (ts :: tss) = ts ++ tss.flatMap fun us => separator :: us := by
  induction tss generalizing ts with
  | nil => exact (List.append_nil ts).symm
  | cons us tss ih =>
    rw [separated, ih, List.flatMap_cons, List.cons_append]
    exact List.cons_ne_nil us tss

/-- Single tokens with commas between them are the first one and then a comma before each. -/
theorem separated_comma (t : Token) (items : List (Token × Value)) :
    separated .comma ([t] :: items.map fun item => [item.1]) =
      t :: items.flatMap fun item => [.comma, item.1] := by
  rw [separated_cons, List.flatMap_map, List.singleton_append]

theorem legible_items {items : List (Token × Value)} (h : ∀ item ∈ items, item.1.Legible) :
    ∀ t ∈ items.flatMap fun item => [Token.comma, item.1], t.Legible := by
  intro t ht
  obtain ⟨item, hitem, ht⟩ := List.mem_flatMap.mp ht
  rcases List.mem_cons.mp ht with rfl | ht
  · trivial
  · rw [List.mem_singleton.mp ht]
    exact h item hitem

/-- An operand before `IN` and a list in parentheses spells membership in the list. The grammar
knows no empty list, and each value must have a literal. -/
theorem SpellsOperand.member (negated : Bool) {vs : List Value} (hne : vs ≠ [])
    (hvs : ∀ v ∈ vs, v.Writable) (ha : SpellsOperand ts a) :
    Spells .comparison
      (ts ++ notTokens negated ++
        .keyword .among :: inParens (separated .comma (vs.map valueTokens)))
      (.member negated a vs) := by
  obtain ⟨hts, e, he, hea⟩ := ha
  obtain ⟨items, rfl, htokens, hitems⟩ := literals_of_writable hvs
  obtain ⟨item, items, rfl⟩ := List.exists_cons_of_ne_nil (mt (congrArg (List.map Prod.snd)) hne)
  obtain ⟨⟨hdenotes, hlegible⟩, hrest⟩ := List.forall_mem_cons.mp hitems
  rw [htokens, List.map_cons, separated_comma]
  refine ⟨?_, Expr.member e ((item :: items).map Prod.snd) negated, ?_,
    compilesTo_of_level fun limit room hroom => ?_⟩
  · refine List.forall_mem_append.mpr
      ⟨List.forall_mem_append.mpr ⟨hts, legible_notTokens negated⟩, ?_⟩
    refine List.forall_mem_cons.mpr ⟨trivial, legible_inParens ?_⟩
    exact List.forall_mem_cons.mpr ⟨hlegible, legible_items fun i hi => (hrest i hi).2⟩
  · rw [List.append_assoc]
    exact .compared he (.member negated hdenotes fun i hi => (hrest i hi).1)
  · rw [size] at hroom
    exact .member negated _ (hea limit room (by omega))

end Comparisons

/-- `NOT` before what can stand under it spells the negation. -/
theorem Spells.negation {ts : List Token} {p : Predicate} (h : Spells .notExpr ts p) :
    Spells .notExpr (.keyword .not :: ts) (.not p) := by
  obtain ⟨hts, e, he, hep⟩ := h
  refine ⟨List.forall_mem_cons.mpr ⟨trivial, hts⟩, _, .not he,
    compilesTo_of_level fun limit room hroom => ?_⟩
  rw [Expr.negation, size, sizeAll, sizeAll] at hroom
  exact .negation (hep limit room (by omega))

/-! ## What is written -/

/-- Whether writing as a relation says it makes words that spell what is read back, of predicates
with patterns of wildcard texts. -/
def WritesSpelling (inner : Predicate → Expr → Prop) : Prop :=
  ∀ p e, inner p e → (∀ pattern ∈ p.patterns, pattern.IsWildcard) →
    e.isCondition = true ∧ Spells e.phrase e.tokens p.reread

variable {inner : Predicate → Expr → Prop}

/-- The words of an operand spell what it reads back as, if writing spells the condition that may be
inside. -/
theorem WritesSpelling.operand (h : WritesSpelling inner) {o : Operand} {e : Expr}
    (hwrites : Predicate.WritesOperand inner o e)
    (hpatterns : ∀ pattern ∈ o.patterns, pattern.IsWildcard) :
    SpellsOperand (operandTokens e) o.reread := by
  cases hwrites with
  | literal hv =>
    rw [Operand.reread]
    exact spellsOperand_literal hv
  | field hname =>
    rw [Operand.reread]
    exact spellsOperand_field hname
  | decision hp =>
    obtain ⟨hcondition, hspells⟩ := h _ _ hp hpatterns
    rw [Operand.reread]
    exact hspells.operand hcondition

/-- Each operand of a connective is put down as a phrase of it that spells what it reads back as. -/
theorem WritesSpelling.operands (h : WritesSpelling inner) (c : Connective) {ps : List Predicate}
    {es : List Expr} (hwrites : List.Forall₂ inner ps es)
    (hpatterns : ∀ pattern ∈ Predicate.patternsEach ps, pattern.IsWildcard) :
    List.Forall₂ (fun ts p => Spells c.phrase ts p) (es.map (tokensIn c))
      (Predicate.rereadEach ps) := by
  induction hwrites with
  | nil => exact .nil
  | cons hp _ ih =>
    obtain ⟨hfirst, hrest⟩ := List.forall_mem_append.mp hpatterns
    exact .cons ((h _ _ hp hfirst).2.tokensIn c) (ih hrest)

/-- The words of a chain of written predicates spell the row of what its operands read back as, in
which chains of the same connective are opened. -/
theorem WritesSpelling.chain (h : WritesSpelling inner) {c : Connective} (hc : c ≠ .not)
    {first : Predicate} {rest : List Predicate} {es : List Expr}
    (hwrites : List.Forall₂ inner (first :: rest) es)
    (hpatterns : ∀ pattern ∈ Predicate.patternsEach (first :: rest), pattern.IsWildcard) :
    Spells c.phrase (separated (.keyword c.word) (tokensUnder c es))
      (Predicate.row c first.reread (Predicate.rereadEach rest)) := by
  rw [tokensUnder_eq_map]
  cases hwrites with
  | cons hp hrest =>
    obtain ⟨hfirst, hothers⟩ := List.forall_mem_append.mp hpatterns
    rw [List.map_cons]
    exact spells_separated hc ((h _ _ hp hfirst).2.tokensIn c) (h.operands c hrest hothers)

/-- **One level of writing spells what is read back if the inside does.** The case split is that of
writing; each form is put together from its operands by the lemmas above. -/
theorem WritesSpelling.writes (h : WritesSpelling inner) :
    WritesSpelling fun p e => p.Writes inner e := by
  intro p e hwrites hpatterns
  cases hwrites with
  | isNull ha =>
    obtain ⟨hsubject, -⟩ := List.forall_mem_append.mp hpatterns
    refine ⟨rfl, ?_⟩
    rw [tokens, Predicate.reread, Operand.reread]
    exact (h.operand ha hsubject).isNull false
  | isNotNull ha =>
    obtain ⟨hsubject, -⟩ := List.forall_mem_append.mp hpatterns
    refine ⟨rfl, ?_⟩
    rw [tokens, Predicate.reread, Operand.reread]
    exact (h.operand ha hsubject).isNull true
  | notIsNull ha =>
    rw [Predicate.patterns] at hpatterns
    obtain ⟨hsubject, -⟩ := List.forall_mem_append.mp hpatterns
    refine ⟨rfl, ?_⟩
    rw [tokens, Predicate.reread, Predicate.reread, Operand.reread]
    exact (h.operand ha hsubject).isNull true
  | @comparison relation left right a b hnull ha hb =>
    obtain ⟨hleft, hright⟩ := List.forall_mem_append.mp hpatterns
    refine ⟨rfl, ?_⟩
    have hnull' : relation.testsNull right.reread = false := by
      rw [Predicate.testsNull_reread, hnull]
    have hspells := (h.operand ha hleft).comparison (signOf relation) (h.operand hb hright)
    rw [relation_signOf] at hspells
    rw [tokens, Predicate.reread, Predicate.nullTested_of_testsNull hnull']
    exact hspells
  | member negated hne hvalues ha =>
    refine ⟨rfl, ?_⟩
    rw [tokens, Predicate.reread]
    exact (h.operand ha hpatterns).member negated hne hvalues
  | between ha hb hc =>
    obtain ⟨hsubject, hbounds⟩ := List.forall_mem_append.mp hpatterns
    obtain ⟨hlow, hhigh⟩ := List.forall_mem_append.mp hbounds
    refine ⟨rfl, ?_⟩
    rw [tokens, Predicate.reread]
    exact (h.operand ha hsubject).between (h.operand hb hlow) (h.operand hc hhigh)
  | matching negated hlike ha =>
    obtain ⟨hsubject, hpattern⟩ := List.forall_mem_append.mp hpatterns
    have hread := (List.forall_mem_singleton.mp hpattern).ofText?_toRegex hlike
    refine ⟨rfl, ?_⟩
    rw [tokens, Predicate.reread]
    exact (h.operand ha hsubject).like negated hread
  | all hps =>
    refine ⟨rfl, ?_⟩
    rw [tokens, Predicate.reread]
    exact h.chain (c := .and) (by decide) hps hpatterns
  | any hps =>
    refine ⟨rfl, ?_⟩
    rw [tokens, Predicate.reread]
    exact h.chain (c := .or) (by decide) hps hpatterns
  | not hnull hp =>
    rw [Predicate.patterns] at hpatterns
    refine ⟨rfl, ?_⟩
    rw [Expr.negation, tokens, tokensUnder_eq_map, Predicate.reread, List.map_singleton,
      List.flatten_singleton]
    exact ((h _ _ hp hpatterns).2.tokensIn .not).negation

/-- All levels of writing spell what is read back. The induction is on the room; in none there is
nothing written. -/
theorem writesSpelling_written (limit room : Nat) :
    WritesSpelling fun p e => written limit room p = .ok e := by
  induction room with
  | zero =>
    intro p e h
    cases h
  | succ room ih =>
    intro p e h
    exact ih.writes p e (written_succ_eq_ok.mp h)

/-- **The tokens that a predicate is written with spell what it reads back as.** -/
theorem spells_of_written {limit room : Nat} {p : Predicate} {e : Expr}
    (h : written limit room p = .ok e)
    (hpatterns : ∀ pattern ∈ p.patterns, pattern.IsWildcard) : Spells .expr e.tokens p.reread :=
  (writesSpelling_written limit room p e h hpatterns).2.expr

end Expr

end WhereRules
