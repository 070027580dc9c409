import Mathlib
import WhereRules.Proofs.Answers
import WhereRules.Proofs.Grammar.Soundness
import WhereRules.Proofs.RoundTrip.Spelled
import WhereRules.Proofs.Writing.Depth
import WhereRules.Proofs.Writing.NullTests

/-!
# Rule text and back

A predicate that has a text can be read from it. What is read decides like what was written; and if
that was itself read from a text, then only its inequalities with null come back otherwise, and what
comes back has the same text again. Reading must be allowed to nest as deep as the text is long,
which is always enough.
-/

namespace WhereRules

/-- **What is written can be read**: the text of a predicate is cut into the tokens that spell it,
which are parsed and compiled to what the predicate reads back as. -/
theorem Predicate.reread_of_toText {limit room : Nat} {p : Predicate} {text : String}
    (hpatterns : ∀ pattern ∈ p.patterns, pattern.IsWildcard) (h : p.toText limit = .ok text)
    (hroom : text.length ≤ room) :
    ∃ stream e, TokenStream.ofText text = .ok stream ∧ Expr.ofTokens room stream = .ok e ∧
      Predicate.ofExpr FieldPolicy.any.resolve room e = .ok p.reread := by
  obtain ⟨written, hwritten, rfl⟩ := map_eq_ok.mp h
  obtain ⟨legible, e, hderives, hcompiles⟩ := Expr.spells_of_written hwritten hpatterns
  obtain ⟨stream, hstream, hwords⟩ := TokenStream.ofText_chars legible
  have hlength : written.tokens.length ≤ room := by
    rw [Expr.toText, String.length_ofList] at hroom
    exact Nat.le_trans (Token.length_le_length_chars legible) hroom
  refine ⟨stream, e, hstream, Expr.ofTokens_of_derives ?_ ?_,
    hcompiles room room (Nat.le_trans hderives.size_le_length hlength)⟩
  · rwa [hwords]
  · rwa [← Expr.length_words, hwords]

namespace Dialect

/-- **Writing and reading keep the decision.** Whatever the predicate, as long as its patterns are
those of wildcard texts and it has a text, the rule read from the text decides about every context
as the predicate does and asks the same lazy providers in the same order. -/
theorem evaluate_parse_toText {settings : Settings} {limit : Nat} {p : Predicate} {text : String}
    (hpatterns : ∀ pattern ∈ p.patterns, ∃ like, pattern.source = Like.toRegex like)
    (h : p.toText limit = .ok text) (hroom : text.length ≤ settings.maxDepth) (log : List Event) :
    ∃ rule : Rule, (Dialect.parse { settings } text).answer log = .ok rule ∧
      rule.predicate.evaluate = p.evaluate := by
  obtain ⟨stream, e, hstream, he, hp⟩ := p.reread_of_toText hpatterns h hroom
  refine ⟨{ predicate := p.reread }, ?_, p.evaluate_reread⟩
  exact answer_parse_eq_ok.mpr ⟨stream, e, p.reread, hstream, he, hp, rfl⟩

/-- A conjunction of one disjunction, in which a constant is compared with a condition. -/
def handMade : Predicate :=
  .all
    (.any (.matching false (.field ⟨"code", by decide⟩) .fiveAndOne)
      [.comparison .notEqual (.constant (.int 1))
        (.decision
          (.not (.member true (.field ⟨"a.b", by decide⟩) [.number (.finite true .zero)])))])
    []

/-- A predicate that no text compiles to still has a text, and the rule read from that decides as it
does. The conjunction of one operand leaves no trace there, and the condition that the constant is
compared with is a group. -/
theorem evaluate_parse_handMade :
    handMade.toText 5 = .ok "(code LIKE '5_' OR 1 != (NOT a.b NOT IN (-0.0)))" ∧
      ∃ rule : Rule,
        (Dialect.parse {} "(code LIKE '5_' OR 1 != (NOT a.b NOT IN (-0.0)))").answer [] = .ok rule ∧
          rule.predicate.evaluate = handMade.evaluate := by
  have hwrite : handMade.toText 5 = .ok "(code LIKE '5_' OR 1 != (NOT a.b NOT IN (-0.0)))" := by cbv
  refine ⟨hwrite, evaluate_parse_toText ?_ hwrite (by decide) []⟩
  exact List.forall_mem_singleton.mpr ⟨"5_", rfl⟩

/-- **Text to rule to text.** The text of a rule that was itself read from a text reads as the same
predicate but for its inequalities with null, which have become negated null tests at any depth, and
this predicate has the same text. -/
theorem parse_toText_of_parse {settings large : Settings} {source text : String} {rule : Rule}
    {limit : Nat} {log log' : List Event}
    (hparse : (Dialect.parse { settings } source).answer log = .ok rule)
    (hwrite : rule.predicate.toText limit = .ok text) (hroom : text.length ≤ large.maxDepth) :
    (Dialect.parse { settings := large } text).answer log' =
        .ok { predicate := rule.predicate.withNullTests } ∧
      (Dialect.write { settings := large } { predicate := rule.predicate.withNullTests }).answer
        log' = .ok text := by
  obtain ⟨stream, e, p, hstream, he, hp, rfl⟩ := answer_parse_eq_ok.mp hparse
  have hpatterns := Expr.patterns_of_condition hp
  -- The tree came from a grammar that folds chains in pairs, so compiling put each in one row.
  have hfolded : e.Folded := (Expr.derives_of_ofTokens he).folded trivial
  have hflattened := Expr.flattened_of_condition hfolded hp
  obtain ⟨stream', e', hstream', he', hp'⟩ := p.reread_of_toText hpatterns hwrite hroom
  rw [p.reread_eq_withNullTests hflattened] at hp'
  refine ⟨answer_parse_eq_ok.mpr ⟨stream', e', _, hstream', he', hp', rfl⟩, ?_⟩
  -- Writing again has only the large room to go by. What was compiled in it is no deeper.
  obtain ⟨written, hwritten, rfl⟩ := map_eq_ok.mp hwrite
  have hagain := Expr.written_withNullTests hwritten
  exact answer_write_eq_ok.mpr (map_eq_ok.mpr
    ⟨written, Expr.written_of_depth_le hagain (Expr.depth_le_of_condition hp'), rfl⟩)

/-- The predicate of `not (e <> null) or (b<=2 OR TRUE = (d.e in (1, 'it''s')))`. -/
def unequalNull : Predicate :=
  .any (.not (.comparison .notEqual (.field ⟨"e", by decide⟩) (.constant .null)))
    [.comparison .lessOrEqual (.field ⟨"b", by decide⟩) (.constant (.int 2)),
      .comparison .equal (.constant (.bool true))
        (.decision (.member false (.field ⟨"d.e", by decide⟩) [.int 1, .text "it's"]))]

/-- An inequality with null, below a negation, comes back as a negated null test, and the text that
this has is the one that it was read from. -/
theorem parse_toText_unequalNull :
    (Dialect.parse {} "not (e <> null) or (b<=2 OR TRUE = (d.e in (1, 'it''s')))").answer [] =
        .ok { predicate := unequalNull } ∧
      unequalNull.toText 256 =
        .ok "NOT e IS NOT NULL OR b <= 2 OR TRUE = (d.e IN (1, 'it''s'))" ∧
      (Dialect.parse { settings := ⟨60⟩ }
          "NOT e IS NOT NULL OR b <= 2 OR TRUE = (d.e IN (1, 'it''s'))").answer [] =
        .ok { predicate := unequalNull.withNullTests } ∧
      (Dialect.write { settings := ⟨60⟩ } { predicate := unequalNull.withNullTests }).answer [] =
        .ok "NOT e IS NOT NULL OR b <= 2 OR TRUE = (d.e IN (1, 'it''s'))" := by
  have hparse :
      (Dialect.parse {} "not (e <> null) or (b<=2 OR TRUE = (d.e in (1, 'it''s')))").answer [] =
        .ok { predicate := unequalNull } := by cbv
  have hwrite : unequalNull.toText 256 =
      .ok "NOT e IS NOT NULL OR b <= 2 OR TRUE = (d.e IN (1, 'it''s'))" := by cbv
  exact ⟨hparse, hwrite, parse_toText_of_parse hparse hwrite (by decide)⟩

end Dialect

end WhereRules
