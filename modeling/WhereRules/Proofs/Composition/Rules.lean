import WhereRules.Proofs.Compilation.Parsed
import WhereRules.Proofs.Compilation.Preservation
import WhereRules.Proofs.Composition.Seams
import WhereRules.Proofs.Grammar.Places
import WhereRules.Proofs.Reading.Settled

/-!
# Rules compose as text

The texts of two rules in parentheses, with `AND` or `OR` between them, are the text of a rule again,
which decides as the two decide together; so is the text of one rule in parentheses after `NOT`. The
limit on nesting must leave room for it, as one does that is as large as the text is long.

Nothing in the texts matters to that, because what stands in parentheses is on its own: wherever they
stand in a text, its tree has a place for what they enclose, and the place is the same for all that
they can enclose.
-/

namespace WhereRules

open Token

/-! ## Composed trees -/

namespace Expr

variable {ts us : List Token} {e f : Expr}

/-- Two groups with the word of a connective between them derive a chain of the two expressions,
whatever chains stand inside the groups. -/
theorem derives_pair {c : Connective} (hc : c ≠ .not) (he : Derives .expr ts e)
    (hf : Derives .expr us f) :
    Derives .expr (inParens ts ++ .keyword c.word :: inParens us) (logical c [e, f]) := by
  -- A group is an operand at every level, so the connective alone decides which rule joins the two.
  have halone : ∀ {vs g}, Derives .expr vs g → Derives .andExpr (inParens vs) g := by
    intro vs g hg
    have hand := @Derives.andExpr _ _ [] (.notNegated (.groupAlone hg)) (List.forall_mem_nil _)
    rwa [List.flatMap_nil, List.append_nil] at hand
  cases c with
  | and =>
    have hand := @Derives.andExpr _ _ [(inParens us, f)] (.notNegated (.groupAlone he))
      (List.forall_mem_singleton.mpr (.notNegated (.groupAlone hf)))
    have hor := @Derives.orExpr _ _ [] hand (List.forall_mem_nil _)
    rw [List.flatMap_nil, List.append_nil, List.flatMap_singleton] at hor
    exact .expr hor
  | or =>
    have hor := @Derives.orExpr _ _ [(inParens us, f)] (halone he)
      (List.forall_mem_singleton.mpr (halone hf))
    rw [List.flatMap_singleton] at hor
    exact .expr hor
  | not => exact absurd rfl hc

/-- A group after `NOT` derives the negation of its expression. -/
theorem derives_negation (he : Derives .expr ts e) :
    Derives .expr (.keyword .not :: inParens ts) (negation e) := by
  have hand := @Derives.andExpr _ _ [] (.not (.notNegated (.groupAlone he))) (List.forall_mem_nil _)
  have hor := @Derives.orExpr _ _ [] hand (List.forall_mem_nil _)
  rw [List.flatMap_nil, List.append_nil, List.flatMap_nil, List.append_nil] at hor
  exact .expr hor

variable {resolve : Resolver}

/-- Two conditions that compile make one, where there is room for it. That they compile elsewhere is
enough: what compiles is known up to the room. -/
theorem exists_condition_logical {c : Connective} (hc : c ≠ .not) {limit room limit' room' : Nat}
    (he : ∃ p, condition resolve limit room e = .ok p)
    (hf : ∃ p, condition resolve limit room f = .ok p)
    (hroom : (logical c [e, f]).levels ≤ room') :
    ∃ p, condition resolve limit' room' (logical c [e, f]) = .ok p := by
  obtain ⟨hfaultless, hpaths, -⟩ := exists_condition_iff.mp he
  obtain ⟨hfaultless', hpaths', -⟩ := exists_condition_iff.mp hf
  refine exists_condition_iff.mpr ⟨faultless_chain hc ?_, ?_, hroom⟩
  · exact List.forall_mem_cons.mpr ⟨hfaultless, List.forall_mem_singleton.mpr hfaultless'⟩
  · rw [paths_logical, pathsAll_cons, pathsAll_cons]
    exact List.forall_mem_append.mpr ⟨hpaths, List.forall_mem_append.mpr
      ⟨hpaths', List.forall_mem_nil _⟩⟩

/-- A condition that compiles can be negated, where there is room for it. -/
theorem exists_condition_negation {limit room limit' room' : Nat}
    (he : ∃ p, condition resolve limit room e = .ok p) (hroom : (negation e).levels ≤ room') :
    ∃ p, condition resolve limit' room' (negation e) = .ok p := by
  obtain ⟨hfaultless, hpaths, -⟩ := exists_condition_iff.mp he
  refine exists_condition_iff.mpr ⟨faultless_negation hfaultless, ?_, hroom⟩
  rw [negation, paths_logical, pathsAll_cons]
  exact List.forall_mem_append.mpr ⟨hpaths, List.forall_mem_nil _⟩

/-- A decision that is only passed on. This is what is left of a chain behind its last operand. -/
theorem decision_passed_on (decision : Reading Bool) :
    (do if ← decision then return true else return false) = decision := by
  have hpass : ∀ b : Bool, (if b then return true else return false : Reading Bool) = pure b := by
    intro b
    cases b <;> rfl
  simp only [hpass]
  exact bind_pure decision

/-- A conjunction of two decides as the second where the first holds, and against otherwise. -/
theorem holds_both : holds resolve (both e f) =
    (do if ← holds resolve e then holds resolve f else return false) := by
  rw [both, holds, holdsAll, holdsAll, holdsAll, decision_passed_on]

/-- A disjunction of two decides for where the first holds, and as the second otherwise. -/
theorem holds_either : holds resolve (either e f) =
    (do if ← holds resolve e then return true else holds resolve f) := by
  rw [either, holds, holdsAny, holdsAny, holdsAny, decision_passed_on]

theorem holds_negation : holds resolve (negation e) = return !(← holds resolve e) := by
  rw [negation, holds]

end Expr

/-! ## Decisions together -/

/-- Deciding one predicate changes no decision of another, if the providers leave each other alone.
Otherwise a provider asked by the first could answer differently to the second. -/
theorem Predicate.decision_after (p q : Predicate) {state : ReadState}
    (h : state.context.Independent) :
    (q.evaluate.run (p.evaluate.run state).2).1 = (q.evaluate.run state).1 := by
  rw [← p.perform_inquiry, ← q.perform_inquiry]
  obtain ⟨-, hview, hbindings⟩ := p.inquiry.run_of_independent h
  have hafter : (p.inquiry.perform.run state).2.context.Independent := by
    rw [Context.Independent, hbindings]
    exact h
  rw [(q.inquiry.run_of_independent hafter).1, (q.inquiry.run_of_independent h).1, hview]

/-- With providers that leave each other alone, a conjunction decides as both do by themselves,
though the second may not be asked at all. -/
theorem Predicate.decision_both (p q : Predicate) {state : ReadState}
    (h : state.context.Independent) :
    ((do if ← p.evaluate then q.evaluate else return false : Reading Bool).run state).1 =
      ((p.evaluate.run state).1 && (q.evaluate.run state).1) := by
  rw [Reading.run_bind_ite, apply_ite Prod.fst, p.decision_after q h]
  cases (p.evaluate.run state).1 <;> rfl

/-- Where reads are independent, a disjunction decides as one of its operands does. -/
theorem Predicate.decision_either (p q : Predicate) {state : ReadState}
    (h : state.context.Independent) :
    ((do if ← p.evaluate then return true else q.evaluate : Reading Bool).run state).1 =
      ((p.evaluate.run state).1 || (q.evaluate.run state).1) := by
  rw [Reading.run_bind_ite, apply_ite Prod.fst, p.decision_after q h]
  cases (p.evaluate.run state).1 <;> rfl

/-! ## Composed texts -/

namespace Dialect

variable {dialect : Dialect} {log : List Event}

/-- What is read from a text is derived from what it is cut into. So composed texts can be talked
about by their tokens. -/
theorem exists_cuts_of_parseExpr {source : String} {e : Expr}
    (h : (dialect.parseExpr source).answer log = .ok e) :
    ∃ ts, Cuts source.toList ts ∧ Expr.Derives .expr ts e := by
  obtain ⟨stream, hstream, he⟩ := answer_parseExpr_eq_ok.mp h
  exact ⟨_, TokenStream.cuts_of_ofText hstream, Expr.derives_of_ofTokens he⟩

/-- What is derived from what a text is cut into is read from the text, and takes no more levels than
the limit, if that is as large as the text is long. -/
theorem parseExpr_of_cuts {source : String} {ts : List Token} {e : Expr}
    (hcuts : Cuts source.toList ts) (he : Expr.Derives .expr ts e)
    (hroom : source.length ≤ dialect.settings.maxDepth) (log : List Event) :
    (dialect.parseExpr source).answer log = .ok e ∧ e.levels ≤ dialect.settings.maxDepth := by
  obtain ⟨stream, hstream, rfl⟩ := TokenStream.ofText_of_cuts hcuts
  have hlength := Nat.le_trans (TokenStream.length_le_of_ofText hstream) hroom
  have hread := Expr.ofTokens_of_derives he hlength
  exact ⟨answer_parseExpr_eq_ok.mpr ⟨stream, hstream, hread⟩,
    Nat.le_trans (Expr.levels_le_length hstream hread) hroom⟩

/-- The rule of a text is that of its expression, compiled under the policy of the dialect. -/
theorem answer_parse_iff {source : String} {rule : Rule} :
    (dialect.parse source).answer log = .ok rule ↔
      ∃ e p, (dialect.parseExpr source).answer log = .ok e ∧ dialect.compile e = .ok p ∧
        rule = { predicate := p } := by
  rw [answer_parse_eq_ok]
  simp only [answer_parseExpr_eq_ok]
  constructor
  · rintro ⟨stream, e, p, hstream, he, hp, rfl⟩
    exact ⟨e, p, ⟨stream, hstream, he⟩, hp, rfl⟩
  · rintro ⟨e, p, ⟨stream, hstream, he⟩, hp, rfl⟩
    exact ⟨stream, e, p, hstream, he, hp, rfl⟩

/-- Two rule texts in parentheses with the word of a connective in the seam between them. The rule
that is read decides as the chain of the two expressions. -/
theorem exists_parse_pair (c : Connective) (seam : String) (hc : c ≠ .not)
    (hseam : seam.toList = ')' :: ' ' :: (c.word.text.toList ++ [' ', '(']))
    {s₁ s₂ : String} {rule₁ rule₂ : Rule} {log₁ log₂ : List Event}
    (h₁ : (dialect.parse s₁).answer log₁ = .ok rule₁)
    (h₂ : (dialect.parse s₂).answer log₂ = .ok rule₂)
    (hroom : s₁.length + s₂.length + (seam.length + 2) ≤ dialect.settings.maxDepth)
    (log : List Event) :
    ∃ e₁ e₂ rule, (dialect.parse ("(" ++ s₁ ++ seam ++ s₂ ++ ")")).answer log = .ok rule ∧
      rule₁.evaluate = Expr.holds dialect.policy.resolve e₁ ∧
      rule₂.evaluate = Expr.holds dialect.policy.resolve e₂ ∧
      rule.evaluate = Expr.holds dialect.policy.resolve (.logical c [e₁, e₂]) := by
  obtain ⟨e₁, p₁, he₁, hp₁, rfl⟩ := answer_parse_iff.mp h₁
  obtain ⟨e₂, p₂, he₂, hp₂, rfl⟩ := answer_parse_iff.mp h₂
  obtain ⟨ts₁, hcuts₁, hder₁⟩ := exists_cuts_of_parseExpr he₁
  obtain ⟨ts₂, hcuts₂, hder₂⟩ := exists_cuts_of_parseExpr he₂
  have hchars : ("(" ++ s₁ ++ seam ++ s₂ ++ ")").toList = '(' :: (s₁.toList ++ ')' :: ' ' ::
      (c.word.text.toList ++ ' ' :: '(' :: (s₂.toList ++ [')']))) := by
    simp only [String.toList_append, hseam, List.append_assoc, List.cons_append]
    rfl
  have hlength : ("(" ++ s₁ ++ seam ++ s₂ ++ ")").length ≤ dialect.settings.maxDepth := by
    have hleft : "(".length = 1 := rfl
    have hright : ")".length = 1 := rfl
    simp only [String.length_append, hleft, hright]
    omega
  have hgroup : Cuts ('(' :: (s₂.toList ++ [')'])) (Expr.inParens ts₂) :=
    hcuts₂.inParens.mpr ⟨[], cuts_nil, (List.append_nil _).symm⟩
  have hword := (cuts_keyword c.word hgroup).cons_blank (c := ' ') rfl
  have hcuts := hcuts₁.inParens.mpr ⟨_, hword, rfl⟩
  rw [← hchars] at hcuts
  obtain ⟨hread, hlevels⟩ := parseExpr_of_cuts hcuts (Expr.derives_pair hc hder₁ hder₂) hlength log
  obtain ⟨p, hp⟩ : ∃ p, dialect.compile (.logical c [e₁, e₂]) = .ok p :=
    Expr.exists_condition_logical hc ⟨p₁, hp₁⟩ ⟨p₂, hp₂⟩ hlevels
  have hmeaning := Expr.preserves_condition dialect.policy.resolve dialect.settings.maxDepth
    dialect.settings.maxDepth
  exact ⟨e₁, e₂, _, answer_parse_iff.mpr ⟨_, p, hread, hp, rfl⟩, hmeaning _ _ hp₁, hmeaning _ _ hp₂,
    hmeaning _ _ hp⟩

/-- A rule text in parentheses after `NOT`. The rule that is read decides as the negation of its
expression. -/
theorem exists_parse_negation {s : String} {rule : Rule} {log₁ : List Event}
    (h : (dialect.parse s).answer log₁ = .ok rule)
    (hroom : s.length + 6 ≤ dialect.settings.maxDepth) (log : List Event) :
    ∃ e negated, (dialect.parse ("NOT (" ++ s ++ ")")).answer log = .ok negated ∧
      rule.evaluate = Expr.holds dialect.policy.resolve e ∧
      negated.evaluate = Expr.holds dialect.policy.resolve (.negation e) := by
  obtain ⟨e, p, he, hp, rfl⟩ := answer_parse_iff.mp h
  obtain ⟨ts, hcuts, hder⟩ := exists_cuts_of_parseExpr he
  have hchars : ("NOT (" ++ s ++ ")").toList =
      Keyword.not.text.toList ++ ' ' :: '(' :: (s.toList ++ [')']) := by
    simp only [String.toList_append, List.append_assoc]
    rfl
  have hlength : ("NOT (" ++ s ++ ")").length ≤ dialect.settings.maxDepth := by
    have hword : "NOT (".length = 5 := rfl
    have hright : ")".length = 1 := rfl
    simp only [String.length_append, hword, hright]
    omega
  have hgroup : Cuts ('(' :: (s.toList ++ [')'])) (Expr.inParens ts) :=
    hcuts.inParens.mpr ⟨[], cuts_nil, (List.append_nil _).symm⟩
  have hall := cuts_keyword .not hgroup
  rw [← hchars] at hall
  obtain ⟨hread, hlevels⟩ := parseExpr_of_cuts hall (Expr.derives_negation hder) hlength log
  obtain ⟨q, hq⟩ : ∃ q, dialect.compile (.negation e) = .ok q :=
    Expr.exists_condition_negation ⟨p, hp⟩ hlevels
  have hmeaning := Expr.preserves_condition dialect.policy.resolve dialect.settings.maxDepth
    dialect.settings.maxDepth
  exact ⟨e, _, answer_parse_iff.mpr ⟨_, q, hread, hq, rfl⟩, hmeaning _ _ hp, hmeaning _ _ hq⟩

/-- **What a text has in parentheses is on its own.** If what is before the parenthesis is cut into
tokens, the expression in the parentheses is a part of the tree of the text, in a place that any
other expression takes when it stands there instead. -/
theorem exists_place_of_parseExpr {s before after : String} {b : TokenStream} {e tree : Expr}
    {log : List Event} (he : (dialect.parseExpr s).answer log = .ok e)
    (hbefore : TokenStream.ofText before = .ok b)
    (htree : (dialect.parseExpr (before ++ "(" ++ s ++ ")" ++ after)).answer log = .ok tree) :
    ∃ place : Expr.Place, tree = place.fill e ∧
      ∀ s' e', (dialect.parseExpr s').answer log = .ok e' →
        (before ++ "(" ++ s' ++ ")" ++ after).length ≤ dialect.settings.maxDepth →
        (dialect.parseExpr (before ++ "(" ++ s' ++ ")" ++ after)).answer log =
          .ok (place.fill e') := by
  have hchars : ∀ t : String, (before ++ "(" ++ t ++ ")" ++ after).toList =
      before.toList ++ '(' :: (t.toList ++ ')' :: after.toList) := by
    intro t
    simp only [String.toList_append, List.append_assoc]
    rfl
  obtain ⟨ts, hcuts, hder⟩ := exists_cuts_of_parseExpr he
  obtain ⟨ws, hall, hwhole⟩ := exists_cuts_of_parseExpr htree
  have hfront := TokenStream.cuts_of_ofText hbefore
  rw [hchars] at hall
  -- The whole text is cut where its parts are: no token runs across a parenthesis.
  obtain ⟨vs, hbehind, rfl⟩ := hfront.of_append (startsApart_leftParen _) hall
  obtain ⟨us, hafter, rfl⟩ := hcuts.inParens.mp hbehind
  obtain ⟨place, htree, hplace⟩ := hwhole.hasPlaces _ ts us e rfl hder
  refine ⟨place, htree, fun s' e' he' hroom => ?_⟩
  obtain ⟨ts', hcuts', hder'⟩ := exists_cuts_of_parseExpr he'
  have hall' := hfront.append (startsApart_leftParen _) (hcuts'.inParens.mpr ⟨us, hafter, rfl⟩)
  rw [← hchars] at hall'
  exact (parseExpr_of_cuts hall' (hplace ts' e' hder') hroom log).1

/-- **Rules compose as text.** Two rule texts in parentheses with `AND` or `OR` between them are the
text of a rule that asks the first rule and, where that leaves the decision open, the second; where
the lazy providers of a context leave each other alone it decides as the two rules do on their own.
The same text after `NOT` decides the opposite. And whatever a text has around it, if it is in
parentheses that are not those of a string: its expression has a place in the tree of the whole, and
every other text that is read has its expression in the same place. -/
theorem parse_composed {s₁ s₂ : String} {rule₁ rule₂ : Rule} {log₁ log₂ : List Event}
    (h₁ : (dialect.parse s₁).answer log₁ = .ok rule₁)
    (h₂ : (dialect.parse s₂).answer log₂ = .ok rule₂)
    (hroom : s₁.length + s₂.length + 9 ≤ dialect.settings.maxDepth) (log : List Event) :
    (∃ rule, (dialect.parse ("(" ++ s₁ ++ ") AND (" ++ s₂ ++ ")")).answer log = .ok rule ∧
      rule.evaluate = (do if ← rule₁.evaluate then rule₂.evaluate else return false) ∧
      ∀ state : ReadState, state.context.Independent → (rule.evaluate.run state).1 =
        ((rule₁.evaluate.run state).1 && (rule₂.evaluate.run state).1)) ∧
    (∃ rule, (dialect.parse ("(" ++ s₁ ++ ") OR (" ++ s₂ ++ ")")).answer log = .ok rule ∧
      rule.evaluate = (do if ← rule₁.evaluate then return true else rule₂.evaluate) ∧
      ∀ state : ReadState, state.context.Independent → (rule.evaluate.run state).1 =
        ((rule₁.evaluate.run state).1 || (rule₂.evaluate.run state).1)) ∧
    (∃ rule, (dialect.parse ("NOT (" ++ s₁ ++ ")")).answer log = .ok rule ∧
      rule.evaluate = return !(← rule₁.evaluate)) ∧
    ∀ (before after : String) (b : TokenStream) (e tree : Expr),
      TokenStream.ofText before = .ok b → (dialect.parseExpr s₁).answer log = .ok e →
      (dialect.parseExpr (before ++ "(" ++ s₁ ++ ")" ++ after)).answer log = .ok tree →
      ∃ place : Expr.Place, tree = place.fill e ∧
        ∀ s' e', (dialect.parseExpr s').answer log = .ok e' →
          (before ++ "(" ++ s' ++ ")" ++ after).length ≤ dialect.settings.maxDepth →
          (dialect.parseExpr (before ++ "(" ++ s' ++ ")" ++ after)).answer log =
            .ok (place.fill e') := by
  refine ⟨?_, ?_, ?_, fun before after b e tree hbefore he => exists_place_of_parseExpr he hbefore⟩
  · obtain ⟨e₁, e₂, rule, hrule, hfirst, hsecond, hall⟩ :=
      exists_parse_pair .and ") AND (" (by decide) rfl h₁ h₂ hroom log
    have heval : rule.evaluate = (do if ← rule₁.evaluate then rule₂.evaluate else return false) := by
      rw [hall, hfirst, hsecond]
      exact Expr.holds_both
    refine ⟨rule, hrule, heval, fun state hstate => ?_⟩
    rw [heval]
    exact rule₁.predicate.decision_both rule₂.predicate hstate
  · have hless : s₁.length + s₂.length + 8 ≤ dialect.settings.maxDepth := by omega
    obtain ⟨e₁, e₂, rule, hrule, hfirst, hsecond, hall⟩ :=
      exists_parse_pair .or ") OR (" (by decide) rfl h₁ h₂ hless log
    have heval : rule.evaluate = (do if ← rule₁.evaluate then return true else rule₂.evaluate) := by
      rw [hall, hfirst, hsecond]
      exact Expr.holds_either
    refine ⟨rule, hrule, heval, fun state hstate => ?_⟩
    rw [heval]
    exact rule₁.predicate.decision_either rule₂.predicate hstate
  · have hless : s₁.length + 6 ≤ dialect.settings.maxDepth := by omega
    obtain ⟨e, rule, hrule, hinner, hall⟩ := exists_parse_negation h₁ hless log
    refine ⟨rule, hrule, ?_⟩
    rw [hall, hinner]
    exact Expr.holds_negation

/-- A closing parenthesis in a string closes nothing, and the `AND` of a `BETWEEN` joins nothing to
what is around it. -/
theorem parse_composed_between :
    let s₁ := "a = ')' OR b = 1"
    let s₂ := "c BETWEEN 1 AND 2"
    ∃ rule₁ rule₂ rule, (Dialect.parse {} s₁).answer [] = .ok rule₁ ∧
      (Dialect.parse {} s₂).answer [] = .ok rule₂ ∧
      s₁.length + s₂.length + 9 ≤ (Dialect.settings {}).maxDepth ∧
      (Dialect.parse {} ("(" ++ s₁ ++ ") AND (" ++ s₂ ++ ")")).answer [] = .ok rule ∧
      rule.evaluate = (do if ← rule₁.evaluate then rule₂.evaluate else return false) ∧
      ∃ (e₁ e₂ : Expr) (place : Expr.Place), (Dialect.parseExpr {} s₁).answer [] = .ok e₁ ∧
        (Dialect.parseExpr {} s₂).answer [] = .ok e₂ ∧
        (Dialect.parseExpr {} ("x = 1 OR " ++ "(" ++ s₁ ++ ")" ++ " = y AND z = 0")).answer [] =
          .ok (place.fill e₁) ∧
        (Dialect.parseExpr {} ("x = 1 OR " ++ "(" ++ s₂ ++ ")" ++ " = y AND z = 0")).answer [] =
          .ok (place.fill e₂) := by
  intro s₁ s₂
  obtain ⟨rule₁, h₁⟩ : ∃ rule, (Dialect.parse {} s₁).answer [] = .ok rule := ⟨_, by cbv⟩
  obtain ⟨rule₂, h₂⟩ : ∃ rule, (Dialect.parse {} s₂).answer [] = .ok rule := ⟨_, by cbv⟩
  obtain ⟨e₁, p₁, he₁, -, -⟩ := answer_parse_iff.mp h₁
  obtain ⟨e₂, p₂, he₂, -, -⟩ := answer_parse_iff.mp h₂
  obtain ⟨b, hbefore⟩ : ∃ b, TokenStream.ofText "x = 1 OR " = .ok b := ⟨_, by cbv⟩
  obtain ⟨tree, htree⟩ : ∃ tree, (Dialect.parseExpr {}
      ("x = 1 OR " ++ "(" ++ s₁ ++ ")" ++ " = y AND z = 0")).answer [] = .ok tree := ⟨_, by cbv⟩
  have hroom : s₁.length + s₂.length + 9 ≤ (Dialect.settings {}).maxDepth := by decide
  obtain ⟨⟨rule, hrule, heval, -⟩, -, -, hplaces⟩ := parse_composed h₁ h₂ hroom []
  obtain ⟨place, rfl, hplace⟩ := hplaces _ _ b e₁ tree hbefore he₁ htree
  exact ⟨rule₁, rule₂, rule, h₁, h₂, hroom, hrule, heval, e₁, e₂, place, he₁, he₂, htree,
    hplace s₂ e₂ he₂ (by decide)⟩

end Dialect

end WhereRules
