import Mathlib
import WhereRules.Proofs.Compilation.Room
import WhereRules.Proofs.Grammar.Lookahead
import WhereRules.Proofs.Serving.History
import WhereRules.Proofs.Writing.Room

/-!
# Raising the limit

Reading, compiling and writing may each stop at more nesting than the limit allows. Any other answer
is the same under all larger limits (`SameUnless`): each stage is so on its own, and an answer of a
front end is one stage after the other. So a front end with a larger limit accepts all texts that
one with a smaller limit accepts, with the same rules, and it writes these as the other does
(`FrontEnd.sameUnless_raised`).
-/

namespace WhereRules

variable {limit limit' : Nat}

/-- An error that says that a limit is too low. -/
inductive RuleError.WantsRoom (limit : Nat) : RuleError → Prop
  | parse (position : Nat) : WantsRoom limit (.parse (.tooDeep limit position))
  | compile : WantsRoom limit (.compile (.tooDeep limit))

/-! ## Stages -/

/-- The tokens of a text make the same expression under a larger limit, or stop at the same place,
unless they nested too deep. -/
theorem Expr.ofTokens_mono (h : limit ≤ limit') (stream : TokenStream) :
    SameUnless (fun error => ∃ position, error = .tooDeep limit position)
      (ofTokens limit stream) (ofTokens limit' stream) := by
  -- an answer that settles under the smaller limit is that of the larger one
  have settled : ∀ result rest, disjunction limit stream.tokens = deliver result rest →
      disjunction limit' stream.tokens = disjunction limit stream.tokens := by
    intro result rest hread
    obtain ⟨before, htokens, hbefore⟩ := disjunction_settles h _ _ _ hread
    rw [hread, htokens]
    exact hbefore rest rfl
  unfold ofTokens
  cases hread : disjunction limit stream.tokens with
  | ok read =>
    obtain ⟨e, rest⟩ := read
    rw [settled (.ok e) rest hread, hread]
    cases rest with
    | nil | cons t rest => exact .inr rfl
  | error stuck =>
    obtain ⟨obstacle, rest⟩ := stuck
    cases obstacle with
    | wanted expected =>
      rw [settled (.error expected) rest hread, hread]
      cases rest with
      | nil | cons t rest => exact .inr rfl
    | noRoom =>
      refine .inl ⟨_, ?_, rfl⟩
      cases rest with
      | nil => exact ⟨stream.stop, rfl⟩
      | cons t _ => exact ⟨t.position, rfl⟩

/-- An expression compiles to the same predicate under a larger limit, or fails with the same error,
unless it nested too deep. -/
theorem Predicate.ofExpr_mono (resolve : Resolver) (h : limit ≤ limit') (e : Expr) :
    SameUnless (· = .tooDeep limit) (ofExpr resolve limit e) (ofExpr resolve limit' e) :=
  sameUnless_eq.mpr (Expr.condition_mono h e)

/-! ## Dialects -/

namespace Dialect

/-- A dialect over the same fields in which texts may nest at least as deep. -/
structure Raises (higher lower : Dialect) : Prop where
  limit_le : lower.settings.maxDepth ≤ higher.settings.maxDepth
  policy_eq : higher.policy = lower.policy

variable {lower higher : Dialect}

/-- The expression of a text is the same under the higher dialect, unless the lower wants room.
Cutting the text knows no limit. -/
theorem Raises.exprOf (h : higher.Raises lower) (source : String) :
    SameUnless (RuleError.WantsRoom lower.settings.maxDepth) (lower.exprOf source)
      (higher.exprOf source) := by
  have hcut : SameUnless (RuleError.WantsRoom lower.settings.maxDepth)
      ((TokenStream.ofText source).mapError .lex) ((TokenStream.ofText source).mapError .lex) :=
    .inr rfl
  refine hcut.bind fun stream => (Expr.ofTokens_mono h.limit_le stream).mapError ?_
  rintro _ ⟨position, rfl⟩
  exact .parse position

/-- Reading an expression answers the same under the higher dialect, unless the lower wants room. -/
theorem Raises.answer_parseExpr (h : higher.Raises lower) (source : String)
    (log log' : List Event) :
    SameUnless (RuleError.WantsRoom lower.settings.maxDepth)
      ((lower.parseExpr source).answer log) ((higher.parseExpr source).answer log') := by
  rw [answers_parseExpr, answers_parseExpr]
  exact h.exprOf source

/-- Reading a rule answers the same under the higher dialect, unless the lower wants room in one of
the two stages, reading tokens or compiling. -/
theorem Raises.answer_parse (h : higher.Raises lower) (source : String) (log log' : List Event) :
    SameUnless (RuleError.WantsRoom lower.settings.maxDepth)
      ((lower.parse source).answer log) ((higher.parse source).answer log') := by
  rw [answers_parse, answers_parse]
  refine (h.exprOf source).bind fun e => SameUnless.bind ?_ fun predicate => .inr rfl
  unfold compile
  rw [h.policy_eq]
  refine (Predicate.ofExpr_mono _ h.limit_le e).mapError ?_
  rintro _ rfl
  exact .compile

/-- A rule that was read is written alike. Compiling has counted the levels of its predicate, so
writing cannot want room under either dialect. -/
theorem Raises.answer_write (h : higher.Raises lower) {source : String} {rule : Rule}
    {before : List Event} (hrule : (lower.parse source).answer before = .ok rule)
    (log log' : List Event) : (lower.write rule).answer log = (higher.write rule).answer log' := by
  obtain ⟨stream, e, p, -, -, hcompiles, rfl⟩ := answer_parse_eq_ok.mp hrule
  have htext : p.toText lower.settings.maxDepth = p.toText higher.settings.maxDepth := by
    refine (Predicate.toText_mono h.limit_le p).resolve_left ?_
    exact Predicate.toText_ne_tooDeep (Expr.depth_le_of_condition hcompiles) _
  rw [answers_write, answers_write, htext]

end Dialect

/-! ## Front ends -/

/-- **Raising the limit changes no answer but that there is too little of it.** This is so for
reading the tokens of a text, for compiling an expression with any resolver, and for writing a
predicate, whether the answer is a success or another error. So a front end with a larger limit,
whatever it was asked before, accepts all texts that one with a smaller limit accepts. It reads them
as the same rules, and these have the same text under both. -/
theorem FrontEnd.sameUnless_raised (h : limit ≤ limit') :
    (∀ stream, (∃ position, Expr.ofTokens limit stream = .error (.tooDeep limit position)) ∨
      Expr.ofTokens limit stream = Expr.ofTokens limit' stream) ∧
    (∀ resolve e, Predicate.ofExpr resolve limit e = .error (.tooDeep limit) ∨
      Predicate.ofExpr resolve limit e = Predicate.ofExpr resolve limit' e) ∧
    (∀ p : Predicate, p.toText limit = .error (.tooDeep limit) ∨
      p.toText limit = p.toText limit') ∧
    ∀ (policy : FieldPolicy) (history history' : List Call) (source : String)
      (before before' log log' : List Event),
      let lower := (after (new { settings := ⟨limit⟩, policy }, before) history).1
      let higher := (after (new { settings := ⟨limit'⟩, policy }, before') history').1
      SameUnless (RuleError.WantsRoom limit) ((parseExpr source).answer lower log)
        ((parseExpr source).answer higher log') ∧
      SameUnless (RuleError.WantsRoom limit) ((parse source).answer lower log)
        ((parse source).answer higher log') ∧
      (((lower.accepts source).run log).1 = true → ((higher.accepts source).run log').1 = true) ∧
      ∀ rule, (parse source).answer lower log = .ok rule →
        (parse source).answer higher log' = .ok rule ∧
          (lower.write rule).answer log = (higher.write rule).answer log' := by
  refine ⟨fun stream => ?_, fun resolve e => sameUnless_eq.mp (Predicate.ofExpr_mono resolve h e),
    Predicate.toText_mono h, ?_⟩
  · refine (Expr.ofTokens_mono h stream).imp_left ?_
    rintro ⟨_, ⟨position, rfl⟩, herror⟩
    exact ⟨position, herror⟩
  · intro policy history history' source before before' log log' lower higher
    have hraises :
        Dialect.Raises { settings := ⟨limit'⟩, policy } { settings := ⟨limit⟩, policy } := ⟨h, rfl⟩
    have hlower : lower.Fits { settings := ⟨limit⟩, policy } := (fits_new _).after history
    have hhigher : higher.Fits { settings := ⟨limit'⟩, policy } := (fits_new _).after history'
    have hparse := hraises.answer_parse source log log'
    rw [hlower.answer_parseExpr, hhigher.answer_parseExpr, hlower.answer_parse,
      hhigher.answer_parse, hlower.accepts_iff source log log, hhigher.accepts_iff source log' log']
    refine ⟨hraises.answer_parseExpr source log log', hparse, ?_, fun rule hrule => ?_⟩
    · rintro ⟨rule, hrule⟩
      exact ⟨rule, hparse.eq_ok hrule⟩
    · refine ⟨hparse.eq_ok hrule, ?_⟩
      rw [write, write, hlower.dialect_eq, hhigher.dialect_eq]
      exact hraises.answer_write hrule log log'

/-- A negation nests two deep as a rule, so it is too deep for a limit of one. Under a limit of two
it is read, also by a front end that has stopped in an unfinished text before, and under a limit of
three it is the same rule and has the same text. -/
theorem FrontEnd.sameUnless_raised_negation :
    let source := "NOT a = 1"
    let lower := (after (new { settings := ⟨2⟩ }, []) [.parse "((a = "]).1
    let higher := (after (new { settings := ⟨3⟩ }, []) []).1
    (parse source).answer (new { settings := ⟨1⟩ }) [] = .error (.compile (.tooDeep 1)) ∧
      ∃ rule, (parse source).answer lower [] = .ok rule ∧
        (parse source).answer higher [] = .ok rule ∧
        (lower.write rule).answer [] = (higher.write rule).answer [] := by
  intro source lower higher
  have hlower : lower.Fits { settings := ⟨2⟩ } := (fits_new _).after [.parse "((a = "]
  obtain ⟨rule, hrule⟩ :
      ∃ rule, (Dialect.parse { settings := ⟨2⟩ } source).answer [] = .ok rule := ⟨_, by cbv⟩
  rw [← hlower.answer_parse] at hrule
  obtain ⟨-, -, -, hserves⟩ := sameUnless_raised (by decide : 2 ≤ 3)
  obtain ⟨-, -, -, hkeeps⟩ := hserves .any [.parse "((a = "] [] source [] [] [] []
  refine ⟨?_, rule, hrule, hkeeps rule hrule⟩
  rw [(fits_new _).answer_parse]
  cbv

end WhereRules
