import WhereRules.Dialect
import WhereRules.Proofs.Success

/-!
# What a dialect answers

A dialect's computations tell the log what they do, but what they answer does not depend on it. Here
an answer is taken apart into the stages that it takes: cutting, parsing, compiling, and writing.
-/

namespace WhereRules.Dialect

namespace Attempt

variable {α β : Type}

/-- What a computation answers when the log holds some events already. -/
def answer (attempt : Attempt α) (log : List Event) : Except RuleError α :=
  (attempt.run.run log).1

/-- The log behind a computation. -/
def logAfter (attempt : Attempt α) (log : List Event) : List Event := (attempt.run.run log).2

/-- After a step that succeeds the next one answers, on the log behind it. The first that fails is
the answer. -/
theorem answer_bind (x : Attempt α) (f : α → Attempt β) (log : List Event) :
    (x >>= f).answer log =
      match x.answer log with
      | .ok a => (f a).answer (x.logAfter log)
      | .error error => .error error := by
  unfold answer logAfter
  rw [run_run_bind]
  obtain ⟨result, log', hrun⟩ : ∃ result log', x.run.run log = (result, log') := ⟨_, _, rfl⟩
  rw [hrun]
  cases result with
  | error _ | ok _ => rfl

/-- Two steps answer with a value when both do, the second on the log that the first leaves. So a
computation that answers is taken apart step by step. -/
theorem answer_bind_eq_ok {x : Attempt α} {f : α → Attempt β} {log : List Event} {b : β} :
    (x >>= f).answer log = .ok b ↔
      ∃ a, x.answer log = .ok a ∧ (f a).answer (x.logAfter log) = .ok b := by
  rw [answer_bind]
  cases x.answer log with
  | error _ => simp
  | ok _ => simp

/-- A stage of the pipeline answers with its result, and its error is wrapped as the error of a
rule. -/
theorem answer_of {ε : Type} (wrap : ε → RuleError) (result : Except ε α) (log : List Event) :
    (Attempt.of wrap result).answer log = result.mapError wrap := rfl

theorem answer_of_eq_ok {ε : Type} {wrap : ε → RuleError} {result : Except ε α} {log : List Event}
    {a : α} : (Attempt.of wrap result).answer log = .ok a ↔ result = .ok a :=
  mapError_eq_ok

theorem answer_tell (event : Event) (log : List Event) :
    answer (liftM (Logged.tell event) : Attempt Unit) log = .ok () := rfl

/-- Telling the log something never fails, so it drops out where a computation is taken apart. -/
theorem answer_tell_eq_ok {event : Event} {log : List Event} {u : Unit} :
    answer (liftM (Logged.tell event) : Attempt Unit) log = .ok u ↔ True := by
  rw [answer_tell, iff_true]

theorem answer_pure_eq_ok {a b : α} {log : List Event} :
    (pure a : Attempt α).answer log = .ok b ↔ a = b := by
  constructor
  · intro h
    cases h
    rfl
  · rintro rfl
    rfl

/-- A computation answers the same whatever the log holds. -/
def Answers (attempt : Attempt α) (result : Except RuleError α) : Prop :=
  ∀ log, attempt.answer log = result

/-- Steps that answer the same whatever the log holds do so one after the other, though the second
finds what the first has told. -/
theorem Answers.bind {x : Attempt α} {f : α → Attempt β} {result : Except RuleError α}
    {g : α → Except RuleError β} (hx : x.Answers result) (hf : ∀ a, (f a).Answers (g a)) :
    (x >>= f).Answers (result >>= g) := by
  intro log
  rw [answer_bind, hx log]
  cases result with
  | error error => rfl
  | ok a => exact hf a _

/-- No stage of the pipeline looks at the log. -/
theorem answers_of {ε : Type} (wrap : ε → RuleError) (result : Except ε α) :
    (Attempt.of wrap result).Answers (result.mapError wrap) := answer_of wrap result

/-- Telling the log something answers the same, whatever has been told before. -/
theorem answers_tell (event : Event) :
    Answers (liftM (Logged.tell event) : Attempt Unit) (.ok ()) := answer_tell event

theorem answers_pure (a : α) : (pure a : Attempt α).Answers (.ok a) := fun _ => rfl

end Attempt

/-- The expression of a text, or the first stage that fails. -/
def exprOf (dialect : Dialect) (source : String) : Except RuleError Expr := do
  let stream ← (TokenStream.ofText source).mapError .lex
  (Expr.ofTokens dialect.settings.maxDepth stream).mapError .parse

open Attempt in
/-- Reading an expression answers with its first two stages, cutting and parsing. -/
theorem answers_parseExpr (dialect : Dialect) (source : String) :
    (dialect.parseExpr source).Answers (dialect.exprOf source) :=
  (answers_of _ _).bind fun _ => (answers_tell _).bind fun _ => answers_of _ _

open Attempt in
/-- Reading a rule answers with the expression of the text, compiled. -/
theorem answers_parse (dialect : Dialect) (source : String) :
    (dialect.parse source).Answers (do
      let e ← dialect.exprOf source
      let predicate ← (dialect.compile e).mapError .compile
      .ok { predicate }) :=
  (answers_parseExpr dialect source).bind fun _ =>
    (answers_of _ _).bind fun _ => (answers_tell _).bind fun _ => answers_pure _

open Attempt in
/-- Checking a text goes through the same stages as reading it, and drops the predicate. -/
theorem answers_check (dialect : Dialect) (source : String) :
    (dialect.check source).Answers (do
      let e ← dialect.exprOf source
      let _ ← (dialect.compile e).mapError .compile
      .ok ()) :=
  (answers_parseExpr dialect source).bind fun _ => (answers_of _ _).bind fun _ => answers_pure _

open Attempt in
/-- Writing a rule answers with the text of its predicate, under the limit of the dialect. -/
theorem answers_write (dialect : Dialect) (rule : Rule) :
    (dialect.write rule).Answers (do
      let text ← (rule.predicate.toText dialect.settings.maxDepth).mapError .write
      .ok text) :=
  (answers_of _ _).bind fun _ => (answers_tell _).bind fun _ => answers_pure _

/-- A check fails as reading does, and succeeds with it, whatever their logs hold. So a text that
passes the check can be read as a rule, and one that fails it is refused with the same error. -/
theorem answer_check (dialect : Dialect) (source : String) (log other : List Event) :
    (dialect.check source).answer log =
      ((dialect.parse source).answer other).map fun _ => () := by
  rw [answers_check, answers_parse]
  cases dialect.exprOf source with
  | error error => rfl
  | ok e =>
    show ((dialect.compile e).mapError RuleError.compile >>= fun _ => .ok ()) =
      ((dialect.compile e).mapError RuleError.compile >>= fun predicate =>
        .ok ({ predicate } : Rule)).map fun _ => ()
    cases (dialect.compile e).mapError RuleError.compile with
    | error error => rfl
    | ok predicate => rfl

open Attempt in
/-- A text is answered with an expression exactly when it can be cut and parsed. -/
theorem answer_parseExpr_eq_ok {dialect : Dialect} {source : String} {e : Expr}
    {log : List Event} :
    (dialect.parseExpr source).answer log = .ok e ↔
      ∃ stream, TokenStream.ofText source = .ok stream ∧
        Expr.ofTokens dialect.settings.maxDepth stream = .ok e := by
  simp only [parseExpr, answer_bind_eq_ok, answer_of_eq_ok, answer_tell_eq_ok, true_and,
    exists_const]

open Attempt in
/-- A text is answered with a rule exactly when it can be cut, parsed and compiled. What is said of
the rules that a dialect reads starts from here. -/
theorem answer_parse_eq_ok {dialect : Dialect} {source : String} {rule : Rule}
    {log : List Event} :
    (dialect.parse source).answer log = .ok rule ↔
      ∃ stream e p, TokenStream.ofText source = .ok stream ∧
        Expr.ofTokens dialect.settings.maxDepth stream = .ok e ∧ dialect.compile e = .ok p ∧
        rule = { predicate := p } := by
  simp only [parse, parseExpr, toRule, answer_bind_eq_ok, answer_of_eq_ok, answer_tell_eq_ok,
    answer_pure_eq_ok, true_and, exists_const]
  constructor
  · rintro ⟨e, ⟨stream, hstream, he⟩, p, hp, rfl⟩
    exact ⟨stream, e, p, hstream, he, hp, rfl⟩
  · rintro ⟨stream, e, p, hstream, he, hp, rfl⟩
    exact ⟨e, ⟨stream, hstream, he⟩, p, hp, rfl⟩

open Attempt in
/-- A text is answered with the paths that it names exactly when it can be cut and parsed. -/
theorem answer_fields_eq_ok {dialect : Dialect} {source : String} {paths : List String}
    {log : List Event} :
    (dialect.fields source).answer log = .ok paths ↔
      ∃ stream e, TokenStream.ofText source = .ok stream ∧
        Expr.ofTokens dialect.settings.maxDepth stream = .ok e ∧ paths = e.fields := by
  simp only [fields, parseExpr, answer_bind_eq_ok, answer_of_eq_ok, answer_tell_eq_ok,
    answer_pure_eq_ok, true_and, exists_const]
  constructor
  · rintro ⟨e, ⟨stream, hstream, he⟩, rfl⟩
    exact ⟨stream, e, hstream, he, rfl⟩
  · rintro ⟨stream, e, hstream, he, rfl⟩
    exact ⟨e, ⟨stream, hstream, he⟩, rfl⟩

open Attempt in
/-- What is wrong with the tokens of a text is the answer, before anything is compiled. -/
theorem answer_parse_of_error {dialect : Dialect} {source : String} {stream : TokenStream}
    {error : ParseError} {log : List Event} (hstream : TokenStream.ofText source = .ok stream)
    (h : Expr.ofTokens dialect.settings.maxDepth stream = .error error) :
    (dialect.parse source).answer log = .error (.parse error) := by
  simp only [parse, parseExpr, answer_bind, answer_of, hstream, answer_tell, Except.mapError, h]

open Attempt in
/-- A rule is answered with a text exactly when its predicate can be written. -/
theorem answer_write_eq_ok {dialect : Dialect} {rule : Rule} {text : String} {log : List Event} :
    (dialect.write rule).answer log = .ok text ↔
      rule.predicate.toText dialect.settings.maxDepth = .ok text := by
  simp only [write, answer_bind_eq_ok, answer_of_eq_ok, answer_tell_eq_ok, answer_pure_eq_ok,
    true_and, exists_const, exists_eq_right]

end WhereRules.Dialect
