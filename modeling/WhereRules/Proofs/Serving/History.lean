import WhereRules.FrontEnd
import WhereRules.Proofs.Answers
import WhereRules.Proofs.Serving.Scanning
import WhereRules.Proofs.Serving.Cursors

/-!
# What a front end was asked before does not matter

A front end keeps its parser from call to call, and a call that fails leaves it in the middle of a
text. Still each call does what its dialect does, which remembers nothing (`Serves`): a parser begins
each text anew, and all that it keeps is its limit, which is the dialect's (`FrontEnd.Fits`). So no
history of calls makes a difference to a later one, and validating, which takes a new parser, agrees
with reading.
-/

namespace WhereRules

/-! ## Work that remembers nothing -/

section Serves

variable {σ α β : Type} {s : σ} {keeps : σ → Prop}

/-- Work on a state answers and logs as an attempt does that has no state, and keeps what is to be
kept of the state. -/
def Serves (work : ExceptT RuleError (StateT σ Logged) α) (s : σ) (attempt : Dialect.Attempt α)
    (keeps : σ → Prop) : Prop :=
  ∀ log, ∃ after, keeps after ∧
    (work.run.run s).run log = ((attempt.answer log, after), attempt.logAfter log)

/-- What comes after a piece of work begins with the state and the log that it has left, and is not
begun if it has failed. -/
theorem run_bind_logged (x : ExceptT RuleError (StateT σ Logged) α)
    (f : α → ExceptT RuleError (StateT σ Logged) β) (s : σ) (log : List Event) :
    ((x >>= f).run.run s).run log =
      match (x.run.run s).run log with
      | ((.ok a, after), seen) => ((f a).run.run after).run seen
      | ((.error error, after), seen) => ((.error error, after), seen) := by
  rw [ExceptT.run_bind, StateT.run_bind, StateT.run_bind]
  obtain ⟨result, after, seen, hrun⟩ :
      ∃ result after seen, (x.run.run s).run log = ((result, after), seen) := ⟨_, _, _, rfl⟩
  rw [hrun]
  cases result with
  | ok _ => rfl
  | error _ => rfl

/-- Less of the state may be kept than is. -/
theorem Serves.mono {work : ExceptT RuleError (StateT σ Logged) α} {attempt : Dialect.Attempt α}
    {keeps' : σ → Prop} (h : Serves work s attempt keeps) (hle : ∀ after, keeps after → keeps' after) :
    Serves work s attempt keeps' := by
  intro log
  obtain ⟨after, hkeeps, hrun⟩ := h log
  exact ⟨after, hle after hkeeps, hrun⟩

/-- **Serving is closed under one piece of work after another**, if the second serves from every
state that the first may leave. That it fails leaves such a state too. -/
theorem Serves.bind {work : ExceptT RuleError (StateT σ Logged) α} {attempt : Dialect.Attempt α}
    {f : α → ExceptT RuleError (StateT σ Logged) β} {g : α → Dialect.Attempt β}
    (hwork : Serves work s attempt keeps)
    (hf : ∀ a after, keeps after → Serves (f a) after (g a) keeps) :
    Serves (work >>= f) s (attempt >>= g) keeps := by
  intro log
  obtain ⟨after, hkeeps, hrun⟩ := hwork log
  rw [run_bind_logged, hrun]
  unfold Dialect.Attempt.answer Dialect.Attempt.logAfter
  rw [run_run_bind]
  obtain ⟨result, seen, hattempt⟩ : ∃ result seen, attempt.run.run log = (result, seen) :=
    ⟨_, _, rfl⟩
  rw [hattempt]
  cases result with
  | error error => exact ⟨after, hkeeps, rfl⟩
  | ok a => exact hf a after hkeeps seen

theorem serves_pure (a : α) (hs : keeps s) :
    Serves (pure a : ExceptT RuleError (StateT σ Logged) α) s (pure a) keeps :=
  fun _ => ⟨s, hs, rfl⟩

/-- To log an event is the same with a state and without one. -/
theorem serves_tell (event : Event) (hs : keeps s) :
    Serves (liftM (Logged.tell event) : ExceptT RuleError (StateT σ Logged) Unit) s
      (liftM (Logged.tell event)) keeps :=
  fun _ => ⟨s, hs, rfl⟩

end Serves

/-! ## Parsers -/

namespace Parser

/-- A parser cuts a text as the text is cut, however its scanner was left, and does not touch its
cursor. -/
theorem serves_scan (parser : Parser) (source : String) :
    Serves (scan source) parser (.of .lex (TokenStream.ofText source))
      fun after => after.cursor = parser.cursor := by
  intro log
  refine ⟨{ parser with scanner := (parser.scanner.tokenize source).2 }, rfl, ?_⟩
  rw [← parser.scanner.tokenize_fst source]
  rfl

/-- A parser with this limit. -/
def Limited (limit : Nat) (parser : Parser) : Prop := parser.cursor.maxDepth = limit

/-- A parser with a limit reads tokens as they are read under that limit, wherever its cursor was
left, and keeps the limit. -/
theorem Limited.serves_readTokens {limit : Nat} {parser : Parser} (h : parser.Limited limit)
    (stream : TokenStream) :
    Serves (readTokens stream) parser (.of .parse (Expr.ofTokens limit stream))
      (Limited limit) := by
  intro log
  obtain ⟨position, left, hrun⟩ := Parsing.run_whole parser.cursor stream
  refine ⟨{ parser with cursor := (parser.cursor.load stream).moved position left }, h, ?_⟩
  have hread : ((readTokens stream).run.run parser).run log =
      (((Parsing.whole.run.run (parser.cursor.load stream)).1.mapError RuleError.parse,
        { parser with cursor := (Parsing.whole.run.run (parser.cursor.load stream)).2 }), log) := rfl
  rw [hread, hrun, h]
  rfl

/-- **However a parser was left, it reads a text as the text is read**, and keeps its limit. It cuts
the text, logs that, and reads the tokens that it was cut into. -/
theorem Limited.serves_parse {parser : Parser} {dialect : Dialect}
    (h : parser.Limited dialect.settings.maxDepth) (source : String) :
    Serves (Parser.parse source) parser (dialect.parseExpr source)
      (Limited dialect.settings.maxDepth) := by
  have hscan : Serves (scan source) parser (.of .lex (TokenStream.ofText source))
      (Limited dialect.settings.maxDepth) :=
    (parser.serves_scan source).mono fun after hafter => (congrArg Cursor.maxDepth hafter).trans h
  refine hscan.bind fun stream scanned hscanned => ?_
  refine (serves_tell _ hscanned).bind fun _ told htold => ?_
  exact htold.serves_readTokens stream

theorem limited_new (limit : Nat) : (new limit).Limited limit := rfl

end Parser

/-! ## Front ends -/

namespace FrontEnd

variable {α : Type} {frontEnd : FrontEnd}

/-- A front end for a dialect, with a parser that has its limit. -/
structure Fits (frontEnd : FrontEnd) (dialect : Dialect) : Prop where
  dialect_eq : frontEnd.dialect = dialect
  limited : frontEnd.parser.Limited dialect.settings.maxDepth

theorem fits_new (dialect : Dialect) : (new dialect).Fits dialect := ⟨rfl, rfl⟩

variable {dialect : Dialect}

/-- To read the expression of a text is the work of the parser, and of what the front end has
besides nothing changes. -/
theorem Fits.serves_parseExpr (h : frontEnd.Fits dialect) (source : String) :
    Serves (parseExpr source) frontEnd (dialect.parseExpr source) (Fits · dialect) := by
  intro log
  obtain ⟨after, hlimit, hrun⟩ := h.limited.serves_parse source log
  refine ⟨{ frontEnd with parser := after }, ⟨h.dialect_eq, hlimit⟩, ?_⟩
  have hread : ((parseExpr source).run.run frontEnd).run log =
      let read := ((Parser.parse source).run.run frontEnd.parser).run log
      ((read.1.1, { frontEnd with parser := read.1.2 }), read.2) := rfl
  rw [hread, hrun]

/-- A text is read as a rule by reading its expression and compiling it, which looks at the dialect
only. -/
theorem Fits.serves_parse (h : frontEnd.Fits dialect) (source : String) :
    Serves (parse source) frontEnd (dialect.parse source) (Fits · dialect) := by
  refine (h.serves_parseExpr source).bind fun e after hafter => ?_
  -- What is left asks the front end for its dialect only, and that is as it was.
  intro log
  refine ⟨after, hafter, ?_⟩
  have htoRule : ((do
        let frontEnd ← get
        ExceptT.mk (frontEnd.dialect.toRule source e).run : Work Rule).run.run after).run log =
      ((((after.dialect.toRule source e).answer log, after),
        (after.dialect.toRule source e).logAfter log)) := rfl
  rw [htoRule, hafter.dialect_eq]

/-- The same with an action, which is put into the rule and not looked at. -/
theorem Fits.serves_parseWithAction (h : frontEnd.Fits dialect) (source : String)
    (action : Action) :
    Serves (parseWithAction source action) frontEnd (dialect.parseWithAction source action)
      (Fits · dialect) :=
  (h.serves_parse source).bind fun _ _ hafter => serves_pure _ hafter

/-- The fields of a text are those of the expression that is read from it. -/
theorem Fits.serves_fields (h : frontEnd.Fits dialect) (source : String) :
    Serves (fields source) frontEnd (dialect.fields source) (Fits · dialect) :=
  (h.serves_parseExpr source).bind fun _ _ hafter => serves_pure _ hafter

/-- Validating does not look at the parser of the front end. It makes a new one, with the limit of
the dialect. -/
theorem run_check (frontEnd : FrontEnd) (source : String) (log : List Event) :
    (frontEnd.check source).run.run log = (frontEnd.dialect.check source).run.run log := by
  let limit := frontEnd.dialect.settings.maxDepth
  obtain ⟨after, -, hrun⟩ := (Parser.limited_new limit).serves_parse source log
  have hread : (Parser.parseOnce limit source).run.run log =
      (frontEnd.dialect.parseExpr source).run.run log := by
    have honce : (Parser.parseOnce limit source).run.run log =
        let read := ((Parser.parse source).run.run (.new limit)).run log
        (read.1.1, read.2) := rfl
    rw [honce, hrun]
    rfl
  rw [check, run_run_bind, hread, Dialect.check, run_run_bind]

/-- What a validation reports is what came of reading: nothing of an accepted text, or else the one
error with its message and its position. The log that it is read with does not matter. -/
theorem validate_fst (frontEnd : FrontEnd) (source : String) (log other : List Event) :
    ((frontEnd.validate source).run log).1 =
      match (frontEnd.dialect.parse source).answer other with
      | .ok _ => ⟨true, []⟩
      | .error error => ⟨false, [⟨error.message, error.position⟩]⟩ := by
  have hrun : ((frontEnd.validate source).run log).1 =
      ((Dialect.report ((frontEnd.check source).answer log)).run
        ((frontEnd.check source).logAfter log)).1 := rfl
  have hcheck : (frontEnd.check source).answer log =
      ((frontEnd.dialect.parse source).answer other).map fun _ => () := by
    rw [← Dialect.answer_check _ _ log]
    exact congrArg Prod.fst (frontEnd.run_check source log)
  rw [hrun, hcheck]
  cases (frontEnd.dialect.parse source).answer other with
  | ok rule => rfl
  | error error => rfl

/-! ## Histories -/

namespace Work

/-- What work answers. -/
def answer (work : Work α) (frontEnd : FrontEnd) (log : List Event) : Except RuleError α :=
  ((work.run.run frontEnd).run log).1.1

/-- The front end and the log behind work, whether it succeeds or fails. -/
def behind (work : Work α) (state : FrontEnd × List Event) : FrontEnd × List Event :=
  let ((_, frontEnd), log) := (work.run.run state.1).run state.2
  (frontEnd, log)

end Work

/-- What a front end may be asked. -/
inductive Call
  | parse (source : String)
  | parseWithAction (source : String) (action : Action)
  | parseExpr (source : String)
  | fields (source : String)
  | write (rule : Rule)
  | validate (source : String)
  | accepts (source : String)

/-- The front end and the log behind a call, whatever the call answers. -/
def perform (state : FrontEnd × List Event) : Call → FrontEnd × List Event
  | .parse source => (parse source).behind state
  | .parseWithAction source action => (parseWithAction source action).behind state
  | .parseExpr source => (parseExpr source).behind state
  | .fields source => (fields source).behind state
  | .write rule => (state.1, (state.1.write rule).logAfter state.2)
  | .validate source => (state.1, ((state.1.validate source).run state.2).2)
  | .accepts source => (state.1, ((state.1.accepts source).run state.2).2)

/-- The front end and the log behind some calls, one after the other. -/
def after (state : FrontEnd × List Event) (history : List Call) : FrontEnd × List Event :=
  history.foldl perform state

/-- Work that serves an attempt leaves the front end fit, whether it answers or fails. -/
theorem fits_behind {work : Work α} {state : FrontEnd × List Event}
    {attempt : Dialect.Attempt α} (h : Serves work state.1 attempt (Fits · dialect)) :
    (work.behind state).1.Fits dialect := by
  obtain ⟨after, hafter, hrun⟩ := h state.2
  rw [Work.behind, hrun]
  exact hafter

/-- A call leaves a front end fit for its dialect. Writing and validating leave it as it is; the
rest go through the parser and serve an attempt of the dialect. -/
theorem Fits.perform {state : FrontEnd × List Event} (h : state.1.Fits dialect) (call : Call) :
    (perform state call).1.Fits dialect := by
  cases call with
  | parse source => exact fits_behind (h.serves_parse source)
  | parseWithAction source action => exact fits_behind (h.serves_parseWithAction source action)
  | parseExpr source => exact fits_behind (h.serves_parseExpr source)
  | fields source => exact fits_behind (h.serves_fields source)
  | write rule => exact h
  | validate source => exact h
  | accepts source => exact h

/-- All calls of a history do, by induction on the history from its first call on. -/
theorem Fits.after {state : FrontEnd × List Event} (h : state.1.Fits dialect)
    (history : List Call) : (after state history).1.Fits dialect := by
  induction history generalizing state with
  | nil => exact h
  | cons call history ih => exact ih (h.perform call)

/-- What serves an attempt answers as the attempt does. -/
theorem answer_of_serves {work : Work α} {attempt : Dialect.Attempt α} {keeps : FrontEnd → Prop}
    (h : Serves work frontEnd attempt keeps) (log : List Event) :
    work.answer frontEnd log = attempt.answer log := by
  obtain ⟨after, -, hrun⟩ := h log
  rw [Work.answer, hrun]

/-- Reading answers as the dialect does. -/
theorem Fits.answer_parse (h : frontEnd.Fits dialect) (source : String) (log : List Event) :
    (parse source).answer frontEnd log = (dialect.parse source).answer log :=
  answer_of_serves (h.serves_parse source) log

theorem Fits.answer_parseExpr (h : frontEnd.Fits dialect) (source : String) (log : List Event) :
    (parseExpr source).answer frontEnd log = (dialect.parseExpr source).answer log :=
  answer_of_serves (h.serves_parseExpr source) log

/-- A text is accepted exactly when it is read. The two may be asked with different logs, which is
why the log of each is free. -/
theorem Fits.accepts_iff (h : frontEnd.Fits dialect) (source : String) (log other : List Event) :
    ((frontEnd.accepts source).run log).1 = true ↔
      ∃ rule, (dialect.parse source).answer other = .ok rule := by
  have haccepts : ((frontEnd.accepts source).run log).1 =
      ((frontEnd.validate source).run log).1.ok := rfl
  rw [haccepts, frontEnd.validate_fst source log other, h.dialect_eq]
  cases (dialect.parse source).answer other with
  | ok rule => exact ⟨fun _ => ⟨rule, rfl⟩, fun _ => rfl⟩
  | error error =>
    constructor
    · intro h
      cases h
    · rintro ⟨rule, h⟩
      cases h

/-- **Whatever a front end was asked before, it reads a text as one that was asked nothing**, with
the same rule or the same error; a text is accepted exactly when it is read, and validating it
reports the error of reading it, with its message and its position, and no other. -/
theorem agrees_after (dialect : Dialect) (history : List Call) (source : String)
    (before log other : List Event) :
    let used := (after (new dialect, before) history).1
    (parse source).answer used log = (parse source).answer (new dialect) other ∧
      (((used.accepts source).run log).1 = true ↔
        ∃ rule, (parse source).answer used log = .ok rule) ∧
      ((used.validate source).run log).1 =
        match (parse source).answer used log with
        | .ok _ => ⟨true, []⟩
        | .error error => ⟨false, [⟨error.message, error.position⟩]⟩ := by
  intro used
  have hused : used.Fits dialect := Fits.after (fits_new dialect) history
  have hparse : (parse source).answer used log = (dialect.parse source).answer log :=
    hused.answer_parse source log
  have hvalidate := used.validate_fst source log log
  rw [hused.dialect_eq, ← hparse] at hvalidate
  refine ⟨?_, ?_, hvalidate⟩
  · rw [hparse, (fits_new dialect).answer_parse, Dialect.answers_parse, Dialect.answers_parse]
  · rw [hparse]
    exact hused.accepts_iff source log log

end FrontEnd

end WhereRules
