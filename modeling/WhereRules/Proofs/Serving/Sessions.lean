import WhereRules.Proofs.Serving.History
import WhereRules.Session

/-!
# The front end of a session

A session has one front end at a time, and whatever its steps do, fail or succeed, the front end goes
on serving the dialect that it was made for (`Session.Served.run`). So a session reads a text as the
dialect of its front end does, and what holds of reading under a dialect holds of sessions.
-/

namespace WhereRules.Session

/-- The front end serves its dialect. -/
def Served (session : Session) : Prop := session.frontEnd.Fits session.frontEnd.dialect

/-- From a session on, work leaves a front end that serves its dialect. -/
def ServedFrom {α : Type} (work : Work α) (session : Session) : Prop :=
  session.Served → (work.run.run session).2.Served

variable {α β : Type} {session : Session}

/-- Steps one after the other leave a front end that serves, if each does. That the first fails ends
the work with its front end. -/
theorem servedFrom_bind {work : Work α} {f : α → Work β} (hwork : ServedFrom work session)
    (hf : ∀ a session, ServedFrom (f a) session) : ServedFrom (work >>= f) session := by
  intro h
  have hafter := hwork h
  rw [run_run_bind]
  obtain ⟨result, after, hrun⟩ : ∃ result after, work.run.run session = (result, after) :=
    ⟨_, _, rfl⟩
  rw [hrun] at hafter ⊢
  cases result with
  | error error => exact hafter
  | ok a => exact hf a after hafter

theorem servedFrom_get {f : Session → Work α} (h : ServedFrom (f session) session) :
    ServedFrom (get >>= f) session := h

theorem servedFrom_pure (a : α) (session : Session) : ServedFrom (pure a : Work α) session :=
  fun h => h

theorem servedFrom_throw (error : StepError) (session : Session) :
    ServedFrom (throw error : Work α) session :=
  fun h => h

theorem servedFrom_context (name : String) (session : Session) :
    ServedFrom (context name) session := by
  refine servedFrom_get ?_
  split
  · exact servedFrom_pure _ _
  · exact servedFrom_throw _ _

theorem servedFrom_rule (name : String) (session : Session) : ServedFrom (rule name) session := by
  refine servedFrom_get ?_
  split
  · exact servedFrom_pure _ _
  · exact servedFrom_throw _ _

/-- A reading may change the context that it is made in, and not the front end. -/
theorem servedFrom_reading (name : String) (r : Reading α) (session : Session) :
    ServedFrom (reading name r) session :=
  servedFrom_bind (servedFrom_context name session) fun _ _ h => h

/-- To answer with what a call came to, or with its error, changes nothing. -/
theorem servedFrom_conclude (result : Except RuleError α) (session : Session) :
    ServedFrom (conclude result) session := by
  cases result with
  | ok a => exact servedFrom_pure _ _
  | error error => exact servedFrom_throw _ _

theorem servedFrom_attempted (attempt : Dialect.Attempt α) (session : Session) :
    ServedFrom (attempted attempt) session :=
  servedFrom_bind (fun h => h) fun _ => servedFrom_conclude _

/-- Calls of the front end that it answers as its dialect does. -/
def Faithful (work : FrontEnd.Work α) (attempt : Dialect → Dialect.Attempt α) : Prop :=
  ∀ frontEnd dialect, frontEnd.Fits dialect →
    Serves work frontEnd (attempt dialect) (FrontEnd.Fits · dialect)

/-- A call that the front end answers faithfully leaves one that serves. -/
theorem servedFrom_served {work : FrontEnd.Work α} {attempt : Dialect → Dialect.Attempt α}
    (hwork : Faithful work attempt) (session : Session) : ServedFrom (served work) session := by
  refine servedFrom_get (servedFrom_bind ?_ fun _ => servedFrom_conclude _)
  intro h
  obtain ⟨after, hafter, hrun⟩ := hwork _ _ h session.log
  show ((work.run.run session.frontEnd).run session.log).1.2.Fits
    ((work.run.run session.frontEnd).run session.log).1.2.dialect
  rw [hrun]
  exact hafter.dialect_eq ▸ hafter

/-- A session answers a call of its front end as the dialect of the front end does, with the log
that it has at the time. -/
theorem fst_served {work : FrontEnd.Work α} {attempt : Dialect → Dialect.Attempt α}
    (hwork : Faithful work attempt) (h : session.Served) :
    ((served work).run.run session).1 =
      ((attempt session.frontEnd.dialect).answer session.log).mapError .rule := by
  obtain ⟨after, -, hrun⟩ := hwork _ _ h session.log
  let run := (work.run.run session.frontEnd).run session.log
  have hserved : (served work).run.run session =
      (conclude run.1.1).run.run { session with frontEnd := run.1.2, log := run.2 } := rfl
  have hanswer : run.1.1 = (attempt session.frontEnd.dialect).answer session.log := by
    show ((work.run.run session.frontEnd).run session.log).1.1 = _
    rw [hrun]
  rw [hserved, hanswer]
  cases (attempt session.frontEnd.dialect).answer session.log with
  | ok result => rfl
  | error error => rfl

theorem faithful_parse (source : String) :
    Faithful (FrontEnd.parse source) fun dialect => dialect.parse source :=
  fun _ _ h => h.serves_parse source

theorem faithful_parseWithAction (source : String) (action : Action) :
    Faithful (FrontEnd.parseWithAction source action) fun dialect =>
      dialect.parseWithAction source action :=
  fun _ _ h => h.serves_parseWithAction source action

theorem faithful_parseExpr (source : String) :
    Faithful (FrontEnd.parseExpr source) fun dialect => dialect.parseExpr source :=
  fun _ _ h => h.serves_parseExpr source

theorem faithful_fields (source : String) :
    Faithful (FrontEnd.fields source) fun dialect => dialect.fields source :=
  fun _ _ h => h.serves_fields source

/-- No step makes the front end of a session unfit for its dialect. A step either makes a new front
end, or has the one that there is do something it does faithfully, or leaves it alone. -/
theorem servedFrom_perform (step : Step) (session : Session) :
    ServedFrom (perform step) session := by
  cases step with
  | create name | load name document => exact fun h => h
  | copy name target | insert name key value =>
    exact servedFrom_bind (servedFrom_context name session) fun _ _ h => h
  | insertLazy name key values =>
    exact servedFrom_bind (servedFrom_context name session) fun _ _ h => h
  | get name key | lookup name path segments =>
    exact servedFrom_bind (servedFrom_reading name _ session) fun _ _ h => h
  | contains name key | measure name =>
    exact servedFrom_bind (servedFrom_context name session) fun _ _ h => h
  | read name path =>
    rw [perform]
    split
    · exact servedFrom_bind (servedFrom_reading name _ session) fun _ _ h => h
    · exact servedFrom_throw _ session
  | configure dialect => exact fun _ => FrontEnd.fits_new dialect
  | parse name source action =>
    refine servedFrom_bind ?_ fun _ _ h => h
    cases action with
    | none => exact servedFrom_served (faithful_parse source) session
    | some action => exact servedFrom_served (faithful_parseWithAction source action) session
  | build name predicate =>
    cases predicate with
    | ok predicate => exact fun h => h
    | error error => exact fun h => h
  | copyRule name target | attach name action | hasAction name | list name =>
    exact servedFrom_bind (servedFrom_rule name session) fun _ _ h => h
  | evaluate name context | execute name context =>
    refine servedFrom_bind (servedFrom_rule name session) fun _ session => ?_
    exact servedFrom_bind (servedFrom_reading context _ session) fun _ _ h => h
  | write name =>
    refine servedFrom_bind (servedFrom_rule name session) fun _ session => ?_
    exact servedFrom_get (servedFrom_bind (servedFrom_attempted _ session) fun _ _ h => h)
  | validate source => exact fun h => h
  | fields source =>
    exact servedFrom_bind (servedFrom_served (faithful_fields source) session) fun _ _ h => h
  | parseExpr source =>
    exact servedFrom_bind (servedFrom_served (faithful_parseExpr source) session) fun _ _ h => h

/-- One step of a session leaves a front end that serves, even if the step fails. -/
theorem Served.step (h : session.Served) (step : Step) : (session.step step).2.Served := by
  have hafter := servedFrom_perform step session h
  rw [Session.step]
  split
  · next hrun => rwa [hrun] at hafter
  · next hrun => rwa [hrun] at hafter

/-- **After all steps of a session its front end serves its dialect.** The induction is on the
steps, each from the session that those before it have left. -/
theorem Served.run (h : session.Served) (steps : List Step) : (session.run steps).2.Served := by
  induction steps generalizing session with
  | nil => exact h
  | cons step steps ih => exact ih (h.step step)

theorem served_empty : Served {} := FrontEnd.fits_new {}

/-- **A session reads a text as the dialect of its front end does**, whatever its steps were: they
may have made new front ends, failed in the middle of a text or left rules and contexts behind. -/
theorem answer_parse_run (steps : List Step) (rule source : String) :
    let session := (({} : Session).run steps).2
    (session.step (.parse rule source none)).1.answer =
      match (session.frontEnd.dialect.parse source).answer session.log with
      | .ok read => .ok (.operator read.predicate.operator)
      | .error error => .error (.rule error) := by
  intro session
  have hanswer : ((served (FrontEnd.parse source)).run.run session).1 =
      ((session.frontEnd.dialect.parse source).answer session.log).mapError .rule :=
    fst_served (faithful_parse source) (served_empty.run steps)
  have hparse : perform (.parse rule source none) =
      served (FrontEnd.parse source) >>= fun read => do
        putRule rule read
        return (.operator read.predicate.operator, none) := rfl
  obtain ⟨result, after, hserved⟩ : ∃ result after,
      (served (FrontEnd.parse source)).run.run session = (result, after) := ⟨_, _, rfl⟩
  rw [hserved] at hanswer
  dsimp only at hanswer
  subst hanswer
  rw [Session.step, hparse, run_run_bind, hserved]
  cases (session.frontEnd.dialect.parse source).answer session.log with
  | ok read => rfl
  | error error => rfl

end WhereRules.Session
