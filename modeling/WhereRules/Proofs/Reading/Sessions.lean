import WhereRules.Proofs.Reading.Memory
import WhereRules.Proofs.Success
import WhereRules.Session

/-!
# Contexts of a session

Whatever a step of a session does to its contexts is a row of acts (`Session.exists_acts_step`): it
is work that is made of acts part by part (`Session.actsFrom_bind`), or of none. So the contexts of
a session are those of a pool that came about by acts (`Session.exists_acts_run`), and what acts
keep holds of them, as that they remember answers only (`Session.honest_run`).
-/

namespace WhereRules

/-- Acts in two rows are acts in one. -/
theorem Pool.run_append (pool : Pool) (acts more : List Act) :
    pool.run (acts ++ more) = (pool.run acts).run more :=
  List.foldl_append

namespace Session

/-- The contexts of a session, and the questions to its providers. -/
def pool (session : Session) : Pool := ⟨session.contexts, session.calls⟩

/-- From a session on, work does to the contexts what some acts do. -/
def ActsFrom {α : Type} (work : Work α) (session : Session) : Prop :=
  ∃ acts, (work.run.run session).2.pool = session.pool.run acts

variable {α β : Type} {session : Session}

/-- One piece of work after the other does the acts of both. The second may depend on what the first
found, and so its acts are found for each session. -/
theorem actsFrom_bind {work : Work α} {f : α → Work β} (hwork : ActsFrom work session)
    (hf : ∀ a session, ActsFrom (f a) session) : ActsFrom (work >>= f) session := by
  obtain ⟨acts, hacts⟩ := hwork
  rw [ActsFrom, run_run_bind]
  obtain ⟨result, after, hrun⟩ : ∃ result after, work.run.run session = (result, after) :=
    ⟨_, _, rfl⟩
  rw [hrun] at hacts ⊢
  cases result with
  | error error => exact ⟨acts, hacts⟩
  | ok a =>
    obtain ⟨more, hmore⟩ := hf a after
    exact ⟨acts ++ more, by rw [Pool.run_append, ← hacts, hmore]⟩

/-- Work that only answers does nothing to contexts. -/
theorem actsFrom_pure (a : α) (session : Session) : ActsFrom (pure a : Work α) session := ⟨[], rfl⟩

/-- Nor does work that fails. -/
theorem actsFrom_throw (error : StepError) (session : Session) :
    ActsFrom (throw error : Work α) session := ⟨[], rfl⟩

/-- Looking up a rule does nothing to contexts. -/
theorem actsFrom_rule (name : String) (session : Session) : ActsFrom (rule name) session := by
  refine actsFrom_bind ⟨[], rfl⟩ fun other _ => ?_
  split
  · exact actsFrom_pure _ _
  · exact actsFrom_throw _ _

/-- Nor does keeping one. -/
theorem actsFrom_putRule (name : String) (r : Rule) (session : Session) :
    ActsFrom (putRule name r) session := ⟨[], rfl⟩

/-- Nor does work on the log. -/
theorem actsFrom_logged (work : Logged α) (session : Session) : ActsFrom (logged work) session :=
  ⟨[], rfl⟩

theorem actsFrom_conclude (result : Except RuleError α) (session : Session) :
    ActsFrom (conclude result) session := by
  cases result with
  | ok a => exact actsFrom_pure _ _
  | error error => exact actsFrom_throw _ _

/-- Nor does what a dialect is asked for. -/
theorem actsFrom_attempted (attempt : Dialect.Attempt α) (session : Session) :
    ActsFrom (attempted attempt) session :=
  actsFrom_bind (actsFrom_logged _ _) fun _ => actsFrom_conclude _

/-- Work that looks at the session first. -/
theorem actsFrom_get_bind {f : Session → Work α} (hf : ActsFrom (f session) session) :
    ActsFrom (get >>= f) session := hf

/-- Nor does what a front end is asked for. -/
theorem actsFrom_served (work : FrontEnd.Work α) (session : Session) :
    ActsFrom (served work) session :=
  actsFrom_get_bind (actsFrom_bind ⟨[], rfl⟩ fun _ => actsFrom_conclude _)

/-- Work asks for a context by its name, and fails where there is none. -/
theorem run_context (name : String) (session : Session) :
    (context name).run.run session =
      match session.pool.context? name with
      | some c => (.ok c, session)
      | none => (.error (.unknownName name), session) := by
  have hrun : (context name).run.run session =
      ((match session.contexts.lookup name with
        | some c => pure c
        | none => throw (.unknownName name) : Work Context)).run.run session :=
    run_run_bind get _ session
  rw [hrun, Pool.context?, pool]
  cases session.contexts.lookup name <;> rfl

/-- Work on a context that is there. -/
theorem actsFrom_context {name : String} {f : Context → Work α}
    (hf : ∀ c, session.pool.context? name = some c → ActsFrom (f c) session) :
    ActsFrom (context name >>= f) session := by
  rw [ActsFrom, run_run_bind, run_context]
  cases hcontext : session.pool.context? name with
  | none => exact ⟨[], rfl⟩
  | some c => exact hf c hcontext

/-- Reading a context is an access, if some access leaves the same behind. -/
theorem actsFrom_reading {r : Reading α} {access : Access}
    (haccess : ∀ state, (access.ask.run state).2 = (r.run state).2) (name : String)
    (session : Session) : ActsFrom (reading name r) session := by
  refine actsFrom_context fun c hcontext => ⟨[.access name access], ?_⟩
  have hstep := Pool.step_access hcontext access
  rw [haccess] at hstep
  exact hstep.symm

theorem actsFrom_get (session : Session) : ActsFrom (get : Work Session) session := ⟨[], rfl⟩

/-- Putting a context in place is the act that puts it there. -/
theorem actsFrom_putContext {name : String} {c : Context} {act : Act}
    (h : session.pool.step act = session.pool.put name c) :
    ActsFrom (putContext name c) session :=
  ⟨[act], h.symm⟩

/-- A step of a session is made of acts. There is one case for each kind of step, and most of them
touch no context at all. -/
theorem actsFrom_perform (step : Step) (session : Session) : ActsFrom (perform step) session := by
  cases step with
  | create name => exact ⟨[.create name], rfl⟩
  | load name document => exact ⟨[.load name document], rfl⟩
  | copy name target =>
    refine actsFrom_context fun c hcontext => ?_
    exact actsFrom_bind (actsFrom_putContext (Pool.step_copy hcontext target)) fun _ =>
      actsFrom_pure _
  | insert name key value =>
    refine actsFrom_context fun c hcontext => ?_
    exact actsFrom_bind (actsFrom_putContext (Pool.step_bind hcontext key (.eager value))) fun _ =>
      actsFrom_pure _
  | insertLazy name key values =>
    refine actsFrom_context fun c hcontext => ?_
    -- the new provider is counted from then on, which others see as questions asked elsewhere
    let provider : Provider :=
      ⟨session.calls.length, fun n => values.getD (n % values.length) .null⟩
    refine ⟨[.elsewhere (session.calls ++ [0]), .bind name key (.lazy provider)], ?_⟩
    have hcontext' : (session.pool.step (.elsewhere (session.calls ++ [0]))).context? name =
        some c := hcontext
    exact (Pool.step_bind hcontext' key (.lazy provider)).symm
  | get name key =>
    have haccess : ∀ state, ((Access.get key).ask.run state).2 = ((Reading.get key).run state).2 :=
      fun _ => rfl
    exact actsFrom_bind (actsFrom_reading haccess name session) fun _ => actsFrom_pure _
  | lookup name path segments =>
    have haccess : ∀ state, ((Access.lookup path segments).ask.run state).2 =
        ((Reading.lookup path segments).run state).2 := fun _ => rfl
    exact actsFrom_bind (actsFrom_reading haccess name session) fun _ => actsFrom_pure _
  | read name path =>
    rw [perform]
    split
    · next field _ =>
      have haccess : ∀ state, ((Access.lookup field.path field.segments).ask.run state).2 =
          ((Reading.field field).run state).2 := fun _ => rfl
      exact actsFrom_bind (actsFrom_reading haccess name session) fun _ => actsFrom_pure _
    · exact actsFrom_throw _ session
  | evaluate name context =>
    refine actsFrom_bind (actsFrom_rule name session) fun r session => ?_
    have haccess : ∀ state, ((Access.evaluate r).ask.run state).2 = (r.evaluate.run state).2 :=
      fun _ => rfl
    exact actsFrom_bind (actsFrom_reading haccess context session) fun _ => actsFrom_pure _
  | execute name context =>
    refine actsFrom_bind (actsFrom_rule name session) fun r session => ?_
    have haccess : ∀ state, ((Access.execute r).ask.run state).2 = (r.execute.run state).2 :=
      fun _ => rfl
    exact actsFrom_bind (actsFrom_reading haccess context session) fun _ => actsFrom_pure _
  | contains name key | measure name =>
    exact actsFrom_context fun c _ => actsFrom_pure _ session
  | configure dialect => exact ⟨[], rfl⟩
  | parse name source action =>
    exact actsFrom_bind (actsFrom_served _ session) fun r session =>
      actsFrom_bind (actsFrom_putRule name r session) fun _ => actsFrom_pure _
  | build name predicate =>
    cases predicate with
    | ok predicate => exact ⟨[], rfl⟩
    | error error => exact ⟨[], rfl⟩
  | copyRule name target =>
    exact actsFrom_bind (actsFrom_rule name session) fun r session =>
      actsFrom_bind (actsFrom_putRule target r session) fun _ => actsFrom_pure _
  | attach name action =>
    exact actsFrom_bind (actsFrom_rule name session) fun r session =>
      actsFrom_bind (actsFrom_putRule name _ session) fun _ => actsFrom_pure _
  | hasAction name | list name =>
    exact actsFrom_bind (actsFrom_rule name session) fun _ => actsFrom_pure _
  | write name =>
    exact actsFrom_bind (actsFrom_rule name session) fun r session =>
      actsFrom_bind (actsFrom_get session) fun _ session =>
        actsFrom_bind (actsFrom_attempted _ session) fun _ => actsFrom_pure _
  | validate source =>
    exact actsFrom_bind (actsFrom_get session) fun _ session =>
      actsFrom_bind (actsFrom_logged _ session) fun _ => actsFrom_pure _
  | fields source | parseExpr source =>
    exact actsFrom_bind (actsFrom_served _ session) fun _ => actsFrom_pure _

/-- **What a step does to the contexts of a session, some acts do.** -/
theorem exists_acts_step (session : Session) (step : Step) :
    ∃ acts, (session.step step).2.pool = session.pool.run acts := by
  obtain ⟨acts, hacts⟩ := actsFrom_perform step session
  refine ⟨acts, ?_⟩
  rw [← hacts, Session.step]
  split
  · next h => rw [h]
  · next h => rw [h]

/-- **The contexts of a session came about by acts**, the acts of its steps one after the other. So
what holds after all acts holds in every session. -/
theorem exists_acts_run (session : Session) (steps : List Step) :
    ∃ acts, (session.run steps).2.pool = session.pool.run acts := by
  induction steps generalizing session with
  | nil => exact ⟨[], rfl⟩
  | cons step steps ih =>
    obtain ⟨acts, hacts⟩ := session.exists_acts_step step
    obtain ⟨more, hmore⟩ := ih (session.step step).2
    refine ⟨acts ++ more, ?_⟩
    rw [Pool.run_append, ← hacts, ← hmore]
    rfl

/-- The contexts of a session that began with none remember answers only. What was proved of acts
holds of sessions. -/
theorem honest_run (steps : List Step) : (({} : Session).run steps).2.pool.Honest := by
  obtain ⟨acts, hacts⟩ := exists_acts_run {} steps
  rw [hacts]
  exact Pool.honest_empty.run acts

end Session

end WhereRules
