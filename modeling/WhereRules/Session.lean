import WhereRules.FrontEnd
import WhereRules.Context.Reading

/-!
# Sessions

A session keeps named contexts and named rules and works on them with one front end. It is advanced
step by step; each step answers, and may ask lazy providers, fire an action and add to the log.

Providers belong to the session, numbered in the order in which they were made, and it counts the
questions to each. A step that fails leaves the session as it was, its log and the parser of its
front end apart.
-/

namespace WhereRules

/-! ## Steps and answers -/

inductive Step
  /-- An empty context under a name. -/
  | create (context : String)
  | load (context : String) (document : Json)
  | copy (context target : String)
  | insert (context key : String) (value : Value)
  /-- A lazy binding whose provider gives the values in turn, over and over. -/
  | insertLazy (context key : String) (values : List Value)
  | get (context key : String)
  | contains (context key : String)
  | measure (context : String)
  | lookup (context path : String) (segments : List String)
  | read (context path : String)
  | configure (dialect : Dialect)
  | parse (rule source : String) (action : Option Action)
  | build (rule : String) (predicate : Except PartError Predicate)
  | copyRule (rule target : String)
  | attach (rule : String) (action : Action)
  | hasAction (rule : String)
  | evaluate (rule context : String)
  | execute (rule context : String)
  | write (rule : String)
  | validate (source : String)
  | fields (source : String)
  | parseExpr (source : String)
  | list (rule : String)

/-- Why a step fails. -/
inductive StepError
  | rule (error : RuleError)
  | part (error : PartError)
  /-- No context or rule has the name. -/
  | unknownName (name : String)

inductive Answer
  | done
  | found (value : Option Value)
  | truth (b : Bool)
  | measured (size : Nat) (isEmpty : Bool) (listing : String)
  | value (value : Value)
  | operator (operator : Operator)
  | text (text : String)
  | report (report : Report)
  | paths (paths : List String)
  | expr (e : Expr)

structure Session where
  frontEnd : FrontEnd := .new {}
  contexts : List (String × Context) := []
  rules : List (String × Rule) := []
  /-- How often each provider has been asked. -/
  calls : Calls := []
  log : List Event := []

/-- What a step answers, and the actions it fired. -/
structure Outcome where
  answer : Except StepError Answer
  fired : List Firing := []

namespace Session

/-- A computation on a session that may fail. -/
abbrev Work := ExceptT StepError (StateM Session)

/-! ## Parts of a session -/

def context (name : String) : Work Context := do
  match (← get).contexts.lookup name with
  | some context => return context
  | none => throw (.unknownName name)

def rule (name : String) : Work Rule := do
  match (← get).rules.lookup name with
  | some rule => return rule
  | none => throw (.unknownName name)

def putContext (name : String) (context : Context) : Work Unit :=
  modify fun session => { session with contexts := Keyed.insert name context session.contexts }

def putRule (name : String) (rule : Rule) : Work Unit :=
  modify fun session => { session with rules := Keyed.insert name rule session.rules }

/-- A provider that gives values in turn and has not been asked yet. -/
def newProvider (values : List Value) : Work Provider := do
  let session ← get
  set { session with calls := session.calls ++ [0] }
  return ⟨session.calls.length, fun n => values.getD (n % values.length) .null⟩

/-- Reads a named context; it remembers what its providers answered. -/
def reading {α : Type} (name : String) (reading : Reading α) : Work α := do
  let context ← context name
  let session ← get
  let (result, state) := reading.run ⟨context, session.calls, []⟩
  set { session with calls := state.calls, log := session.log ++ state.forced.map Event.asked }
  putContext name state.context
  return result

/-- Does work that adds to the session's log. -/
def logged {α : Type} (work : Logged α) : Work α := do
  let session ← get
  let (result, log) := work.run session.log
  set { session with log }
  return result

/-- Goes on with what was answered about a rule. -/
def conclude {α : Type} : Except RuleError α → Work α
  | .ok result => return result
  | .error error => throw (.rule error)

def attempted {α : Type} (attempt : Dialect.Attempt α) : Work α := do
  conclude (← logged attempt.run)

/-- Does work of the session's front end. -/
def served {α : Type} (work : FrontEnd.Work α) : Work α := do
  let session ← get
  let ((result, frontEnd), log) := (work.run.run session.frontEnd).run session.log
  set { session with frontEnd, log }
  conclude result

/-! ## Steps -/

/-- What a step does, its answer and the action it fired. -/
def perform : Step → Work (Answer × Option Firing)
  | .create name => do
    putContext name .empty
    return (.done, none)
  | .load name document => do
    putContext name (Context.ofJson document)
    return (.done, none)
  | .copy name target => do
    putContext target (← context name)
    return (.done, none)
  | .insert name key value => do
    putContext name ((← context name).insert key value)
    return (.done, none)
  | .insertLazy name key values => do
    let context ← context name
    putContext name (context.insertLazy key (← newProvider values))
    return (.done, none)
  | .get name key => return (.found (← reading name (Reading.get key)), none)
  | .contains name key => return (.truth ((← context name).contains key), none)
  | .measure name => do
    let context ← context name
    return (.measured context.size context.isEmpty context.listing, none)
  | .lookup name path segments =>
    return (.value (← reading name (Reading.lookup path segments)), none)
  | .read name path =>
    match Field.ofPath path with
    | .ok field => return (.value (← reading name (Reading.field field)), none)
    | .error error => throw (.part (.field error))
  | .configure dialect => do
    modify fun session => { session with frontEnd := .new dialect }
    return (.done, none)
  | .parse name source action => do
    let rule ← served <| match action with
      | some action => FrontEnd.parseWithAction source action
      | none => FrontEnd.parse source
    putRule name rule
    return (.operator rule.predicate.operator, none)
  | .build name predicate =>
    match predicate with
    | .ok predicate => do
      putRule name { predicate }
      return (.done, none)
    | .error error => throw (.part error)
  | .copyRule name target => do
    putRule target (← rule name)
    return (.done, none)
  | .attach name action => do
    putRule name ((← rule name).withAction action)
    return (.done, none)
  | .hasAction name => return (.truth (← rule name).hasAction, none)
  | .evaluate name context => do
    let rule ← rule name
    return (.truth (← reading context rule.evaluate), none)
  | .execute name context => do
    let rule ← rule name
    let (holds, firing) ← reading context rule.execute
    return (.truth holds, firing)
  | .write name => do
    let rule ← rule name
    return (.text (← attempted ((← get).frontEnd.write rule)), none)
  | .validate source => return (.report (← logged ((← get).frontEnd.validate source)), none)
  | .fields source => return (.paths (← served (FrontEnd.fields source)), none)
  | .parseExpr source => return (.expr (← served (FrontEnd.parseExpr source)), none)
  | .list name => return (.text (← rule name).listing, none)

/-- One step: what it answered, and the session after it. -/
def step (session : Session) (step : Step) : Outcome × Session :=
  match (perform step).run.run session with
  | (.ok (answer, firing), session) => (⟨.ok answer, firing.toList⟩, session)
  | (.error error, session) => (⟨.error error, []⟩, session)

/-- Steps from first to last: every outcome with the questions asked up to then, and the session
after them. -/
def run (session : Session) : List Step → List (Outcome × Calls) × Session
  | [] => ([], session)
  | step :: steps =>
    let (outcome, session) := session.step step
    let (outcomes, last) := run session steps
    ((outcome, session.calls) :: outcomes, last)

end Session

end WhereRules
