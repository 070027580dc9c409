import WhereRules.Proofs.Reading.Get
import WhereRules.Rule

/-!
# Readings as inquiries

Whatever reads a context does so name by name: what it reads next depends on what it has found so
far, and on nothing else. An `Inquiry` is a computation in this form, and `Inquiry.perform` carries
it out. Looking up a path, evaluating a predicate and executing a rule are inquiries
(`Inquiry.perform_lookup`, `Predicate.perform_inquiry`, `Rule.perform_executing`), and so is every
way to access a context (`Access.ask_run`). A property of all of them is therefore shown by one
induction, with one read for its step.
-/

namespace WhereRules

/-! ## Inquiries -/

/-- A computation that reads names one after the other and answers in the end. -/
inductive Inquiry (α : Type)
  | answer (a : α)
  | read (key : String) (next : Option Value → Inquiry α)

namespace Inquiry

variable {α β : Type}

protected def bind (inquiry : Inquiry α) (f : α → Inquiry β) : Inquiry β :=
  match inquiry with
  | answer a => f a
  | read key next => read key fun found => (next found).bind f

instance : Monad Inquiry where
  pure := answer
  bind := Inquiry.bind

/-- Carries an inquiry out. -/
def perform : Inquiry α → Reading α
  | answer a => return a
  | read key next => do (next (← Reading.get key)).perform

theorem perform_pure (a : α) : (pure a : Inquiry α).perform = pure a := rfl

/-- One inquiry after the other reads what the first reads and then what the second does. The
induction is on the first. -/
theorem perform_bind (inquiry : Inquiry α) (f : α → Inquiry β) :
    (inquiry >>= f).perform = inquiry.perform >>= fun a => (f a).perform := by
  induction inquiry with
  | answer a => exact (pure_bind a fun a => (f a).perform).symm
  | read key next ih =>
    calc (read key next >>= f).perform
        = Reading.get key >>= fun found => (next found >>= f).perform := rfl
      _ = Reading.get key >>= fun found => (next found).perform >>= fun a => (f a).perform :=
        bind_congr ih
      _ = (read key next).perform >>= fun a => (f a).perform := (bind_assoc _ _ _).symm

theorem perform_ite {c : Prop} [Decidable c] (yes no : Inquiry α) :
    (if c then yes else no).perform = if c then yes.perform else no.perform := by
  split <;> rfl

/-- The first read of an inquiry is carried out first, and what it finds decides how to go on. -/
theorem perform_read_run (key : String) (next : Option Value → Inquiry α) (state : ReadState) :
    (read key next).perform.run state =
      (next ((Reading.get key).run state).1).perform.run ((Reading.get key).run state).2 := rfl

/-! ## Paths -/

/-- Reading one name. -/
def get (key : String) : Inquiry (Option Value) := read key answer

theorem perform_get (key : String) : (get key).perform = Reading.get key := bind_pure _

/-- The value at a path. -/
def lookup (path : String) (segments : List String) : Inquiry Value := do
  match ← get path with
  | some value => return value
  | none =>
    match segments with
    | root :: step :: rest =>
      match ← get root with
      | some value => return (value.atPath? (step :: rest)).getD .null
      | none => return .null
    | _ => return .null

/-- Looking up a path reads the path as a name, and its first step if there is nothing under that.
-/
theorem perform_lookup (path : String) (segments : List String) :
    (lookup path segments).perform = Reading.lookup path segments := by
  unfold lookup Reading.lookup
  rw [perform_bind, perform_get]
  refine bind_congr fun found => ?_
  cases found with
  | some value => rfl
  | none =>
    obtain _ | ⟨root, _ | ⟨step, rest⟩⟩ := segments
    · rfl
    · rfl
    · refine (perform_bind _ _).trans ?_
      rw [perform_get]
      refine bind_congr fun found => ?_
      cases found <;> rfl

end Inquiry

/-! ## Predicates -/

mutual

/-- Reading an operand, as an inquiry. -/
def Operand.inquiry : Operand → Inquiry Value
  | .constant value => return value
  | .field field => Inquiry.lookup field.path field.segments
  | .pattern pattern => return .text pattern.source
  | .decision predicate => return .bool (← predicate.inquiry)

/-- Evaluating a predicate, as an inquiry. -/
def Predicate.inquiry : Predicate → Inquiry Bool
  | .comparison relation left right => do
    let left ← left.inquiry
    let right ← right.inquiry
    return relation.holds left right
  | .member negated subject values => do
    let subject ← subject.inquiry
    return (values.any fun value => subject.agrees value) != negated
  | .between subject low high => do
    let subject ← subject.inquiry
    let low ← low.inquiry
    let high ← high.inquiry
    return Relation.greaterOrEqual.holds subject low && Relation.lessOrEqual.holds subject high
  | .matching negated subject pattern => do
    let subject ← subject.inquiry
    return (subject.matchText?.any pattern.isFoundIn) != negated
  | .all first rest => do
    if ← first.inquiry then Predicate.inquiryAll rest else return false
  | .any first rest => do
    if ← first.inquiry then return true else Predicate.inquiryAny rest
  | .not operand => return !(← operand.inquiry)

/-- Evaluating a conjunction, as an inquiry. -/
def Predicate.inquiryAll : List Predicate → Inquiry Bool
  | [] => return true
  | predicate :: rest => do
    if ← predicate.inquiry then Predicate.inquiryAll rest else return false

/-- Evaluating a disjunction, as an inquiry. -/
def Predicate.inquiryAny : List Predicate → Inquiry Bool
  | [] => return false
  | predicate :: rest => do
    if ← predicate.inquiry then return true else Predicate.inquiryAny rest

end

mutual

/-- Reading an operand is an inquiry. -/
theorem Operand.perform_inquiry (operand : Operand) : operand.inquiry.perform = operand.read := by
  cases operand with
  | constant _ | pattern _ => rfl
  | field field => exact Inquiry.perform_lookup field.path field.segments
  | decision predicate =>
    rw [Operand.inquiry, Operand.read, Inquiry.perform_bind, predicate.perform_inquiry]
    rfl

/-- **Evaluating is an inquiry.** The recursion is that of evaluating, and where it stops early the
inquiry has no further read. -/
theorem Predicate.perform_inquiry (predicate : Predicate) :
    predicate.inquiry.perform = predicate.evaluate := by
  cases predicate with
  | comparison relation left right =>
    rw [Predicate.inquiry, Predicate.evaluate, Inquiry.perform_bind, left.perform_inquiry]
    refine bind_congr fun _ => ?_
    rw [Inquiry.perform_bind, right.perform_inquiry]
    rfl
  | member _ subject _ | matching _ subject _ =>
    rw [Predicate.inquiry, Predicate.evaluate, Inquiry.perform_bind, subject.perform_inquiry]
    rfl
  | between subject low high =>
    rw [Predicate.inquiry, Predicate.evaluate, Inquiry.perform_bind, subject.perform_inquiry]
    refine bind_congr fun _ => ?_
    rw [Inquiry.perform_bind, low.perform_inquiry]
    refine bind_congr fun _ => ?_
    rw [Inquiry.perform_bind, high.perform_inquiry]
    rfl
  | all first rest =>
    simp only [Predicate.inquiry, Predicate.evaluate, Inquiry.perform_bind, first.perform_inquiry,
      Inquiry.perform_ite, Predicate.perform_inquiryAll rest, Inquiry.perform_pure]
  | any first rest =>
    simp only [Predicate.inquiry, Predicate.evaluate, Inquiry.perform_bind, first.perform_inquiry,
      Inquiry.perform_ite, Predicate.perform_inquiryAny rest, Inquiry.perform_pure]
  | not operand =>
    rw [Predicate.inquiry, Predicate.evaluate, Inquiry.perform_bind, operand.perform_inquiry]
    rfl

/-- A conjunction is, and stops where it does. -/
theorem Predicate.perform_inquiryAll (predicates : List Predicate) :
    (Predicate.inquiryAll predicates).perform = Predicate.evaluateAll predicates := by
  cases predicates with
  | nil => rfl
  | cons first rest =>
    simp only [Predicate.inquiryAll, Predicate.evaluateAll, Inquiry.perform_bind,
      first.perform_inquiry, Inquiry.perform_ite, Predicate.perform_inquiryAll rest,
      Inquiry.perform_pure]

/-- A disjunction is an inquiry, and stops where an operand holds. -/
theorem Predicate.perform_inquiryAny (predicates : List Predicate) :
    (Predicate.inquiryAny predicates).perform = Predicate.evaluateAny predicates := by
  cases predicates with
  | nil => rfl
  | cons first rest =>
    simp only [Predicate.inquiryAny, Predicate.evaluateAny, Inquiry.perform_bind,
      first.perform_inquiry, Inquiry.perform_ite, Predicate.perform_inquiryAny rest,
      Inquiry.perform_pure]

end

/-! ## Rules -/

namespace Rule

/-- Executing a rule, as an inquiry. -/
def executing (rule : Rule) : Inquiry (Bool × Option Firing) := do
  let holds ← rule.predicate.inquiry
  match holds, rule.action with
  | true, some action => return (true, some ⟨action.label, ← Inquiry.get action.watch⟩)
  | holds, _ => return (holds, none)

/-- Executing a rule is an inquiry: the predicate, and then the name that the action watches. -/
theorem perform_executing (rule : Rule) : rule.executing.perform = rule.execute := by
  rw [executing, execute, evaluate, Inquiry.perform_bind, rule.predicate.perform_inquiry]
  refine bind_congr fun holds => ?_
  cases holds with
  | false => rfl
  | true =>
    cases rule.action with
    | none => rfl
    | some action =>
      refine (Inquiry.perform_bind _ _).trans ?_
      rw [Inquiry.perform_get]
      exact (bind_assoc (Reading.get action.watch) (fun seen => pure (Firing.mk action.label seen))
        fun firing => pure (true, some firing)).symm

end Rule

/-! ## Accesses -/

/-- What an access finds. -/
inductive Finding
  | found (value : Option Value)
  | truth (b : Bool)
  | size (n : Nat)
  | value (value : Value)
  | executed (holds : Bool) (firing : Option Firing)

/-- A way to access a context without binding anything. -/
inductive Access
  | get (key : String)
  | contains (key : String)
  | size
  | lookup (path : String) (segments : List String)
  | evaluate (rule : Rule)
  | execute (rule : Rule)
  /-- Any other reads, such as those of an action that does more than watch one name. -/
  | inquire (inquiry : Inquiry Finding)

namespace Access

/-- What an access finds in a context, and what it leaves behind. -/
def ask : Access → Reading Finding
  | get key => return .found (← Reading.get key)
  | contains key => fun state => (.truth (state.context.contains key), state)
  | size => fun state => (.size state.context.size, state)
  | lookup path segments => return .value (← Reading.lookup path segments)
  | evaluate rule => return .truth (← rule.evaluate)
  | execute rule => do
    let (holds, firing) ← rule.execute
    return .executed holds firing
  | inquire inquiry => inquiry.perform

/-- An access as an inquiry. Which names a context binds is not asked by reading. -/
def inquiry (context : Context) : Access → Inquiry Finding
  | get key => return .found (← Inquiry.get key)
  | contains key => return .truth (context.contains key)
  | size => return .size context.size
  | lookup path segments => return .value (← Inquiry.lookup path segments)
  | evaluate rule => return .truth (← rule.predicate.inquiry)
  | execute rule => do
    let (holds, firing) ← rule.executing
    return .executed holds firing
  | inquire inquiry => inquiry

/-- **Every access is an inquiry.** Which inquiry it is may depend on the names that the context
binds, and on nothing that is behind them. -/
theorem ask_run (access : Access) (state : ReadState) :
    access.ask.run state = (access.inquiry state.context).perform.run state := by
  cases access with
  | contains _ | size | inquire _ => rfl
  | get key =>
    rw [ask, inquiry, Inquiry.perform_bind, Inquiry.perform_get]
    rfl
  | lookup path segments =>
    rw [ask, inquiry, Inquiry.perform_bind, Inquiry.perform_lookup]
    rfl
  | evaluate rule =>
    rw [ask, inquiry, Inquiry.perform_bind, rule.predicate.perform_inquiry]
    rfl
  | execute rule =>
    rw [ask, inquiry, Inquiry.perform_bind, rule.perform_executing]
    rfl

end Access

end WhereRules
