import Mathlib.Data.Set.List
import WhereRules.Predicate.Compile
import WhereRules.Predicate.Evaluation

/-!
# Predicates as operators over any operands

A predicate has the operands that its condition needs, by its type. Seen from outside it is an
operator and a list, and a list may be too short or hold the wrong things. A `LoosePredicate` is that
view without any promise: whatever is asked of it has to look its operands up, and may miss one.

What is made by the makers of predicates is never such a thing. It is the view of a predicate
(`LoosePredicate.made_iff`), so all of its nodes have the operands that their operators take
(`Predicate.takes_of_within`), and looking them up never misses one, in no context and in whatever
state it is read (`Predicate.evaluate_loose`).
-/

namespace WhereRules

mutual

/-- What stands in a list of operands. -/
inductive LooseOperand
  | constant (value : Value)
  | field (field : Field)
  | pattern (pattern : Pattern)
  | decision (predicate : LoosePredicate)

/-- An operator over any operands. -/
inductive LoosePredicate
  | mk (operator : Operator) (operands : List LooseOperand)

end

namespace LoosePredicate

def operator : LoosePredicate → Operator
  | mk operator _ => operator

def operands : LoosePredicate → List LooseOperand
  | mk _ operands => operands

/-- One predicate is the other or stands anywhere in it. -/
inductive Within (q : LoosePredicate) : LoosePredicate → Prop
  | self : Within q q
  | operand {p inner : LoosePredicate} : .decision inner ∈ p.operands → Within q inner → Within q p

end LoosePredicate

/-- **The operands that an operator takes.** -/
def Operator.Takes : Operator → List LooseOperand → Prop
  | relation _, operands => ∃ left right, operands = [left, right]
  | member _, operands => ∃ subject values, operands = [subject, .constant (.list values)]
  | between, operands => ∃ subject low high, operands = [subject, low, high]
  | matching _, operands => ∃ subject pattern, operands = [subject, .pattern pattern]
  | all, operands | any, operands => operands ≠ [] ∧ ∀ o ∈ operands, ∃ p, o = .decision p
  | not, operands => ∃ p, operands = [.decision p]

/-! ## The view of a predicate -/

mutual

/-- An operand seen from outside. -/
def Operand.loose : Operand → LooseOperand
  | .constant value => .constant value
  | .field field => .field field
  | .pattern pattern => .pattern pattern
  | .decision p => .decision p.loose

/-- A predicate seen as an operator over operands. -/
def Predicate.loose : Predicate → LoosePredicate
  | .comparison relation left right => .mk (.relation relation) [left.loose, right.loose]
  | .member negated subject values =>
    .mk (.member negated) [subject.loose, .constant (.list values)]
  | .between subject low high => .mk .between [subject.loose, low.loose, high.loose]
  | .matching negated subject pattern => .mk (.matching negated) [subject.loose, .pattern pattern]
  | .all first rest => .mk .all (.decision first.loose :: Predicate.looseEach rest)
  | .any first rest => .mk .any (.decision first.loose :: Predicate.looseEach rest)
  | .not p => .mk .not [.decision p.loose]

/-- The operands of a chain, which are predicates. -/
def Predicate.looseEach : List Predicate → List LooseOperand
  | [] => []
  | p :: rest => .decision p.loose :: Predicate.looseEach rest

end

namespace Predicate

/-- Each operand of a chain is seen as the decision that it is. -/
theorem looseEach_eq_map (ps : List Predicate) :
    looseEach ps = ps.map fun p => .decision p.loose := by
  induction ps with
  | nil => rfl
  | cons p ps ih => rw [looseEach, ih, List.map_cons]

theorem loose_eq (p : Predicate) : p.loose = .mk p.operator (p.operands.map Operand.loose) := by
  cases p <;> simp [loose, operator, operands, Operand.loose, looseEach_eq_map]

theorem operands_loose (p : Predicate) : p.loose.operands = p.operands.map Operand.loose := by
  rw [loose_eq, LoosePredicate.operands]

end Predicate

/-- What is seen as a decision is one. -/
theorem Operand.exists_of_loose_eq_decision {o : Operand} {q : LoosePredicate}
    (h : o.loose = .decision q) : ∃ p, o = .decision p ∧ p.loose = q := by
  cases o with
  | decision p =>
    rw [Operand.loose] at h
    exact ⟨p, rfl, LooseOperand.decision.inj h⟩
  | _ => cases h

namespace Predicate

/-- All nodes in the view of a predicate are views of predicates. By induction from the node
outwards. -/
theorem exists_of_within {p : Predicate} {q : LoosePredicate} (h : q.Within p.loose) :
    ∃ p' : Predicate, p'.loose = q := by
  generalize hr : p.loose = r at h
  induction h generalizing p with
  | self => exact ⟨p, hr⟩
  | operand hmem _ ih =>
    subst hr
    rw [operands_loose] at hmem
    obtain ⟨o, _, ho⟩ := List.mem_map.mp hmem
    obtain ⟨p', _, hp'⟩ := Operand.exists_of_loose_eq_decision ho
    exact ih hp'

/-- The view of a predicate has the operands that its operator takes. This is what the typed form of
predicates says without being asked. -/
theorem takes_loose (p : Predicate) : p.loose.operator.Takes p.loose.operands := by
  have heach : ∀ first rest, ∀ o ∈ .decision (loose first) :: looseEach rest,
      ∃ q, o = LooseOperand.decision q := by
    intro first rest
    rw [looseEach_eq_map, List.forall_mem_cons, List.forall_mem_map]
    exact ⟨⟨_, rfl⟩, fun q _ => ⟨_, rfl⟩⟩
  cases p with
  | comparison _ left right => exact ⟨_, _, rfl⟩
  | member _ subject values => exact ⟨_, _, rfl⟩
  | between subject low high => exact ⟨_, _, _, rfl⟩
  | matching _ subject pattern => exact ⟨_, _, rfl⟩
  | all first rest | any first rest => exact ⟨List.cons_ne_nil _ _, heach first rest⟩
  | not p => exact ⟨_, rfl⟩

/-- **Each node in the view of a predicate has the operands that its operator takes**, since each is
the view of a predicate itself. -/
theorem takes_of_within {p : Predicate} {q : LoosePredicate} (h : q.Within p.loose) :
    q.operator.Takes q.operands := by
  obtain ⟨p', rfl⟩ := exists_of_within h
  exact takes_loose p'

end Predicate

/-! ## Making loose predicates -/

namespace LoosePredicate

/-- A comparison by an operator, which must be one. -/
def comparison (operator : Operator) (left right : LooseOperand) :
    Except OperandError LoosePredicate :=
  if operator.isComparison then .ok (mk operator [left, right])
  else .error (.notComparison operator)

/-- A conjunction or a disjunction, of at least one predicate. -/
def logical (operator : Operator) (predicates : List LoosePredicate) :
    Except OperandError LoosePredicate :=
  if predicates.isEmpty then .error (.noOperands operator)
  else .ok (mk operator (predicates.map .decision))

/-- **What can be made**: by a maker, from constants, fields, patterns and what was made before, or
by compiling an expression. -/
inductive Made : LoosePredicate → Prop
  | relation (relation : Relation) {left right : LooseOperand} :
    (∀ q, .decision q ∈ [left, right] → Made q) → Made (mk (.relation relation) [left, right])
  | comparison {operator : Operator} {left right : LooseOperand} {p : LoosePredicate} :
    (∀ q, .decision q ∈ [left, right] → Made q) →
    LoosePredicate.comparison operator left right = .ok p → Made p
  | member (negated : Bool) (values : List Value) {subject : LooseOperand} :
    (∀ q, .decision q ∈ [subject] → Made q) →
    Made (mk (.member negated) [subject, .constant (.list values)])
  | between {subject low high : LooseOperand} :
    (∀ q, .decision q ∈ [subject, low, high] → Made q) → Made (mk .between [subject, low, high])
  | matching (negated : Bool) (pattern : Pattern) {subject : LooseOperand} :
    (∀ q, .decision q ∈ [subject] → Made q) →
    Made (mk (.matching negated) [subject, .pattern pattern])
  | all {predicates : List LoosePredicate} {p : LoosePredicate} :
    (∀ q ∈ predicates, Made q) → logical .all predicates = .ok p → Made p
  | any {predicates : List LoosePredicate} {p : LoosePredicate} :
    (∀ q ∈ predicates, Made q) → logical .any predicates = .ok p → Made p
  | not {p : LoosePredicate} : Made p → Made (mk .not [.decision p])
  | compiled {resolve : Resolver} {limit : Nat} {e : Expr} {p : Predicate} :
    Predicate.ofExpr resolve limit e = .ok p → Made p.loose

/-! ### What is made is the view of a predicate -/

/-- An operand is the view of one, if it holds nothing but views. Only a condition in it has to be
looked for. -/
theorem exists_operand {operands : List LooseOperand}
    (h : ∀ q, .decision q ∈ operands → ∃ p : Predicate, p.loose = q) :
    ∀ o ∈ operands, ∃ o' : Operand, o'.loose = o := by
  intro o ho
  cases o with
  | constant v => exact ⟨.constant v, rfl⟩
  | field f => exact ⟨.field f, rfl⟩
  | pattern p => exact ⟨.pattern p, rfl⟩
  | decision q =>
    obtain ⟨p, rfl⟩ := h q ho
    exact ⟨.decision p, by rw [Operand.loose]⟩

/-- Two operands are views together. -/
theorem exists_pair {left right : LooseOperand}
    (h : ∀ q, .decision q ∈ [left, right] → ∃ p : Predicate, p.loose = q) :
    ∃ a b : Operand, a.loose = left ∧ b.loose = right := by
  obtain ⟨⟨a, ha⟩, hright⟩ := List.forall_mem_cons.mp (exists_operand h)
  obtain ⟨b, hb⟩ := List.forall_mem_singleton.mp hright
  exact ⟨a, b, ha, hb⟩

/-- Predicates of which there is at least one have a first and a rest. The makers refuse a chain of
none, so what they make is the view of a chain. -/
theorem exists_chain {operator : Operator} {predicates : List LoosePredicate} {p : LoosePredicate}
    (h : ∀ q ∈ predicates, ∃ p : Predicate, p.loose = q) (hp : logical operator predicates = .ok p) :
    ∃ first rest,
      p = mk operator (.decision (Predicate.loose first) :: Predicate.looseEach rest) := by
  cases predicates with
  | nil => cases hp
  | cons q qs =>
    cases hp
    obtain ⟨⟨first, rfl⟩, hqs⟩ := List.forall_mem_cons.mp h
    obtain ⟨rest, rfl⟩ : qs ∈ Set.range (List.map Predicate.loose) := by
      rw [Set.range_list_map]
      exact hqs
    refine ⟨first, rest, ?_⟩
    rw [List.map_cons, List.map_map, Predicate.looseEach_eq_map]
    rfl

/-- **What can be made is the view of a predicate.** There is one case for each maker, and each
checks or takes by its type what the operator needs. -/
theorem Made.exists_predicate {r : LoosePredicate} (h : r.Made) :
    ∃ p : Predicate, p.loose = r := by
  induction h with
  | relation relation _ ih =>
    obtain ⟨a, b, rfl, rfl⟩ := exists_pair ih
    exact ⟨.comparison relation a b, by rw [Predicate.loose]⟩
  | @comparison operator left right p _ hp ih =>
    obtain ⟨a, b, rfl, rfl⟩ := exists_pair ih
    cases operator with
    | relation relation =>
      cases hp
      exact ⟨.comparison relation a b, by rw [Predicate.loose]⟩
    | _ => cases hp
  | member negated values _ ih =>
    obtain ⟨a, rfl⟩ := List.forall_mem_singleton.mp (exists_operand ih)
    exact ⟨.member negated a values, by rw [Predicate.loose]⟩
  | between _ ih =>
    obtain ⟨⟨a, rfl⟩, hbounds⟩ := List.forall_mem_cons.mp (exists_operand ih)
    obtain ⟨⟨b, rfl⟩, hhigh⟩ := List.forall_mem_cons.mp hbounds
    obtain ⟨c, rfl⟩ := List.forall_mem_singleton.mp hhigh
    exact ⟨.between a b c, by rw [Predicate.loose]⟩
  | matching negated pattern _ ih =>
    obtain ⟨a, rfl⟩ := List.forall_mem_singleton.mp (exists_operand ih)
    exact ⟨.matching negated a pattern, by rw [Predicate.loose]⟩
  | all _ hp ih =>
    obtain ⟨first, rest, rfl⟩ := exists_chain ih hp
    exact ⟨.all first rest, by rw [Predicate.loose]⟩
  | any _ hp ih =>
    obtain ⟨first, rest, rfl⟩ := exists_chain ih hp
    exact ⟨.any first rest, by rw [Predicate.loose]⟩
  | not _ ih =>
    obtain ⟨p, rfl⟩ := ih
    exact ⟨.not p, by rw [Predicate.loose]⟩
  | compiled _ => exact ⟨_, rfl⟩

end LoosePredicate

/-! ### Every view of a predicate can be made -/

/-- Views of predicates, of which there is at least one, can be made a chain. -/
theorem LoosePredicate.logical_looseEach (operator : Operator) (first : Predicate)
    (rest : List Predicate) :
    logical operator ((first :: rest).map Predicate.loose) =
      .ok (mk operator (.decision first.loose :: Predicate.looseEach rest)) := by
  rw [Predicate.looseEach_eq_map, logical, List.map_cons, List.isEmpty_cons,
    if_neg Bool.false_ne_true, List.map_cons, List.map_map]
  rfl

mutual

/-- What stands in an operand can be made. -/
theorem Operand.made_loose : (o : Operand) → ∀ q, .decision q ∈ [o.loose] → q.Made
  | .constant _, q, h | .field _, q, h | .pattern _, q, h => by
    cases List.mem_singleton.mp h
  | .decision p, q, h => by
    rw [Operand.loose, List.mem_singleton] at h
    exact LooseOperand.decision.inj h ▸ p.made_loose

/-- The makers can make every predicate. -/
theorem Predicate.made_loose : (p : Predicate) → p.loose.Made
  | .comparison relation left right => by
    refine .relation relation fun q hq => ?_
    rcases List.mem_cons.mp hq with hleft | hright
    · exact left.made_loose q (List.mem_singleton.mpr hleft)
    · exact right.made_loose q hright
  | .member negated subject values => .member negated values subject.made_loose
  | .between subject low high => by
    refine .between fun q hq => ?_
    rcases List.mem_cons.mp hq with hsubject | hbounds
    · exact subject.made_loose q (List.mem_singleton.mpr hsubject)
    rcases List.mem_cons.mp hbounds with hlow | hhigh
    · exact low.made_loose q (List.mem_singleton.mpr hlow)
    · exact high.made_loose q hhigh
  | .matching negated subject pattern => .matching negated pattern subject.made_loose
  | .all first rest =>
    .all (Predicate.made_looseEach (first :: rest)) (LoosePredicate.logical_looseEach .all first rest)
  | .any first rest =>
    .any (Predicate.made_looseEach (first :: rest)) (LoosePredicate.logical_looseEach .any first rest)
  | .not p => .not p.made_loose

/-- The makers can make each operand of a chain. -/
theorem Predicate.made_looseEach : (ps : List Predicate) → ∀ q ∈ ps.map Predicate.loose, q.Made
  | [] => List.forall_mem_nil _
  | p :: rest => List.forall_mem_cons.mpr ⟨p.made_loose, Predicate.made_looseEach rest⟩

end

/-- **What can be made are the views of predicates.** So the typed predicate leaves out nothing that
the makers can make, and adds nothing. -/
theorem LoosePredicate.made_iff {r : LoosePredicate} :
    r.Made ↔ ∃ p : Predicate, p.loose = r := by
  constructor
  · exact Made.exists_predicate
  · rintro ⟨p, rfl⟩
    exact p.made_loose

/-! ## Evaluating loose predicates -/

/-- A reading that may miss an operand. -/
abbrev Seeking := OptionT Reading

/-- Whether a value is the truth value that is true. -/
def Value.isTrue : Value → Bool
  | .bool true => true
  | _ => false

theorem Value.isTrue_bool (b : Bool) : (Value.bool b).isTrue = b := by cases b <;> rfl

namespace Operator

/-- Whether all are true, up to the first that is not. -/
def allTrue : List (Seeking Value) → Seeking Bool
  | [] => return true
  | reader :: rest => do
    if (← reader).isTrue then allTrue rest else return false

/-- Whether any is true, up to the first that is. -/
def anyTrue : List (Seeking Value) → Seeking Bool
  | [] => return false
  | reader :: rest => do
    if (← reader).isTrue then return true else anyTrue rest

/-- Whether a value is among those of a list. Nothing is among what is no list. -/
def holdsAmong (subject : Value) : Value → Bool
  | .list values => values.any fun value => subject.agrees value
  | _ => false

/-- The decision of an operator over operands and their readers. An operand is looked up by its
place when it is wanted, and nobody has checked that there is one. -/
def decision (operands : List LooseOperand) (readers : List (Seeking Value)) :
    Operator → Seeking Bool
  | .relation r => do
    let left ← readers.getD 0 failure
    let right ← readers.getD 1 failure
    return r.holds left right
  | .member negated => do
    let subject ← readers.getD 0 failure
    let values ← readers.getD 1 failure
    return holdsAmong subject values != negated
  | .between => do
    let subject ← readers.getD 0 failure
    let low ← readers.getD 1 failure
    let high ← readers.getD 2 failure
    return Relation.greaterOrEqual.holds subject low && Relation.lessOrEqual.holds subject high
  | .matching negated =>
    match (operands[1]? : Option LooseOperand) with
    | none => failure
    | some (.pattern pattern) => do
      let subject ← readers.getD 0 failure
      return (subject.matchText?.any pattern.isFoundIn) != negated
    | some (.constant _) | some (.field _) | some (.decision _) => return negated
  | .all => allTrue readers
  | .any => anyTrue readers
  | .not => do
    let operand ← readers.getD 0 failure
    return !operand.isTrue

end Operator

mutual

/-- The value of an operand. -/
def LooseOperand.read : LooseOperand → Seeking Value
  | .constant value => return value
  | .field field => OptionT.lift (Reading.field field)
  | .pattern pattern => return .text pattern.source
  | .decision p => return .bool (← p.evaluate)

/-- The decision of a predicate, or none if an operand is missed. -/
def LoosePredicate.evaluate : LoosePredicate → Seeking Bool
  | .mk operator operands => operator.decision operands (LooseOperand.readers operands)

/-- The readers of operands, one for each. -/
def LooseOperand.readers : List LooseOperand → List (Seeking Value)
  | [] => []
  | operand :: rest => operand.read :: LooseOperand.readers rest

end

/-- A predicate that nobody can make may miss an operand. -/
example (state : ReadState) :
    ((LoosePredicate.mk .between [.constant .null]).evaluate.run state).1 = none := by
  simp only [LoosePredicate.evaluate, LooseOperand.readers, LooseOperand.read, Operator.decision]
  rfl

mutual

/-- Reading an operand from outside reads the operand. -/
theorem Operand.read_loose : (o : Operand) → o.loose.read = OptionT.lift o.read
  | .constant _ | .pattern _ => by
    rw [Operand.loose, LooseOperand.read, Operand.read, OptionT.lift_pure]
  | .field _ => by rw [Operand.loose, LooseOperand.read, Operand.read]
  | .decision p => by
    rw [Operand.loose, LooseOperand.read, Operand.read, p.evaluate_loose, OptionT.lift_bind]
    simp only [OptionT.lift_pure]

/-- **Looking up the operands of a predicate never misses one**, and the decision, what is read and
what is left behind are those of the predicate. -/
theorem Predicate.evaluate_loose : (p : Predicate) → p.loose.evaluate = OptionT.lift p.evaluate
  | .comparison _ left right => by
    simp only [Predicate.loose, LoosePredicate.evaluate, LooseOperand.readers, Operator.decision,
      List.getD_cons_zero, List.getD_cons_succ, left.read_loose, right.read_loose,
      Predicate.evaluate, OptionT.lift_bind, OptionT.lift_pure]
  | .member _ subject _ => by
    simp only [Predicate.loose, LoosePredicate.evaluate, LooseOperand.readers, LooseOperand.read,
      Operator.decision, Operator.holdsAmong, List.getD_cons_zero, List.getD_cons_succ,
      subject.read_loose, Predicate.evaluate, OptionT.lift_bind, OptionT.lift_pure, pure_bind]
  | .between subject low high => by
    simp only [Predicate.loose, LoosePredicate.evaluate, LooseOperand.readers, Operator.decision,
      List.getD_cons_zero, List.getD_cons_succ, subject.read_loose, low.read_loose,
      high.read_loose, Predicate.evaluate, OptionT.lift_bind, OptionT.lift_pure]
  | .matching _ subject _ => by
    simp only [Predicate.loose, LoosePredicate.evaluate, LooseOperand.readers, Operator.decision,
      List.getElem?_cons_succ, List.getElem?_cons_zero, List.getD_cons_zero,
      subject.read_loose, Predicate.evaluate, OptionT.lift_bind, OptionT.lift_pure]
  | .all first rest => by
    rw [Predicate.loose, LoosePredicate.evaluate, Operator.decision, Predicate.evaluate,
      ← Predicate.evaluateAll]
    exact Predicate.allTrue_loose (first :: rest)
  | .any first rest => by
    rw [Predicate.loose, LoosePredicate.evaluate, Operator.decision, Predicate.evaluate,
      ← Predicate.evaluateAny]
    exact Predicate.anyTrue_loose (first :: rest)
  | .not p => by
    simp only [Predicate.loose, LoosePredicate.evaluate, LooseOperand.readers, LooseOperand.read,
      Operator.decision, List.getD_cons_zero, p.evaluate_loose, Predicate.evaluate, Value.isTrue_bool,
      OptionT.lift_bind, OptionT.lift_pure, bind_assoc, pure_bind]

/-- A conjunction of views decides as the predicates do, and stops where they do. -/
theorem Predicate.allTrue_loose : (ps : List Predicate) →
    Operator.allTrue (LooseOperand.readers (Predicate.looseEach ps)) =
      OptionT.lift (Predicate.evaluateAll ps)
  | [] => by
    rw [Predicate.looseEach, LooseOperand.readers, Operator.allTrue, Predicate.evaluateAll,
      OptionT.lift_pure]
  | p :: rest => by
    simp only [Predicate.looseEach, LooseOperand.readers, LooseOperand.read, Operator.allTrue,
      Predicate.evaluateAll, p.evaluate_loose, Predicate.allTrue_loose rest, Value.isTrue_bool,
      OptionT.lift_bind, OptionT.lift_pure, bind_assoc, pure_bind, apply_ite OptionT.lift]

/-- From outside a disjunction holds when it does, and its operands are read as far as they are. -/
theorem Predicate.anyTrue_loose : (ps : List Predicate) →
    Operator.anyTrue (LooseOperand.readers (Predicate.looseEach ps)) =
      OptionT.lift (Predicate.evaluateAny ps)
  | [] => by
    rw [Predicate.looseEach, LooseOperand.readers, Operator.anyTrue, Predicate.evaluateAny,
      OptionT.lift_pure]
  | p :: rest => by
    simp only [Predicate.looseEach, LooseOperand.readers, LooseOperand.read, Operator.anyTrue,
      Predicate.evaluateAny, p.evaluate_loose, Predicate.anyTrue_loose rest, Value.isTrue_bool,
      OptionT.lift_bind, OptionT.lift_pure, bind_assoc, pure_bind, apply_ite OptionT.lift]

end

end WhereRules
