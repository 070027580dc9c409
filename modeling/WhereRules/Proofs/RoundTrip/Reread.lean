import WhereRules.Predicate.Evaluation
import WhereRules.Proofs.Compilation.Steps
import WhereRules.Proofs.Writing.Steps

/-!
# What a predicate reads back as

Writing a predicate and reading its text back does not give every predicate again. Parentheses leave
no trace, so a chain directly inside a chain of its own connective is opened and a chain of one
operand is that operand; and an inequality with null is written as a null test, which reads back as
the negation of one. `Predicate.reread` is what comes back.

Two things are shown of it. It decides like the predicate and reads the same on the way
(`evaluate_reread`). And of a predicate that has only chains of the kind that compiling makes
(`Predicate.Flattened`) it changes nothing but inequalities with null (`reread_eq_withNullTests`).
-/

namespace WhereRules

namespace Predicate

/-! ## Rows of predicates -/

/-- Whether a predicate is a chain of a connective. -/
def continues : Connective → Predicate → Bool
  | .and, all _ _ | .or, any _ _ => true
  | _, _ => false

/-- The operands that a predicate brings into a chain: its own if it is one, or else itself. -/
def opened : Connective → Predicate → List Predicate
  | .and, all first rest | .or, any first rest => first :: rest
  | _, p => [p]

/-- Two predicates under a connective, in one chain. -/
def joined (c : Connective) (p q : Predicate) : Predicate :=
  match opened c p with
  | [] => q
  | first :: rest => chain c first (rest ++ opened c q)

/-- A row of predicates under a connective, in one chain. One alone is no chain. -/
def row (c : Connective) : Predicate → List Predicate → Predicate
  | p, [] => p
  | p, q :: rest => joined c p (row c q rest)

/-- What is no chain of a connective brings itself into a chain of it, and nothing else. -/
theorem opened_of_not_continues {c : Connective} {p : Predicate} (h : p.continues c = false) :
    p.opened c = [p] := by
  cases p with
  | all first rest =>
    cases c with
    | and => cases h
    | or | not => rfl
  | any first rest =>
    cases c with
    | or => cases h
    | and | not => rfl
  | _ => cases c <;> rfl

/-- Joining puts a predicate that is no chain in front of what the other brings. -/
theorem joined_of_not_continues {c : Connective} {p : Predicate} (h : p.continues c = false)
    (q : Predicate) : joined c p q = chain c p (q.opened c) := by
  rw [joined, opened_of_not_continues h]
  rfl

/-- Operands that are no chains themselves stay as they are. Each is joined to the row behind it,
and brings itself into it. -/
theorem row_cons_of_not_continues {c : Connective} (hc : c ≠ .not) {p q : Predicate}
    {rest : List Predicate} (hp : p.continues c = false) (hq : q.continues c = false)
    (hrest : ∀ r ∈ rest, r.continues c = false) : row c p (q :: rest) = chain c p (q :: rest) := by
  induction rest generalizing p q with
  | nil => rw [row, row, joined_of_not_continues hp, opened_of_not_continues hq]
  | cons r rest ih =>
    have htail : row c q (r :: rest) = chain c q (r :: rest) :=
      ih hq (hrest r List.mem_cons_self) fun s hs => hrest s (List.mem_cons_of_mem _ hs)
    rw [row, joined_of_not_continues hp, htail]
    cases c with
    | and | or => rfl
    | not => exact absurd rfl hc

/-! ## Rereading -/

/-- A comparison as it reads back: an inequality with null is a negated null test. -/
def nullTested (relation : Relation) (left right : Operand) : Predicate :=
  match relation, right with
  | .notEqual, .constant .null => isNull left true
  | relation, right => comparison relation left right

end Predicate

mutual

def Operand.reread : Operand → Operand
  | .decision p => .decision p.reread
  | .constant value => .constant value
  | .field named => .field named
  | .pattern pattern => .pattern pattern

/-- What the text of a predicate reads back as. -/
def Predicate.reread : Predicate → Predicate
  | .comparison relation left right => Predicate.nullTested relation left.reread right.reread
  | .member negated subject values => .member negated subject.reread values
  | .between subject low high => .between subject.reread low.reread high.reread
  | .matching negated subject pattern => .matching negated subject.reread pattern
  | .all first rest => Predicate.row .and first.reread (Predicate.rereadEach rest)
  | .any first rest => Predicate.row .or first.reread (Predicate.rereadEach rest)
  | .not p => .not p.reread

def Predicate.rereadEach : List Predicate → List Predicate
  | [] => []
  | p :: rest => p.reread :: Predicate.rereadEach rest

end

mutual

def Operand.withNullTests : Operand → Operand
  | .decision p => .decision p.withNullTests
  | .constant value => .constant value
  | .field named => .field named
  | .pattern pattern => .pattern pattern

/-- A predicate with every inequality with null, at any depth, made a negated null test. -/
def Predicate.withNullTests : Predicate → Predicate
  | .comparison relation left right =>
    Predicate.nullTested relation left.withNullTests right.withNullTests
  | .member negated subject values => .member negated subject.withNullTests values
  | .between subject low high =>
    .between subject.withNullTests low.withNullTests high.withNullTests
  | .matching negated subject pattern => .matching negated subject.withNullTests pattern
  | .all first rest => .all first.withNullTests (Predicate.withNullTestsEach rest)
  | .any first rest => .any first.withNullTests (Predicate.withNullTestsEach rest)
  | .not p => .not p.withNullTests

def Predicate.withNullTestsEach : List Predicate → List Predicate
  | [] => []
  | p :: rest => p.withNullTests :: Predicate.withNullTestsEach rest

end

namespace Predicate

/-- A comparison that asks nothing about null stays one. -/
theorem nullTested_of_testsNull {relation : Relation} {right : Operand}
    (h : relation.testsNull right = false) (left : Operand) :
    nullTested relation left right = comparison relation left right := by
  unfold nullTested
  split
  · cases h
  · rfl

/-- Rereading leaves a constant as it is and makes none, so whether a comparison is a null test can
be asked before or after. -/
theorem testsNull_reread (relation : Relation) (o : Operand) :
    relation.testsNull o.reread = relation.testsNull o := by
  cases o <;> cases relation <;> rfl

/-- Whether a comparison is a null test does not depend on the null tests inside its operands. -/
theorem testsNull_withNullTests (relation : Relation) (o : Operand) :
    relation.testsNull o.withNullTests = relation.testsNull o := by
  cases o <;> cases relation <;> rfl

/-! ## Rereading keeps the decision -/

/-- Of a conjunction in two parts the second is asked only if the first holds. As an equation of
readings it also says what is read, and in which order. -/
theorem evaluateAll_append (ps qs : List Predicate) :
    evaluateAll (ps ++ qs) = (do
      if ← evaluateAll ps then evaluateAll qs else return false) := by
  induction ps with
  | nil => simp only [List.nil_append, evaluateAll, pure_bind, if_true]
  | cons p ps ih =>
    simp only [List.cons_append, evaluateAll, ih, bind_assoc]
    refine bind_congr fun decision => ?_
    cases decision with
    | true => rfl
    | false => simp only [Bool.false_eq_true, if_false, pure_bind]

/-- Of a disjunction in two parts the second is asked only if the first does not hold. -/
theorem evaluateAny_append (ps qs : List Predicate) :
    evaluateAny (ps ++ qs) = (do
      if ← evaluateAny ps then return true else evaluateAny qs) := by
  induction ps with
  | nil => simp only [List.nil_append, evaluateAny, pure_bind, Bool.false_eq_true, if_false]
  | cons p ps ih =>
    simp only [List.cons_append, evaluateAny, ih, bind_assoc]
    refine bind_congr fun decision => ?_
    cases decision with
    | true => simp only [if_true, pure_bind]
    | false => rfl

/-- A conjunction of one operand decides like the operand and reads nothing besides. -/
theorem evaluateAll_singleton (p : Predicate) : evaluateAll [p] = p.evaluate := by
  rw [evaluateAll, evaluateAll, ← bind_pure p.evaluate, bind_assoc]
  refine bind_congr fun decision => ?_
  cases decision <;> rfl

/-- A disjunction of one operand decides like the operand and reads nothing besides. -/
theorem evaluateAny_singleton (p : Predicate) : evaluateAny [p] = p.evaluate := by
  rw [evaluateAny, evaluateAny, ← bind_pure p.evaluate, bind_assoc]
  refine bind_congr fun decision => ?_
  cases decision <;> rfl

/-- The operands that a predicate brings into a conjunction decide together as it does. -/
theorem evaluateAll_opened (p : Predicate) : evaluateAll (p.opened .and) = p.evaluate := by
  cases p with
  | all first rest => rw [opened, evaluateAll, evaluate]
  | _ => rw [opened_of_not_continues rfl, evaluateAll_singleton]

/-- The operands that a predicate brings into a disjunction decide together as it does. -/
theorem evaluateAny_opened (p : Predicate) : evaluateAny (p.opened .or) = p.evaluate := by
  cases p with
  | any first rest => rw [opened, evaluateAny, evaluate]
  | _ => rw [opened_of_not_continues rfl, evaluateAny_singleton]

/-- A chain is made of the operands that both sides bring into it. -/
theorem joined_eq_chain (c : Connective) (p q : Predicate) :
    ∃ first rest, p.opened c = first :: rest ∧
      joined c p q = chain c first (rest ++ q.opened c) := by
  have hne : p.opened c ≠ [] := by
    cases c <;> cases p <;> exact List.cons_ne_nil _ _
  obtain ⟨first, rest, hopened⟩ := List.exists_cons_of_ne_nil hne
  exact ⟨first, rest, hopened, by rw [joined, hopened]⟩

/-- A row under `AND` decides like the conjunction of its members: opening the members that are
conjunctions changes neither the decision nor the order of reading. -/
theorem evaluate_row_and (p : Predicate) (rest : List Predicate) :
    (row .and p rest).evaluate = evaluateAll (p :: rest) := by
  induction rest generalizing p with
  | nil => rw [row, evaluateAll_singleton]
  | cons q rest ih =>
    obtain ⟨first, others, hopened, hjoined⟩ := joined_eq_chain .and p (row .and q rest)
    rw [row, hjoined, chain, evaluate, ← evaluateAll, ← List.cons_append, ← hopened,
      evaluateAll_append, evaluateAll_opened, evaluateAll_opened, ih]
    conv => rhs; rw [evaluateAll]

/-- A row under `OR` decides like the disjunction of its members, and reads in the same order. -/
theorem evaluate_row_or (p : Predicate) (rest : List Predicate) :
    (row .or p rest).evaluate = evaluateAny (p :: rest) := by
  induction rest generalizing p with
  | nil => rw [row, evaluateAny_singleton]
  | cons q rest ih =>
    obtain ⟨first, others, hopened, hjoined⟩ := joined_eq_chain .or p (row .or q rest)
    rw [row, hjoined, chain, evaluate, ← evaluateAny, ← List.cons_append, ← hopened,
      evaluateAny_append, evaluateAny_opened, evaluateAny_opened, ih]
    conv => rhs; rw [evaluateAny]

/-- The negation of a null test decides like the inequality with null. Both read the subject once
and compare it with null, which is there without reading. -/
theorem evaluate_nullTested (relation : Relation) (left right : Operand) :
    (nullTested relation left right).evaluate = (comparison relation left right).evaluate := by
  unfold nullTested
  split
  · simp [isNull, evaluate, Operand.read, Relation.holds]
  · rfl

end Predicate

mutual

/-- An operand reads as what it reads back as. Only a condition changes at all. -/
theorem Operand.read_reread : (o : Operand) → o.reread.read = o.read
  | .constant value => by rw [Operand.reread]
  | .field named => by rw [Operand.reread]
  | .pattern pattern => by rw [Operand.reread]
  | .decision p => by rw [Operand.reread, Operand.read, Operand.read, Predicate.evaluate_reread p]

/-- **Rereading keeps the decision** and all that is read for it. The recursion is that of the
predicate: a chain becomes a row, and an inequality with null a negated test. -/
theorem Predicate.evaluate_reread : (p : Predicate) → p.reread.evaluate = p.evaluate
  | .comparison relation left right => by
    rw [Predicate.reread, Predicate.evaluate_nullTested, Predicate.evaluate, Predicate.evaluate,
      Operand.read_reread left, Operand.read_reread right]
  | .member negated subject values => by
    rw [Predicate.reread, Predicate.evaluate, Predicate.evaluate, Operand.read_reread subject]
  | .between subject low high => by
    rw [Predicate.reread, Predicate.evaluate, Predicate.evaluate, Operand.read_reread subject,
      Operand.read_reread low, Operand.read_reread high]
  | .matching negated subject pattern => by
    rw [Predicate.reread, Predicate.evaluate, Predicate.evaluate, Operand.read_reread subject]
  | .all first rest => by
    rw [Predicate.reread, Predicate.evaluate_row_and, Predicate.evaluateAll, Predicate.evaluate,
      Predicate.evaluate_reread first, Predicate.evaluateAll_rereadEach rest]
  | .any first rest => by
    rw [Predicate.reread, Predicate.evaluate_row_or, Predicate.evaluateAny, Predicate.evaluate,
      Predicate.evaluate_reread first, Predicate.evaluateAny_rereadEach rest]
  | .not p => by
    rw [Predicate.reread, Predicate.evaluate, Predicate.evaluate, Predicate.evaluate_reread p]

/-- A conjunction decides like that of the operands as they read back. -/
theorem Predicate.evaluateAll_rereadEach :
    (ps : List Predicate) →
      Predicate.evaluateAll (Predicate.rereadEach ps) = Predicate.evaluateAll ps
  | [] => by rw [Predicate.rereadEach]
  | p :: rest => by
    rw [Predicate.rereadEach, Predicate.evaluateAll, Predicate.evaluateAll,
      Predicate.evaluate_reread p, Predicate.evaluateAll_rereadEach rest]

/-- A disjunction decides like that of the operands as they read back. -/
theorem Predicate.evaluateAny_rereadEach :
    (ps : List Predicate) →
      Predicate.evaluateAny (Predicate.rereadEach ps) = Predicate.evaluateAny ps
  | [] => by rw [Predicate.rereadEach]
  | p :: rest => by
    rw [Predicate.rereadEach, Predicate.evaluateAny, Predicate.evaluateAny,
      Predicate.evaluate_reread p, Predicate.evaluateAny_rereadEach rest]

end

/-! ## Predicates as compiling makes them -/

mutual

def Operand.Flattened : Operand → Prop
  | .decision p => p.Flattened
  | .constant _ | .field _ | .pattern _ => True

/-- Whether every chain, at any depth, has at least two operands, none of them a chain of its own
connective. -/
def Predicate.Flattened : Predicate → Prop
  | .comparison _ left right => left.Flattened ∧ right.Flattened
  | .member _ subject _ => subject.Flattened
  | .between subject low high => subject.Flattened ∧ low.Flattened ∧ high.Flattened
  | .matching _ subject _ => subject.Flattened
  | .all first rest =>
    first.continues .and = false ∧ first.Flattened ∧ rest ≠ [] ∧ Predicate.FlattenedEach .and rest
  | .any first rest =>
    first.continues .or = false ∧ first.Flattened ∧ rest ≠ [] ∧ Predicate.FlattenedEach .or rest
  | .not p => p.Flattened

/-- Whether the operands of a chain are as they must be. -/
def Predicate.FlattenedEach (c : Connective) : List Predicate → Prop
  | [] => True
  | p :: rest => p.continues c = false ∧ p.Flattened ∧ Predicate.FlattenedEach c rest

end

namespace Predicate

/-- Making null tests opens no chain and makes none. -/
theorem continues_withNullTests (c : Connective) (p : Predicate) :
    p.withNullTests.continues c = p.continues c := by
  cases p with
  | comparison relation left right =>
    rw [withNullTests]
    unfold nullTested
    split <;> cases c <;> rfl
  | _ => cases c <;> rfl

/-- So the operands of a chain in one row are still no chains of its connective when their null
tests are made. -/
theorem FlattenedEach.continues_withNullTests {c : Connective} {ps : List Predicate}
    (h : FlattenedEach c ps) : ∀ q ∈ withNullTestsEach ps, q.continues c = false := by
  induction ps with
  | nil =>
    intro q hq
    rw [withNullTestsEach] at hq
    cases hq
  | cons p ps ih =>
    rw [FlattenedEach] at h
    obtain ⟨hp, -, hps⟩ := h
    intro q hq
    rw [withNullTestsEach] at hq
    rcases List.mem_cons.mp hq with rfl | hq
    · rw [Predicate.continues_withNullTests, hp]
    · exact ih hps q hq

/-- Operands of a chain that are as they must be make that chain again: no member of the row is
opened, and there are two at least. -/
theorem row_withNullTests {c : Connective} (hc : c ≠ .not) {p : Predicate} {ps : List Predicate}
    (hp : p.continues c = false) (hne : ps ≠ []) (hps : FlattenedEach c ps) :
    row c p.withNullTests (withNullTestsEach ps) =
      chain c p.withNullTests (withNullTestsEach ps) := by
  have hall := hps.continues_withNullTests
  obtain ⟨q, rest, rfl⟩ := List.exists_cons_of_ne_nil hne
  rw [withNullTestsEach] at hall ⊢
  refine row_cons_of_not_continues hc ?_ (hall _ List.mem_cons_self) fun r hr =>
    hall r (List.mem_cons_of_mem _ hr)
  rw [Predicate.continues_withNullTests, hp]

end Predicate

mutual

/-- The same of an operand, by the condition in it if it is one. -/
theorem Operand.reread_eq_withNullTests :
    (o : Operand) → o.Flattened → o.reread = o.withNullTests
  | .constant _, _ | .field _, _ | .pattern _, _ => by
    rw [Operand.reread, Operand.withNullTests]
  | .decision p, h => by
    rw [Operand.Flattened] at h
    rw [Operand.reread, Operand.withNullTests, Predicate.reread_eq_withNullTests p h]

/-- **Of a predicate as compiling makes it only inequalities with null read back otherwise.** Its
chains are in one row already, so the parentheses that leave no trace were not there. -/
theorem Predicate.reread_eq_withNullTests :
    (p : Predicate) → p.Flattened → p.reread = p.withNullTests
  | .comparison relation left right, h => by
    rw [Predicate.Flattened] at h
    rw [Predicate.reread, Predicate.withNullTests, Operand.reread_eq_withNullTests left h.1,
      Operand.reread_eq_withNullTests right h.2]
  | .member negated subject values, h => by
    rw [Predicate.Flattened] at h
    rw [Predicate.reread, Predicate.withNullTests, Operand.reread_eq_withNullTests subject h]
  | .between subject low high, h => by
    rw [Predicate.Flattened] at h
    rw [Predicate.reread, Predicate.withNullTests, Operand.reread_eq_withNullTests subject h.1,
      Operand.reread_eq_withNullTests low h.2.1, Operand.reread_eq_withNullTests high h.2.2]
  | .matching negated subject pattern, h => by
    rw [Predicate.Flattened] at h
    rw [Predicate.reread, Predicate.withNullTests, Operand.reread_eq_withNullTests subject h]
  | .all first rest, h => by
    rw [Predicate.Flattened] at h
    obtain ⟨hfirst, hflat, hne, hrest⟩ := h
    rw [Predicate.reread, Predicate.withNullTests, Predicate.reread_eq_withNullTests first hflat,
      Predicate.rereadEach_eq_withNullTestsEach rest hrest,
      Predicate.row_withNullTests (by decide) hfirst hne hrest]
    rfl
  | .any first rest, h => by
    rw [Predicate.Flattened] at h
    obtain ⟨hfirst, hflat, hne, hrest⟩ := h
    rw [Predicate.reread, Predicate.withNullTests, Predicate.reread_eq_withNullTests first hflat,
      Predicate.rereadEach_eq_withNullTestsEach rest hrest,
      Predicate.row_withNullTests (by decide) hfirst hne hrest]
    rfl
  | .not p, h => by
    rw [Predicate.Flattened] at h
    rw [Predicate.reread, Predicate.withNullTests, Predicate.reread_eq_withNullTests p h]

/-- The same of the operands of a chain, one by one. -/
theorem Predicate.rereadEach_eq_withNullTestsEach {c : Connective} :
    (ps : List Predicate) → Predicate.FlattenedEach c ps →
      Predicate.rereadEach ps = Predicate.withNullTestsEach ps
  | [], _ => by rw [Predicate.rereadEach, Predicate.withNullTestsEach]
  | p :: rest, h => by
    rw [Predicate.FlattenedEach] at h
    rw [Predicate.rereadEach, Predicate.withNullTestsEach,
      Predicate.reread_eq_withNullTests p h.2.1,
      Predicate.rereadEach_eq_withNullTestsEach rest h.2.2]

end

end WhereRules
