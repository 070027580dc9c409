import WhereRules.Proofs.Operands.Loose
import WhereRules.Proofs.Writing.Steps

/-!
# Writing operators over any operands

Who writes a loose predicate has to check the operands of each node, and refuses a node whose
operands do not suit its operator (`LooseError.malformed`). For the view of a predicate this is
writing the predicate (`Predicate.toText_loose`): all the checks succeed but the one that a predicate
needs as well, that the list of a membership is not empty.
-/

namespace WhereRules

/-! ## Errors -/

/-- Why operands do not suit their operator. -/
inductive Misfit
  | count (wanted found : Nat)
  | noOperands
  | notOne
  | noValues
  | notPattern
  | notPredicate

/-- What is said of operands that do not suit. -/
def Misfit.reason : Misfit → String
  | .count wanted found => "expected " ++ wanted.repr ++ " operands, got " ++ found.repr
  | noOperands => "at least one operand is required"
  | notOne => "expected exactly 1 operand"
  | noValues => "second operand must be a non-empty list"
  | notPattern => "second operand must be a pattern"
  | notPredicate => "operands must be predicates"

inductive LooseError
  | malformed (operator : Operator) (misfit : Misfit)
  | refused (error : WriteError)

/-- What is said of an operator over operands that is not written. -/
def LooseError.message : LooseError → String
  | malformed operator misfit =>
    "Malformed " ++ operator.name ++ " predicate: " ++ misfit.reason
  | refused error => error.message

/-- An error of writing as an error of writing an operator over operands. -/
def WriteError.loose : WriteError → LooseError
  | emptyList negated => .malformed (.member negated) .noValues
  | pattern source => .refused (.pattern source)
  | value cause => .refused (.value cause)
  | tooDeep limit => .refused (.tooDeep limit)

/-- The message about a predicate is the message about its view. -/
theorem WriteError.message_loose (error : WriteError) : error.loose.message = error.message := by
  have hwords : " predicate: " ++ "second operand must be a non-empty list" =
      " predicate: second operand must be a non-empty list" := by decide +kernel
  cases error with
  | emptyList negated =>
    unfold loose LooseError.message message Misfit.reason
    dsimp only
    rw [← hwords, ← String.append_assoc]
  | _ => rfl

/-- What is malformed about the view of a predicate is that a list is empty. -/
theorem WriteError.eq_emptyList_of_loose {error : WriteError} {operator : Operator}
    {misfit : Misfit} (h : error.loose = .malformed operator misfit) :
    ∃ negated, error = .emptyList negated ∧ operator = .member negated ∧ misfit = .noValues := by
  cases error with
  | emptyList negated =>
    cases h
    exact ⟨negated, rfl, rfl, rfl⟩
  | _ => cases h

/-! ## Writing -/

namespace LooseOperand

def isNull : LooseOperand → Bool
  | constant .null => true
  | _ => false

/-- The expression of an operand; `written` writes conditions. -/
def expr (written : LoosePredicate → Except LooseError Expr) :
    LooseOperand → Except LooseError Expr
  | constant value => ((Expr.writableValue value).map .literal).mapError WriteError.loose
  | field named => (Expr.ofField named).mapError WriteError.loose
  | .pattern named => .error (.refused (.value (.pattern named.source)))
  | decision p => written p

/-- The predicate that an operand must be. -/
def predicate (operator : Operator) : LooseOperand → Except LooseError LoosePredicate
  | decision p => .ok p
  | _ => .error (.malformed operator .notPredicate)

/-- Two operands, of which there must be just two. -/
def pair (operator : Operator) : List LooseOperand → Except LooseError (LooseOperand × LooseOperand)
  | [left, right] => .ok (left, right)
  | operands => .error (.malformed operator (.count 2 operands.length))

end LooseOperand

namespace LoosePredicate

/-- The subject of an equation with null. -/
def nullTest? : LoosePredicate → Option LooseOperand
  | mk (.relation .equal) [left, .constant .null] => some left
  | _ => none

/-- The expression of an operator over operands in the room left of a limit. -/
def written (limit : Nat) : (room : Nat) → LoosePredicate → Except LooseError Expr
  | 0, _ => .error (.refused (.tooDeep limit))
  | room + 1, mk operator operands =>
    let written := written limit room
    let expr := LooseOperand.expr written
    let condition (operand : LooseOperand) : Except LooseError Expr := do
      let inner ← operand.predicate operator
      written inner
    match operator with
    | .relation relation => do
      let (left, right) ← LooseOperand.pair operator operands
      match relation, right with
      | .equal, .constant .null => do
        let left ← expr left
        .ok (.isNull left false)
      | .notEqual, .constant .null => do
        let left ← expr left
        .ok (.isNull left true)
      | relation, right => do
        let left ← expr left
        let right ← expr right
        .ok (.comparison (Expr.signOf relation) left right)
    | .member negated => do
      let (subject, list) ← LooseOperand.pair operator operands
      match list with
      | .constant (.list (value :: values)) => do
        let values ← ((value :: values).mapM Expr.writableValue).mapError WriteError.loose
        let subject ← expr subject
        .ok (.member subject values negated)
      | _ => .error (.malformed operator .noValues)
    | .between =>
      match operands with
      | [subject, low, high] => do
        let subject ← expr subject
        let low ← expr low
        let high ← expr high
        .ok (.between subject low high)
      | operands => .error (.malformed operator (.count 3 operands.length))
    | .matching negated => do
      let (subject, pattern) ← LooseOperand.pair operator operands
      match pattern with
      | .pattern pattern =>
        match Like.ofRegex? pattern.source with
        | none => .error (.refused (.pattern pattern.source))
        | some text => do
          let subject ← expr subject
          .ok (.like subject text negated)
      | _ => .error (.malformed operator .notPattern)
    | .all => do
      if operands.isEmpty then .error (.malformed operator .noOperands)
      let operands ← operands.mapM condition
      .ok (.logical .and operands)
    | .any => do
      if operands.isEmpty then .error (.malformed operator .noOperands)
      let operands ← operands.mapM condition
      .ok (.logical .or operands)
    | .not =>
      match operands with
      | [operand] => do
        let inner ← operand.predicate operator
        match inner.nullTest? with
        | some left => do
          let left ← expr left
          .ok (.isNull left true)
        | none => do
          let inner ← written inner
          .ok (.negation inner)
      | _ => .error (.malformed operator .notOne)

/-- The rule text of an operator over operands whose conditions nest at most `limit` deep. -/
def toText (limit : Nat) (p : LoosePredicate) : Except LooseError String :=
  (p.written limit limit).map Expr.toText

end LoosePredicate

/-- A predicate that nobody can make is refused for what its operands are. -/
example : (LoosePredicate.mk .between [.constant .null]).toText 1 =
    .error (.malformed .between (.count 3 1)) := by
  rfl

/-! ## Writing the view of a predicate -/

section MapError

variable {ε δ α β : Type} {g : ε → δ}

/-- Steps after which the errors are changed are steps with changed errors. -/
theorem mapError_bind (x : Except ε α) (f : α → Except ε β) :
    (x >>= f).mapError g = x.mapError g >>= fun a => (f a).mapError g := by
  cases x with
  | error e => rfl
  | ok a => rfl

/-- Errors of steps in a row can be changed step by step. -/
theorem mapError_mapM (f : α → Except ε β) (as : List α) :
    (as.mapM f).mapError g = as.mapM fun a => (f a).mapError g := by
  induction as with
  | nil => rfl
  | cons a as ih =>
    simp only [List.mapM_cons, mapError_bind, ih]
    rfl

end MapError

namespace LoosePredicate

variable {limit room : Nat} {relation : Relation} {left right : LooseOperand}

/-- A relation that is no question about null is written as it is: its left side, its right side,
and the sign of the relation. -/
theorem written_relation (hequal : relation = .equal → right ≠ .constant .null)
    (hunequal : relation = .notEqual → right ≠ .constant .null) :
    written limit (room + 1) (mk (.relation relation) [left, right]) =
      left.expr (written limit room) >>= fun a =>
        right.expr (written limit room) >>= fun b =>
          .ok (.comparison (Expr.signOf relation) a b) := by
  rw [written]
  dsimp only [LooseOperand.pair, bind, Except.bind]
  split
  · exact absurd rfl (hequal rfl)
  · exact absurd rfl (hunequal rfl)
  · rfl

end LoosePredicate

namespace Predicate

theorem loose_eq_null {o : Operand} : o.loose = .constant .null ↔ o = .constant .null := by
  cases o <;> simp [Operand.loose]

section Level

variable {limit room : Nat}

/-- What is written in one level less is written alike. -/
def WritesAlike (limit room : Nat) : Prop :=
  ∀ p : Predicate, p.loose.written limit room = (Expr.written limit room p).mapError WriteError.loose

/-- An operand is written alike if the conditions in it are. -/
theorem WritesAlike.expr (h : WritesAlike limit room) (o : Operand) :
    o.loose.expr (LoosePredicate.written limit room) =
      (Expr.ofOperand (Expr.written limit room) o).mapError WriteError.loose := by
  cases o with
  | constant v => rfl
  | field named => rfl
  | pattern pattern => rfl
  | decision p =>
    rw [Operand.loose, LooseOperand.expr, Expr.ofOperand]
    exact h p

/-- The operands of a chain are predicates, and each is written alike. -/
theorem WritesAlike.mapM (h : WritesAlike limit room) (operator : Operator) (ps : List Predicate) :
    (looseEach ps).mapM (fun operand => do
      let inner ← operand.predicate operator
      LoosePredicate.written limit room inner) =
        (ps.mapM (Expr.written limit room)).mapError WriteError.loose := by
  rw [mapError_mapM, looseEach_eq_map, List.mapM_map]
  exact congrArg (fun f => ps.mapM f) (funext h)

/-- A comparison is written alike. Where its right side is null, both make a null test of it, and
the view has to look for that at its operands. -/
theorem WritesAlike.comparison (h : WritesAlike limit room) (relation : Relation)
    (left right : Operand) : (comparison relation left right).loose.written limit (room + 1) =
      (Expr.written limit (room + 1) (comparison relation left right)).mapError
        WriteError.loose := by
  rw [loose]
  cases htest : relation.testsNull right with
  | true =>
    unfold Relation.testsNull at htest
    split at htest
    · rw [Operand.loose, LoosePredicate.written, Expr.written, mapError_bind, ← h.expr]
      rfl
    · rw [Operand.loose, LoosePredicate.written, Expr.written, mapError_bind, ← h.expr]
      rfl
    · cases htest
  | false =>
    rw [LoosePredicate.written_relation, Expr.written_comparison htest, mapError_bind, h.expr left]
    · simp only [mapError_bind, h.expr right]
      rfl
    · rintro rfl hnull
      rw [loose_eq_null.mp hnull] at htest
      cases htest
    · rintro rfl hnull
      rw [loose_eq_null.mp hnull] at htest
      cases htest

/-- What is no null test is not seen as one. -/
theorem nullTest?_loose {p : Predicate} (h : p.isNullTest = false) :
    p.loose.nullTest? = none := by
  cases p with
  | comparison relation left right =>
    rw [loose]
    unfold LoosePredicate.nullTest?
    split
    · next hnull =>
      obtain ⟨hrelation, hoperands⟩ := LoosePredicate.mk.inj hnull
      cases hrelation
      obtain ⟨-, hright⟩ := List.cons.inj hoperands
      obtain rfl := loose_eq_null.mp (List.cons.inj hright).1
      cases h
    · rfl
  | _ => rfl

/-- A negation is written alike, also where it is that of a null test, which both write with the
word `NOT` inside. -/
theorem WritesAlike.not (h : WritesAlike limit room) (p : Predicate) :
    (not p).loose.written limit (room + 1) =
      (Expr.written limit (room + 1) (not p)).mapError WriteError.loose := by
  rw [loose, LoosePredicate.written]
  dsimp only [LooseOperand.predicate, bind, Except.bind]
  cases htest : p.isNullTest with
  | true =>
    obtain ⟨subject, rfl⟩ := exists_of_isNullTest htest
    rw [loose, Operand.loose, LoosePredicate.nullTest?, Expr.written, mapError_bind]
    dsimp only
    rw [h.expr]
    rfl
  | false =>
    rw [nullTest?_loose htest, Expr.written_not htest, mapError_bind, ← h p]
    rfl

/-- **One level of writing is the same for a predicate and for its view.** The cases are the forms
of predicates; each view has its operands in the places that its operator looks in. -/
theorem WritesAlike.succ (h : WritesAlike limit room) : WritesAlike limit (room + 1) := by
  intro p
  cases p with
  | comparison relation left right => exact h.comparison relation left right
  | member negated subject values =>
    rw [loose]
    cases values with
    | nil => rfl
    | cons v vs =>
      have hwritten : Expr.written limit (room + 1) (member negated subject (v :: vs)) =
          (v :: vs).mapM Expr.writableValue >>= fun values =>
            Expr.ofOperand (Expr.written limit room) subject >>= fun subject =>
              .ok (.member subject values negated) := rfl
      rw [hwritten, LoosePredicate.written]
      simp only [mapError_bind, ← h.expr]
      rfl
  | between subject low high =>
    rw [loose, LoosePredicate.written, Expr.written]
    simp only [mapError_bind, ← h.expr]
    rfl
  | matching negated subject pattern =>
    rw [loose, LoosePredicate.written, Expr.written]
    dsimp only [LooseOperand.pair, bind, Except.bind]
    cases Like.ofRegex? pattern.source with
    | none => rfl
    | some text =>
      rw [h.expr]
      cases Expr.ofOperand (Expr.written limit room) subject with
      | error _ => rfl
      | ok _ => rfl
  | all first rest =>
    rw [loose, LoosePredicate.written, Expr.written, mapError_bind, ← h.mapM .all]
    rfl
  | any first rest =>
    rw [loose, LoosePredicate.written, Expr.written, mapError_bind, ← h.mapM .any]
    rfl
  | not p => exact h.not p

end Level

/-- **Writing the view of a predicate is writing the predicate.** The induction is on the room,
which both spend alike. -/
theorem written_loose (limit room : Nat) (p : Predicate) :
    p.loose.written limit room = (Expr.written limit room p).mapError WriteError.loose := by
  have halike : WritesAlike limit room := by
    induction room with
    | zero =>
      intro p
      cases hloose : p.loose with
      | mk _ _ => rfl
    | succ room ih => exact ih.succ
  exact halike p

/-- The texts of a predicate and of its view are the same, or the errors are. -/
theorem toText_loose (limit : Nat) (p : Predicate) :
    p.loose.toText limit = (p.toText limit).mapError WriteError.loose := by
  rw [LoosePredicate.toText, written_loose, toText, Expr.ofPredicate]
  cases Expr.written limit limit p with
  | error error => rfl
  | ok e => rfl

end Predicate

end WhereRules
