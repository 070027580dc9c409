import Mathlib
import WhereRules.Proofs.Compilation.Preservation
import WhereRules.Proofs.Reading.Again
import WhereRules.Proofs.Reading.Settled

/-!
# Conditions and their expansions

A range reads its subject once, and a membership too, where the comparisons that they stand for read
it each time. Reading it again finds what it found (`Operand.read_again`), so the decisions are the
same, whatever the values and however they compare. What is asked on the way may differ: a range
reads both bounds even where the first settles it.

Negated conditions decide against what they negate, and a compiled null test holds where the operand
is null.
-/

namespace WhereRules

namespace Predicate

variable {state : ReadState}

/-! ## Steps -/

/-- A comparison reads its left side and then its right side. -/
theorem run_evaluate_comparison (relation : Relation) (left right : Operand) :
    (comparison relation left right).evaluate.run state =
      let read := right.read.run (left.read.run state).2
      (relation.holds (left.read.run state).1 read.1, read.2) := by
  rw [evaluate]
  rfl

/-- A conjunction goes on where its first operand holds, from what that left behind. -/
theorem run_evaluateAll_cons (p : Predicate) (ps : List Predicate) :
    (evaluateAll (p :: ps)).run state =
      if (p.evaluate.run state).1 then (evaluateAll ps).run (p.evaluate.run state).2
      else (false, (p.evaluate.run state).2) := by
  rw [evaluateAll]
  exact Reading.run_bind_ite p.evaluate (evaluateAll ps) (return false) state

/-- A disjunction goes on where its first operand does not hold. -/
theorem run_evaluateAny_cons (p : Predicate) (ps : List Predicate) :
    (evaluateAny (p :: ps)).run state =
      if (p.evaluate.run state).1 then (true, (p.evaluate.run state).2)
      else (evaluateAny ps).run (p.evaluate.run state).2 := by
  rw [evaluateAny]
  exact Reading.run_bind_ite p.evaluate (return true) (evaluateAny ps) state

/-! ## Ranges -/

/-- The second of two conditions is asked where the first holds, behind it. If the first does not
hold, the second has no say in the decision. -/
theorem fst_run_evaluate_all_pair (p q : Predicate) :
    ((all p [q]).evaluate.run state).1 =
      ((p.evaluate.run state).1 && (q.evaluate.run (p.evaluate.run state).2).1) := by
  have hrow : (all p [q]).evaluate = evaluateAll [p, q] := evaluate_chain_and p [q]
  rw [hrow, run_evaluateAll_cons, run_evaluateAll_cons, evaluateAll]
  cases (p.evaluate.run state).1 with
  | false => rfl
  | true =>
    rw [if_pos rfl, Bool.true_and]
    cases (q.evaluate.run (p.evaluate.run state).2).1 with
    | true | false => rfl

/-- A range decides as the two comparisons with its bounds. The second comparison reads the subject
again, and finds what it was. -/
theorem between_sameDecision (subject low high : Operand) :
    SameDecision (between subject low high)
      (all (comparison .greaterOrEqual subject low) [comparison .lessOrEqual subject high]) := by
  refine .intro fun state => ?_
  -- the second comparison reads the subject again, behind the lower bound
  have hagain : subject.read.run (low.read.run (subject.read.run state).2).2 =
      ((subject.read.run state).1, (low.read.run (subject.read.run state).2).2) :=
    subject.read_again (low.remembers _)
  have hrange : ((between subject low high).evaluate.run state).1 =
      let value := (subject.read.run state).1
      let readLow := low.read.run (subject.read.run state).2
      (Relation.greaterOrEqual.holds value readLow.1 &&
        Relation.lessOrEqual.holds value (high.read.run readLow.2).1) := by
    rw [evaluate]
    rfl
  rw [hrange, fst_run_evaluate_all_pair, run_evaluate_comparison, run_evaluate_comparison]
  simp only [hagain]

/-! ## Memberships -/

/-- Comparing with a value reads the subject. -/
theorem run_evaluate_equal (subject : Operand) (v : Value) :
    (comparison .equal subject (.constant v)).evaluate.run state =
      ((subject.read.run state).1.agrees v, (subject.read.run state).2) :=
  run_evaluate_comparison .equal subject (.constant v)

/-- A comparison of the subject with a value, before other conditions that read no more. So
whichever of them settles it, the same is left behind. -/
theorem run_evaluateAny_equal_cons {subject : Operand} {a : Value} {after : ReadState}
    {rest : List Predicate} {decision : Bool} (hread : subject.read.run state = (a, after))
    (hrest : (evaluateAny rest).run after = (decision, after)) (v : Value) :
    (evaluateAny (comparison .equal subject (.constant v) :: rest)).run state =
      (a.agrees v || decision, after) := by
  rw [run_evaluateAny_cons, run_evaluate_equal, hread, hrest]
  cases a.agrees v with
  | true | false => rfl

/-- Behind a read of the subject its comparisons with values find it as it was found. -/
theorem run_evaluateAny_equal {subject : Operand} {later : ReadState}
    (h : later.context.Remembers (subject.read.run state).2.context) (values : List Value) :
    (evaluateAny (values.map fun v => comparison .equal subject (.constant v))).run later =
      (values.any fun v => (subject.read.run state).1.agrees v, later) := by
  induction values with
  | nil =>
    rw [List.map_nil, evaluateAny]
    rfl
  | cons v values ih => exact run_evaluateAny_equal_cons (subject.read_again h) ih v

/-- A membership reads and decides as the comparisons with its values. Here even the readings are
the same, since values ask for nothing. -/
theorem evaluate_member_cons (subject : Operand) (v : Value) (values : List Value) :
    (member false subject (v :: values)).evaluate =
      (any (comparison .equal subject (.constant v))
        (values.map fun v => comparison .equal subject (.constant v))).evaluate := by
  refine StateT.ext fun state => ?_
  have hmember : (member false subject (v :: values)).evaluate.run state =
      (((v :: values).any fun v => (subject.read.run state).1.agrees v) != false,
        (subject.read.run state).2) := by
    rw [evaluate]
    rfl
  have hcompared : (evaluateAny (comparison .equal subject (.constant v) ::
      values.map fun v => comparison .equal subject (.constant v))).run state =
      ((v :: values).any fun v => (subject.read.run state).1.agrees v,
        (subject.read.run state).2) :=
    run_evaluateAny_equal_cons rfl (run_evaluateAny_equal (.refl _) values) v
  rw [hmember, Bool.bne_false, ← hcompared]
  exact congrArg (StateT.run · state) (evaluate_chain_or _ _).symm

theorem run_evaluate_member_nil (subject : Operand) :
    ((member false subject []).evaluate.run state).1 = false := by
  rw [evaluate]
  rfl

/-! ## Negated conditions -/

/-- A negated membership decides against the membership. -/
theorem evaluate_member_true (subject : Operand) (values : List Value) :
    (member true subject values).evaluate = (not (member false subject values)).evaluate := by
  simp only [evaluate, bind_assoc, pure_bind, Bool.bne_false, Bool.bne_true]

/-- An inequality decides against the equality. -/
theorem evaluate_notEqual (left right : Operand) :
    (comparison .notEqual left right).evaluate = (not (comparison .equal left right)).evaluate := by
  simp only [evaluate, bind_assoc, pure_bind, Relation.holds]

/-- A negated match decides against the match. -/
theorem evaluate_matching_true (subject : Operand) (pattern : Pattern) :
    (matching true subject pattern).evaluate =
      (not (matching false subject pattern)).evaluate := by
  simp only [evaluate, bind_assoc, pure_bind, Bool.bne_false, Bool.bne_true]

end Predicate

/-! ## Null tests -/

theorem Value.isNull_iff {v : Value} : v.isNull = true ↔ v = .null := by
  cases v <;> simp [Value.isNull]

namespace Expr

variable {resolve : Resolver} {limit : Nat} {e : Expr}

/-- A negated null test compiles to the negation of the null test, or fails as it does. The two take
the same levels. -/
theorem ofExpr_isNull_true (resolve : Resolver) (limit : Nat) (e : Expr) :
    Predicate.ofExpr resolve limit (.isNull e true) =
      (Predicate.ofExpr resolve limit (.isNull e false)).map .not := by
  cases limit with
  | zero => rfl
  | succ room =>
    unfold Predicate.ofExpr condition
    simp only
    cases operand resolve (condition resolve (room + 1) room) e with
    | error error | ok o => rfl

/-- A compiled null test compares an operand with null that has the value of the expression, so it
holds where that is null. -/
theorem exists_of_ofExpr_isNull {p : Predicate}
    (h : Predicate.ofExpr resolve limit (.isNull e false) = .ok p) :
    ∃ o : Operand, p = .comparison .equal o (.constant .null) ∧ o.read = value resolve e ∧
      ∀ state, (p.evaluate.run state).1 = true ↔ ((value resolve e).run state).1 = .null := by
  cases limit with
  | zero => cases h
  | succ room =>
    cases condition_succ_eq_ok.mp h with
    | @isNull _ _ o ho =>
      have hread : o.read = value resolve e := (preserves_condition _ _ _).read_operand ho
      refine ⟨o, rfl, hread, fun state => ?_⟩
      rw [← hread, ← Value.isNull_iff, ← Value.agrees_null]
      exact Bool.eq_iff_iff.mp (congrArg Prod.fst (Predicate.run_evaluate_equal o .null))

end Expr

/-! ## Expansions -/

/-- **Conditions decide like their expansions.** In every context, whatever it remembers and however
its providers answer, and asked in any order and as often as one likes, a range decides as the
comparisons with its bounds, a membership as the comparisons with its values, and a negated
condition as the negation of the condition. A compiled `IS NOT NULL` is the negation of the compiled
`IS NULL`, and that holds exactly where the value of the operand is null. -/
theorem Predicate.sameDecision_expansions :
    (∀ subject low high : Operand, SameDecision (.between subject low high)
      (.all (.comparison .greaterOrEqual subject low)
        [.comparison .lessOrEqual subject high])) ∧
    (∀ (subject : Operand) (v : Value) (values : List Value),
      SameDecision (.member false subject (v :: values))
        (.any (.comparison .equal subject (.constant v))
          (values.map fun v => .comparison .equal subject (.constant v)))) ∧
    (∀ (subject : Operand) (state : ReadState),
      ((member false subject []).evaluate.run state).1 = false) ∧
    (∀ (subject : Operand) (values : List Value),
      SameDecision (.member true subject values) (.not (.member false subject values))) ∧
    (∀ left right : Operand,
      SameDecision (.comparison .notEqual left right) (.not (.comparison .equal left right))) ∧
    (∀ (subject : Operand) (pattern : Pattern),
      SameDecision (.matching true subject pattern) (.not (.matching false subject pattern))) ∧
    ∀ (resolve : Resolver) (limit : Nat) (e : Expr),
      ofExpr resolve limit (.isNull e true) = (ofExpr resolve limit (.isNull e false)).map .not ∧
      ∀ p, ofExpr resolve limit (.isNull e false) = .ok p →
        ∃ o : Operand, p = .comparison .equal o (.constant .null) ∧ o.read = e.value resolve ∧
          ∀ state, (p.evaluate.run state).1 = true ↔ ((e.value resolve).run state).1 = .null := by
  refine ⟨between_sameDecision, fun subject v values => ?_, fun subject state => ?_,
    fun subject values => ?_, fun left right => ?_, fun subject pattern => ?_,
    fun resolve limit e => ⟨Expr.ofExpr_isNull_true resolve limit e, fun p h => ?_⟩⟩
  · exact .of_eq (evaluate_member_cons subject v values)
  · exact run_evaluate_member_nil subject
  · exact .of_eq (evaluate_member_true subject values)
  · exact .of_eq (evaluate_notEqual left right)
  · exact .of_eq (evaluate_matching_true subject pattern)
  · exact Expr.exists_of_ofExpr_isNull h

/-- Two names share a counter that has been asked twice. The range asks it for both names, and its
expansion for the first only, which settles it. The counter's answer is no null. -/
theorem Predicate.sameDecision_sharedCounter :
    let context := (Context.empty.bind "high" (.lazy (Access.counter 0))).bind "n"
      (.lazy (Access.counter 0))
    let state : ReadState := ⟨context, [2], []⟩
    let n : Operand := .field ⟨"n", by decide⟩
    let high : Operand := .field ⟨"high", by decide⟩
    let range := Predicate.between n (.constant (.int 5)) high
    let expansion := Predicate.all (.comparison .greaterOrEqual n (.constant (.int 5)))
      [.comparison .lessOrEqual n high]
    (range.evaluate.run state).2.forced = ["n", "high"] ∧
      (expansion.evaluate.run state).2.forced = ["n"] ∧ SameDecision range expansion ∧
      ∃ p, ofExpr FieldPolicy.any.resolve 1 (.isNull (.field "n") false) = .ok p ∧
        (p.evaluate.run state).1 = false := by
  intro context state n high range expansion
  obtain ⟨hrange, -, -, -, -, -, hnull⟩ := sameDecision_expansions
  refine ⟨by cbv, by cbv, hrange _ _ _, _, rfl, ?_⟩
  obtain ⟨o, -, -, hiff⟩ := (hnull FieldPolicy.any.resolve 1 (.field "n")).2 _ rfl
  refine Bool.eq_false_iff.mpr fun hholds => ?_
  have hvalue : (((Expr.field "n").value FieldPolicy.any.resolve).run state).1 = .int 2 := by cbv
  rw [(hiff state).mp hholds] at hvalue
  cases hvalue

end WhereRules
