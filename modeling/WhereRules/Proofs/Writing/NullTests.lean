import WhereRules.Proofs.RoundTrip.Reread
import WhereRules.Proofs.Writing.Steps

/-!
# Inequalities with null are written as null tests

An inequality with null has the text of a negated null test, so making every inequality with null
such a test (`Predicate.withNullTests`) leaves the text of a predicate as it is
(`written_withNullTests`).
-/

namespace WhereRules

namespace Predicate

variable {inner inner' : Predicate → Expr → Prop}

/-- An operand is written as before if the condition that it may be is. -/
theorem WritesOperand.withNullTests (hinner : ∀ p e, inner p e → inner' p.withNullTests e)
    {o : Operand} {e : Expr} (h : WritesOperand inner o e) :
    WritesOperand inner' o.withNullTests e := by
  cases h with
  | literal hv => exact .literal hv
  | field hname => exact .field hname
  | decision hp => exact .decision (hinner _ _ hp)

/-- Operands are written as before, one by one, if each of them is. -/
theorem forall₂_withNullTests (hinner : ∀ p e, inner p e → inner' p.withNullTests e)
    {ps : List Predicate} {es : List Expr} (h : List.Forall₂ inner ps es) :
    List.Forall₂ inner' (withNullTestsEach ps) es := by
  induction h with
  | nil => exact .nil
  | cons hp _ ih => exact .cons (hinner _ _ hp) ih

theorem isNullTest_comparison (relation : Relation) (left right : Operand) :
    (comparison relation left right).isNullTest =
      (relation == .equal && relation.testsNull right) := by
  cases right with
  | constant v => cases relation <;> cases v <;> rfl
  | _ => cases relation <;> rfl

/-- A predicate that is no null test is none with null tests made in it. So its negation is still
written with the word `NOT`, and not as a negated test. -/
theorem isNullTest_withNullTests {p : Predicate} (h : p.isNullTest = false) :
    p.withNullTests.isNullTest = false := by
  cases p with
  | comparison relation left right =>
    rw [isNullTest_comparison] at h
    rw [Predicate.withNullTests]
    unfold nullTested
    split
    · rfl
    · rw [isNullTest_comparison, testsNull_withNullTests, h]
  | _ => rfl

/-- One level of writing puts down a null test for an inequality with null. The two have the same
words, and all other forms keep theirs. -/
theorem Writes.withNullTests (hinner : ∀ p e, inner p e → inner' p.withNullTests e)
    {p : Predicate} {e : Expr} (h : Writes inner p e) : Writes inner' p.withNullTests e := by
  cases h with
  | isNull ha => exact .isNull (ha.withNullTests hinner)
  | isNotNull ha => exact .notIsNull (ha.withNullTests hinner)
  | notIsNull ha => exact .notIsNull (ha.withNullTests hinner)
  | @comparison relation left right a b hnull ha hb =>
    have hnull' : relation.testsNull right.withNullTests = false := by
      rw [testsNull_withNullTests, hnull]
    rw [Predicate.withNullTests, nullTested_of_testsNull hnull']
    exact .comparison hnull' (ha.withNullTests hinner) (hb.withNullTests hinner)
  | member negated hne hvalues ha => exact .member negated hne hvalues (ha.withNullTests hinner)
  | between ha hb hc =>
    exact .between (ha.withNullTests hinner) (hb.withNullTests hinner) (hc.withNullTests hinner)
  | matching negated hlike ha => exact .matching negated hlike (ha.withNullTests hinner)
  | all h => exact .all (forall₂_withNullTests hinner h)
  | any h => exact .any (forall₂_withNullTests hinner h)
  | not hnull hp => exact .not (isNullTest_withNullTests hnull) (hinner _ _ hp)

end Predicate

/-- **Null tests in place of inequalities with null leave the text as it is.** -/
theorem Expr.written_withNullTests {limit room : Nat} {p : Predicate} {e : Expr}
    (h : written limit room p = .ok e) : written limit room p.withNullTests = .ok e := by
  induction room generalizing p e with
  | zero => cases h
  | succ room ih =>
    exact written_succ_eq_ok.mpr ((written_succ_eq_ok.mp h).withNullTests fun _ _ => ih)

end WhereRules
