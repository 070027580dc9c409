import WhereRules.Proofs.Compilation.Chains
import WhereRules.Proofs.Compilation.Steps

/-!
# Compiling keeps the meaning

A compiled expression decides about every context what the expression means, and reads the context
alike: the two are one `Reading`, so the providers that are asked, and their order, agree as well
(`evaluate_ofExpr`). Nothing is asked of the expression but that it compiles; how fields are
resolved and how deep expressions may nest is open.
-/

namespace WhereRules

/-! ## Relations and signs -/

/-- A sign holds of two values as the relation that it is compiled to does. The two signs of
inequality are compiled to one relation. -/
theorem Sign.holds_relation (sign : Sign) (left right : Value) :
    sign.relation.holds left right = sign.holds left right := by
  cases sign <;> rfl

theorem Value.agrees_null (v : Value) : v.agrees .null = v.isNull := by
  cases v <;> simp only [Value.agrees, Value.isNull]

/-- A compiled null test asks whether its subject is null, though it is kept as a comparison with
null. -/
theorem Predicate.evaluate_isNull (subject : Operand) (negated : Bool) :
    (Predicate.isNull subject negated).evaluate = do
      let a ← subject.read
      return a.isNull != negated := by
  cases negated <;>
    simp [Predicate.isNull, Predicate.evaluate, Operand.read, Relation.holds, Value.agrees_null]

/-- A conjunction that was joined from its operands asks them from the first to the last. -/
theorem Predicate.evaluate_chain_and (first : Predicate) (rest : List Predicate) :
    (Predicate.chain .and first rest).evaluate = Predicate.evaluateAll (first :: rest) := by
  rw [Predicate.chain, Predicate.evaluate, Predicate.evaluateAll]

/-- Under `OR` a chain of predicates decides like the disjunction of its operands. -/
theorem Predicate.evaluate_chain_or (first : Predicate) (rest : List Predicate) :
    (Predicate.chain .or first rest).evaluate = Predicate.evaluateAny (first :: rest) := by
  rw [Predicate.chain, Predicate.evaluate, Predicate.evaluateAny]

/-! ## Operands and rows of conditions -/

namespace Expr

variable {resolve : Resolver} {inner : Expr → Predicate → Prop}

/-- Conditions and predicates that decide alike. -/
def Preserves (resolve : Resolver) (inner : Expr → Predicate → Prop) : Prop :=
  ∀ e p, inner e p → p.evaluate = holds resolve e

/-- A compiled operand is read as the value that its expression has. A field is looked up as the
field that it was resolved to. -/
theorem Preserves.read_operand (h : Preserves resolve inner) {e : Expr} {o : Operand}
    (hcompiles : CompilesOperand resolve inner e o) :
    o.read = valueOr resolve (holds resolve e) e := by
  cases hcompiles with
  | literal v => rw [Operand.read, valueOr]
  | field hnamed => rw [Operand.read, valueOr, hnamed]
  | decision hcondition hp =>
    rw [Operand.read, h _ _ hp]
    exact (value_of_isCondition resolve hcondition).symm

/-- A row of compiled conditions decides as a conjunction what the expressions decide. -/
theorem Preserves.evaluateAll (h : Preserves resolve inner) {es : List Expr} {ps : List Predicate}
    (hcompiles : List.Forall₂ inner es ps) : Predicate.evaluateAll ps = holdsAll resolve es := by
  induction hcompiles with
  | nil => rw [Predicate.evaluateAll, holdsAll]
  | cons hp _ ih => rw [Predicate.evaluateAll, holdsAll, h _ _ hp, ih]

/-- Predicates that were compiled one by one decide, as a disjunction, like the disjunction of their
expressions. -/
theorem Preserves.evaluateAny (h : Preserves resolve inner) {es : List Expr} {ps : List Predicate}
    (hcompiles : List.Forall₂ inner es ps) : Predicate.evaluateAny ps = holdsAny resolve es := by
  induction hcompiles with
  | nil => rw [Predicate.evaluateAny, holdsAny]
  | cons hp _ ih => rw [Predicate.evaluateAny, holdsAny, h _ _ hp, ih]

/-! ## Conditions -/

/-- One level of compiling keeps the meaning if what is inside keeps it. There is one case for each
rule by which a condition compiles. -/
theorem Preserves.compiles (h : Preserves resolve inner) :
    Preserves resolve (Compiles resolve inner) := by
  intro e p hcompiles
  cases hcompiles with
  | comparison sign ha hb =>
    rw [Predicate.evaluate, holds, h.read_operand ha, h.read_operand hb]
    simp only [Sign.holds_relation]
  | @chain c operands first rest hc hps =>
    cases c with
    | and => rw [Predicate.evaluate_chain_and, h.evaluateAll hps, holdsAll_flatten, holds]
    | or => rw [Predicate.evaluate_chain_or, h.evaluateAny hps, holdsAny_flatten, holds]
    | not => exact absurd rfl hc
  | negation hp => rw [Predicate.evaluate, negation, holds, h _ _ hp]
  | member negated values ha => rw [Predicate.evaluate, holds, h.read_operand ha]
  | between ha hb hc =>
    rw [Predicate.evaluate, holds, h.read_operand ha, h.read_operand hb, h.read_operand hc]
    rfl
  | @like negated subject a text pattern ha hpattern =>
    rw [Predicate.evaluate, holds, h.read_operand ha,
      show pattern.isFoundIn = Like.admits text from funext (Like.isFoundIn_toRegex hpattern)]
  | isNull negated ha => rw [Predicate.evaluate_isNull, holds, h.read_operand ha]

/-- What compiles in some room keeps its meaning: the conditions inside were compiled in one level
less, so the induction is on the room. -/
theorem preserves_condition (resolve : Resolver) (limit room : Nat) :
    Preserves resolve fun e p => condition resolve limit room e = .ok p := by
  induction room with
  | zero =>
    intro e p h
    cases h
  | succ room ih =>
    intro e p h
    exact ih.compiles e p (condition_succ_eq_ok.mp h)

end Expr

/-- **Compiling keeps the meaning**: the predicate decides about every context what the expression
means, asks the same lazy providers in the same order, and leaves the same behind. -/
theorem Predicate.evaluate_ofExpr {resolve : Resolver} {limit : Nat} {e : Expr} {p : Predicate}
    (h : Predicate.ofExpr resolve limit e = .ok p) : p.evaluate = Expr.holds resolve e :=
  Expr.preserves_condition resolve limit limit e p h

/-- `(a <> 1 OR b.c IS NOT NULL) OR d LIKE '5_'`, with an empty `OR` in front. -/
def Expr.nestedChain : Expr :=
  logical .or
    [logical .or
      [logical .or [], comparison .unequal (field "a") (literal (.int 1)),
        isNull (field "b.c") true],
      like (field "d") "5_" false]

/-- The chain in one row. -/
def Predicate.openedChain : Predicate :=
  any (comparison .notEqual (.field ⟨"a", by decide⟩) (.constant (.int 1)))
    [not (comparison .equal (.field ⟨"b.c", by decide⟩) (.constant .null)),
      matching false (.field ⟨"d", by decide⟩) .fiveAndOne]

/-- The nested chain and the row decide alike. The sign `<>` has become a negated equality and the
null test a comparison. -/
theorem Predicate.evaluate_openedChain :
    Predicate.ofExpr FieldPolicy.any.resolve 3 Expr.nestedChain = .ok openedChain ∧
      openedChain.evaluate = Expr.holds FieldPolicy.any.resolve Expr.nestedChain := by
  have hpattern : Pattern.ofText? (Like.toRegex "5_") = some .fiveAndOne :=
    Pattern.ofText?_source .fiveAndOne
  have compiles :
      Predicate.ofExpr FieldPolicy.any.resolve 3 Expr.nestedChain = .ok openedChain := by
    simp only [Predicate.ofExpr, Expr.nestedChain, Expr.condition, Expr.flatten, if_true,
      List.nil_append, List.cons_append, List.mapM_cons, List.mapM_nil, hpattern]
    rfl
  exact ⟨compiles, evaluate_ofExpr compiles⟩

end WhereRules
