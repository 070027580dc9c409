import WhereRules.Predicate.Written
import WhereRules.Proofs.Success

/-!
# What one level of writing can do

Everything that writing does to a predicate at one level, with what was done inside left to a
relation (`Predicate.Writes`). Writing succeeds in some room exactly when one level is as the
relation says and the inside succeeds in one level less (`written_succ_eq_ok`).
-/

namespace WhereRules

/-- Whether a value has a literal. -/
def Value.Writable : Value → Prop
  | .number x => x.isFinite = true
  | .list _ | .map _ => False
  | _ => True

/-- A value is written if it has a literal, and stays as it is. -/
theorem Expr.writableValue_eq_ok {v w : Value} :
    Expr.writableValue v = .ok w ↔ v.Writable ∧ v = w := by
  cases v with
  | number x =>
    by_cases hfinite : x.isFinite = true
    · simp [Expr.writableValue, Value.Writable, hfinite]
    · simp [Expr.writableValue, Value.Writable, hfinite]
  | list _ | map _ => simp [Expr.writableValue, Value.Writable]
  | _ => simp [Expr.writableValue, Value.Writable]

/-- A list of values is written if each has a literal, and stays as it is. -/
theorem Expr.mapM_writableValue_eq_ok {vs ws : List Value} :
    vs.mapM Expr.writableValue = .ok ws ↔ (∀ v ∈ vs, v.Writable) ∧ vs = ws := by
  rw [mapM_eq_ok]
  simp only [Expr.writableValue_eq_ok]
  constructor
  · intro h
    induction h with
    | nil => exact ⟨List.forall_mem_nil _, rfl⟩
    | cons hv _ ih =>
      obtain ⟨hvs, rfl⟩ := ih
      obtain ⟨hv, rfl⟩ := hv
      exact ⟨List.forall_mem_cons.mpr ⟨hv, hvs⟩, rfl⟩
  · rintro ⟨h, rfl⟩
    induction vs with
    | nil => exact .nil
    | cons v vs ih =>
      obtain ⟨hv, hvs⟩ := List.forall_mem_cons.mp h
      exact .cons ⟨hv, rfl⟩ (ih hvs)

/-- Whether a relation to an operand is a question about null. -/
def Relation.testsNull : Relation → Operand → Bool
  | .equal, .constant .null | .notEqual, .constant .null => true
  | _, _ => false

namespace Predicate

/-- Whether a predicate asks whether something is null. -/
def isNullTest : Predicate → Bool
  | comparison .equal _ (.constant .null) => true
  | _ => false

/-- A null test compares its subject with null. -/
theorem exists_of_isNullTest {p : Predicate} (h : p.isNullTest = true) :
    ∃ subject, p = comparison .equal subject (.constant .null) := by
  unfold isNullTest at h
  split at h
  · exact ⟨_, rfl⟩
  · cases h

/-- What an operand is written as; `inner` says it of predicates. -/
inductive WritesOperand (inner : Predicate → Expr → Prop) : Operand → Expr → Prop
  | literal {v : Value} : v.Writable → WritesOperand inner (.constant v) (.literal v)
  | field {named : Field} :
    isName named.path = true → WritesOperand inner (.field named) (.field named.path)
  | decision {p : Predicate} {e : Expr} : inner p e → WritesOperand inner (.decision p) e

/-- What a predicate is written as; `inner` says it of the predicates inside. -/
inductive Writes (inner : Predicate → Expr → Prop) : Predicate → Expr → Prop
  | isNull {subject : Operand} {e : Expr} : WritesOperand inner subject e →
    Writes inner (comparison .equal subject (.constant .null)) (.isNull e false)
  | isNotNull {subject : Operand} {e : Expr} : WritesOperand inner subject e →
    Writes inner (comparison .notEqual subject (.constant .null)) (.isNull e true)
  | notIsNull {subject : Operand} {e : Expr} : WritesOperand inner subject e →
    Writes inner (not (comparison .equal subject (.constant .null))) (.isNull e true)
  | comparison {relation : Relation} {left right : Operand} {a b : Expr} :
    relation.testsNull right = false → WritesOperand inner left a → WritesOperand inner right b →
    Writes inner (comparison relation left right) (.comparison (Expr.signOf relation) a b)
  | member (negated : Bool) {subject : Operand} {values : List Value} {e : Expr} :
    values ≠ [] → (∀ v ∈ values, v.Writable) → WritesOperand inner subject e →
    Writes inner (member negated subject values) (.member e values negated)
  | between {subject low high : Operand} {a b c : Expr} :
    WritesOperand inner subject a → WritesOperand inner low b → WritesOperand inner high c →
    Writes inner (between subject low high) (.between a b c)
  | matching (negated : Bool) {subject : Operand} {pattern : Pattern} {text : String} {e : Expr} :
    Like.ofRegex? pattern.source = some text → WritesOperand inner subject e →
    Writes inner (matching negated subject pattern) (.like e text negated)
  | all {first : Predicate} {rest : List Predicate} {es : List Expr} :
    List.Forall₂ inner (first :: rest) es → Writes inner (all first rest) (.logical .and es)
  | any {first : Predicate} {rest : List Predicate} {es : List Expr} :
    List.Forall₂ inner (first :: rest) es → Writes inner (any first rest) (.logical .or es)
  | not {p : Predicate} {e : Expr} : p.isNullTest = false → inner p e →
    Writes inner (not p) (.negation e)

end Predicate

namespace Expr

variable {write : Predicate → Except WriteError Expr}

/-- Writing an operand does what the relation says: a constant with a literal, a field with a name
and a condition that is written can be operands, and a pattern cannot. -/
theorem ofOperand_eq_ok {o : Operand} {e : Expr} :
    ofOperand write o = .ok e ↔ Predicate.WritesOperand (fun p e => write p = .ok e) o e := by
  constructor
  · intro h
    cases o with
    | constant v =>
      obtain ⟨w, hw, rfl⟩ := map_eq_ok.mp h
      obtain ⟨hwritable, rfl⟩ := writableValue_eq_ok.mp hw
      exact .literal hwritable
    | field named =>
      rw [ofOperand, ofField] at h
      split at h
      · next hname =>
        cases h
        exact .field hname
      · cases h
    | pattern _ => cases h
    | decision p => exact .decision h
  · intro h
    cases h with
    | literal hwritable => exact map_eq_ok.mpr ⟨_, writableValue_eq_ok.mpr ⟨hwritable, rfl⟩, rfl⟩
    | field hname => rw [ofOperand, ofField, if_pos hname]
    | decision h => exact h

/-- Whatever is written in one level more is written as the relation says. The cases are those of
the definition of writing, with the null tests before the comparisons. -/
theorem writes_of_written {limit room : Nat} {p : Predicate} {e : Expr}
    (h : written limit (room + 1) p = .ok e) :
    p.Writes (fun p e => written limit room p = .ok e) e := by
  unfold written at h
  simp only at h
  split at h
  · obtain ⟨a, ha, h⟩ := bind_eq_ok.mp h
    cases h
    exact .isNull (ofOperand_eq_ok.mp ha)
  · obtain ⟨a, ha, h⟩ := bind_eq_ok.mp h
    cases h
    exact .isNotNull (ofOperand_eq_ok.mp ha)
  · next relation left right hequal hunequal =>
    obtain ⟨a, ha, h⟩ := bind_eq_ok.mp h
    obtain ⟨b, hb, h⟩ := bind_eq_ok.mp h
    cases h
    refine .comparison ?_ (ofOperand_eq_ok.mp ha) (ofOperand_eq_ok.mp hb)
    -- The two null tests were written in the cases before this one.
    unfold Relation.testsNull
    split
    · exact absurd rfl (hequal rfl)
    · exact absurd rfl (hunequal rfl)
    · rfl
  · next negated subject values =>
    cases values with
    | nil => cases h
    | cons v vs =>
      obtain ⟨ws, hws, h⟩ := bind_eq_ok.mp h
      obtain ⟨hwritable, rfl⟩ := mapM_writableValue_eq_ok.mp hws
      obtain ⟨a, ha, h⟩ := bind_eq_ok.mp h
      cases h
      exact .member negated (List.cons_ne_nil v vs) hwritable (ofOperand_eq_ok.mp ha)
  · obtain ⟨a, ha, h⟩ := bind_eq_ok.mp h
    obtain ⟨b, hb, h⟩ := bind_eq_ok.mp h
    obtain ⟨c, hc, h⟩ := bind_eq_ok.mp h
    cases h
    exact .between (ofOperand_eq_ok.mp ha) (ofOperand_eq_ok.mp hb) (ofOperand_eq_ok.mp hc)
  · next negated subject pattern =>
    split at h
    · cases h
    · next text hlike =>
      obtain ⟨a, ha, h⟩ := bind_eq_ok.mp h
      cases h
      exact .matching negated hlike (ofOperand_eq_ok.mp ha)
  · obtain ⟨es, hes, h⟩ := bind_eq_ok.mp h
    cases h
    exact .all (mapM_eq_ok.mp hes)
  · obtain ⟨es, hes, h⟩ := bind_eq_ok.mp h
    cases h
    exact .any (mapM_eq_ok.mp hes)
  · obtain ⟨a, ha, h⟩ := bind_eq_ok.mp h
    cases h
    exact .notIsNull (ofOperand_eq_ok.mp ha)
  · next inner hnull =>
    obtain ⟨a, ha, h⟩ := bind_eq_ok.mp h
    cases h
    refine .not ?_ ha
    unfold Predicate.isNullTest
    split
    · exact absurd rfl (hnull _)
    · rfl

/-- A relation that is no question about null is written as it is. The definition has its null tests
as separate cases, which this puts aside once and for all. -/
theorem written_comparison {limit room : Nat} {relation : Relation} {left right : Operand}
    (h : relation.testsNull right = false) :
    written limit (room + 1) (.comparison relation left right) =
      ofOperand (written limit room) left >>= fun a =>
        ofOperand (written limit room) right >>= fun b =>
          .ok (comparison (signOf relation) a b) := by
  rw [written]
  · rintro rfl rfl
    cases h
  · rintro rfl rfl
    cases h

/-- A negation of anything but a null test is written as it is. -/
theorem written_not {limit room : Nat} {p : Predicate} (h : p.isNullTest = false) :
    written limit (room + 1) (.not p) =
      written limit room p >>= fun e => .ok (negation e) := by
  rw [written]
  rintro left rfl
  cases h

/-- Whatever the relation says is written in one level more. Where the definition has several cases
for a form, the relation says which one it is. -/
theorem written_of_writes {limit room : Nat} {p : Predicate} {e : Expr}
    (h : p.Writes (fun p e => written limit room p = .ok e) e) :
    written limit (room + 1) p = .ok e := by
  cases h with
  | isNull ha => exact bind_eq_ok.mpr ⟨_, ofOperand_eq_ok.mpr ha, rfl⟩
  | isNotNull ha => exact bind_eq_ok.mpr ⟨_, ofOperand_eq_ok.mpr ha, rfl⟩
  | notIsNull ha => exact bind_eq_ok.mpr ⟨_, ofOperand_eq_ok.mpr ha, rfl⟩
  | comparison hnull ha hb =>
    rw [written_comparison hnull]
    exact bind_eq_ok.mpr ⟨_, ofOperand_eq_ok.mpr ha,
      bind_eq_ok.mpr ⟨_, ofOperand_eq_ok.mpr hb, rfl⟩⟩
  | @member negated subject values e hne hvalues ha =>
    cases values with
    | nil => exact absurd rfl hne
    | cons v vs =>
      exact bind_eq_ok.mpr ⟨_, mapM_writableValue_eq_ok.mpr ⟨hvalues, rfl⟩,
        bind_eq_ok.mpr ⟨_, ofOperand_eq_ok.mpr ha, rfl⟩⟩
  | between ha hb hc =>
    exact bind_eq_ok.mpr ⟨_, ofOperand_eq_ok.mpr ha,
      bind_eq_ok.mpr ⟨_, ofOperand_eq_ok.mpr hb,
        bind_eq_ok.mpr ⟨_, ofOperand_eq_ok.mpr hc, rfl⟩⟩⟩
  | matching negated hlike ha =>
    rw [written, hlike]
    exact bind_eq_ok.mpr ⟨_, ofOperand_eq_ok.mpr ha, rfl⟩
  | all h => exact bind_eq_ok.mpr ⟨_, mapM_eq_ok.mpr h, rfl⟩
  | any h => exact bind_eq_ok.mpr ⟨_, mapM_eq_ok.mpr h, rfl⟩
  | not hnull h =>
    rw [written_not hnull]
    exact bind_eq_ok.mpr ⟨_, h, rfl⟩

/-- **One level of writing.** Everything that is shown of written predicates goes through this, by
the forms of the relation and by induction on the room. -/
theorem written_succ_eq_ok {limit room : Nat} {p : Predicate} {e : Expr} :
    written limit (room + 1) p = .ok e ↔
      p.Writes (fun p e => written limit room p = .ok e) e :=
  ⟨writes_of_written, written_of_writes⟩

end Expr

end WhereRules
