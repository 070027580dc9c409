import WhereRules.Predicate.Compile
import WhereRules.Proofs.Success

/-!
# What one level of compiling can do

Everything that compiling does to an expression at one level, with what was done inside left to a
relation (`Compiles`). Compiling succeeds in some room exactly when one level is as the relation
says and the inside succeeds in one level less (`condition_succ_eq_ok`), so a property of compiled
predicates is shown by induction on the room and one case for each rule here.
-/

namespace WhereRules

/-- The predicate of a chain of operands. `NOT` makes none. -/
def Predicate.chain : Connective → Predicate → List Predicate → Predicate
  | .and, first, rest => all first rest
  | .or, first, rest => any first rest
  | .not, first, _ => first

namespace Expr

/-- What an operand is compiled to; `inner` says it of conditions. -/
inductive CompilesOperand (resolve : Resolver) (inner : Expr → Predicate → Prop) :
    Expr → Operand → Prop
  | literal (v : Value) : CompilesOperand resolve inner (literal v) (.constant v)
  | field {path : String} {named : Field} :
    resolve path = .ok named → CompilesOperand resolve inner (field path) (.field named)
  | decision {e : Expr} {p : Predicate} :
    e.isCondition = true → inner e p → CompilesOperand resolve inner e (.decision p)

/-- What a condition is compiled to; `inner` says it of the conditions inside. -/
inductive Compiles (resolve : Resolver) (inner : Expr → Predicate → Prop) :
    Expr → Predicate → Prop
  | comparison (sign : Sign) {left right : Expr} {a b : Operand} :
    CompilesOperand resolve inner left a → CompilesOperand resolve inner right b →
    Compiles resolve inner (comparison sign left right) (.comparison sign.relation a b)
  | chain {c : Connective} {operands : List Expr} {first : Predicate} {rest : List Predicate} :
    c ≠ .not → List.Forall₂ inner (flatten c operands) (first :: rest) →
    Compiles resolve inner (logical c operands) (Predicate.chain c first rest)
  | negation {e : Expr} {p : Predicate} :
    inner e p → Compiles resolve inner (negation e) (.not p)
  | member (negated : Bool) (values : List Value) {subject : Expr} {a : Operand} :
    CompilesOperand resolve inner subject a →
    Compiles resolve inner (member subject values negated) (.member negated a values)
  | between {subject low high : Expr} {a b c : Operand} :
    CompilesOperand resolve inner subject a → CompilesOperand resolve inner low b →
    CompilesOperand resolve inner high c →
    Compiles resolve inner (between subject low high) (.between a b c)
  | like (negated : Bool) {subject : Expr} {a : Operand} {text : String} {pattern : Pattern} :
    CompilesOperand resolve inner subject a →
    Pattern.ofText? (Like.toRegex text) = some pattern →
    Compiles resolve inner (like subject text negated) (.matching negated a pattern)
  | isNull (negated : Bool) {subject : Expr} {a : Operand} :
    CompilesOperand resolve inner subject a →
    Compiles resolve inner (isNull subject negated) (Predicate.isNull a negated)

variable {resolve : Resolver}

/-- An operand compiles to what the rules for operands say, with its own compiler for conditions
inside. -/
theorem operand_eq_ok {compile : Expr → Except CompileError Predicate} {e : Expr} {o : Operand} :
    operand resolve compile e = .ok o ↔
      CompilesOperand resolve (fun e p => compile e = .ok p) e o := by
  constructor
  · intro h
    cases e with
    | literal v =>
      cases h
      exact .literal v
    | field path =>
      obtain ⟨named, hnamed, rfl⟩ := map_eq_ok.mp h
      exact .field (mapError_eq_ok.mp hnamed)
    | _ =>
      obtain ⟨p, hp, rfl⟩ := map_eq_ok.mp h
      exact .decision rfl hp
  · intro h
    cases h with
    | literal v => rfl
    | field hnamed => exact map_eq_ok.mpr ⟨_, mapError_eq_ok.mpr hnamed, rfl⟩
    | decision hcondition hp =>
      cases e with
      | literal _ | field _ => cases hcondition
      | _ => exact map_eq_ok.mpr ⟨_, hp, rfl⟩

/-- What compiles as a condition is one: literals and fields are refused. -/
theorem isCondition_of_condition {limit room : Nat} {e : Expr} {p : Predicate}
    (h : condition resolve limit room e = .ok p) : e.isCondition = true := by
  cases room with
  | zero => cases h
  | succ room =>
    cases e with
    | literal _ | field _ => cases h
    | _ => rfl

/-- A connective that compiles was opened first, unless it is `NOT`, and has its operands compiled
in one level less. -/
theorem compiles_of_logical {limit room : Nat} {c : Connective} {operands : List Expr}
    {p : Predicate} (h : condition resolve limit (room + 1) (logical c operands) = .ok p) :
    Compiles resolve (fun e p => condition resolve limit room e = .ok p)
      (logical c operands) p := by
  cases c with
  | and | or =>
    obtain ⟨ps, hps, h⟩ := bind_eq_ok.mp h
    cases ps with
    | nil => cases h
    | cons first rest =>
      cases h
      exact .chain nofun (mapM_eq_ok.mp hps)
  | not =>
    match operands with
    | [e] =>
      obtain ⟨q, hq, rfl⟩ := map_eq_ok.mp h
      exact .negation hq
    | [] => cases h
    | _ :: _ :: _ => cases h

/-- What compiles was compiled by one of the rules, with the inside in one level of room less. The
cases are those of the compiler. -/
theorem compiles_of_condition {limit room : Nat} {e : Expr} {p : Predicate}
    (h : condition resolve limit (room + 1) e = .ok p) :
    Compiles resolve (fun e p => condition resolve limit room e = .ok p) e p := by
  cases e with
  | literal _ | field _ => cases h
  | comparison sign left right =>
    obtain ⟨a, ha, h⟩ := bind_eq_ok.mp h
    obtain ⟨b, hb, h⟩ := bind_eq_ok.mp h
    cases h
    exact .comparison sign (operand_eq_ok.mp ha) (operand_eq_ok.mp hb)
  | logical c operands => exact compiles_of_logical h
  | member subject values negated =>
    obtain ⟨a, ha, h⟩ := bind_eq_ok.mp h
    cases h
    exact .member negated values (operand_eq_ok.mp ha)
  | between subject low high =>
    obtain ⟨a, ha, h⟩ := bind_eq_ok.mp h
    obtain ⟨b, hb, h⟩ := bind_eq_ok.mp h
    obtain ⟨c, hc, h⟩ := bind_eq_ok.mp h
    cases h
    exact .between (operand_eq_ok.mp ha) (operand_eq_ok.mp hb) (operand_eq_ok.mp hc)
  | like subject text negated =>
    obtain ⟨a, ha, h⟩ := bind_eq_ok.mp h
    split at h
    · next pattern hpattern =>
      cases h
      exact .like negated (operand_eq_ok.mp ha) hpattern
    · cases h
  | isNull subject negated =>
    obtain ⟨a, ha, h⟩ := bind_eq_ok.mp h
    cases h
    exact .isNull negated (operand_eq_ok.mp ha)

/-- The rules say all that is needed: where the inside compiles, so does the condition, whichever
rule it was. -/
theorem condition_of_compiles {limit room : Nat} {e : Expr} {p : Predicate}
    (h : Compiles resolve (fun e p => condition resolve limit room e = .ok p) e p) :
    condition resolve limit (room + 1) e = .ok p := by
  cases h with
  | comparison sign ha hb =>
    exact bind_eq_ok.mpr ⟨_, operand_eq_ok.mpr ha,
      bind_eq_ok.mpr ⟨_, operand_eq_ok.mpr hb, rfl⟩⟩
  | @chain c operands first rest hc hps =>
    cases c with
    | and | or => exact bind_eq_ok.mpr ⟨_, mapM_eq_ok.mpr hps, rfl⟩
    | not => exact absurd rfl hc
  | negation hp => exact map_eq_ok.mpr ⟨_, hp, rfl⟩
  | member negated values ha => exact bind_eq_ok.mpr ⟨_, operand_eq_ok.mpr ha, rfl⟩
  | between ha hb hc =>
    exact bind_eq_ok.mpr ⟨_, operand_eq_ok.mpr ha,
      bind_eq_ok.mpr ⟨_, operand_eq_ok.mpr hb,
        bind_eq_ok.mpr ⟨_, operand_eq_ok.mpr hc, rfl⟩⟩⟩
  | like negated ha hpattern =>
    refine bind_eq_ok.mpr ⟨_, operand_eq_ok.mpr ha, ?_⟩
    rw [hpattern]
  | isNull negated ha => exact bind_eq_ok.mpr ⟨_, operand_eq_ok.mpr ha, rfl⟩

/-- **One level of compiling.** A condition compiles with room for one level more exactly when a
rule says so and the conditions inside compile in the rest of the room. -/
theorem condition_succ_eq_ok {limit room : Nat} {e : Expr} {p : Predicate} :
    condition resolve limit (room + 1) e = .ok p ↔
      Compiles resolve (fun e p => condition resolve limit room e = .ok p) e p :=
  ⟨compiles_of_condition, condition_of_compiles⟩

end Expr

end WhereRules
