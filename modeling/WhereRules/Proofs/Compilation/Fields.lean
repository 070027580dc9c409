import WhereRules.Proofs.Compilation.Chains
import WhereRules.Proofs.Compilation.Steps

/-!
# Fields of compiled predicates

The paths that an expression names are, in the same order and as often, the paths of the fields that
its predicate looks at (`Predicate.paths_ofExpr`), if each path is resolved to the field of that
path, as policies do (`FieldPolicy.path_of_resolve`). Compiling opens chains, and that moves no
field (`Expr.pathsAll_flatten`).
-/

namespace WhereRules

/-- A policy gives each path its own field. A resolver in general might give it any. -/
theorem FieldPolicy.path_of_resolve {policy : FieldPolicy} {path : String} {named : Field}
    (h : policy.resolve path = .ok named) : named.path = path := by
  unfold resolve Field.ofPath at h
  split at h
  · split at h
    · cases h
      rfl
    · cases h
  · cases h

mutual

/-- The paths of the fields that an operand looks at. -/
def Operand.paths : Operand → List String
  | .constant _ | .pattern _ => []
  | .field field => [field.path]
  | .decision predicate => predicate.paths

/-- The paths of the fields that a predicate looks at, operand by operand from left to right. -/
def Predicate.paths : Predicate → List String
  | .comparison _ left right => left.paths ++ right.paths
  | .member _ subject _ | .matching _ subject _ => subject.paths
  | .between subject low high => subject.paths ++ (low.paths ++ high.paths)
  | .all first rest | .any first rest => first.paths ++ Predicate.pathsAll rest
  | .not operand => operand.paths

/-- The paths of the fields that a row of predicates looks at. -/
def Predicate.pathsAll : List Predicate → List String
  | [] => []
  | predicate :: rest => predicate.paths ++ Predicate.pathsAll rest

end

namespace Predicate

theorem paths_isNull (subject : Operand) (negated : Bool) :
    (isNull subject negated).paths = subject.paths := by
  cases negated <;> exact List.append_nil _

/-- A chain looks at what its operands do, whichever connective joins them. -/
theorem paths_chain {c : Connective} (hc : c ≠ .not) (first : Predicate) (rest : List Predicate) :
    (chain c first rest).paths = pathsAll (first :: rest) := by
  cases c with
  | and | or => rw [chain, paths, pathsAll]
  | not => exact absurd rfl hc

end Predicate

namespace Expr

/-- The paths that an expression names, as often as it names them. -/
def paths (e : Expr) : List String := e.visits.filterMap Visit.path?

/-- The paths that a row of expressions names, one expression after the other. -/
def pathsAll (es : List Expr) : List String := (visitsAll es).filterMap Visit.path?

/-- Leaving out repetitions loses no text. -/
theorem mem_distinct {s : String} {texts : List String} : s ∈ distinct texts ↔ s ∈ texts := by
  induction texts with
  | nil => exact Iff.rfl
  | cons t rest ih =>
    rw [distinct, List.mem_cons, List.mem_cons, List.mem_filter, ih]
    simp only [ne_eq, decide_eq_true_eq]
    constructor
    · rintro (rfl | ⟨h, -⟩)
      · exact .inl rfl
      · exact .inr h
    · rintro (rfl | h)
      · exact .inl rfl
      · exact (Decidable.em (s = t)).imp id fun hne => ⟨h, hne⟩

/-- The fields of an expression are the paths that it names. -/
theorem mem_fields {e : Expr} {path : String} : path ∈ e.fields ↔ path ∈ e.paths := mem_distinct

theorem filterMap_node_cons (b : Bool) (visits : List Visit) :
    (Visit.node b :: visits).filterMap Visit.path? = visits.filterMap Visit.path? := rfl

/-- A comparison names what its left side names and then what its right side does. -/
theorem paths_comparison (sign : Sign) (left right : Expr) :
    (comparison sign left right).paths = left.paths ++ right.paths := by
  rw [paths, visits, filterMap_node_cons, List.filterMap_append]
  rfl

/-- A connective names what its operands do, in their order. -/
theorem paths_logical (c : Connective) (operands : List Expr) :
    (logical c operands).paths = pathsAll operands := by
  rw [paths, visits, filterMap_node_cons]
  rfl

/-- A membership names what its subject does: its values are constants. -/
theorem paths_member (subject : Expr) (values : List Value) (negated : Bool) :
    (member subject values negated).paths = subject.paths := by
  have hvalues : (values.map Visit.value).filterMap Visit.path? = [] :=
    List.filterMap_eq_nil_iff.mpr fun visit hvisit => by
      obtain ⟨value, _, rfl⟩ := List.mem_map.mp hvisit
      rfl
  rw [paths, visits, filterMap_node_cons, List.filterMap_append, hvalues, List.append_nil]
  rfl

theorem paths_between (subject low high : Expr) :
    (between subject low high).paths = subject.paths ++ (low.paths ++ high.paths) := by
  rw [paths, visits, filterMap_node_cons, List.filterMap_append, List.filterMap_append]
  rfl

/-- A row names what its first expression does and then what the rest do. -/
theorem pathsAll_cons (e : Expr) (es : List Expr) :
    pathsAll (e :: es) = e.paths ++ pathsAll es := by
  rw [pathsAll, visitsAll, List.filterMap_append]
  rfl

/-- A row in two parts names what the first part does and then what the second does. -/
theorem pathsAll_append (es fs : List Expr) : pathsAll (es ++ fs) = pathsAll es ++ pathsAll fs := by
  induction es with
  | nil => rfl
  | cons e es ih => rw [List.cons_append, pathsAll_cons, pathsAll_cons, ih, List.append_assoc]

/-- Opening chains moves no field, because an opened operand gives way to its own operands in their
order. -/
theorem pathsAll_flatten (c : Connective) (es : List Expr) :
    pathsAll (flatten c es) = pathsAll es := by
  fun_induction flatten c es with
  | case1 => rfl
  | case2 operands rest ih => rw [ih, pathsAll_append, pathsAll_cons, paths_logical]
  | case3 _ _ _ _ ih | case4 _ _ _ ih => rw [pathsAll_cons, pathsAll_cons, ih]

/-! ## Compiling -/

section Compiling

variable {resolve : Resolver} {inner : Expr → Predicate → Prop}

/-- Conditions and predicates that name the same fields. -/
def NamesAlike (inner : Expr → Predicate → Prop) : Prop := ∀ e p, inner e p → p.paths = e.paths

/-- An operand looks at the fields that its expression names, if the resolver gives each path its
own field and conditions inside are compiled alike. -/
theorem NamesAlike.operand (h : NamesAlike inner)
    (hresolve : ∀ path named, resolve path = .ok named → named.path = path) {e : Expr} {o : Operand}
    (ho : CompilesOperand resolve inner e o) : o.paths = e.paths := by
  cases ho with
  | literal v => rfl
  | @field path named hnamed =>
    rw [Operand.paths, hresolve path named hnamed]
    rfl
  | decision _ hp => exact h _ _ hp

/-- Predicates that were compiled one by one name together what their expressions name, in the same
order. -/
theorem NamesAlike.pathsAll (h : NamesAlike inner) {es : List Expr} {ps : List Predicate}
    (hps : List.Forall₂ inner es ps) : Predicate.pathsAll ps = Expr.pathsAll es := by
  induction hps with
  | nil => rfl
  | cons hp _ ih => rw [Predicate.pathsAll, pathsAll_cons, h _ _ hp, ih]

/-- One level of compiling keeps the fields if what is inside keeps them. The case split is that of
compiling; only `LIKE` and a null test bring in anything new, and neither brings a field. -/
theorem NamesAlike.compiles (h : NamesAlike inner)
    (hresolve : ∀ path named, resolve path = .ok named → named.path = path) :
    NamesAlike (Compiles resolve inner) := by
  intro e p hcompiles
  cases hcompiles with
  | comparison sign ha hb =>
    rw [Predicate.paths, paths_comparison, h.operand hresolve ha, h.operand hresolve hb]
  | @chain c operands first rest hc hps =>
    rw [Predicate.paths_chain hc, h.pathsAll hps, pathsAll_flatten, paths_logical]
  | @negation e p hp =>
    rw [Predicate.paths, negation, paths_logical, pathsAll_cons, h _ _ hp]
    exact (List.append_nil _).symm
  | member negated values ha => rw [Predicate.paths, paths_member, h.operand hresolve ha]
  | between ha hb hc =>
    rw [Predicate.paths, paths_between, h.operand hresolve ha, h.operand hresolve hb,
      h.operand hresolve hc]
  | like negated ha _ =>
    rw [Predicate.paths, h.operand hresolve ha]
    rfl
  | isNull negated ha =>
    rw [Predicate.paths_isNull, h.operand hresolve ha]
    rfl

/-- Whatever the room, a condition that compiles looks at the fields that its expression names. The
induction is on the room. -/
theorem namesAlike_condition
    (hresolve : ∀ path named, resolve path = .ok named → named.path = path) (limit room : Nat) :
    NamesAlike fun e p => condition resolve limit room e = .ok p := by
  induction room with
  | zero =>
    intro e p h
    cases h
  | succ room ih =>
    intro e p h
    exact ih.compiles hresolve e p (condition_succ_eq_ok.mp h)

end Compiling

end Expr

/-- **A compiled predicate looks at the fields that its expression names**, in the same order. -/
theorem Predicate.paths_ofExpr {policy : FieldPolicy} {limit : Nat} {e : Expr} {p : Predicate}
    (h : ofExpr policy.resolve limit e = .ok p) : p.paths = e.paths :=
  Expr.namesAlike_condition (fun _ _ => FieldPolicy.path_of_resolve) limit limit e p h

end WhereRules
