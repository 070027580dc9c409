import WhereRules.Proofs.Compilation.Fields

/-!
# Collecting fields

A walk can collect the fields that it meets, each when it is met first (`Expr.collect`). The list
that it ends with is that of all the paths that are met, without repetitions
(`Expr.fields_eq_foldl`). For a predicate nothing is walked: its fields are those of its operands
from left to right, and those of the predicates among them (`Predicate.paths_eq_flatMap`). Both lists
name the same fields in the same order, although compiling opens chains that the walk keeps nested.
-/

namespace WhereRules

namespace Expr

/-! ## Repetitions -/

/-- Leaving out repetitions and leaving out some texts altogether can be done in either order. A
text is left out with all its repetitions, or with none. -/
theorem distinct_filter (q : String → Bool) (texts : List String) :
    distinct (texts.filter q) = (distinct texts).filter q := by
  induction texts with
  | nil => rfl
  | cons s rest ih =>
    by_cases hs : q s = true
    · rw [List.filter_cons_of_pos hs, distinct, distinct, List.filter_cons_of_pos hs, ih,
        List.filter_comm]
    · -- what is taken out with `s` is not let through either
      have hkeep : ∀ t ∈ distinct rest, (decide (t ≠ s) && q t) = q t := by
        intro t _
        by_cases ht : t = s
        · rw [ht, Bool.eq_false_iff.mpr hs, Bool.and_false]
        · rw [decide_eq_true ht, Bool.true_and]
      rw [List.filter_cons_of_neg hs, distinct, List.filter_cons_of_neg hs, ih, List.filter_filter,
        List.filter_congr fun t ht => (Bool.and_comm _ _).trans (hkeep t ht)]

/-- Leaving out repetitions keeps the first of each. The code drops from the rest of the list what
equals its first element; the library keeps track of what it has seen. -/
theorem distinct_eq_eraseDups (texts : List String) : distinct texts = texts.eraseDups := by
  induction hn : texts.length using Nat.strongRecOn generalizing texts with
  | ind n ih =>
    cases texts with
    | nil => rfl
    | cons s rest =>
      have hfewer : (rest.filter (· ≠ s)).length < n :=
        hn ▸ Nat.lt_succ_of_le (List.length_filter_le _ _)
      have hsame : (fun t => decide (t ≠ s)) = fun t => !t == s := by
        funext t
        rw [decide_not, beq_eq_decide]
      rw [distinct, ← distinct_filter, ih _ hfewer _ rfl, List.eraseDups_cons, hsame]

/-- Nothing is left twice when repetitions are left out. -/
theorem nodup_distinct (texts : List String) : (distinct texts).Nodup := by
  induction texts with
  | nil => exact List.nodup_nil
  | cons s rest ih =>
    refine List.nodup_cons.mpr ⟨fun hmem => ?_, ih.filter _⟩
    exact of_decide_eq_true (List.mem_filter.mp hmem).2 rfl

/-! ## Walks that collect -/

/-- The fields collected after one more visit. -/
def collect (collected : List String) : Visit → List String
  | .field path => if path ∈ collected then collected else collected ++ [path]
  | _ => collected

/-- What a walk adds to the fields collected so far are the paths that it meets and that are not
among them, without repetitions. The induction is on the visits, for any fields collected before. -/
theorem foldl_collect (visits : List Visit) (collected : List String) :
    visits.foldl collect collected =
      collected ++ (distinct (visits.filterMap Visit.path?)).filter (· ∉ collected) := by
  induction visits generalizing collected with
  | nil => exact (List.append_nil collected).symm
  | cons visit visits ih =>
    cases visit with
    | node | value => exact ih collected
    | field path =>
      have hpaths : (Visit.field path :: visits).filterMap Visit.path? =
          path :: visits.filterMap Visit.path? := rfl
      rw [List.foldl_cons, collect, hpaths, distinct]
      by_cases hmem : path ∈ collected
      · have hkeep : ∀ t, (decide (t ∉ collected) && decide (t ≠ path)) =
            decide (t ∉ collected) := by
          intro t
          rw [← Bool.decide_and, decide_eq_decide]
          exact and_iff_left_of_imp fun ht heq => ht (heq ▸ hmem)
        rw [if_pos hmem, ih collected, List.filter_cons_of_neg (by simpa using hmem),
          List.filter_filter, List.filter_congr fun t _ => hkeep t]
      · have hkeep : ∀ t, (decide (t ∉ collected) && decide (t ≠ path)) =
            decide (t ∉ collected ++ [path]) := by
          intro t
          rw [← Bool.decide_and, decide_eq_decide, List.mem_append, List.mem_singleton, not_or]
        rw [if_neg hmem, ih (collected ++ [path]), List.filter_cons_of_pos (by simpa using hmem),
          List.filter_filter, List.filter_congr fun t _ => hkeep t, List.append_assoc,
          List.singleton_append]

/-- The fields of an expression are those that a walk collects. -/
theorem fields_eq_foldl (e : Expr) : e.fields = e.visits.foldl collect [] := by
  rw [foldl_collect, List.nil_append, fields]
  exact (List.filter_eq_self.mpr fun _ _ => rfl).symm

end Expr

/-! ## Predicates -/

namespace Predicate

/-- The paths of a row of predicates are those of the operands that they are. -/
theorem pathsAll_eq_flatMap (ps : List Predicate) :
    pathsAll ps = (ps.map Operand.decision).flatMap Operand.paths := by
  induction ps with
  | nil => rfl
  | cons p ps ih => rw [pathsAll, ih, List.map_cons, List.flatMap_cons, Operand.paths]

/-- The paths of a predicate are those of its operands from left to right. -/
theorem paths_eq_flatMap (p : Predicate) : p.paths = p.operands.flatMap Operand.paths := by
  cases p with
  | comparison | between | member | matching | not =>
    simp only [paths, operands, Operand.paths, List.flatMap_cons, List.flatMap_nil, List.append_nil]
  | all first rest | any first rest =>
    rw [paths, operands, pathsAll_eq_flatMap, List.flatMap_cons, Operand.paths]

end Predicate

/-- **The fields of an expression are those of its predicate.** What a walk over an expression that
compiles collects is without repetitions, and is the paths that the predicate looks at, operand by
operand from left to right at every depth, each where it comes first. -/
theorem Expr.fields_of_ofExpr {policy : FieldPolicy} {limit : Nat} {e : Expr} {p : Predicate}
    (h : Predicate.ofExpr policy.resolve limit e = .ok p) :
    e.fields = e.visits.foldl collect [] ∧ e.fields.Nodup ∧ e.fields = p.paths.eraseDups ∧
      p.paths = p.operands.flatMap Operand.paths := by
  have hpaths : p.paths = e.paths := Predicate.paths_ofExpr h
  refine ⟨e.fields_eq_foldl, nodup_distinct _, ?_, p.paths_eq_flatMap⟩
  rw [hpaths, ← distinct_eq_eraseDups]
  rfl

/-- `stock.least < wanted AND wanted IS NULL AND (NOT state IN (1)) = stock.least`, with the chain
nested. -/
def Expr.repeatedFields : Expr :=
  both
    (both (comparison .less (field "stock.least") (field "wanted")) (isNull (field "wanted") false))
    (comparison .equal (negation (member (field "state") [.int 1] false)) (field "stock.least"))

/-- The same with the chain in one row. -/
def Predicate.repeatedFields : Predicate :=
  all (comparison .less (.field ⟨"stock.least", by decide⟩) (.field ⟨"wanted", by decide⟩))
    [comparison .equal (.field ⟨"wanted", by decide⟩) (.constant .null),
      comparison .equal (.decision (not (member false (.field ⟨"state", by decide⟩) [.int 1])))
        (.field ⟨"stock.least", by decide⟩)]

/-- A chain that is nested in the expression and in one row in the predicate: both name
`stock.least` before `wanted` and `state`, and the predicate looks at two of them twice. -/
theorem Expr.fields_of_ofExpr_repeatedFields :
    Predicate.ofExpr (FieldPolicy.only ["state", "stock.least", "wanted"]).resolve 4
        Expr.repeatedFields = .ok .repeatedFields ∧
      Expr.repeatedFields.fields.Nodup ∧
      Expr.repeatedFields.fields = Predicate.repeatedFields.paths.eraseDups ∧
      Predicate.repeatedFields.paths =
        ["stock.least", "wanted", "wanted", "state", "stock.least"] ∧
      Expr.repeatedFields.fields = ["stock.least", "wanted", "state"] := by
  have compiles : Predicate.ofExpr (FieldPolicy.only ["state", "stock.least", "wanted"]).resolve 4
      Expr.repeatedFields = .ok .repeatedFields := by cbv
  obtain ⟨-, hnodup, hfields, -⟩ := fields_of_ofExpr compiles
  exact ⟨compiles, hnodup, hfields, rfl, by decide⟩

end WhereRules
