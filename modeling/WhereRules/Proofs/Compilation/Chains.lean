import WhereRules.Proofs.Compilation.Meaning

/-!
# Opening chains

A chain of one connective has the same meaning however it is nested, and so do its operands in one
row (`holdsAll_flatten`, `holdsAny_flatten`): the operands are asked in the same order, and the
first that settles a nested chain settles or passes on the whole one.
-/

namespace WhereRules.Expr

/-! ## Flattening -/

/-- An operand that continues the chain is opened: its own operands take its place, and are opened
in their turn. -/
theorem flatten_logical_self (c : Connective) (operands rest : List Expr) :
    flatten c (logical c operands :: rest) = flatten c (operands ++ rest) := by
  rw [flatten, if_pos rfl]

/-- Whether an expression continues a chain of a connective. -/
def continues (c : Connective) : Expr → Bool
  | logical d _ => d == c
  | _ => false

/-- An operand that does not continue the chain stays, whatever it is. -/
theorem flatten_of_not_continues {c : Connective} {e : Expr} (h : e.continues c = false)
    (rest : List Expr) : flatten c (e :: rest) = e :: flatten c rest := by
  cases e with
  | logical d operands => rw [flatten, if_neg (beq_eq_false_iff_ne.mp h)]
  | _ =>
    rw [flatten]
    exact fun _ _ heq => by cases heq

/-- Operands that are no chains stay as they are. -/
theorem flatten_eq_self {c : Connective} {es : List Expr} (h : ∀ e ∈ es, e.continues c = false) :
    flatten c es = es := by
  induction es with
  | nil => rw [flatten]
  | cons e es ih =>
    obtain ⟨he, hes⟩ := List.forall_mem_cons.mp h
    rw [flatten_of_not_continues he, ih hes]

/-- What continues a chain is a node of the same connective. -/
theorem eq_logical_of_continues {c : Connective} {e : Expr} (h : e.continues c = true) :
    ∃ operands, e = logical c operands := by
  cases e with
  | logical d operands => exact ⟨operands, by rw [eq_of_beq h]⟩
  | _ => cases h

/-- Induction along the opening of a row: an operand at its front continues the chain and gives way
to its own operands, or it stays. Opening goes down the operands and along the row at once, so
neither induction alone would do. -/
@[elab_as_elim]
theorem flatten_induct (c : Connective) {motive : List Expr → Prop} (nil : motive [])
    (opened : ∀ operands rest, motive (operands ++ rest) → motive (logical c operands :: rest))
    (kept : ∀ e rest, e.continues c = false → motive rest → motive (e :: rest))
    (es : List Expr) : motive es := by
  fun_induction flatten c es with
  | case1 => exact nil
  | case2 operands rest ih => exact opened operands rest ih
  | case3 d operands rest hne ih => exact kept _ rest (beq_eq_false_iff_ne.mpr hne) ih
  | case4 e rest hne ih =>
    refine kept e rest ?_ ih
    cases e with
    | logical d operands => exact absurd rfl (hne d operands)
    | _ => rfl

/-- Operands are opened where they stand, so a row may be opened in parts. The recursion of opening
goes into an operand and along the row. -/
theorem flatten_append (c : Connective) (es fs : List Expr) :
    flatten c (es ++ fs) = flatten c es ++ flatten c fs := by
  induction es using flatten_induct c with
  | nil => rw [flatten, List.nil_append, List.nil_append]
  | opened operands rest ih =>
    rw [List.cons_append, flatten_logical_self, flatten_logical_self, ← List.append_assoc, ih]
  | kept e rest hcont ih =>
    rw [List.cons_append, flatten_of_not_continues hcont, flatten_of_not_continues hcont, ih,
      List.cons_append]

/-! ## The meaning of a chain -/

variable {resolve : Resolver}

/-- A conjunction in two parts asks the second part only if all of the first hold. So the order of
reading is kept where a chain is opened. -/
theorem holdsAll_append (es fs : List Expr) :
    holdsAll resolve (es ++ fs) = (do
      if ← holdsAll resolve es then holdsAll resolve fs else return false) := by
  induction es with
  | nil => simp only [List.nil_append, holdsAll, pure_bind, if_true]
  | cons e es ih =>
    simp only [List.cons_append, holdsAll, ih, bind_assoc]
    refine bind_congr fun decision => ?_
    cases decision with
    | true => rfl
    | false => simp only [Bool.false_eq_true, if_false, pure_bind]

/-- A disjunction in two parts asks the second part only if none of the first holds, and in any
other case reads nothing of it. -/
theorem holdsAny_append (es fs : List Expr) :
    holdsAny resolve (es ++ fs) = (do
      if ← holdsAny resolve es then return true else holdsAny resolve fs) := by
  induction es with
  | nil => simp only [List.nil_append, holdsAny, pure_bind, Bool.false_eq_true, if_false]
  | cons e es ih =>
    simp only [List.cons_append, holdsAny, ih, bind_assoc]
    refine bind_congr fun decision => ?_
    cases decision with
    | true => simp only [if_true, pure_bind]
    | false => rfl

/-- A conjunction means what the conjunction of all its operands in one row does. The same providers
are asked, in the same order and up to the same operand. -/
theorem holdsAll_flatten (es : List Expr) :
    holdsAll resolve (flatten .and es) = holdsAll resolve es := by
  fun_induction flatten .and es with
  | case1 => rfl
  | case2 operands rest ih => rw [ih, holdsAll_append, holdsAll, holds]
  | case3 d operands rest _ ih | case4 e rest _ ih => rw [holdsAll, holdsAll, ih]

/-- A disjunction means what the disjunction of all its operands in one row does. -/
theorem holdsAny_flatten (es : List Expr) :
    holdsAny resolve (flatten .or es) = holdsAny resolve es := by
  fun_induction flatten .or es with
  | case1 => rfl
  | case2 operands rest ih => rw [ih, holdsAny_append, holdsAny, holds]
  | case3 d operands rest _ ih | case4 e rest _ ih => rw [holdsAny, holdsAny, ih]

end WhereRules.Expr
