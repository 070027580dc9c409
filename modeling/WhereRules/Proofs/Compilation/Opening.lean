import WhereRules.Proofs.Compilation.Chains

/-!
# Opening chains with a stack

A chain is opened with a stack of the operands that are still to be looked at (`Opening`). One that
continues the chain gives way to its own operands, so the stack may grow before it shrinks, but the
nodes on it get fewer with every turn. What is kept so far, with what the stack will come to, is the
same after every turn (`Opening.flatten_turn`).

So the stack comes to what is said by recursion on the tree (`Expr.chainOperands`): an operand of
the chain's own connective adds what its operands add, in their order, and every other operand adds
itself.
-/

namespace WhereRules

namespace Expr

/-! ## The operands of a chain -/

mutual

/-- What an operand adds to a chain: itself, or what its own operands add if it continues the
chain. -/
def chainOperands (c : Connective) : Expr → List Expr
  | logical d operands => if d = c then chainOperandsAll c operands else [logical d operands]
  | e => [e]

/-- What the operands of a row add, one after the other. -/
def chainOperandsAll (c : Connective) : List Expr → List Expr
  | [] => []
  | e :: es => chainOperands c e ++ chainOperandsAll c es

end

/-- A row of operands adds what each of them adds. -/
theorem chainOperandsAll_eq_flatMap (c : Connective) (es : List Expr) :
    chainOperandsAll c es = es.flatMap (chainOperands c) := by
  induction es with
  | nil => rfl
  | cons e es ih => rw [chainOperandsAll, ih, List.flatMap_cons]

/-- An operand of the chain's own connective adds what its operands add. -/
theorem chainOperands_logical_self (c : Connective) (operands : List Expr) :
    chainOperands c (logical c operands) = operands.flatMap (chainOperands c) := by
  rw [chainOperands, if_pos rfl, chainOperandsAll_eq_flatMap]

/-- Every other operand adds itself, and its own operands are not looked at. -/
theorem chainOperands_of_not_continues {c : Connective} {e : Expr} (h : e.continues c = false) :
    chainOperands c e = [e] := by
  cases e with
  | logical d operands => rw [chainOperands, if_neg (beq_eq_false_iff_ne.mp h)]
  | _ => rfl

/-- The code opens a row by looking at its front, over and over; that comes to what its operands
add, one by one. -/
theorem flatten_eq_flatMap (c : Connective) (es : List Expr) :
    flatten c es = es.flatMap (chainOperands c) := by
  induction es using flatten_induct c with
  | nil => rw [flatten, List.flatMap_nil]
  | opened operands rest ih =>
    rw [flatten_logical_self, ih, List.flatMap_append, List.flatMap_cons,
      chainOperands_logical_self]
  | kept e rest hcont ih =>
    rw [flatten_of_not_continues hcont, ih, List.flatMap_cons, chainOperands_of_not_continues hcont,
      List.singleton_append]

/-- One expression is the other, or stands in it below nodes of one connective only, and is no such
node itself. -/
inductive EndsChain (c : Connective) (f : Expr) : Expr → Prop
  | self : f.continues c = false → EndsChain c f f
  | operand {operands : List Expr} {e : Expr} :
    e ∈ operands → EndsChain c f e → EndsChain c f (logical c operands)

/-- What ends a chain ends one of its operands, if the chain is no end itself. A chain of its own
connective never is. -/
theorem endsChain_logical_self_iff {c : Connective} {f : Expr} {operands : List Expr} :
    f.EndsChain c (logical c operands) ↔ ∃ e ∈ operands, f.EndsChain c e := by
  constructor
  · intro h
    cases h with
    | self hcont => exact absurd (beq_self_eq_true c) (Bool.eq_false_iff.mp hcont)
    | operand he hends => exact ⟨_, he, hends⟩
  · rintro ⟨e, he, hends⟩
    exact .operand he hends

/-- An operand that does not continue the chain is the only end in it. -/
theorem endsChain_iff_of_not_continues {c : Connective} {e f : Expr} (h : e.continues c = false) :
    f.EndsChain c e ↔ f = e := by
  constructor
  · intro hends
    cases hends with
    | self => rfl
    | operand => exact absurd (beq_self_eq_true c) (Bool.eq_false_iff.mp h)
  · rintro rfl
    exact .self h

/-- What a chain is opened to are its ends: nothing that continues it is kept, and nothing below an
end is looked at. -/
theorem mem_flatten_iff {c : Connective} {es : List Expr} {f : Expr} :
    f ∈ flatten c es ↔ ∃ e ∈ es, f.EndsChain c e := by
  induction es using flatten_induct c with
  | nil => simp only [flatten, List.not_mem_nil, false_and, exists_false]
  | opened operands rest ih =>
    rw [flatten_logical_self, ih, List.exists_mem_cons_iff, endsChain_logical_self_iff]
    simp only [List.mem_append, or_and_right, exists_or]
  | kept e rest hcont ih =>
    rw [flatten_of_not_continues hcont, List.mem_cons, ih, List.exists_mem_cons_iff,
      endsChain_iff_of_not_continues hcont]

end Expr

/-! ## The stack -/

/-- A chain while it is opened. The last operand on the stack is the next to be looked at. -/
structure Opening where
  stack : List Expr
  kept : List Expr

namespace Opening

open WhereRules.Expr

/-- Looks at one operand, if there is one left. -/
def turn (c : Connective) (opening : Opening) : Option Opening :=
  match opening.stack.getLast? with
  | none => none
  | some (logical d operands) =>
    if d = c then some { opening with stack := opening.stack.dropLast ++ operands.reverse }
    else some ⟨opening.stack.dropLast, opening.kept ++ [logical d operands]⟩
  | some e => some ⟨opening.stack.dropLast, opening.kept ++ [e]⟩

variable {c : Connective} {opening next : Opening}

/-- What a turn does, by the operand on top of the stack: it gives way to its own operands, the
first of them on top, or it is kept. This is all that is known of a turn from here on. -/
theorem turn_cases (h : opening.turn c = some next) :
    (∃ stack operands, opening.stack = stack ++ [logical c operands] ∧
      next = ⟨stack ++ operands.reverse, opening.kept⟩) ∨
    ∃ stack e, opening.stack = stack ++ [e] ∧ e.continues c = false ∧
      next = ⟨stack, opening.kept ++ [e]⟩ := by
  obtain ⟨stack, kept⟩ := opening
  rcases stack.eq_nil_or_concat with rfl | ⟨stack, e, rfl⟩
  · cases h
  · simp only [turn, List.concat_eq_append, List.getLast?_concat, List.dropLast_concat] at h
    cases e with
    | logical d operands =>
      dsimp only at h
      split at h
      · next hsame =>
        cases h
        exact .inl ⟨stack, operands, by rw [hsame, List.concat_eq_append], rfl⟩
      · next hother =>
        cases h
        exact .inr ⟨stack, _, List.concat_eq_append, beq_eq_false_iff_ne.mpr hother, rfl⟩
    | _ =>
      cases h
      exact .inr ⟨stack, _, List.concat_eq_append, rfl, rfl⟩

/-- There is no turn only when nothing is left on the stack, so the loop stops with everything
opened. -/
theorem turn_eq_none (h : opening.turn c = none) : opening.stack = [] := by
  obtain ⟨stack, kept⟩ := opening
  rcases stack.eq_nil_or_concat with rfl | ⟨stack, e, rfl⟩
  · rfl
  · simp only [turn, List.concat_eq_append, List.getLast?_concat] at h
    cases e with
    | logical d operands =>
      dsimp only at h
      split at h <;> cases h
    | _ => cases h

/-- Turning operands around changes nothing about how many nodes they have. -/
theorem sizeAll_reverse (es : List Expr) : sizeAll es.reverse = sizeAll es := by
  induction es with
  | nil => rfl
  | cons e es ih =>
    rw [List.reverse_cons, sizeAll_append, ih, sizeAll, sizeAll, sizeAll, Nat.add_zero,
      Nat.add_comm]

/-- The nodes on the stack get fewer. An operand that continues the chain goes with its own node and
leaves its operands, and one that is kept goes altogether. -/
theorem sizeAll_turn (h : opening.turn c = some next) :
    sizeAll next.stack < sizeAll opening.stack := by
  rcases turn_cases h with ⟨stack, operands, hstack, rfl⟩ | ⟨stack, e, hstack, -, rfl⟩
  · rw [hstack, sizeAll_append, sizeAll_append, sizeAll_reverse, sizeAll, size, sizeAll]
    omega
  · have hpos := e.size_pos
    rw [hstack, sizeAll_append, sizeAll, sizeAll]
    dsimp only
    omega

/-- **What is kept, with what the stack will come to, is the same after every turn.** -/
theorem flatten_turn (h : opening.turn c = some next) :
    next.kept ++ flatten c next.stack.reverse =
      opening.kept ++ flatten c opening.stack.reverse := by
  rcases turn_cases h with ⟨stack, operands, hstack, rfl⟩ | ⟨stack, e, hstack, hcont, rfl⟩
  · rw [hstack, List.reverse_concat, flatten_logical_self, List.reverse_append,
      List.reverse_reverse]
  · rw [hstack, List.reverse_concat, flatten_of_not_continues hcont, List.append_assoc,
      List.singleton_append]

/-- However a chain is nested, the turns come to an end, because the nodes on the stack get fewer.
-/
theorem wellFounded_turn (c : Connective) :
    WellFounded fun next opening : Opening => opening.turn c = some next :=
  Subrelation.wf sizeAll_turn (measure fun opening : Opening => sizeAll opening.stack).wf

/-- Looks at one operand after the other until none is left. -/
def run (c : Connective) (opening : Opening) : List Expr :=
  match _hturn : opening.turn c with
  | none => opening.kept
  | some next => next.run c
termination_by sizeAll opening.stack
decreasing_by exact sizeAll_turn _hturn

/-- From anywhere on the way the stack ends with what is kept so far and what it will still come
to. -/
theorem run_eq (c : Connective) (opening : Opening) :
    opening.run c = opening.kept ++ flatten c opening.stack.reverse := by
  fun_induction run c opening with
  | case1 opening hturn => rw [turn_eq_none hturn, List.reverse_nil, flatten, List.append_nil]
  | case2 opening next hturn ih => rw [ih, flatten_turn hturn]

end Opening

/-- **Opening a chain with a stack comes to what recursion on the tree says.** The turns come to an
end. From the operands in reverse, so that the first is on top, they end with all operands of the
chain in their order and as often as they occur: an operand of the connective adds what its own
operands add, every other operand adds itself. These are the largest parts, below nodes of the
connective only, that are no such nodes. -/
theorem Opening.run_reverse (c : Connective) (es : List Expr) :
    (WellFounded fun next opening : Opening => opening.turn c = some next) ∧
      Opening.run c ⟨es.reverse, []⟩ = Expr.flatten c es ∧
      Expr.flatten c es = es.flatMap (Expr.chainOperands c) ∧
      (∀ e, Expr.chainOperands c e =
        match e with
        | .logical d operands =>
          if d = c then operands.flatMap (Expr.chainOperands c) else [.logical d operands]
        | e => [e]) ∧
      ∀ f, f ∈ Expr.flatten c es ↔ ∃ e ∈ es, f.EndsChain c e := by
  refine ⟨wellFounded_turn c, ?_, Expr.flatten_eq_flatMap c es, fun e => ?_,
    fun f => Expr.mem_flatten_iff⟩
  · rw [run_eq, List.reverse_reverse, List.nil_append]
  · cases e with
    | logical d operands => rw [Expr.chainOperands, Expr.chainOperandsAll_eq_flatMap]
    | _ => rfl

/-- `NOT` ends a chain of `OR`, whatever it is of, and an operand that comes twice is kept twice. -/
example :
    let a := Expr.field "a"
    let b := Expr.negation (.either a a)
    Opening.run .or ⟨[.either a (.either b a), b].reverse, []⟩ = [a, b, a, b] := by
  cbv

end WhereRules
