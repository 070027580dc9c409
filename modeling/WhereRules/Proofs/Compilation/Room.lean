import WhereRules.Proofs.Compilation.Inside

/-!
# The room that compiling takes

Every condition takes a level, and what is inside it is compiled in one level less. How many levels
an expression takes is read off the expression (`Expr.levels`): a chain takes one however it is
nested, and a literal or a field in the place of an operand takes none.

With that many levels, or more, compiling never stops for want of room (`condition_ne_tooDeep`), and
with fewer it does not succeed (`levels_le_of_condition`). In between nothing changes: where
compiling does not stop for want of room, it answers the same in all larger rooms
(`condition_mono`).
-/

namespace WhereRules.Expr

/-! ## Levels -/

/-- Of the levels of an expression those that it takes as an operand of a condition. -/
def asOperand (e : Expr) (levels : Nat) : Nat := if e.isCondition then levels else 0

/-- Of the levels of an expression those that it takes as an operand of a connective: the operands
of a chain inside a chain take the place of the chain. -/
def underConnective (c : Connective) (e : Expr) (levels : Nat) : Nat :=
  if c ≠ .not ∧ e.continues c = true then levels - 1 else levels

mutual

/-- How many levels compiling an expression as a condition takes. -/
def levels : Expr → Nat
  | literal _ | field _ => 1
  | comparison _ left right => max (left.asOperand left.levels) (right.asOperand right.levels) + 1
  | logical c operands => levelsEach c operands + 1
  | member subject _ _ => subject.asOperand subject.levels + 1
  | between subject low high =>
    max (subject.asOperand subject.levels)
      (max (low.asOperand low.levels) (high.asOperand high.levels)) + 1
  | like subject _ _ => subject.asOperand subject.levels + 1
  | isNull subject _ => subject.asOperand subject.levels + 1

/-- The levels of the deepest operand of a connective. -/
def levelsEach (c : Connective) : List Expr → Nat
  | [] => 0
  | e :: rest => max (underConnective c e e.levels) (levelsEach c rest)

end

/-- Any expression takes a level, and so nothing compiles in no room at all. -/
theorem levels_pos (e : Expr) : 0 < e.levels := by
  cases e <;> exact Nat.succ_pos _

/-- Under a connective no expression takes more levels than by itself. -/
theorem underConnective_le (c : Connective) (e : Expr) (n : Nat) : underConnective c e n ≤ n := by
  rw [underConnective]
  split
  · exact Nat.sub_le n 1
  · exact Nat.le_refl n

/-- What does not continue the chain takes all its levels there. -/
theorem underConnective_of_not_continues {c : Connective} {e : Expr} (h : e.continues c = false)
    (n : Nat) : underConnective c e n = n := by
  rw [underConnective, h, if_neg fun hc => Bool.false_ne_true hc.2]

/-- What continues a chain takes the levels of its operands there. -/
theorem underConnective_logical {c : Connective} (hc : c ≠ .not) (operands : List Expr) :
    underConnective c (logical c operands) (logical c operands).levels = levelsEach c operands := by
  have hcontinues : (logical c operands).continues c = true := beq_self_eq_true c
  rw [underConnective, if_pos ⟨hc, hcontinues⟩, levels, Nat.add_sub_cancel]

/-- Operands in a row take no more than some levels when each part of the row takes no more. -/
theorem levelsEach_append_le {c : Connective} {n : Nat} {es fs : List Expr} :
    levelsEach c (es ++ fs) ≤ n ↔ levelsEach c es ≤ n ∧ levelsEach c fs ≤ n := by
  induction es with
  | nil => simp only [List.nil_append, levelsEach, Nat.zero_le, true_and]
  | cons e es ih => rw [List.cons_append, levelsEach, levelsEach, Nat.max_le, Nat.max_le, ih,
      and_assoc]

/-- The operands of a chain take the levels of its opened operands. So levels do not depend on how a
chain is nested, although trees do. -/
theorem levelsEach_le {c : Connective} (hc : c ≠ .not) {n : Nat} {es : List Expr} :
    levelsEach c es ≤ n ↔ ∀ e ∈ flatten c es, e.levels ≤ n := by
  induction es using flatten_induct c with
  | nil =>
    rw [flatten]
    exact iff_of_true (Nat.zero_le n) (List.forall_mem_nil _)
  | opened operands rest ih =>
    rw [levelsEach, Nat.max_le, underConnective_logical hc, ← levelsEach_append_le, ih,
      flatten_logical_self]
  | kept e rest hcontinues ih =>
    rw [levelsEach, Nat.max_le, underConnective_of_not_continues hcontinues, ih,
      flatten_of_not_continues hcontinues, List.forall_mem_cons]

/-! ## One level -/

/-- As an operand only a condition takes levels. -/
theorem asOperand_le {n : Nat} {e : Expr} :
    e.asOperand e.levels ≤ n ↔ (e.isCondition = true → e.levels ≤ n) := by
  rw [asOperand]
  split
  · next h => rw [imp_iff_right h]
  · next h => exact iff_of_true (Nat.zero_le n) fun hcondition => absurd hcondition h

/-- Under `NOT` no chain is opened. -/
theorem levelsEach_not_le {n : Nat} {es : List Expr} :
    levelsEach .not es ≤ n ↔ ∀ e ∈ es, e.levels ≤ n := by
  induction es with
  | nil => simp only [levelsEach, Nat.zero_le, List.not_mem_nil, false_imp_iff, implies_true]
  | cons e es ih =>
    rw [levelsEach, Nat.max_le, ih, List.forall_mem_cons, underConnective,
      if_neg fun hc => hc.1 rfl]

/-- **A condition takes one level more than the deepest condition inside it.** In this form the
levels of an expression meet the room that compiling leaves for what is inside. -/
theorem levels_le_succ {n : Nat} {e : Expr} :
    e.levels ≤ n + 1 ↔ ∀ f ∈ e.inside, f.levels ≤ n := by
  cases e with
  | literal _ | field _ =>
    simp only [levels, inside, List.not_mem_nil, false_imp_iff, implies_true, iff_true]
    exact Nat.le_add_left 1 n
  | logical c operands =>
    rw [levels, Nat.add_le_add_iff_right]
    cases c with
    | and | or => exact levelsEach_le (by decide)
    | not => exact levelsEach_not_le
  | comparison _ left right =>
    rw [levels, inside, Nat.add_le_add_iff_right, Nat.max_le, asOperand_le, asOperand_le,
      forall_mem_conditionsOf, List.forall_mem_cons, List.forall_mem_singleton]
  | between subject low high =>
    rw [levels, inside, Nat.add_le_add_iff_right, Nat.max_le, Nat.max_le, asOperand_le,
      asOperand_le, asOperand_le, forall_mem_conditionsOf, List.forall_mem_cons,
      List.forall_mem_cons, List.forall_mem_singleton]
  | member subject _ _ | like subject _ _ | isNull subject _ =>
    rw [levels, inside, Nat.add_le_add_iff_right, asOperand_le, forall_mem_conditionsOf,
      List.forall_mem_singleton]

/-! ## One level of compiling, in two rooms -/

/-- A relation of answers that is kept from steps to computations. It is asked of an answer and
itself only where that is no want of room. -/
structure Stepwise (R : ∀ {α : Type}, Except CompileError α → Except CompileError α → Prop) :
    Prop where
  leaf : ∀ {α : Type} {x : Except CompileError α}, (∀ n, x ≠ .error (.tooDeep n)) → R x x
  bind : ∀ {α β : Type} {x y : Except CompileError α} {f g : α → Except CompileError β},
    R x y → (∀ a, R (f a) (g a)) → R (x >>= f) (y >>= g)

/-- Such a relation takes no notice of the paths, and errors of a condition or a resolver are no
want of room. -/
theorem Stepwise.graded {R : ∀ {α : Type}, Except CompileError α → Except CompileError α → Prop}
    (h : Stepwise R) : Graded fun {_} _ x y => R x y where
  ok a := h.leaf fun n heq => by cases heq
  bind hxy hfg := h.bind hxy hfg

/-- **One level of compiling is related if what is inside is.** Nothing is asked of the resolver,
since it knows nothing of rooms. -/
theorem Stepwise.condition_succ
    {R : ∀ {α : Type}, Except CompileError α → Except CompileError α → Prop} (h : Stepwise R)
    {resolve : Resolver} {limit limit' room room' : Nat} {e : Expr}
    (hinside : ∀ f ∈ e.inside,
      R (condition resolve limit room f) (condition resolve limit' room' f)) :
    R (condition resolve limit (room + 1) e) (condition resolve limit' (room' + 1) e) := by
  refine h.graded.condition_succ ?_ ?_ hinside
  · intro path
    apply h.leaf
    intro n
    cases resolve path with
    | error cause | ok named => nofun
  · intro error hfault named
    apply h.leaf
    intro n heq
    cases heq
    exact fault?_ne_tooDeep e n hfault

/-! ## Enough room and too little -/

variable {resolve : Resolver}

/-- Not to stop for want of room, as a relation. It says nothing of its second answer. -/
theorem stepwise_ne_tooDeep :
    Stepwise fun {_} x _ => ∀ n, x ≠ .error (.tooDeep n) where
  leaf h := h
  bind {_ _ x _ _ _} hx hf n heq := by
    cases x with
    | error error => exact hx n (congrArg Except.error (Except.error.inj heq))
    | ok a => exact hf a n heq

/-- **In as many levels as it takes, an expression never wants for room.** By induction on the room:
what is inside takes a level less. -/
theorem condition_ne_tooDeep {limit room : Nat} {e : Expr} (h : e.levels ≤ room) (n : Nat) :
    condition resolve limit room e ≠ .error (.tooDeep n) := by
  induction room generalizing e n with
  | zero => exact absurd e.levels_pos (Nat.not_lt_of_le h)
  | succ room ih =>
    have hinside : ∀ f ∈ e.inside, ∀ n, condition resolve limit room f ≠ .error (.tooDeep n) :=
      fun f hf => ih (levels_le_succ.mp h f hf)
    exact @Stepwise.condition_succ _ stepwise_ne_tooDeep resolve limit limit room room e hinside n

/-- To stop for want of room, or to answer alike. -/
def DeepOrSame (limit : Nat) {α : Type} (x y : Except CompileError α) : Prop :=
  x = .error (.tooDeep limit) ∨ x = y

/-- To stop for want of room or to answer alike is kept from steps to computations: what stops early
has the same answer. -/
theorem stepwise_deepOrSame (limit : Nat) : Stepwise (DeepOrSame limit) where
  leaf _ := .inr rfl
  bind {_ _ x y _ _} hxy hfg := by
    rcases hxy with rfl | rfl
    · exact .inl rfl
    · cases x with
      | error _ => exact .inr rfl
      | ok a => exact hfg a

/-- **More room changes no answer** but that there is too little of it. The limits that the two
errors would name may be different. -/
theorem condition_mono {limit room limit' room' : Nat} (hroom : room ≤ room') (e : Expr) :
    condition resolve limit room e = .error (.tooDeep limit) ∨
      condition resolve limit room e = condition resolve limit' room' e := by
  induction room generalizing room' e with
  | zero => exact .inl rfl
  | succ room ih =>
    obtain _ | room' := room'
    · exact absurd hroom (Nat.not_succ_le_zero room)
    · exact (stepwise_deepOrSame limit).condition_succ fun f _ =>
        ih (Nat.le_of_succ_le_succ hroom) f

/-- **What compiles takes no more levels than there are.** With the converse for faultless
expressions, levels are exactly the room that is needed. -/
theorem levels_le_of_condition {limit room : Nat} {e : Expr} {p : Predicate}
    (h : condition resolve limit room e = .ok p) : e.levels ≤ room := by
  induction room generalizing e p with
  | zero => cases h
  | succ room ih =>
    refine levels_le_succ.mpr fun f hf => ?_
    obtain ⟨q, hq⟩ := (condition_succ_eq_ok.mp h).exists_of_mem_inside f hf
    exact ih hq

/-- What compiles in some room stops in all others for want of room, if it takes more. No other
error can come first, since there is none. -/
theorem condition_eq_tooDeep {limit room limit' room' : Nat} {e : Expr} {p : Predicate}
    (hok : condition resolve limit' room' e = .ok p) (h : room < e.levels) :
    condition resolve limit room e = .error (.tooDeep limit) := by
  have hroom : room ≤ room' := Nat.le_of_lt (Nat.lt_of_lt_of_le h (levels_le_of_condition hok))
  have hmono : condition resolve limit room e = .error (.tooDeep limit) ∨
      condition resolve limit room e = condition resolve limit' room' e := condition_mono hroom e
  rcases hmono with hdeep | hsame
  · exact hdeep
  · exact absurd (levels_le_of_condition (hsame.trans hok)) (Nat.not_le_of_lt h)

end WhereRules.Expr
