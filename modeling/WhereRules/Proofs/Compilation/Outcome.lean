import WhereRules.Proofs.Compilation.Room

/-!
# What becomes of an expression that is compiled

Nothing may be wrong with an expression and with the conditions inside it (`Expr.Faultless`). Whether
something is does not depend on resolvers, on fields or on room. Compiling a faultless expression
fails only because some path has no field or because the room is too little (`Faultless.explained`),
and then the error says so. So the expressions that compile are those that are faultless, name fields
only and have room enough (`exists_condition_iff`).
-/

namespace WhereRules.Expr

/-! ## Faultless expressions -/

/-- Nothing is wrong with the expression, and nothing with the conditions inside it. -/
inductive Faultless : Expr → Prop
  | intro {e : Expr} : e.fault? = none → (∀ f ∈ e.inside, Faultless f) → Faultless e

theorem Faultless.fault?_eq_none {e : Expr} (h : e.Faultless) : e.fault? = none := by
  cases h with
  | intro hfault _ => exact hfault

/-- What is compiled inside a faultless expression is faultless. -/
theorem Faultless.of_mem_inside {e f : Expr} (h : e.Faultless) (hf : f ∈ e.inside) :
    f.Faultless := by
  cases h with
  | intro _ hinside => exact hinside f hf

/-- Opening chains brings up only what stands inside faultless operands. -/
theorem Faultless.of_mem_flatten {c : Connective} (hc : c ≠ .not) {es : List Expr}
    (h : ∀ e ∈ es, e.Faultless) : ∀ e ∈ flatten c es, e.Faultless := by
  induction es with
  | nil =>
    intro e he
    rw [flatten] at he
    cases he
  | cons f rest ih =>
    obtain ⟨hf, hrest⟩ := List.forall_mem_cons.mp h
    cases hcont : f.continues c with
    | false =>
      rw [flatten_of_not_continues hcont]
      exact List.forall_mem_cons.mpr ⟨hf, ih hrest⟩
    | true =>
      obtain ⟨operands, rfl⟩ := eq_logical_of_continues hcont
      rw [flatten_logical_self, flatten_append]
      refine List.forall_mem_append.mpr ⟨fun e he => ?_, ih hrest⟩
      exact hf.of_mem_inside (inside_chain hc operands ▸ he)

/-- A chain that was opened has operands, since a faultless chain is opened to some. This is where
the empty connectives are kept out. -/
theorem Faultless.flatten_ne_nil {c : Connective} (hc : c ≠ .not) {e : Expr} (h : e.Faultless)
    (rest : List Expr) : flatten c (e :: rest) ≠ [] := by
  cases hcont : e.continues c with
  | false =>
    rw [flatten_of_not_continues hcont]
    exact List.cons_ne_nil _ _
  | true =>
    obtain ⟨operands, rfl⟩ := eq_logical_of_continues hcont
    rw [flatten_logical_self, flatten_append]
    exact List.append_ne_nil_of_left_ne_nil ((fault?_chain hc).mp h.fault?_eq_none) _

/-- A chain of faultless operands is faultless if it has one. -/
theorem faultless_chain {c : Connective} (hc : c ≠ .not) {e : Expr} {rest : List Expr}
    (h : ∀ f ∈ e :: rest, f.Faultless) : (logical c (e :: rest)).Faultless := by
  have hne := (h e List.mem_cons_self).flatten_ne_nil hc rest
  refine .intro ((fault?_chain hc).mpr hne) ?_
  rw [inside_chain hc]
  exact Faultless.of_mem_flatten hc h

theorem faultless_negation {e : Expr} (h : e.Faultless) : (negation e).Faultless :=
  .intro rfl (List.forall_mem_singleton.mpr h)

/-- A left-folded chain of faultless operands is faultless. This is the shape that chains have in
the trees of the grammar. -/
theorem faultless_foldl {c : Connective} (hc : c ≠ .not) {α : Type} {parts : List (α × Expr)}
    {first : Expr} (hfirst : first.Faultless) (hparts : ∀ part ∈ parts, part.2.Faultless) :
    (parts.foldl (fun left part => logical c [left, part.2]) first).Faultless := by
  induction parts generalizing first with
  | nil => exact hfirst
  | cons part parts ih =>
    obtain ⟨hpart, hparts⟩ := List.forall_mem_cons.mp hparts
    refine ih (faultless_chain hc ?_) hparts
    exact List.forall_mem_cons.mpr ⟨hfirst, List.forall_mem_singleton.mpr hpart⟩

/-! ## Answers that are explained -/

variable {resolve : Resolver}

/-- An answer when these paths were named: all of them have fields, or the error is that one of them
has none, or that the room is too little. -/
def Explained (resolve : Resolver) (limit : Nat) (named : List String) {α : Type} :
    Except CompileError α → Prop
  | .ok _ => ∀ path ∈ named, ∃ field, resolve path = .ok field
  | .error error =>
    error = .tooDeep limit ∨
      ∃ path ∈ named, ∃ cause, resolve path = .error cause ∧ error = .unresolved path cause

/-- Answers stay explained from steps to computations: of the paths named by both steps all have
fields, or the error is about one of them. -/
theorem graded_explained (resolve : Resolver) (limit : Nat) :
    Graded fun {_} named x _ => Explained resolve limit named x where
  ok _ := List.forall_mem_nil _
  bind {α β named more x y f g} hx hf := by
    cases x with
    | error error =>
      rcases hx with hdeep | ⟨path, hpath, cause, hcause, hunresolved⟩
      · exact .inl hdeep
      · exact .inr ⟨path, List.mem_append_left more hpath, cause, hcause, hunresolved⟩
    | ok a =>
      have hfa := hf a
      show Explained resolve limit (named ++ more) (f a)
      cases hanswer : f a with
      | ok b =>
        rw [hanswer] at hfa
        exact List.forall_mem_append.mpr ⟨hx, hfa⟩
      | error error =>
        rw [hanswer] at hfa
        rcases hfa with hdeep | ⟨path, hpath, cause, hcause, hunresolved⟩
        · exact .inl hdeep
        · exact .inr ⟨path, List.mem_append_right named hpath, cause, hcause, hunresolved⟩

/-- The answer of a resolver is explained by the path that it was asked about. -/
theorem resolves_explained (resolve : Resolver) (limit : Nat) :
    Resolves (fun {_} named x _ => Explained resolve limit named x) resolve resolve := by
  intro path
  cases hpath : resolve path with
  | ok field => exact List.forall_mem_singleton.mpr ⟨field, hpath⟩
  | error cause => exact .inr ⟨path, List.mem_singleton_self path, cause, hpath, rfl⟩

/-- **A faultless expression fails only for want of fields or of room**, and the error names the
path or the limit. By induction on the room. -/
theorem Faultless.explained {e : Expr} (h : e.Faultless) (resolve : Resolver) (limit room : Nat) :
    Explained resolve limit e.paths (condition resolve limit room e) := by
  induction room generalizing e with
  | zero => exact .inl rfl
  | succ room ih =>
    refine @Graded.condition_succ _ resolve resolve (graded_explained resolve limit)
      (resolves_explained resolve limit) limit limit room room e ?_ fun f hf =>
        ih (h.of_mem_inside hf)
    intro error hfault
    rw [h.fault?_eq_none] at hfault
    cases hfault

/-- What compiles is faultless, down to the last condition inside it. The induction is on the room,
for each level has the inside in one level less. -/
theorem faultless_of_condition {limit room : Nat} {e : Expr} {p : Predicate}
    (h : condition resolve limit room e = .ok p) : e.Faultless := by
  induction room generalizing e p with
  | zero => cases h
  | succ room ih =>
    have hcompiles := condition_succ_eq_ok.mp h
    refine .intro hcompiles.fault?_eq_none fun f hf => ?_
    obtain ⟨q, hq⟩ := hcompiles.exists_of_mem_inside f hf
    exact ih hq

/-- **What compiles** is faultless, names fields only, and takes no more levels than there are. None
of the three says anything of the others, so a failure is one of three kinds. -/
theorem exists_condition_iff {limit room : Nat} {e : Expr} :
    (∃ p, condition resolve limit room e = .ok p) ↔
      e.Faultless ∧ (∀ path ∈ e.paths, ∃ field, resolve path = .ok field) ∧ e.levels ≤ room := by
  constructor
  · rintro ⟨p, hp⟩
    have hfaultless := faultless_of_condition hp
    have hexplained := hfaultless.explained resolve limit room
    rw [hp] at hexplained
    exact ⟨hfaultless, hexplained, levels_le_of_condition hp⟩
  · rintro ⟨hfaultless, hfields, hlevels⟩
    have hexplained := hfaultless.explained resolve limit room
    cases hanswer : condition resolve limit room e with
    | ok p => exact ⟨p, rfl⟩
    | error error =>
      rw [hanswer] at hexplained
      rcases hexplained with rfl | ⟨path, hpath, cause, hcause, -⟩
      · exact absurd hanswer (condition_ne_tooDeep hlevels limit)
      · obtain ⟨field, hfield⟩ := hfields path hpath
        rw [hcause] at hfield
        cases hfield

/-! ## Levels and sizes -/

/-- An expression in a row has no more nodes than the row. -/
theorem size_le_sizeAll_of_mem {e : Expr} {es : List Expr} (h : e ∈ es) : e.size ≤ sizeAll es := by
  induction es with
  | nil => cases h
  | cons f es ih =>
    rw [sizeAll]
    rcases List.mem_cons.mp h with rfl | h
    · exact Nat.le_add_right _ _
    · exact Nat.le_add_left_of_le (ih h)

/-- Opening chains adds no nodes, and takes away the chain that is opened. -/
theorem sizeAll_flatten_le (c : Connective) (es : List Expr) :
    sizeAll (flatten c es) ≤ sizeAll es := by
  fun_induction flatten c es with
  | case1 => exact Nat.le_refl _
  | case2 operands rest ih =>
    rw [sizeAll_append] at ih
    rw [sizeAll, size]
    omega
  | case3 d operands rest _ ih => exact Nat.add_le_add_left ih _
  | case4 e rest _ ih => exact Nat.add_le_add_left ih _

/-- A condition among the operands has fewer nodes than what they are operands of. -/
theorem size_lt_of_mem_conditionsOf {e : Expr} {operands : List Expr}
    (h : e ∈ conditionsOf operands) : e.size < sizeAll operands + 1 :=
  Nat.lt_succ_of_le (size_le_sizeAll_of_mem (List.mem_of_mem_filter h))

/-- What is inside a condition is smaller, also where chains are opened on the way. So an expression
has levels enough if it has as many as nodes. -/
theorem size_lt_of_mem_inside {e f : Expr} (h : f ∈ e.inside) : f.size < e.size := by
  cases e with
  | literal _ | field _ => cases h
  | logical c operands =>
    have hall : f.size ≤ sizeAll operands := by
      cases c with
      | and | or => exact Nat.le_trans (size_le_sizeAll_of_mem h) (sizeAll_flatten_le _ operands)
      | not => exact size_le_sizeAll_of_mem h
    exact Nat.lt_succ_of_le hall
  | comparison _ _ _ | between _ _ _ | member _ _ _ | like _ _ _ | isNull _ _ =>
    have hlt := size_lt_of_mem_conditionsOf h
    simp only [sizeAll, size] at hlt ⊢
    omega

/-- **An expression takes no more levels than it has nodes**, since what is inside has a node less
and takes a level less. -/
theorem levels_le_size (e : Expr) : e.levels ≤ e.size := by
  generalize hn : e.size = n
  induction n using Nat.strongRecOn generalizing e with
  | ind n ih =>
    cases n with
    | zero => exact absurd hn (Nat.ne_of_gt e.size_pos)
    | succ n =>
      refine levels_le_succ.mpr fun f hf => ?_
      have hlt : f.size < n + 1 := hn ▸ size_lt_of_mem_inside hf
      exact Nat.le_trans (ih f.size hlt f rfl) (Nat.le_of_lt_succ hlt)

end WhereRules.Expr
