import WhereRules.Proofs.Compilation.Fields

/-!
# One level of compiling, seen twice

Compiling a condition compiles what is inside it (`Expr.inside`) from left to right and hands each
field that stands there to the resolver; then there is a predicate, or something is wrong with the
condition itself (`Expr.fault?`). Two compilations of one expression, by two resolvers or in two
rooms, take the same steps. So what relates their answers step by step relates them on the whole
(`Graded.condition_succ`), and a property of one compilation is the case in which the other is not
looked at.

Relations may know which paths were named on the way, in their order: that is what they are graded
by.
-/

namespace WhereRules.Expr

/-! ## The conditions inside a condition -/

/-- The operands that are conditions. -/
def conditionsOf (operands : List Expr) : List Expr := operands.filter isCondition

/-- What is compiled inside a condition in one level less. -/
def inside : Expr → List Expr
  | literal _ | field _ => []
  | comparison _ left right => conditionsOf [left, right]
  | logical .not operands => operands
  | logical c operands => flatten c operands
  | member subject _ _ => conditionsOf [subject]
  | between subject low high => conditionsOf [subject, low, high]
  | like subject _ _ => conditionsOf [subject]
  | isNull subject _ => conditionsOf [subject]

/-- What is said of the conditions among operands is said of the operands that are conditions. -/
theorem forall_mem_conditionsOf {P : Expr → Prop} {operands : List Expr} :
    (∀ e ∈ conditionsOf operands, P e) ↔ ∀ e ∈ operands, e.isCondition = true → P e := by
  simp only [conditionsOf, List.mem_filter, and_imp]

/-- What is wrong with an expression as a condition, whatever stands inside it. -/
def fault? : Expr → Option CompileError
  | literal _ => some (.notCondition .literal)
  | field _ => some (.notCondition .field)
  | logical .not [_] => none
  | logical .not operands => some (.part (.operands (.notOne operands.length)))
  | logical .and operands =>
    if flatten .and operands = [] then some (.part (.operands (.noOperands .all))) else none
  | logical .or operands =>
    if flatten .or operands = [] then some (.part (.operands (.noOperands .any))) else none
  | like _ text _ =>
    if (Pattern.ofText? (Like.toRegex text)).isSome then none
    else some (.part (.pattern (Like.toRegex text)))
  | _ => none

/-- A chain has its opened operands inside. -/
theorem inside_chain {c : Connective} (hc : c ≠ .not) (operands : List Expr) :
    (logical c operands).inside = flatten c operands := by
  cases c with
  | and | or => rfl
  | not => exact absurd rfl hc

/-- A chain has a fault only if opening leaves it no operands. -/
theorem fault?_chain {c : Connective} (hc : c ≠ .not) {operands : List Expr} :
    (logical c operands).fault? = none ↔ flatten c operands ≠ [] := by
  cases c with
  | and | or =>
    rw [fault?]
    split
    · next hempty => exact iff_of_false (by simp) (absurd hempty)
    · next hne => exact iff_of_true rfl hne
  | not => exact absurd rfl hc

/-- Room is no matter of the condition itself, so what is wrong with a condition is wrong in any
room. -/
theorem fault?_ne_tooDeep (e : Expr) (n : Nat) : e.fault? ≠ some (.tooDeep n) := by
  intro h
  unfold fault? at h
  split at h <;> try split at h
  all_goals cases h

/-- What compiles has no fault of its own, so the faults are exactly what the rules of compiling
leave out. -/
theorem Compiles.fault?_eq_none {resolve : Resolver} {inner : Expr → Predicate → Prop} {e : Expr}
    {p : Predicate} (h : Compiles resolve inner e p) : e.fault? = none := by
  cases h with
  | @chain c operands first rest hc hps =>
    refine (fault?_chain hc).mpr fun hnil => ?_
    rw [hnil] at hps
    cases hps
  | like negated ha hpattern => rw [fault?, hpattern, Option.isSome_some, if_pos rfl]
  | comparison | negation | member | between | isNull => rfl

/-- What compiles has only conditions inside that were compiled. So nothing that is wrong with one
of them can be passed over. -/
theorem Compiles.exists_of_mem_inside {resolve : Resolver} {inner : Expr → Predicate → Prop}
    {e : Expr} {p : Predicate} (h : Compiles resolve inner e p) :
    ∀ f ∈ e.inside, ∃ q, inner f q := by
  have hoperand : ∀ {f : Expr} {o : Operand}, CompilesOperand resolve inner f o →
      f.isCondition = true → ∃ q, inner f q := by
    intro f o ho hcondition
    cases ho with
    | literal _ | field _ => cases hcondition
    | decision _ hp => exact ⟨_, hp⟩
  cases h with
  | comparison _ ha hb =>
    rw [inside, forall_mem_conditionsOf, List.forall_mem_cons, List.forall_mem_singleton]
    exact ⟨hoperand ha, hoperand hb⟩
  | @chain c operands first rest hc hps =>
    have hoperands : ∀ f ∈ flatten c operands, ∃ q, inner f q := by
      intro f hf
      obtain ⟨q, -, hq⟩ := exists_of_forall₂_mem hps.flip hf
      exact ⟨q, hq⟩
    rwa [inside_chain hc]
  | negation hp =>
    rw [Expr.negation, inside, List.forall_mem_singleton]
    exact ⟨_, hp⟩
  | between ha hb hc =>
    rw [inside, forall_mem_conditionsOf, List.forall_mem_cons, List.forall_mem_cons,
      List.forall_mem_singleton]
    exact ⟨hoperand ha, hoperand hb, hoperand hc⟩
  | member _ _ ha | like _ ha _ | isNull _ ha =>
    rw [inside, forall_mem_conditionsOf, List.forall_mem_singleton]
    exact hoperand ha

/-! ## Relations of answers -/

/-- A relation of answers that is kept from steps to computations. It may tell apart which paths
were named on the way. -/
structure Graded
    (R : ∀ {α : Type}, List String → Except CompileError α → Except CompileError α → Prop) :
    Prop where
  ok : ∀ {α : Type} (a : α), R [] (.ok a) (.ok a)
  bind : ∀ {α β : Type} {named more : List String} {x y : Except CompileError α}
    {f g : α → Except CompileError β},
    R named x y → (∀ a, R more (f a) (g a)) → R (named ++ more) (x >>= f) (y >>= g)

/-- Two resolvers answer related ways about every path. -/
def Resolves (R : ∀ {α : Type}, List String → Except CompileError α → Except CompileError α → Prop)
    (resolve resolve' : Resolver) : Prop :=
  ∀ path, R [path] ((resolve path).mapError (CompileError.unresolved path))
    ((resolve' path).mapError (CompileError.unresolved path))

section Graded

variable {R : ∀ {α : Type}, List String → Except CompileError α → Except CompileError α → Prop}
  {resolve resolve' : Resolver} {compile compile' : Expr → Except CompileError Predicate}

theorem Graded.last (h : Graded R) {α β : Type} {named : List String} {x y : Except CompileError α}
    (hxy : R named x y) (f : α → β) :
    R named (x >>= fun a => .ok (f a)) (y >>= fun a => .ok (f a)) := by
  have hbind := h.bind hxy fun a => h.ok (f a)
  rwa [List.append_nil] at hbind

/-- Turning answers into others keeps them related. -/
theorem Graded.map (h : Graded R) {α β : Type} {named : List String} {x y : Except CompileError α}
    (hxy : R named x y) (f : α → β) : R named (x.map f) (y.map f) := by
  have hmap : ∀ z : Except CompileError α, z.map f = z >>= fun a => .ok (f a) := by
    intro z
    cases z <;> rfl
  rw [hmap, hmap]
  exact h.last hxy f

/-- Expressions compiled one after the other are related if each is, and they name their paths in
this order. -/
theorem Graded.mapM (h : Graded R) {es : List Expr}
    (hes : ∀ e ∈ es, R e.paths (compile e) (compile' e)) :
    R (pathsAll es) (es.mapM compile) (es.mapM compile') := by
  induction es with
  | nil =>
    rw [List.mapM_nil, List.mapM_nil]
    exact h.ok []
  | cons e es ih =>
    obtain ⟨hfirst, hrest⟩ := List.forall_mem_cons.mp hes
    rw [List.mapM_cons, List.mapM_cons, pathsAll_cons]
    exact h.bind hfirst fun p => h.last (ih hrest) (p :: ·)

/-- An operand is compiled like a condition if it is one, and otherwise it asks the resolver or
nobody. -/
theorem Graded.operand (h : Graded R) (hresolve : Resolves R resolve resolve') {e : Expr}
    (he : e.isCondition = true → R e.paths (compile e) (compile' e)) :
    R e.paths (operand resolve compile e) (operand resolve' compile' e) := by
  cases e with
  | literal v => exact h.ok _
  | field path => exact h.map (hresolve path) Operand.field
  | _ => exact h.map (he rfl) Operand.decision

/-- Predicates of at least one operand can always be joined. So the error that joining may end with
is the fault of the chain and not of its operands. -/
theorem mapM_cons_join {c : Connective} {join : List Predicate → Except OperandError Predicate}
    (hjoin : ∀ first rest, join (first :: rest) = .ok (Predicate.chain c first rest)) (e : Expr)
    (es : List Expr) :
    ((e :: es).mapM compile >>= fun ps =>
        (join ps).mapError fun error => CompileError.part (.operands error)) =
      compile e >>= fun first => es.mapM compile >>= fun rest =>
        .ok (Predicate.chain c first rest) := by
  rw [List.mapM_cons]
  simp only [bind_assoc, pure_bind, hjoin, Except.mapError]

/-- The opened operands of a chain. Without any the chain has a fault, and the two answers are that
fault. -/
theorem Graded.chain (h : Graded R) {c : Connective} {operands : List Expr}
    (join : List Predicate → Except OperandError Predicate)
    (hjoin : ∀ first rest, join (first :: rest) = .ok (Predicate.chain c first rest))
    (hempty : flatten c operands = [] → ∀ named : List String,
      let answer : Except CompileError Predicate :=
        (join []).mapError fun error => .part (.operands error)
      R named answer answer)
    (hoperands : ∀ e ∈ flatten c operands, R e.paths (compile e) (compile' e)) :
    R (pathsAll operands)
      ((flatten c operands).mapM compile >>= fun ps =>
        (join ps).mapError fun error => CompileError.part (.operands error))
      ((flatten c operands).mapM compile' >>= fun ps =>
        (join ps).mapError fun error => CompileError.part (.operands error)) := by
  rw [← pathsAll_flatten c]
  cases hflatten : flatten c operands with
  | nil => exact hempty hflatten _
  | cons e es =>
    rw [hflatten] at hoperands
    obtain ⟨hfirst, hrest⟩ := List.forall_mem_cons.mp hoperands
    rw [mapM_cons_join hjoin, mapM_cons_join hjoin, pathsAll_cons]
    exact h.bind hfirst fun first => h.last (h.mapM hrest) (Predicate.chain c first)

/-- **Two compilations of a condition are related if those of what is inside are.** The faults that
the condition itself can have are assumed to be related too. There is one case for each kind of
expression, and nothing else in the development goes through them for what compiling answers. -/
theorem Graded.condition_succ (h : Graded R) (hresolve : Resolves R resolve resolve')
    {limit limit' room room' : Nat} {e : Expr}
    (hfault : ∀ error, e.fault? = some error → ∀ named,
      R named (.error error : Except CompileError Predicate) (.error error))
    (hinside : ∀ f ∈ e.inside, R f.paths
      (condition resolve limit room f) (condition resolve' limit' room' f)) :
    R e.paths (condition resolve limit (room + 1) e)
      (condition resolve' limit' (room' + 1) e) := by
  cases e with
  | literal _ | field _ => exact hfault _ rfl _
  | comparison sign left right =>
    rw [inside, forall_mem_conditionsOf, List.forall_mem_cons, List.forall_mem_singleton] at hinside
    obtain ⟨hleft, hright⟩ := hinside
    rw [paths_comparison]
    exact h.bind (h.operand hresolve hleft) fun a => h.last (h.operand hresolve hright) _
  | logical c operands =>
    rw [paths_logical]
    cases c with
    | and =>
      refine h.chain Predicate.allOf (fun _ _ => rfl) (fun hempty => ?_) hinside
      exact hfault _ (if_pos hempty)
    | or =>
      refine h.chain Predicate.anyOf (fun _ _ => rfl) (fun hempty => ?_) hinside
      exact hfault _ (if_pos hempty)
    | not =>
      obtain _ | ⟨e, _ | ⟨_, _⟩⟩ := operands
      · exact hfault _ rfl _
      · have halone : pathsAll [e] = e.paths := by rw [pathsAll_cons]; exact List.append_nil _
        rw [halone]
        exact h.map (hinside e List.mem_cons_self) Predicate.not
      · exact hfault _ rfl _
  | member subject values negated =>
    rw [inside, forall_mem_conditionsOf, List.forall_mem_singleton] at hinside
    rw [paths_member]
    exact h.last (h.operand hresolve hinside) _
  | between subject low high =>
    rw [inside, forall_mem_conditionsOf, List.forall_mem_cons, List.forall_mem_cons,
      List.forall_mem_singleton] at hinside
    obtain ⟨hsubject, hlow, hhigh⟩ := hinside
    rw [paths_between]
    exact h.bind (h.operand hresolve hsubject) fun a =>
      h.bind (h.operand hresolve hlow) fun b => h.last (h.operand hresolve hhigh) _
  | like subject text negated =>
    rw [inside, forall_mem_conditionsOf, List.forall_mem_singleton] at hinside
    have hsubject := h.operand hresolve hinside
    cases hpattern : Pattern.ofText? (Like.toRegex text) with
    | some pattern =>
      simp only [condition, hpattern]
      exact h.last hsubject _
    | none =>
      have hnone : (like subject text negated).fault? =
          some (.part (.pattern (Like.toRegex text))) := by
        rw [fault?, hpattern]
        rfl
      have hbind := h.bind hsubject fun _ => hfault _ hnone []
      rw [List.append_nil] at hbind
      simp only [condition, hpattern]
      exact hbind
  | isNull subject negated =>
    rw [inside, forall_mem_conditionsOf, List.forall_mem_singleton] at hinside
    exact h.last (h.operand hresolve hinside) _

end Graded

end WhereRules.Expr
