import WhereRules.Proofs.Compilation.Outcome

/-!
# Connectives with the wrong number of operands

A hand-made expression may hold an `AND` or an `OR` without operands, or a `NOT` over none or
several (`Expr.isMalformed`). The numbers are checked on the way, once a chain has been opened.
Opening leaves nothing of a chain that has no operands and stands in a chain of its own connective,
so such an operand is never seen.

That is all that is missed. An expression compiles as what is left of it without the operands that
opening loses (`Expr.condition_pruned`). No connective in that has a wrong number of operands if it
compiles (`Expr.Faultless.wellFormed_pruned`), and if none has, it is not refused for a number of
operands (`Expr.WellFormed.condition_ne_operands`).
-/

namespace WhereRules

namespace Expr

/-! ## Parts -/

/-- The expressions right inside an expression. -/
def children : Expr → List Expr
  | literal _ | field _ => []
  | comparison _ left right => [left, right]
  | logical _ operands => operands
  | member subject _ _ => [subject]
  | between subject low high => [subject, low, high]
  | like subject _ _ => [subject]
  | isNull subject _ => [subject]

/-- One expression is the other or stands anywhere in it. -/
inductive Within (f : Expr) : Expr → Prop
  | self : Within f f
  | child {e g : Expr} : g ∈ e.children → Within f g → Within f e

/-- What is so of all that stands in an expression is so of it and of all that stands in its
children. In this form what stands anywhere is shown by recursion on the expression. -/
theorem forall_within_iff {P : Expr → Prop} {e : Expr} :
    (∀ f : Expr, f.Within e → P f) ↔ P e ∧ ∀ g ∈ e.children, ∀ f : Expr, f.Within g → P f := by
  constructor
  · intro h
    exact ⟨h e .self, fun g hg f hf => h f (.child hg hf)⟩
  · rintro ⟨hself, hchildren⟩ f hf
    cases hf with
    | self => exact hself
    | child hg hf => exact hchildren _ hg f hf

/-- Whether a connective has a number of operands that it cannot have. -/
def isMalformed : Expr → Bool
  | logical .not operands => operands.length != 1
  | logical _ operands => operands.isEmpty
  | _ => false

/-- All connectives in an expression have as many operands as they need. -/
def WellFormed (e : Expr) : Prop := ∀ f : Expr, f.Within e → f.isMalformed = false

/-- An expression is well-formed when its own node is and all its children are. -/
theorem wellFormed_iff {e : Expr} :
    e.WellFormed ↔ e.isMalformed = false ∧ ∀ g ∈ e.children, g.WellFormed :=
  forall_within_iff

/-- A chain is malformed when it has no operands at all. -/
theorem isMalformed_chain {c : Connective} (hc : c ≠ .not) (operands : List Expr) :
    (logical c operands).isMalformed = operands.isEmpty := by
  cases c with
  | and | or => rfl
  | not => exact absurd rfl hc

/-! ## What opening chains leaves -/

/-- Whether opening a chain of a connective leaves nothing of an operand. -/
def vanishes (c : Connective) : Expr → Bool
  | logical d operands => c != .not && d == c && operands.isEmpty
  | _ => false

mutual

/-- An expression without the operands of which opening chains leaves nothing. -/
def pruned : Expr → Expr
  | literal v => literal v
  | field path => field path
  | comparison sign left right => comparison sign (pruned left) (pruned right)
  | logical c operands => logical c (prunedUnder c operands)
  | member subject values negated => member (pruned subject) values negated
  | between subject low high => between (pruned subject) (pruned low) (pruned high)
  | like subject text negated => like (pruned subject) text negated
  | isNull subject negated => isNull (pruned subject) negated

/-- The operands of a connective of which something is left. -/
def prunedUnder (c : Connective) : List Expr → List Expr
  | [] => []
  | e :: rest =>
    if (pruned e).vanishes c then prunedUnder c rest else pruned e :: prunedUnder c rest

end

section Pruned

variable {c : Connective}

/-- Pruning the operands of a connective prunes each and drops those that vanish under it, which are
chains of the connective itself that are left without operands. -/
theorem prunedUnder_eq_filter (es : List Expr) :
    prunedUnder c es = (es.map pruned).filter fun e => !e.vanishes c := by
  induction es with
  | nil => rfl
  | cons e es ih =>
    rw [prunedUnder, List.map_cons, List.filter_cons, ih]
    cases (pruned e).vanishes c with
    | true | false => rfl

/-- Operands are pruned one by one, so a row may be pruned in parts. -/
theorem prunedUnder_append (es fs : List Expr) :
    prunedUnder c (es ++ fs) = prunedUnder c es ++ prunedUnder c fs := by
  simp only [prunedUnder_eq_filter, List.map_append, List.filter_append]

/-- Only a chain without operands vanishes, in a chain of the same connective. -/
theorem eq_of_vanishes {e : Expr} (h : e.vanishes c = true) : c ≠ .not ∧ e = logical c [] := by
  cases e with
  | logical d operands =>
    rw [vanishes, Bool.and_eq_true, Bool.and_eq_true, bne_iff_ne, beq_iff_eq,
      List.isEmpty_iff] at h
    obtain ⟨⟨hc, rfl⟩, rfl⟩ := h
    exact ⟨hc, rfl⟩
  | _ => cases h

/-- `NOT` opens nothing, so none of its operands vanishes. -/
theorem prunedUnder_not (es : List Expr) : prunedUnder .not es = es.map pruned := by
  rw [prunedUnder_eq_filter, List.filter_eq_self]
  intro e _
  rw [Bool.not_eq_true', Bool.eq_false_iff]
  exact fun h => (eq_of_vanishes h).1 rfl

/-- What does not continue a chain does not vanish in it, however little is left of its own
operands. -/
theorem vanishes_of_not_continues {e : Expr} (h : e.continues c = false) :
    (pruned e).vanishes c = false := by
  cases e with
  | logical d operands =>
    rw [pruned, vanishes, show (d == c) = false from h, Bool.and_false, Bool.false_and]
  | _ => rfl

/-- Pruning goes on below a node and leaves its connective, so it continues the same chains. -/
theorem continues_pruned (e : Expr) : (pruned e).continues c = e.continues c := by
  cases e <;> rfl

/-- Pruning keeps an operand that does not continue the chain. -/
theorem prunedUnder_of_not_continues {e : Expr} (h : e.continues c = false) (rest : List Expr) :
    prunedUnder c (e :: rest) = pruned e :: prunedUnder c rest := by
  rw [prunedUnder, vanishes_of_not_continues h, if_neg Bool.false_ne_true]

/-- A chain in a chain of its connective vanishes if all its operands do. Otherwise it stays, with
what is left of them. -/
theorem prunedUnder_logical_self (hc : c ≠ .not) (operands rest : List Expr) :
    prunedUnder c (logical c operands :: rest) =
      if prunedUnder c operands = [] then prunedUnder c rest
      else logical c (prunedUnder c operands) :: prunedUnder c rest := by
  have hvanishes : (logical c (prunedUnder c operands)).vanishes c =
      (prunedUnder c operands).isEmpty := by
    rw [vanishes, bne_iff_ne.mpr hc, beq_self_eq_true, Bool.true_and, Bool.true_and]
  rw [prunedUnder, pruned, hvanishes]
  simp only [List.isEmpty_iff]

/-- **Opening loses nothing else.** The opened operands of what is left are those of the whole
chain, each pruned in itself. -/
theorem flatten_prunedUnder (hc : c ≠ .not) (es : List Expr) :
    flatten c (prunedUnder c es) = (flatten c es).map pruned := by
  induction es using flatten_induct c with
  | nil => rw [prunedUnder, flatten, List.map_nil]
  | opened operands rest ih =>
    rw [prunedUnder_append] at ih
    rw [flatten_logical_self, ← ih, prunedUnder_logical_self hc]
    split
    · next hempty => rw [hempty, List.nil_append]
    · rw [flatten_logical_self]
  | kept e rest hcontinues ih =>
    rw [prunedUnder_of_not_continues hcontinues, flatten_of_not_continues hcontinues,
      flatten_of_not_continues ((continues_pruned e).trans hcontinues), ih, List.map_cons]

end Pruned

/-! ## Compiling what is left -/

variable {resolve : Resolver} {limit room : Nat}

/-- An operand compiles as what is left of it, if conditions do: pruning makes no condition and
unmakes none. -/
theorem operand_pruned {compile : Expr → Except CompileError Predicate}
    (hcompile : ∀ e, compile e.pruned = compile e) (e : Expr) :
    operand resolve compile e.pruned = operand resolve compile e := by
  cases e with
  | literal _ | field _ => rfl
  | _ => exact congrArg (Except.map Operand.decision) (hcompile _)

/-- Conditions in a row compile as what is left of each. -/
theorem mapM_pruned {compile : Expr → Except CompileError Predicate}
    (hcompile : ∀ e, compile e.pruned = compile e) (es : List Expr) :
    (es.map pruned).mapM compile = es.mapM compile := by
  rw [List.mapM_map, show compile ∘ pruned = compile from funext hcompile]

/-- **An expression compiles as what is left of it**, to the same predicate or to the same error.
The induction is on the room, with one case for each kind of expression. -/
theorem condition_pruned (e : Expr) :
    condition resolve limit room e.pruned = condition resolve limit room e := by
  induction room generalizing e with
  | zero => rfl
  | succ room ih =>
    cases e with
    | literal _ | field _ => rfl
    | comparison _ _ _ | between _ _ _ | member _ _ _ | like _ _ _ | isNull _ _ =>
      simp only [pruned, condition, operand_pruned ih]
    | logical c operands =>
      cases c with
      | and | or =>
        simp only [pruned, condition]
        rw [flatten_prunedUnder (by decide), mapM_pruned ih]
      | not =>
        rw [pruned, prunedUnder_not]
        obtain _ | ⟨e, _ | ⟨f, rest⟩⟩ := operands
        · rfl
        · exact congrArg (Except.map Predicate.not) (ih e)
        · simp only [List.map_cons, condition, List.length_cons, List.length_map]

/-! ## Connectives that are refused -/

/-- What opens to well-formed operands is well-formed once the others are left out. The others are
the empty chains, which opening makes nothing of. -/
theorem wellFormed_prunedUnder {c : Connective} (hc : c ≠ .not) {es : List Expr}
    (h : ∀ e ∈ flatten c es, e.pruned.WellFormed) : ∀ e ∈ prunedUnder c es, e.WellFormed := by
  induction es using flatten_induct c with
  | nil => exact List.forall_mem_nil _
  | opened operands rest ih =>
    rw [flatten_logical_self] at h
    have hall := ih h
    rw [prunedUnder_append, List.forall_mem_append] at hall
    rw [prunedUnder_logical_self hc]
    split
    · exact hall.2
    · next hne =>
      refine List.forall_mem_cons.mpr ⟨wellFormed_iff.mpr ⟨?_, hall.1⟩, hall.2⟩
      rw [isMalformed_chain hc]
      exact List.isEmpty_eq_false_iff.mpr hne
  | kept e rest hcontinues ih =>
    rw [flatten_of_not_continues hcontinues] at h
    obtain ⟨hfirst, hrest⟩ := List.forall_mem_cons.mp h
    rw [prunedUnder_of_not_continues hcontinues]
    exact List.forall_mem_cons.mpr ⟨hfirst, ih hrest⟩

/-- Operands are well-formed if those that are conditions are. -/
theorem wellFormed_operands {operands : List Expr}
    (h : ∀ e ∈ conditionsOf operands, e.pruned.WellFormed) :
    ∀ e ∈ operands.map pruned, e.WellFormed := by
  rw [forall_mem_conditionsOf] at h
  refine List.forall_mem_map.mpr fun e he => ?_
  cases e with
  | literal _ | field _ => exact wellFormed_iff.mpr ⟨rfl, List.forall_mem_nil _⟩
  | _ => exact h _ he rfl

/-- **What compiles has no malformed connective left.** A faultless chain opens to some operands, so
something is left of it, and what is left was compiled and is faultless too. -/
theorem Faultless.wellFormed_pruned {e : Expr} (h : e.Faultless) : e.pruned.WellFormed := by
  induction h with
  | @intro e hfault _ ih =>
    rw [wellFormed_iff]
    cases e with
    | literal _ | field _ => cases hfault
    | comparison _ _ _ | between _ _ _ | member _ _ _ | like _ _ _ | isNull _ _ =>
      exact ⟨rfl, wellFormed_operands ih⟩
    | logical c operands =>
      by_cases hc : c = .not
      · subst hc
        rw [pruned, prunedUnder_not]
        obtain _ | ⟨e, _ | ⟨f, rest⟩⟩ := operands
        · cases hfault
        · exact ⟨rfl, List.forall_mem_singleton.mpr (ih e List.mem_cons_self)⟩
        · cases hfault
      · rw [inside_chain hc] at ih
        refine ⟨?_, wellFormed_prunedUnder hc ih⟩
        rw [pruned, isMalformed_chain hc, List.isEmpty_eq_false_iff]
        intro hempty
        have hflatten := flatten_prunedUnder hc operands
        rw [hempty, flatten] at hflatten
        exact (fault?_chain hc).mp hfault (List.map_eq_nil_iff.mp hflatten.symm)

/-! ## Connectives that are not refused -/

/-- Opening brings up only what stands in the operands, so it is well-formed if they are. -/
theorem WellFormed.of_mem_flatten {c : Connective} {es : List Expr} (h : ∀ e ∈ es, e.WellFormed) :
    ∀ e ∈ flatten c es, e.WellFormed := by
  induction es using flatten_induct c with
  | nil =>
    rw [flatten]
    exact List.forall_mem_nil _
  | opened operands rest ih =>
    obtain ⟨hfirst, hrest⟩ := List.forall_mem_cons.mp h
    rw [flatten_logical_self]
    exact ih (List.forall_mem_append.mpr ⟨(wellFormed_iff.mp hfirst).2, hrest⟩)
  | kept e rest hcontinues ih =>
    obtain ⟨hfirst, hrest⟩ := List.forall_mem_cons.mp h
    rw [flatten_of_not_continues hcontinues]
    exact List.forall_mem_cons.mpr ⟨hfirst, ih hrest⟩

/-- Opening well-formed operands leaves some: a chain among them has operands in turn, down to one
that is no chain. -/
theorem WellFormed.flatten_ne_nil {c : Connective} (hc : c ≠ .not) {es : List Expr}
    (h : ∀ e ∈ es, e.WellFormed) (hne : es ≠ []) : flatten c es ≠ [] := by
  induction es using flatten_induct c with
  | nil => exact absurd rfl hne
  | opened operands rest ih =>
    obtain ⟨hfirst, hrest⟩ := List.forall_mem_cons.mp h
    obtain ⟨hnumber, hoperands⟩ := wellFormed_iff.mp hfirst
    rw [isMalformed_chain hc, List.isEmpty_eq_false_iff] at hnumber
    rw [flatten_logical_self]
    exact ih (List.forall_mem_append.mpr ⟨hoperands, hrest⟩)
      (List.append_ne_nil_of_left_ne_nil hnumber rest)
  | kept e rest hcontinues _ =>
    rw [flatten_of_not_continues hcontinues]
    exact List.cons_ne_nil _ _

/-- All that is compiled inside a well-formed condition is well-formed, also where it comes out of a
chain that was opened. -/
theorem WellFormed.of_mem_inside {e f : Expr} (h : e.WellFormed) (hf : f ∈ e.inside) :
    f.WellFormed := by
  have hchildren := (wellFormed_iff.mp h).2
  cases e with
  | literal _ | field _ => cases hf
  | logical c operands =>
    cases c with
    | and | or => exact WellFormed.of_mem_flatten hchildren f hf
    | not => exact hchildren f hf
  | comparison _ _ _ | between _ _ _ | member _ _ _ | like _ _ _ | isNull _ _ =>
    exact hchildren f (List.mem_of_mem_filter hf)

/-- A well-formed expression has no fault for the number of its operands. Every other fault is left
to it. -/
theorem WellFormed.fault?_ne_operands {e : Expr} (h : e.WellFormed) (error : OperandError) :
    e.fault? ≠ some (.part (.operands error)) := by
  obtain ⟨hnumber, hchildren⟩ := wellFormed_iff.mp h
  cases e with
  | logical c operands =>
    by_cases hc : c = .not
    · subst hc
      obtain _ | ⟨e, _ | ⟨f, rest⟩⟩ := operands
      · cases hnumber
      · simp [fault?]
      · cases hnumber
    · rw [isMalformed_chain hc, List.isEmpty_eq_false_iff] at hnumber
      have hne : flatten c operands ≠ [] := WellFormed.flatten_ne_nil hc hchildren hnumber
      rw [(fault?_chain hc).mpr hne]
      simp
  | like _ text _ =>
    rw [fault?]
    split <;> simp
  | _ => simp [fault?]

/-- Not to be refused for a number of operands, as a relation. -/
theorem graded_ne_operands :
    Graded fun {_} _ x _ => ∀ error, x ≠ .error (.part (.operands error)) where
  ok a error h := by cases h
  bind {_ _ _ _ x _ _ _} hx hf error h := by
    rcases bind_eq_error.mp h with h | ⟨a, -, h⟩
    · exact hx error h
    · exact hf a error h

/-- **A well-formed expression is not refused for a number of operands.** It may be refused for
other reasons, at any depth. -/
theorem WellFormed.condition_ne_operands {e : Expr} (h : e.WellFormed) (error : OperandError) :
    condition resolve limit room e ≠ .error (.part (.operands error)) := by
  induction room generalizing e error with
  | zero =>
    intro heq
    cases heq
  | succ room ih =>
    refine @Graded.condition_succ _ resolve resolve graded_ne_operands ?_ limit limit room room e ?_
      (fun f hf error => ih (h.of_mem_inside hf) error) error
    · intro path error heq
      cases hpath : resolve path with
      | error cause | ok named =>
        rw [hpath] at heq
        cases heq
    · intro cause hfault named error heq
      cases heq
      exact h.fault?_ne_operands error hfault

/-! ## What is left out -/

/-- A child is left, unless opening leaves nothing of it. So pruning removes chains without operands
and nothing else. -/
theorem pruned_mem_children {e g : Expr} (hg : g ∈ e.children) :
    g.pruned ∈ e.pruned.children ∨
      ∃ c operands, c ≠ .not ∧ e = logical c operands ∧ g.pruned = logical c [] := by
  have hmap : g.pruned ∈ e.children.map pruned := List.mem_map_of_mem hg
  cases e with
  | logical c operands =>
    cases hvanishes : g.pruned.vanishes c with
    | false =>
      refine .inl ?_
      rw [pruned, children, prunedUnder_eq_filter, List.mem_filter, hvanishes]
      exact ⟨hmap, rfl⟩
    | true =>
      obtain ⟨hc, hempty⟩ := eq_of_vanishes hvanishes
      exact .inr ⟨c, operands, hc, rfl, hempty⟩
  | _ => exact .inl hmap

/-- An operand that stands in an expression and of which nothing is left there. -/
def LostIn (f e : Expr) : Prop :=
  ∃ c operands, c ≠ .not ∧ (logical c operands).Within e ∧ f ∈ operands ∧ f.pruned = logical c []

/-- What stands in an expression stands, pruned, in what is left of it, or it was left out. The
induction goes from the part outwards, one node at a time. -/
theorem Within.pruned {e f : Expr} (h : f.Within e) :
    f = e ∨ (∃ g ∈ e.pruned.children, f.pruned.Within g) ∨ f.LostIn e := by
  induction h with
  | self => exact .inl rfl
  | @child e g hg _ ih =>
    right
    rcases ih with rfl | ⟨k, hk, hwithin⟩ | ⟨c, operands, hc, hparent, hlost⟩
    · rcases pruned_mem_children hg with hkept | ⟨c, operands, hc, rfl, hempty⟩
      · exact .inl ⟨f.pruned, hkept, .self⟩
      · exact .inr ⟨c, operands, hc, .self, hg, hempty⟩
    · rcases pruned_mem_children hg with hkept | ⟨c, operands, hc, rfl, hempty⟩
      · exact .inl ⟨g.pruned, hkept, .child hk hwithin⟩
      · -- a child of which nothing is left has nothing in it either
        rw [hempty] at hk
        cases hk
    · exact .inr ⟨c, operands, hc, .child hg hparent, hlost⟩

/-- A malformed connective stays malformed: pruning may take operands from a chain and never gives
it any. -/
theorem isMalformed_pruned {f : Expr} (h : f.isMalformed = true) : f.pruned.isMalformed = true := by
  cases f with
  | logical c operands =>
    by_cases hc : c = .not
    · subst hc
      rw [pruned, prunedUnder_not, isMalformed, List.length_map]
      exact h
    · rw [isMalformed_chain hc, List.isEmpty_iff] at h
      rw [h, pruned, isMalformed_chain hc]
      rfl
  | _ => cases h

/-- A malformed connective of which nothing is left has no operands and stands in its own
connective. -/
theorem eq_of_isMalformed_of_pruned {c : Connective} (hc : c ≠ .not) {f : Expr}
    (h : f.isMalformed = true) (hpruned : f.pruned = logical c []) : f = logical c [] := by
  cases f with
  | logical d operands =>
    rw [pruned] at hpruned
    injection hpruned with hconnective
    subst hconnective
    rw [isMalformed_chain hc, List.isEmpty_iff] at h
    rw [h]
  | _ => cases h

end Expr

/-! ## Malformed connectives -/

/-- **A malformed connective is refused wherever it stands**, unless it has no operands and stands
in its own connective: such an operand is left out. What is left compiles alike, is refused if a
connective in it is malformed, and otherwise is not refused for a number of operands. -/
theorem Predicate.ofExpr_malformed (resolve : Resolver) (limit : Nat) (e : Expr) :
    (∀ f : Expr, f.Within e → f.isMalformed = true →
      (∃ error, ofExpr resolve limit e = .error error) ∨
        ∃ c operands, c ≠ .not ∧ (Expr.logical c operands).Within e ∧ f ∈ operands ∧
          f = .logical c []) ∧
    ofExpr resolve limit e.pruned = ofExpr resolve limit e ∧
    (¬e.pruned.WellFormed → ∃ error, ofExpr resolve limit e = .error error) ∧
    (e.pruned.WellFormed → ∀ error, ofExpr resolve limit e ≠ .error (.part (.operands error))) := by
  have hpruned : ofExpr resolve limit e.pruned = ofExpr resolve limit e := Expr.condition_pruned e
  have hrefused : ¬e.pruned.WellFormed → ∃ error, ofExpr resolve limit e = .error error := by
    intro hmalformed
    cases hanswer : ofExpr resolve limit e with
    | ok p => exact absurd (Expr.faultless_of_condition hanswer).wellFormed_pruned hmalformed
    | error error => exact ⟨error, rfl⟩
  refine ⟨fun f hwithin hf => ?_, hpruned, hrefused, fun hformed error => ?_⟩
  · have hleft : f.pruned.Within e.pruned → ∃ error, ofExpr resolve limit e = .error error := by
      refine fun hkept => hrefused fun hformed => ?_
      have hnot := hformed f.pruned hkept
      rw [Expr.isMalformed_pruned hf] at hnot
      cases hnot
    rcases hwithin.pruned with rfl | ⟨g, hg, hkept⟩ | ⟨c, operands, hc, hparent, hmem, hempty⟩
    · exact .inl (hleft .self)
    · exact .inl (hleft (.child hg hkept))
    · exact .inr ⟨c, operands, hc, hparent, hmem, Expr.eq_of_isMalformed_of_pruned hc hf hempty⟩
  · rw [← hpruned]
    exact hformed.condition_ne_operands error

/-- `a = 1` in a disjunction, with an `OR` without operands in front of it. -/
def Expr.hollowChain : Expr :=
  logical .or [logical .or [], comparison .equal (field "a") (literal (.int 1))]

/-- The disjunction compiles: opening it never looks at the `OR` without operands. -/
theorem Predicate.ofExpr_hollowChain : ofExpr FieldPolicy.any.resolve 2 Expr.hollowChain =
    .ok (.any (.comparison .equal (.field ⟨"a", by decide⟩) (.constant (.int 1))) []) := by
  simp only [ofExpr, Expr.hollowChain, Expr.condition, Expr.flatten, if_true, List.nil_append,
    List.mapM_cons, List.mapM_nil]
  rfl

/-- What is left of the disjunction is well-formed, so where it is refused that is not for a number
of operands. With a `NOT` without operands in the place of the comparison it is always refused. -/
theorem Predicate.ofExpr_malformed_hollowChain :
    (∀ limit error, ofExpr FieldPolicy.any.resolve limit Expr.hollowChain ≠
      .error (.part (.operands error))) ∧
    ∀ limit, ∃ error, ofExpr FieldPolicy.any.resolve limit
      (.logical .or [.logical .or [], .logical .not []]) = .error error := by
  have hwellFormed : Expr.hollowChain.pruned.WellFormed :=
    (Expr.faultless_of_condition ofExpr_hollowChain).wellFormed_pruned
  refine ⟨fun limit => ?_, fun limit => ?_⟩
  · exact (ofExpr_malformed FieldPolicy.any.resolve limit Expr.hollowChain).2.2.2 hwellFormed
  · have hwithin :
        (Expr.logical .not []).Within (.logical .or [.logical .or [], .logical .not []]) :=
      .child (List.mem_cons_of_mem _ List.mem_cons_self) .self
    refine ((ofExpr_malformed FieldPolicy.any.resolve limit _).1 _ hwithin rfl).resolve_right ?_
    rintro ⟨c, operands, hc, -, -, hnot⟩
    injection hnot with hconnective
    exact hc hconnective.symm

/-- The `OR` without operands has disappeared from the predicate of the disjunction. -/
theorem Predicate.not_ofExpr_malformed_hollowChain :
    ¬∀ (resolve : Resolver) (limit : Nat) (e f : Expr), f.Within e → f.isMalformed = true →
      ∃ error, ofExpr resolve limit e = .error error := by
  intro h
  have hwithin : (Expr.logical .or []).Within Expr.hollowChain := .child List.mem_cons_self .self
  obtain ⟨error, herror⟩ := h FieldPolicy.any.resolve 2 Expr.hollowChain _ hwithin rfl
  rw [ofExpr_hollowChain] at herror
  cases herror

end WhereRules
