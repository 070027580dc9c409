import WhereRules.Proofs.Writing.Depth
import WhereRules.Proofs.Writing.Refusals

/-!
# The room that writing takes

Writing a predicate writes what is inside it (`Predicate.inside`) in one level less, so two writings
of one predicate in two rooms take the same steps, and what relates their answers step by step
relates them on the whole (`Predicate.Stepwise.written_succ`).

In as much room as a predicate is deep, or more, writing never stops for want of room
(`Expr.written_ne_tooDeep`); where it does not stop for that, its answer, a text or an error, is the
same in all larger rooms (`Expr.written_mono`). Compiling makes no predicate that is deeper than its
limit, though a negated null test is two predicates for one condition: the two are written as one.
-/

namespace WhereRules

/-! ## The predicates inside a predicate -/

def Operand.inside : Operand → List Predicate
  | .decision p => [p]
  | .constant _ | .field _ | .pattern _ => []

namespace Predicate

/-- What is written inside a predicate in one level less. A negated null test is one condition. -/
def inside : Predicate → List Predicate
  | comparison _ left right => left.inside ++ right.inside
  | member _ subject _ => subject.inside
  | between subject low high => subject.inside ++ (low.inside ++ high.inside)
  | matching _ subject _ => subject.inside
  | all first rest => first :: rest
  | any first rest => first :: rest
  | not (comparison .equal subject (.constant .null)) => subject.inside
  | not p => [p]

/-- What is inside a negation is what it negates, unless that is a null test, with which it is one
condition. -/
theorem inside_not {p : Predicate} (h : p.isNullTest = false) : (not p).inside = [p] := by
  rw [inside]
  rintro subject rfl
  cases h

/-- An operand is as deep as what is inside it. -/
theorem depth_operand_le {n : Nat} {o : Operand} : o.depth ≤ n ↔ ∀ p ∈ o.inside, p.depth ≤ n := by
  cases o with
  | decision p => rw [Operand.depth, Operand.inside, List.forall_mem_singleton]
  | _ => exact iff_of_true (Nat.zero_le n) (List.forall_mem_nil _)

/-- **A predicate is one level deeper than the deepest predicate inside it.** What is inside and
what is deep are defined apart, and this is where they agree. -/
theorem depth_le_succ {n : Nat} {p : Predicate} :
    p.depth ≤ n + 1 ↔ ∀ q ∈ p.inside, q.depth ≤ n := by
  cases p with
  | comparison _ left right =>
    rw [depth, inside, Nat.add_le_add_iff_right, Nat.max_le, List.forall_mem_append,
      depth_operand_le, depth_operand_le]
  | between subject low high =>
    rw [depth, inside, Nat.add_le_add_iff_right, Nat.max_le, Nat.max_le, List.forall_mem_append,
      List.forall_mem_append, depth_operand_le, depth_operand_le, depth_operand_le]
  | member _ subject _ | matching _ subject _ =>
    rw [depth, inside, Nat.add_le_add_iff_right, depth_operand_le]
  | all first rest | any first rest =>
    rw [depth, inside, Nat.add_le_add_iff_right, Nat.max_le, depthEach_le, List.forall_mem_cons]
  | not p =>
    cases hnull : p.isNullTest with
    | false =>
      rw [depth, hnull, if_neg Bool.false_ne_true, inside_not hnull, Nat.add_le_add_iff_right,
        List.forall_mem_singleton]
    | true =>
      obtain ⟨subject, rfl⟩ := exists_of_isNullTest hnull
      rw [depth, hnull, if_pos rfl, depth, inside, Nat.add_le_add_iff_right, Nat.max_le,
        depth_operand_le]
      exact and_iff_left (Nat.zero_le n)

/-! ## One level of writing, in two rooms -/

/-- A relation of answers that is kept from steps to computations. It is asked of an answer and
itself only where that is no want of room. -/
structure Stepwise (R : ∀ {α : Type}, Except WriteError α → Except WriteError α → Prop) :
    Prop where
  leaf : ∀ {α : Type} {x : Except WriteError α}, (∀ n, x ≠ .error (.tooDeep n)) → R x x
  bind : ∀ {α β : Type} {x y : Except WriteError α} {f g : α → Except WriteError β},
    R x y → (∀ a, R (f a) (g a)) → R (x >>= f) (y >>= g)

section Stepwise

variable {R : ∀ {α : Type}, Except WriteError α → Except WriteError α → Prop}
  {write write' : Predicate → Except WriteError Expr}

theorem Stepwise.last (h : Stepwise R) {α β : Type} {x y : Except WriteError α} (hxy : R x y)
    (f : α → β) : R (x >>= fun a => .ok (f a)) (y >>= fun a => .ok (f a)) :=
  h.bind hxy fun a => h.leaf fun n heq => by cases heq

/-- Steps made for each of some things are related if they are for each. -/
theorem Stepwise.mapM (h : Stepwise R) {α β : Type} {f g : α → Except WriteError β} {as : List α}
    (has : ∀ a ∈ as, R (f a) (g a)) : R (as.mapM f) (as.mapM g) := by
  induction as with
  | nil => exact h.leaf fun n heq => by cases heq
  | cons a as ih =>
    obtain ⟨ha, has⟩ := List.forall_mem_cons.mp has
    rw [List.mapM_cons, List.mapM_cons]
    exact h.bind ha fun b => h.last (ih has) _

/-- A literal never wants for room. -/
theorem writableValue_ne_tooDeep (v : Value) (n : Nat) :
    Expr.writableValue v ≠ .error (.tooDeep n) := by
  intro h
  unfold Expr.writableValue at h
  split at h <;> try split at h
  all_goals cases h

/-- Operands are written in related ways if the predicates inside them are. -/
theorem Stepwise.operand (h : Stepwise R) {o : Operand}
    (hinside : ∀ p ∈ o.inside, R (write p) (write' p)) :
    R (Expr.ofOperand write o) (Expr.ofOperand write' o) := by
  cases o with
  | constant v =>
    exact h.leaf fun n heq => writableValue_ne_tooDeep v n (map_eq_error.mp heq)
  | field named =>
    refine h.leaf fun n heq => ?_
    rw [Expr.ofOperand, Expr.ofField] at heq
    split at heq <;> cases heq
  | pattern _ => exact h.leaf fun n heq => by cases heq
  | decision p => exact hinside p (List.mem_singleton_self p)

/-- **One level of writing is related if what is inside is.** This is the only place where the forms
of a predicate are told apart; what relates answers is then chosen twice below. -/
theorem Stepwise.written_succ (h : Stepwise R) {limit limit' room room' : Nat} {p : Predicate}
    (hinside : ∀ q ∈ p.inside, R (Expr.written limit room q) (Expr.written limit' room' q)) :
    R (Expr.written limit (room + 1) p) (Expr.written limit' (room' + 1) p) := by
  cases p with
  | comparison relation left right =>
    obtain ⟨hleft, hright⟩ := List.forall_mem_append.mp hinside
    cases htest : relation.testsNull right with
    | false =>
      rw [Expr.written_comparison htest, Expr.written_comparison htest]
      exact h.bind (h.operand hleft) fun a => h.last (h.operand hright) _
    | true =>
      unfold Relation.testsNull at htest
      split at htest
      · exact h.last (h.operand hleft) _
      · exact h.last (h.operand hleft) _
      · cases htest
  | member negated subject values =>
    cases values with
    | nil => exact h.leaf fun n heq => by cases heq
    | cons v vs =>
      refine h.bind (x := (v :: vs).mapM Expr.writableValue) ?_ fun ws => ?_
      · exact h.mapM fun w _ => h.leaf (writableValue_ne_tooDeep w)
      · exact h.last (h.operand hinside) _
  | between subject low high =>
    obtain ⟨hsubject, hbounds⟩ := List.forall_mem_append.mp hinside
    obtain ⟨hlow, hhigh⟩ := List.forall_mem_append.mp hbounds
    exact h.bind (h.operand hsubject) fun a => h.bind (h.operand hlow) fun b =>
      h.last (h.operand hhigh) _
  | matching negated subject pattern =>
    rw [Expr.written, Expr.written]
    cases Like.ofRegex? pattern.source with
    | none => exact h.leaf fun n heq => by cases heq
    | some text => exact h.last (h.operand hinside) _
  | all first rest | any first rest => exact h.last (h.mapM hinside) _
  | not p =>
    cases hnull : p.isNullTest with
    | false =>
      rw [inside_not hnull] at hinside
      rw [Expr.written_not hnull, Expr.written_not hnull]
      exact h.last (hinside p (List.mem_singleton_self p)) _
    | true =>
      obtain ⟨subject, rfl⟩ := exists_of_isNullTest hnull
      exact h.last (h.operand hinside) _

end Stepwise

/-! ## Enough room and too little -/

/-- Not to stop for want of room, as a relation. -/
theorem stepwise_ne_tooDeep : Stepwise fun {_} x _ => ∀ n, x ≠ .error (.tooDeep n) where
  leaf h := h
  bind {_ _ x _ _ _} hx hf n heq := by
    rcases bind_eq_error.mp heq with herror | ⟨a, -, herror⟩
    · exact hx n herror
    · exact hf a n herror

/-- To answer alike, unless for want of room. -/
theorem stepwise_sameUnless (limit : Nat) : Stepwise (SameUnless (· = .tooDeep limit)) where
  leaf _ := .inr rfl
  bind hxy hfg := hxy.bind hfg

end Predicate

namespace Expr

/-- **In as much room as it is deep, a predicate is never too deep to be written.** The induction is
on the room, and what is inside is less deep by one. -/
theorem written_ne_tooDeep {limit room : Nat} {p : Predicate} (h : p.depth ≤ room) (n : Nat) :
    written limit room p ≠ .error (.tooDeep n) := by
  induction room generalizing p n with
  | zero => exact absurd p.depth_pos (Nat.not_lt_of_le h)
  | succ room ih =>
    have hinside : ∀ q ∈ p.inside, ∀ n, written limit room q ≠ .error (.tooDeep n) :=
      fun q hq => ih (Predicate.depth_le_succ.mp h q hq)
    exact @Predicate.Stepwise.written_succ _ Predicate.stepwise_ne_tooDeep limit limit room room p
      hinside n

/-- **More room changes no answer of writing** but that there is too little of it. The two writings
take the same steps until the smaller room is used up. -/
theorem written_mono {limit room limit' room' : Nat} (hroom : room ≤ room') (p : Predicate) :
    SameUnless (· = .tooDeep limit) (written limit room p) (written limit' room' p) := by
  induction room generalizing room' p with
  | zero => exact .inl ⟨_, rfl, rfl⟩
  | succ room ih =>
    cases room' with
    | zero => exact absurd hroom (Nat.not_succ_le_zero room)
    | succ room' =>
      exact (Predicate.stepwise_sameUnless limit).written_succ fun q _ =>
        ih (Nat.le_of_succ_le_succ hroom) q

end Expr

/-! ## Rule text -/

/-- Under a limit that it is no deeper than, a predicate is never too deep to have a text. -/
theorem Predicate.toText_ne_tooDeep {limit : Nat} {p : Predicate} (h : p.depth ≤ limit) (n : Nat) :
    p.toText limit ≠ .error (.tooDeep n) :=
  fun heq => Expr.written_ne_tooDeep h n (map_eq_error.mp heq)

/-- Under a larger limit the text is the same, or what there is against one, unless it was too
deep. -/
theorem Predicate.toText_mono {limit limit' : Nat} (h : limit ≤ limit') (p : Predicate) :
    p.toText limit = .error (.tooDeep limit) ∨ p.toText limit = p.toText limit' := by
  have hwritten : Expr.ofPredicate limit p = .error (.tooDeep limit) ∨
      Expr.ofPredicate limit p = Expr.ofPredicate limit' p :=
    sameUnless_eq.mp (Expr.written_mono h p)
  refine hwritten.imp map_eq_error.mpr fun hsame => ?_
  rw [Predicate.toText, Predicate.toText, hsame]

/-- A predicate that is not too deep has a text, or a part that rule text has no words for. -/
theorem Predicate.exists_toText_or_refused {limit : Nat} {p : Predicate} (h : p.depth ≤ limit) :
    (∃ text, p.toText limit = .ok text) ∨
      ∃ error ∈ p.refusals, p.toText limit = .error error := by
  cases htext : p.toText limit with
  | ok text => exact .inl ⟨text, rfl⟩
  | error error =>
    rcases Expr.refuses_of_written (map_eq_error.mp htext) with rfl | hrefused
    · exact absurd htext (toText_ne_tooDeep h limit)
    · exact .inr ⟨error, hrefused, rfl⟩

/-- **What compiles within a limit is written within it.** A predicate that was compiled under a
limit is no deeper than the limit, so it is never too deep to be written under it: it has a text, or
a part that rule text has no words for, and a larger limit makes no difference to that. -/
theorem Predicate.toText_of_ofExpr {resolve : Resolver} {limit : Nat} {e : Expr} {p : Predicate}
    (h : ofExpr resolve limit e = .ok p) :
    p.depth ≤ limit ∧
    (∀ n, p.toText limit ≠ .error (.tooDeep n)) ∧
    ((∃ text, p.toText limit = .ok text) ∨
      ∃ error ∈ p.refusals, p.toText limit = .error error) ∧
    ∀ limit', limit ≤ limit' → p.toText limit' = p.toText limit := by
  have hdepth : p.depth ≤ limit := Expr.depth_le_of_condition h
  refine ⟨hdepth, toText_ne_tooDeep hdepth, exists_toText_or_refused hdepth, fun limit' hle => ?_⟩
  exact ((toText_mono hle p).resolve_left (toText_ne_tooDeep hdepth limit)).symm

/-- A null test that is compared takes two levels. Its predicate is three conditions deep and is
written within two levels as what it was compiled from, though not within one. -/
theorem Predicate.toText_comparedNullTest :
    let e : Expr := .comparison .equal (.isNull (.field "manager") true) (.literal (.bool true))
    ∃ p, ofExpr FieldPolicy.any.resolve 2 e = .ok p ∧
      (∀ n, p.toText 2 ≠ .error (.tooDeep n)) ∧
      p.toText 1 = .error (.tooDeep 1) ∧ p.toText 2 = .ok e.toText := by
  intro e
  have hcompiles : ofExpr FieldPolicy.any.resolve 2 e =
      .ok (.comparison .equal
        (.decision (.not (.comparison .equal (.field ⟨"manager", by decide⟩) (.constant .null))))
        (.constant (.bool true))) := rfl
  exact ⟨_, hcompiles, (toText_of_ofExpr hcompiles).2.1, rfl, rfl⟩

end WhereRules
