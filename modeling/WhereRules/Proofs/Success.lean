import Mathlib.Data.List.Forall2

/-!
# When computations succeed

Reading, compiling and writing are computations that may fail, made of steps of which the first
failure is the answer. A success is taken apart into the successes of its steps.
-/

namespace WhereRules

variable {ε δ α β : Type}

/-- Two steps succeed when the first does and the second does with its answer. -/
theorem bind_eq_ok {x : Except ε α} {f : α → Except ε β} {b : β} :
    x >>= f = .ok b ↔ ∃ a, x = .ok a ∧ f a = .ok b := by
  cases x with
  | error e => simp [bind, Except.bind]
  | ok a => simp [bind, Except.bind]

/-- Two steps fail when the first does, or the second with the answer of the first. Which of them
failed tells how far the computation came. -/
theorem bind_eq_error {x : Except ε α} {f : α → Except ε β} {e : ε} :
    x >>= f = .error e ↔ x = .error e ∨ ∃ a, x = .ok a ∧ f a = .error e := by
  cases x with
  | error e => simp [bind, Except.bind]
  | ok a => simp [bind, Except.bind]

/-- The first step has failed where the second always succeeds, or fails with other errors. -/
theorem error_of_bind {x : Except ε α} {f : α → Except ε β} {e : ε} (h : x >>= f = .error e)
    (hf : ∀ a, f a ≠ .error e) : x = .error e :=
  (bind_eq_error.mp h).resolve_right fun ⟨a, _, ha⟩ => hf a ha

/-- A step that only turns the answer into another succeeds where it did, with the answer turned. -/
theorem map_eq_ok {x : Except ε α} {f : α → β} {b : β} :
    x.map f = .ok b ↔ ∃ a, x = .ok a ∧ f a = b := by
  cases x with
  | error e => simp [Except.map]
  | ok a => simp [Except.map]

/-- A step that only turns the answer into another fails as it did. -/
theorem map_eq_error {x : Except ε α} {f : α → β} {e : ε} : x.map f = .error e ↔ x = .error e := by
  cases x with
  | error e => simp [Except.map]
  | ok a => simp [Except.map]

/-- A step that only turns the error into another succeeds as it did. -/
theorem mapError_eq_ok {x : Except ε α} {f : ε → δ} {a : α} :
    x.mapError f = .ok a ↔ x = .ok a := by
  cases x with
  | error e => simp [Except.mapError]
  | ok a => simp [Except.mapError]

/-- Two answers are the same, unless the first is an error of some kind. With the error of a limit,
this says what a larger limit may change: only a text that was refused for it. -/
def SameUnless (kind : ε → Prop) (x y : Except ε α) : Prop :=
  (∃ e, kind e ∧ x = .error e) ∨ x = y

section SameUnless

variable {kind : ε → Prop} {x y : Except ε α}

/-- With a single error for a kind, the first answer is that error or both are the same. -/
theorem sameUnless_eq {e : ε} : SameUnless (· = e) x y ↔ x = .error e ∨ x = y := by
  rw [SameUnless, exists_eq_left]

/-- What goes on from the same answers in the same way has the same answers, unless one of the steps
gave up with an error of the kind. -/
theorem SameUnless.bind (hxy : SameUnless kind x y) {f g : α → Except ε β}
    (hfg : ∀ a, SameUnless kind (f a) (g a)) : SameUnless kind (x >>= f) (y >>= g) := by
  rcases hxy with ⟨e, he, rfl⟩ | rfl
  · exact .inl ⟨e, he, rfl⟩
  · cases x with
    | error _ => exact .inr rfl
    | ok a => exact hfg a

/-- Wrapping the errors of two answers keeps them the same, if it wraps the kind into a kind. -/
theorem SameUnless.mapError (hxy : SameUnless kind x y) {kind' : δ → Prop} {f : ε → δ}
    (hkind : ∀ e, kind e → kind' (f e)) : SameUnless kind' (x.mapError f) (y.mapError f) := by
  rcases hxy with ⟨e, he, rfl⟩ | rfl
  · exact .inl ⟨f e, hkind e he, rfl⟩
  · exact .inr rfl

/-- An answer without an error is the other answer too. -/
theorem SameUnless.eq_ok {a : α} (hxy : SameUnless kind x y) (h : x = .ok a) : y = .ok a := by
  rcases hxy with ⟨e, -, he⟩ | hsame
  · rw [h] at he
    cases he
  · exact hsame.symm.trans h

end SameUnless

/-- Work on a state goes on from where its first step left the state. After an error nothing more is
done to the state, which stays as the step that failed has left it. -/
theorem run_run_bind {σ : Type} (x : ExceptT ε (StateM σ) α) (f : α → ExceptT ε (StateM σ) β)
    (s : σ) :
    (x >>= f).run.run s =
      match x.run.run s with
      | (.ok a, after) => (f a).run.run after
      | (.error error, after) => (.error error, after) := by
  rw [ExceptT.run_bind, StateT.run_bind]
  obtain ⟨result, after, hrun⟩ : ∃ result after, x.run.run s = (result, after) := ⟨_, _, rfl⟩
  rw [hrun]
  cases result with
  | ok _ => rfl
  | error _ => rfl

/-- All elements of a list succeed, each with its own answer. So what holds of the elements can be
shown along the pairs, with no look at the order in which they were worked on. -/
theorem mapM_eq_ok {f : α → Except ε β} {as : List α} {bs : List β} :
    as.mapM f = .ok bs ↔ List.Forall₂ (fun a b => f a = .ok b) as bs := by
  induction as generalizing bs with
  | nil =>
    simp only [List.mapM_nil, pure, Except.pure, Except.ok.injEq, List.forall₂_nil_left_iff]
    exact eq_comm
  | cons a as ih =>
    simp only [List.mapM_cons, bind_eq_ok, pure, Except.pure, Except.ok.injEq, ih,
      List.forall₂_cons_left_iff]
    constructor
    · rintro ⟨b, hb, rest, hrest, rfl⟩
      exact ⟨b, rest, hb, hrest, rfl⟩
    · rintro ⟨b, rest, hb, hrest, rfl⟩
      exact ⟨b, hb, rest, hrest, rfl⟩

/-- A row fails as one of its elements does. -/
theorem exists_of_mapM_eq_error {f : α → Except ε β} {as : List α} {e : ε}
    (h : as.mapM f = .error e) : ∃ a ∈ as, f a = .error e := by
  induction as with
  | nil => cases h
  | cons a as ih =>
    rw [List.mapM_cons] at h
    rcases bind_eq_error.mp h with h | ⟨b, _, h⟩
    · exact ⟨a, List.mem_cons_self, h⟩
    · obtain ⟨a', ha', h⟩ := ih (error_of_bind h fun _ hok => nomatch hok)
      exact ⟨a', List.mem_cons_of_mem _ ha', h⟩

/-- Each answer of a row is that of one of its elements. -/
theorem exists_of_forall₂_mem {R : α → β → Prop} {as : List α} {bs : List β}
    (h : List.Forall₂ R as bs) {b : β} (hb : b ∈ bs) : ∃ a ∈ as, R a b := by
  induction h with
  | nil => cases hb
  | cons hhead _ ih =>
    rcases List.mem_cons.mp hb with rfl | hb
    · exact ⟨_, List.mem_cons_self, hhead⟩
    · obtain ⟨a, ha, hab⟩ := ih hb
      exact ⟨a, List.mem_cons_of_mem _ ha, hab⟩

end WhereRules
