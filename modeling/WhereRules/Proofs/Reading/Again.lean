import WhereRules.Proofs.Reading.Course

/-!
# Reading again

What a read finds is known from then on (`ReadState.known?_get`), and inquiries forget nothing that
was known (`Inquiry.remembers`). So an inquiry that is carried out again, at once or after other
inquiries, finds all its reads known: it answers as before, asks no provider, and changes nothing
(`Inquiry.run_again`). That holds of every operand and every predicate.
-/

namespace WhereRules

/-! ## What stays known -/

namespace Context

/-- All that is known of names in one context is known in the other. -/
def Remembers (later earlier : Context) : Prop :=
  ∀ key found, earlier.known? key = some found → later.known? key = some found

theorem Remembers.refl (context : Context) : context.Remembers context := fun _ _ h => h

/-- What one context remembers of another, and that one of a third, the first remembers of the
third. -/
theorem Remembers.trans {a b c : Context} (h : b.Remembers a) (h' : c.Remembers b) :
    c.Remembers a := fun key found hknown => h' key found (h key found hknown)

end Context

/-- What a read found is known behind it. -/
theorem ReadState.known?_get (state : ReadState) (key : String) :
    ((Reading.get key).run state).2.context.known? key =
      some ((Reading.get key).run state).1 := by
  rcases Reading.get_cases state key with ⟨found, hknown, hget⟩ | ⟨provider, hlazy, -, hget⟩
  · rw [hget]
    exact hknown
  · rw [hget]
    exact (state.known?_afterAsking key provider hlazy key).trans (if_pos rfl)

namespace Inquiry

variable {α : Type}

/-- **Inquiries forget nothing that was known.** What was read in between is one more thing to
know. -/
theorem remembers (inquiry : Inquiry α) (state : ReadState) :
    (inquiry.perform.run state).2.context.Remembers state.context :=
  fun key _ hknown => (inquiry.steady key state).course.after_eq_some hknown

/-- **What was asked once is asked again without effect**: where all is remembered that an inquiry
left known, it answers as it did and leaves everything as it is. By induction on the inquiry: each
of its reads finds what it found. -/
theorem run_again {inquiry : Inquiry α} {state later : ReadState}
    (h : later.context.Remembers (inquiry.perform.run state).2.context) :
    inquiry.perform.run later = ((inquiry.perform.run state).1, later) := by
  induction inquiry generalizing state with
  | answer a => rfl
  | read key next ih =>
    rw [perform_read_run] at h
    -- what the first read found has stayed known to the end, and is known later
    have hkept := ((next _).remembers _).trans h key _ (state.known?_get key)
    rw [perform_read_run, Reading.get_of_known hkept, perform_read_run]
    exact ih _ h

end Inquiry

/-! ## Operands and predicates -/

/-- An operand is read again with what it was found to be. -/
theorem Operand.read_again (o : Operand) {state later : ReadState}
    (h : later.context.Remembers (o.read.run state).2.context) :
    o.read.run later = ((o.read.run state).1, later) := by
  rw [← o.perform_inquiry] at h ⊢
  exact Inquiry.run_again h

/-- Reading an operand forgets nothing. -/
theorem Operand.remembers (o : Operand) (state : ReadState) :
    (o.read.run state).2.context.Remembers state.context := by
  rw [← o.perform_inquiry]
  exact o.inquiry.remembers state

/-- A predicate decides again as it decided. -/
theorem Predicate.evaluate_again (p : Predicate) {state later : ReadState}
    (h : later.context.Remembers (p.evaluate.run state).2.context) :
    p.evaluate.run later = ((p.evaluate.run state).1, later) := by
  rw [← p.perform_inquiry] at h ⊢
  exact Inquiry.run_again h

/-! ## Predicates that decide the same -/

namespace Predicate

/-- Asked about one context, as often as one likes and in any order, two predicates decide the
same. -/
def SameDecision (p q : Predicate) : Prop :=
  ∀ state : ReadState, ∃ decision, ∀ asked : List Predicate, (∀ r ∈ asked, r = p ∨ r = q) →
    ((asked.mapM evaluate).run state).1 = List.replicate asked.length decision

/-- It is enough that they decide the same when either is asked first. Asked again, each decides as
it did, and so does the other behind it. -/
theorem SameDecision.intro {p q : Predicate}
    (h : ∀ state, (p.evaluate.run state).1 = (q.evaluate.run state).1) : SameDecision p q := by
  intro state
  refine ⟨(p.evaluate.run state).1, fun asked hasked => ?_⟩
  induction asked generalizing state with
  | nil => rfl
  | cons r asked ih =>
    obtain ⟨hr, hasked⟩ := List.forall_mem_cons.mp hasked
    have hdecides : (r.evaluate.run state).1 = (p.evaluate.run state).1 := by
      rcases hr with rfl | rfl
      · rfl
      · exact (h state).symm
    -- behind the first both decide as it did: it would do so again
    have hagain : (p.evaluate.run (r.evaluate.run state).2).1 = (p.evaluate.run state).1 := by
      have hrepeats : (r.evaluate.run (r.evaluate.run state).2).1 = (r.evaluate.run state).1 := by
        rw [r.evaluate_again (.refl _)]
      rcases hr with rfl | rfl
      · exact hrepeats
      · rw [h, hrepeats, h]
    have hsplit : (((r :: asked).mapM evaluate).run state).1 =
        (r.evaluate.run state).1 :: ((asked.mapM evaluate).run (r.evaluate.run state).2).1 := by
      rw [List.mapM_cons]
      rfl
    rw [hsplit, ih (r.evaluate.run state).2 hasked, hagain, hdecides, List.length_cons,
      List.replicate_succ]

/-- Predicates that read alike do. -/
theorem SameDecision.of_eq {p q : Predicate} (h : p.evaluate = q.evaluate) : SameDecision p q :=
  .intro fun state => by rw [h]

end Predicate

end WhereRules
