import WhereRules.Proofs.Reading.Inquiry

/-!
# The reads of one name

What an inquiry reads of a context is the list of its reads (`Inquiry.reads`). The providers that it
asks are those of the reads that had to ask (`Inquiry.forced_perform`).

The reads of one name have a simple course (`Course`): all of them find the same, and where that was
not known before, the first asks for it. Courses that follow on each other are one course
(`Course.trans`), so an inquiry has a course because each of its reads has one (`Inquiry.steady`).
What is remembered on the way is what the provider has answered (`Inquiry.honest`).
-/

namespace WhereRules

/-- A read: what it found, and whether it had to ask the provider. -/
structure Seen where
  key : String
  found : Option Value
  asked : Bool

namespace Seen

/-- The reads of one name. -/
def ofKey (key : String) (reads : List Seen) : List Seen :=
  reads.filter fun seen => seen.key = key

/-- The names whose providers were asked. -/
def asks (reads : List Seen) : List String :=
  (reads.filter fun seen => seen.asked).map fun seen => seen.key

theorem asks_cons (seen : Seen) (reads : List Seen) :
    asks (seen :: reads) = if seen.asked then seen.key :: asks reads else asks reads := by
  rw [asks, List.filter_cons]
  split <;> rfl

/-- The first read is of the name, or not. -/
theorem ofKey_cons (key : String) (seen : Seen) (reads : List Seen) :
    ofKey key (seen :: reads) =
      if seen.key = key then seen :: ofKey key reads else ofKey key reads := by
  rw [ofKey, List.filter_cons]
  simp only [decide_eq_true_eq]
  rfl

theorem asks_append (reads more : List Seen) : asks (reads ++ more) = asks reads ++ asks more := by
  rw [asks, List.filter_append, List.map_append]
  rfl

theorem ofKey_append (key : String) (reads more : List Seen) :
    ofKey key (reads ++ more) = ofKey key reads ++ ofKey key more :=
  List.filter_append ..

theorem mem_ofKey {key : String} {reads : List Seen} {seen : Seen} :
    seen ∈ ofKey key reads ↔ seen ∈ reads ∧ seen.key = key := by
  rw [ofKey, List.mem_filter, decide_eq_true_iff]

/-- A provider is asked exactly where a read of its name had to ask. -/
theorem mem_asks {key : String} {reads : List Seen} :
    key ∈ asks reads ↔ ∃ seen ∈ ofKey key reads, seen.asked = true := by
  constructor
  · intro h
    obtain ⟨seen, hseen, hkey⟩ := List.mem_map.mp h
    obtain ⟨hread, hasked⟩ := List.mem_filter.mp hseen
    exact ⟨seen, mem_ofKey.mpr ⟨hread, hkey⟩, hasked⟩
  · rintro ⟨seen, hseen, hasked⟩
    obtain ⟨hread, hkey⟩ := mem_ofKey.mp hseen
    exact List.mem_map.mpr ⟨seen, List.mem_filter.mpr ⟨hread, hasked⟩, hkey⟩

/-- How often the provider of a name was asked is seen at the reads of the name. The reads of other
names ask other providers. -/
theorem count_asks (key : String) (reads : List Seen) :
    (asks reads).count key = (asks (ofKey key reads)).count key := by
  induction reads with
  | nil => rfl
  | cons seen reads ih =>
    rw [asks_cons, ofKey_cons]
    by_cases hkey : seen.key = key
    · rw [if_pos hkey, asks_cons]
      split
      · rw [List.count_cons, List.count_cons, ih]
      · exact ih
    · rw [if_neg hkey, ← ih]
      split
      · rw [List.count_cons_of_ne hkey]
      · rfl

end Seen

open Seen

/-! ## Courses -/

/-- What happens to a name from one state of a context to another: what was known of it, what is
known of it then, and its reads. -/
inductive Course (key : String) : Option (Option Value) → Option (Option Value) → List Seen → Prop
  | known (found : Option Value) (n : Nat) :
    Course key (some found) (some found) (.replicate n ⟨key, found, false⟩)
  | unread : Course key none none []
  | asked (value : Value) (n : Nat) :
    Course key none (some (some value))
      (⟨key, some value, true⟩ :: .replicate n ⟨key, some value, false⟩)

namespace Course

variable {key : String} {before between after : Option (Option Value)} {reads more : List Seen}

protected theorem refl (key : String) (known : Option (Option Value)) :
    Course key known known [] := by
  cases known with
  | none => exact .unread
  | some found => exact .known found 0

protected theorem trans (h : Course key before between reads) (h' : Course key between after more) :
    Course key before after (reads ++ more) := by
  cases h with
  | known found n =>
    cases h' with
    | known _ m => exact List.replicate_append_replicate ▸ .known found (n + m)
  | unread => exact h'
  | asked value n =>
    cases h' with
    | known _ m =>
      rw [List.cons_append, List.replicate_append_replicate]
      exact .asked value (n + m)

/-- What is known stays known. -/
theorem after_eq_some (h : Course key before after reads) {found : Option Value}
    (hknown : before = some found) : after = some found := by
  cases h with
  | known _ _ => exact hknown
  | unread | asked _ _ => cases hknown

/-- Reads that find what is known ask for nothing. -/
theorem asks_replicate (key : String) (found : Option Value) (n : Nat) :
    asks (.replicate n ⟨key, found, false⟩) = [] := by
  rw [asks, List.filter_replicate_of_neg Bool.false_ne_true, List.map_nil]

/-- In a course the provider is asked once at most. A read that asks is followed by none that
does. -/
theorem count_asks_le (h : Course key before after reads) : (asks reads).count key ≤ 1 := by
  cases h with
  | known found n =>
    rw [asks_replicate]
    exact Nat.zero_le 1
  | unread => exact Nat.zero_le 1
  | asked value n =>
    rw [asks_cons, if_pos rfl, asks_replicate]
    exact List.count_le_length

/-- In a course the provider is not asked for what is known. -/
theorem eq_none_of_asked (h : Course key before after reads) {seen : Seen} (hseen : seen ∈ reads)
    (hasked : seen.asked = true) : before = none := by
  cases h with
  | known found n =>
    rw [List.eq_of_mem_replicate hseen] at hasked
    cases hasked
  | unread | asked _ _ => rfl

/-- In a course the first read asks for what was not known. -/
theorem exists_asked (h : Course key none after reads) (hreads : reads ≠ []) :
    ∃ seen ∈ reads, seen.asked = true := by
  cases h with
  | unread => exact absurd rfl hreads
  | asked value n => exact ⟨_, List.mem_cons_self, rfl⟩

/-- All reads of a course find the same: what was known, if it was, and what is known behind them.
So a name has one value as long as it keeps its course. -/
theorem exists_found (h : Course key before after reads) :
    ∃ found, (∀ seen ∈ reads, seen.found = found) ∧ (∀ known, before = some known → known = found) ∧
      (reads ≠ [] → after = some found) := by
  cases h with
  | known found n =>
    refine ⟨found, fun seen hseen => ?_, fun known hknown => ?_, fun _ => rfl⟩
    · rw [List.eq_of_mem_replicate hseen]
    · exact (Option.some.inj hknown).symm
  | unread =>
    refine ⟨none, List.forall_mem_nil _, fun known hknown => ?_, fun h => absurd rfl h⟩
    cases hknown
  | asked value n =>
    refine ⟨some value, List.forall_mem_cons.mpr ⟨rfl, fun seen hseen => ?_⟩,
      fun known hknown => ?_, fun _ => rfl⟩
    · rw [List.eq_of_mem_replicate hseen]
    · cases hknown

end Course

/-- From one state of a context to another a name stays bound as it was, and its reads have a
course. -/
structure Steady (key : String) (before after : Context) (reads : List Seen) : Prop where
  bound : after.bindings.lookup key = before.bindings.lookup key
  course : Course key (before.known? key) (after.known? key) (ofKey key reads)

namespace Steady

variable {key : String} {before between after : Context} {reads more : List Seen}

/-- Nothing happens to a name that is bound and remembered as before, whatever happens to others. -/
theorem of_kept (hbound : after.bindings.lookup key = before.bindings.lookup key)
    (hresolved : after.resolved.lookup key = before.resolved.lookup key) :
    Steady key before after [] where
  bound := hbound
  course := Context.known?_congr hbound hresolved ▸ .refl key _

protected theorem refl (key : String) (context : Context) : Steady key context context [] :=
  of_kept rfl rfl

protected theorem trans (h : Steady key before between reads) (h' : Steady key between after more) :
    Steady key before after (reads ++ more) where
  bound := h'.bound.trans h.bound
  course := ofKey_append key reads more ▸ h.course.trans h'.course

/-- A provider that is asked has not answered before: the name is bound to it, and nothing is
remembered. -/
theorem resolved_eq_none (h : Steady key before after reads) (hasked : key ∈ asks reads) :
    ∃ provider, before.bindings.lookup key = some (.lazy provider) ∧
      before.resolved.lookup key = none := by
  obtain ⟨seen, hseen, hyes⟩ := mem_asks.mp hasked
  exact Context.known?_eq_none.mp (h.course.eq_none_of_asked hseen hyes)

end Steady

/-! ## The reads of an inquiry -/

/-- The read of a name in a state. -/
def ReadState.seen (state : ReadState) (key : String) : Seen :=
  ⟨key, ((Reading.get key).run state).1, (state.context.known? key).isNone⟩

/-- A read finds what is known, or asks the provider. These are the only two ways a read can go, and
in the second the answer is remembered. -/
theorem ReadState.seen_cases (state : ReadState) (key : String) :
    (∃ found, state.context.known? key = some found ∧ state.seen key = ⟨key, found, false⟩ ∧
      (Reading.get key).run state = (found, state)) ∨
      ∃ provider, state.context.bindings.lookup key = some (.lazy provider) ∧
        state.context.known? key = none ∧
        state.seen key = ⟨key, some (state.answerOf provider), true⟩ ∧
        (Reading.get key).run state =
          (some (state.answerOf provider), state.afterAsking key provider) := by
  rcases Reading.get_cases state key with ⟨found, hknown, hget⟩ | ⟨provider, hlazy, hnone, hget⟩
  · refine .inl ⟨found, hknown, ?_, hget⟩
    rw [seen, hget, hknown, Option.isNone_some]
  · have hunknown := Context.known?_eq_none.mpr ⟨provider, hlazy, hnone⟩
    refine .inr ⟨provider, hlazy, hunknown, ?_, hget⟩
    rw [seen, hget, hunknown, Option.isNone_none]

/-- One read has a course, for the name that is read as for every other. For another name nothing
changes. -/
theorem ReadState.steady_get (state : ReadState) (key k : String) :
    Steady k state.context ((Reading.get key).run state).2.context [state.seen key] := by
  rcases state.seen_cases key with
    ⟨found, hknown, hseen, hget⟩ | ⟨provider, hlazy, hunknown, hseen, hget⟩
  · rw [hget, hseen]
    refine ⟨rfl, ?_⟩
    rw [ofKey_cons]
    by_cases hk : key = k
    · subst hk
      rw [if_pos rfl, hknown]
      exact .known found 1
    · rw [if_neg hk]
      exact .refl k _
  · rw [hget, hseen]
    refine ⟨rfl, ?_⟩
    rw [ofKey_cons, state.known?_afterAsking key provider hlazy]
    by_cases hk : key = k
    · subst hk
      rw [if_pos rfl, if_pos rfl, hunknown]
      exact .asked _ 0
    · rw [if_neg hk, if_neg (Ne.symm hk)]
      exact .refl k _

/-- One read asks its provider, or none. -/
theorem ReadState.forced_get (state : ReadState) (key : String) :
    ((Reading.get key).run state).2.forced = state.forced ++ asks [state.seen key] := by
  rcases state.seen_cases key with
    ⟨found, _, hseen, hget⟩ | ⟨provider, _, _, hseen, hget⟩
  · rw [hget, hseen]
    exact (List.append_nil _).symm
  · rw [hget, hseen]
    exact state.forced_afterAsking key provider

namespace Inquiry

variable {α : Type}

/-- The reads of an inquiry, carried out in a state. -/
def reads : Inquiry α → ReadState → List Seen
  | answer _, _ => []
  | read key next, state =>
    state.seen key ::
      (next ((Reading.get key).run state).1).reads ((Reading.get key).run state).2

/-- **The providers that an inquiry asks are those of its reads** that had to ask. -/
theorem forced_perform (inquiry : Inquiry α) (state : ReadState) :
    (inquiry.perform.run state).2.forced = state.forced ++ asks (inquiry.reads state) := by
  induction inquiry generalizing state with
  | answer a => exact (List.append_nil _).symm
  | read key next ih =>
    rw [perform_read_run, ih, state.forced_get, List.append_assoc, ← asks_append]
    rfl

/-- **The reads of a name in an inquiry have a course.** By induction on the inquiry, since courses
that follow on each other are one. -/
theorem steady (inquiry : Inquiry α) (key : String) (state : ReadState) :
    Steady key state.context (inquiry.perform.run state).2.context (inquiry.reads state) := by
  induction inquiry generalizing state with
  | answer a => exact .refl key _
  | read k next ih => exact (state.steady_get k key).trans (ih _ _)

end Inquiry

/-! ## What is remembered -/

/-- Only lazily bound names have remembered values, and each is an answer of the provider that the
name is bound to. -/
def Context.Honest (context : Context) : Prop :=
  ∀ key value, context.resolved.lookup key = some value →
    ∃ provider n, context.bindings.lookup key = some (.lazy provider) ∧ value = provider.answer n

/-- What reads of a name may find: the value that it is bound to, or an answer of its provider. -/
def Context.Offers (context : Context) (key : String) (found : Option Value) : Prop :=
  match context.bindings.lookup key with
  | none => found = none
  | some (.eager value) => found = some value
  | some (.lazy provider) => ∃ n, found = some (provider.answer n)

/-- What is known is on offer: it is the value that the name is bound to, or an answer that its
provider has given. -/
theorem Context.Honest.offers {context : Context} (h : context.Honest) {key : String}
    {found : Option Value} (hknown : context.known? key = some found) :
    context.Offers key found := by
  rw [known?] at hknown
  rw [Offers]
  cases hbinding : context.bindings.lookup key with
  | none =>
    rw [hbinding] at hknown
    exact (Option.some.inj hknown).symm
  | some binding =>
    rw [hbinding] at hknown
    cases binding with
    | eager value => exact (Option.some.inj hknown).symm
    | lazy provider =>
      obtain ⟨value, hvalue, rfl⟩ := Option.map_eq_some_iff.mp hknown
      obtain ⟨provider', n, hlazy, rfl⟩ := h key value hvalue
      obtain rfl := Binding.lazy.inj (Option.some.inj (hbinding.symm.trans hlazy))
      exact ⟨n, rfl⟩

theorem Context.honest_empty : Context.empty.Honest := by
  intro key value h
  cases h

/-- Binding a name forgets what was remembered of it, and leaves the others as they were. So no
answer outlives the provider that gave it. -/
theorem Context.Honest.bind {context : Context} (h : context.Honest) (k : String)
    (binding : Binding) : (context.bind k binding).Honest := by
  intro key value hvalue
  rw [lookup_resolved_bind] at hvalue
  rw [lookup_bindings_bind]
  by_cases hk : key = k
  · rw [if_pos hk] at hvalue
    cases hvalue
  · rw [if_neg hk] at hvalue ⊢
    exact h key value hvalue

theorem Context.honest_ofPairs (pairs : List (String × Value)) : (ofPairs pairs).Honest :=
  List.foldlRecOn pairs _ honest_empty fun _ h pair _ => h.bind pair.1 (.eager pair.2)

/-- A context that is made from a document remembers nothing: it is bound to values only. -/
theorem Context.honest_ofJson (document : Json) : (ofJson document).Honest := by
  unfold ofJson
  split
  · exact honest_ofPairs _
  · exact honest_empty

/-- A read remembers the answer of the provider that it asks, under the name that is bound to this
provider. -/
theorem Context.Honest.get {state : ReadState} (h : state.context.Honest) (k : String) :
    ((Reading.get k).run state).2.context.Honest := by
  rcases Reading.get_cases state k with ⟨_, _, hget⟩ | ⟨provider, hlazy, _, hget⟩
  · rw [hget]
    exact h
  · rw [hget]
    intro key value hvalue
    rw [state.lookup_resolved_afterAsking] at hvalue
    by_cases hk : key = k
    · rw [if_pos hk] at hvalue
      obtain rfl := Option.some.inj hvalue
      exact ⟨provider, _, hk ▸ hlazy, rfl⟩
    · rw [if_neg hk] at hvalue
      exact h key value hvalue

/-- **Inquiries remember answers only.** -/
theorem Inquiry.honest {α : Type} (inquiry : Inquiry α) {state : ReadState}
    (h : state.context.Honest) : (inquiry.perform.run state).2.context.Honest := by
  induction inquiry generalizing state with
  | answer a => exact h
  | read key next ih => exact ih _ (h.get key)

end WhereRules
