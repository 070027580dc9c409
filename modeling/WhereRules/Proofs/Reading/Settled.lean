import Mathlib
import WhereRules.Proofs.Reading.Inquiry

/-!
# Lazy contexts read as settled ones

A lazy binding differs from a value only in when the value is asked for. Settling a context binds
each name to the value that reading it would find now (`Context.settled`). If providers leave each
other alone, every access to a context finds what it finds in the settled one, whatever was accessed
before, however often and in whatever order (`Access.mapM_ask_settled`).

The reason is that a read does not change what reads find (`ReadState.view_get`): the provider that
it asks has its answer remembered, and the others go on as before. An inquiry therefore answers as
if it were given all values at the start (`Inquiry.run_of_independent`).
-/

namespace WhereRules

/-! ## Providers that leave each other alone -/

/-- Asking one provider does not change what the other answers next. -/
def Provider.Apart (p q : Provider) : Prop :=
  ∀ calls : Calls, q.answer ((calls.bump p.id).count q.id) = q.answer (calls.count q.id)

/-- Providers with numbers of their own leave each other alone, whatever they answer. -/
theorem Provider.apart_of_ne {p q : Provider} (h : q.id ≠ p.id) : p.Apart q := by
  intro calls
  rw [Calls.count_bump, if_neg h]

namespace Context

/-- Different names are bound to providers that leave each other alone. -/
def Independent (context : Context) : Prop :=
  ∀ ⦃j k : String⦄ ⦃p q : Provider⦄, j ≠ k → context.bindings.lookup j = some (.lazy p) →
    context.bindings.lookup k = some (.lazy q) → p.Apart q

theorem independent_empty : empty.Independent := by
  intro j k p q _ hp _
  cases hp

/-- A provider that has nothing to do with those of other names may be bound. It may well depend on
how often it was asked itself. -/
theorem Independent.bind {context : Context} (h : context.Independent) {key : String}
    {provider : Provider} (hprovider : ∀ k q, k ≠ key →
      context.bindings.lookup k = some (.lazy q) → provider.Apart q ∧ q.Apart provider) :
    (context.bind key (.lazy provider)).Independent := by
  intro j k p q hne hp hq
  rw [lookup_bindings_bind] at hp hq
  by_cases hj : j = key
  · rw [if_pos hj] at hp
    rw [if_neg (hj ▸ Ne.symm hne)] at hq
    obtain rfl := Binding.lazy.inj (Option.some.inj hp)
    exact (hprovider k q (hj ▸ Ne.symm hne) hq).1
  · rw [if_neg hj] at hp
    by_cases hk : k = key
    · rw [if_pos hk] at hq
      obtain rfl := Binding.lazy.inj (Option.some.inj hq)
      exact (hprovider j p hj hp).2
    · rw [if_neg hk] at hq
      exact h hne hp hq

/-! ## Settled contexts -/

/-- The value that reading a binding would find: of a provider that has not answered yet, its next
answer. -/
def settledValue (context : Context) (calls : Calls) (key : String) : Binding → Value
  | .eager value => value
  | .lazy provider =>
    (context.resolved.lookup key).getD (provider.answer (calls.count provider.id))

/-- The same names, each bound to the value that reading it would find. -/
def settled (context : Context) (calls : Calls) : Context where
  bindings := context.bindings.map fun entry =>
    (entry.1, .eager (context.settledValue calls entry.1 entry.2))
  resolved := []

/-- What reading a name would find. -/
def view (context : Context) (calls : Calls) (key : String) : Option Value :=
  (context.bindings.lookup key).map (context.settledValue calls key)

/-- A name is bound in the settled context to the value that reading it would find. -/
theorem lookup_bindings_settled (context : Context) (calls : Calls) (key : String) :
    (context.settled calls).bindings.lookup key =
      (context.bindings.lookup key).map fun b => .eager (context.settledValue calls key b) :=
  Keyed.lookup_map (fun key b => Binding.eager (context.settledValue calls key b)) key _

/-- Everything in a settled context is known, and nothing has to be asked. -/
theorem known?_settled (context : Context) (calls : Calls) (key : String) :
    (context.settled calls).known? key = some (context.view calls key) := by
  rw [known?, lookup_bindings_settled, view]
  cases context.bindings.lookup key <;> rfl

/-- A settled context has no lazy bindings. -/
theorem independent_settled (context : Context) (calls : Calls) :
    (context.settled calls).Independent := by
  intro j k p q _ hp _
  rw [lookup_bindings_settled] at hp
  obtain ⟨b, _, hb⟩ := Option.map_eq_some_iff.mp hp
  cases hb

/-- What is known is what reading would find. Only a name that is not known yet depends on how often
its provider was asked. -/
theorem view_of_known {context : Context} {calls : Calls} {key : String} {found : Option Value}
    (h : context.known? key = some found) : context.view calls key = found := by
  rw [known?] at h
  rw [view]
  cases hbinding : context.bindings.lookup key with
  | none =>
    rw [hbinding] at h
    exact Option.some.inj h
  | some binding =>
    rw [hbinding] at h
    cases binding with
    | eager value => exact Option.some.inj h
    | lazy provider =>
      obtain ⟨value, hvalue, rfl⟩ := Option.map_eq_some_iff.mp h
      rw [Option.map_some, settledValue, hvalue, Option.getD_some]

theorem contains_settled (context : Context) (calls : Calls) (key : String) :
    (context.settled calls).contains key = context.contains key := by
  rw [contains, Keyed.has, lookup_bindings_settled, Option.isSome_map]
  rfl

theorem size_settled (context : Context) (calls : Calls) :
    (context.settled calls).size = context.size := List.length_map ..

end Context

/-! ## One read -/

namespace ReadState

/-- What reading a name would find in a state. -/
def view (state : ReadState) (key : String) : Option Value := state.context.view state.calls key

/-- **A read finds what it would find, and changes no such finding.** If it asks a provider, the
answer is remembered, and the others answer next what they would have answered. -/
theorem view_get {state : ReadState} (h : state.context.Independent) (key : String) :
    ((Reading.get key).run state).1 = state.view key ∧
      ((Reading.get key).run state).2.view = state.view ∧
      ((Reading.get key).run state).2.context.bindings = state.context.bindings := by
  rcases Reading.get_cases state key with ⟨found, hknown, hget⟩ | ⟨p, hlazy, hnone, hget⟩
  · rw [hget]
    exact ⟨(Context.view_of_known hknown).symm, rfl, rfl⟩
  · rw [hget]
    refine ⟨?_, funext fun k => ?_, rfl⟩
    · rw [view, Context.view, hlazy, Option.map_some, Context.settledValue, hnone,
        Option.getD_none]
      rfl
    · have hresolved := state.lookup_resolved_afterAsking key p k
      rw [view, Context.view, bindings_afterAsking, view, Context.view]
      refine Option.map_congr fun b hb => ?_
      cases b with
      | eager value => rfl
      | lazy q =>
        rw [Context.settledValue, Context.settledValue, hresolved, calls_afterAsking]
        by_cases hk : k = key
        · obtain rfl : p = q := by
            rw [hk, hlazy] at hb
            exact Binding.lazy.inj (Option.some.inj hb)
          rw [if_pos hk, hk, hnone]
          rfl
        · rw [if_neg hk, h (Ne.symm hk) hlazy hb state.calls]

end ReadState

/-! ## Inquiries -/

namespace Inquiry

variable {α : Type}

/-- The answer of an inquiry that finds everything at hand. -/
def answerFrom (view : String → Option Value) : Inquiry α → α
  | answer a => a
  | read key next => (next (view key)).answerFrom view

/-- An inquiry answers as if it were given what its reads would find at the start. By induction on
the inquiry, with one read for its step. -/
theorem run_of_independent (inquiry : Inquiry α) {state : ReadState}
    (h : state.context.Independent) :
    (inquiry.perform.run state).1 = inquiry.answerFrom state.view ∧
      (inquiry.perform.run state).2.view = state.view ∧
      (inquiry.perform.run state).2.context.bindings = state.context.bindings := by
  induction inquiry generalizing state with
  | answer a => exact ⟨rfl, rfl, rfl⟩
  | read key next ih =>
    obtain ⟨hfound, hview, hbindings⟩ := state.view_get h key
    have hindependent : ((Reading.get key).run state).2.context.Independent := by
      rw [Context.Independent, hbindings]
      exact h
    obtain ⟨hanswer, hview', hbindings'⟩ := ih ((Reading.get key).run state).1 hindependent
    rw [perform_read_run]
    refine ⟨?_, hview'.trans hview, hbindings'.trans hbindings⟩
    rw [hanswer, hview, hfound]
    rfl

end Inquiry

/-! ## Accesses -/

namespace Access

/-- Contexts that bind the same names are accessed by the same inquiries. -/
theorem inquiry_congr {c d : Context} (hcontains : ∀ key, c.contains key = d.contains key)
    (hsize : c.size = d.size) (access : Access) : access.inquiry c = access.inquiry d := by
  cases access with
  | contains key => rw [inquiry, inquiry, hcontains]
  | size => rw [inquiry, inquiry, hsize]
  | _ => rfl

/-- A row of accesses finds what each of them would find at the start. The induction is on the row;
no access changes what another would find. -/
theorem mapM_ask_of_independent (accesses : List Access) {state : ReadState}
    (h : state.context.Independent) :
    ((accesses.mapM ask).run state).1 =
      accesses.map fun access => (access.inquiry state.context).answerFrom state.view := by
  induction accesses generalizing state with
  | nil => rfl
  | cons access accesses ih =>
    obtain ⟨hanswer, hview, hbindings⟩ :=
      (access.inquiry state.context).run_of_independent h
    rw [← access.ask_run] at hanswer hview hbindings
    have hindependent : (access.ask.run state).2.context.Independent := by
      rw [Context.Independent, hbindings]
      exact h
    have hinquiry : ∀ other : Access,
        other.inquiry (access.ask.run state).2.context = other.inquiry state.context :=
      inquiry_congr (fun key => by rw [Context.contains, Context.contains, hbindings])
        (by rw [Context.size, Context.size, hbindings])
    have hsplit : (((access :: accesses).mapM ask).run state).1 =
        (access.ask.run state).1 :: ((accesses.mapM ask).run (access.ask.run state).2).1 := by
      rw [List.mapM_cons]
      rfl
    rw [hsplit, hanswer, ih hindependent, hview, List.map_cons]
    simp only [hinquiry]

/-- **Laziness does not show.** If the providers of a context leave each other alone, any accesses
in a row find in it what they find in the settled context, and each of them what it finds there
alone. -/
theorem mapM_ask_settled {context : Context} (h : context.Independent) (calls calls' : Calls)
    (forced forced' : List String) (accesses : List Access) :
    let settled : ReadState := ⟨context.settled calls, calls', forced'⟩
    ((accesses.mapM ask).run ⟨context, calls, forced⟩).1 = ((accesses.mapM ask).run settled).1 ∧
      ((accesses.mapM ask).run ⟨context, calls, forced⟩).1 =
        accesses.map fun access => (access.ask.run settled).1 := by
  intro settled
  have hindependent : settled.context.Independent := context.independent_settled calls
  have hview : settled.view = context.view calls := funext fun key =>
    Context.view_of_known (context.known?_settled calls key)
  have hinquiry : ∀ access : Access, access.inquiry settled.context = access.inquiry context :=
    inquiry_congr (context.contains_settled calls) (context.size_settled calls)
  have halone : ∀ access : Access,
      (access.ask.run settled).1 = (access.inquiry context).answerFrom (context.view calls) := by
    intro access
    rw [access.ask_run, ((access.inquiry settled.context).run_of_independent hindependent).1,
      hinquiry, hview]
  constructor
  · rw [mapM_ask_of_independent accesses h, mapM_ask_of_independent accesses hindependent]
    simp only [hinquiry, hview]
    rfl
  · rw [mapM_ask_of_independent accesses h]
    simp only [halone]
    rfl

/-- Answers how often it has been asked before. -/
def counter (id : Nat) : Provider := ⟨id, fun n => .int (.ofNat n)⟩

/-- Two names with a counter each. -/
def twoCounters : Context :=
  (Context.empty.bind "m" (.lazy (counter 0))).bind "n" (.lazy (counter 1))

/-- The two counters have numbers of their own. -/
theorem independent_twoCounters : twoCounters.Independent := by
  refine (Context.independent_empty.bind fun k q _ hq => ?_).bind fun k q _ hq => ?_
  · cases hq
  · rw [Context.lookup_bindings_bind] at hq
    split at hq
    · obtain rfl := Binding.lazy.inj (Option.some.inj hq)
      exact ⟨Provider.apart_of_ne (by decide), Provider.apart_of_ne (by decide)⟩
    · cases hq

/-- `n < m` where the counters stand at 2 and 0. -/
theorem mapM_ask_twoCounters :
    let rule : Rule := ⟨.comparison .less (.field ⟨"n", by decide⟩) (.field ⟨"m", by decide⟩), none⟩
    let accesses := [.get "m", .evaluate rule, .get "m", .execute rule, .size]
    twoCounters.Independent ∧
      ((accesses.mapM ask).run ⟨twoCounters, [2], []⟩).1 =
        [.found (some (.int 2)), .truth true, .found (some (.int 2)), .executed true none,
          .size 2] ∧
      ((accesses.mapM ask).run ⟨twoCounters, [2], []⟩).1 =
        accesses.map fun access =>
          (access.ask.run ⟨twoCounters.settled [2], [], []⟩).1 := by
  intro rule accesses
  refine ⟨independent_twoCounters, by cbv, ?_⟩
  exact (mapM_ask_settled independent_twoCounters [2] [] [] [] accesses).2

end Access

end WhereRules
