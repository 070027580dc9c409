import WhereRules.Context.Reading

/-!
# What one read does

A read of a name either finds its value at hand and changes nothing, or it asks the provider that
the name is bound to (`get_cases`). `Context.known?` tells the two apart: it is what a read finds
without asking, where it asks nobody. Asking makes the answer known and touches nothing else
(`ReadState.known?_afterAsking`), and binding a name anew changes what is known of that name only
(`Context.lookup_bindings_bind`, `Context.lookup_resolved_bind`).
-/

namespace WhereRules

/-! ## Entries by key -/

namespace Keyed

variable {α : Type}

/-- The entry in front is found under its key, and the others under theirs. -/
theorem lookup_cons (key k : String) (value : α) (entries : List (String × α)) :
    ((k, value) :: entries).lookup key = if key = k then some value else entries.lookup key := by
  rw [List.lookup_cons]
  by_cases h : key = k
  · rw [if_pos h, beq_iff_eq.mpr h]
  · rw [if_neg h, beq_eq_false_iff_ne.mpr h]

/-- An inserted entry is found under its key, and nothing else changes. -/
theorem lookup_insert (key k : String) (value : α) (entries : List (String × α)) :
    (insert k value entries).lookup key = if key = k then some value else entries.lookup key := by
  fun_induction insert k value entries with
  | case1 => exact lookup_cons key k value []
  | case2 => exact lookup_cons key k value _
  | case3 v rest =>
    rw [lookup_cons, lookup_cons]
    split <;> rfl
  | case4 k' v rest _ hne ih =>
    rw [lookup_cons, lookup_cons, ih]
    by_cases hk : key = k
    · rw [if_neg (hk ▸ hne), if_pos hk, if_pos hk]
    · rw [if_neg hk, if_neg hk]

/-- An erased key is not found, and all others are as before. -/
theorem lookup_erase (key k : String) (entries : List (String × α)) :
    (erase k entries).lookup key = if key = k then none else entries.lookup key := by
  induction entries with
  | nil => exact (ite_self none).symm
  | cons entry entries ih =>
    obtain ⟨k', v⟩ := entry
    rw [erase] at ih ⊢
    by_cases hk : k' = k
    · rw [List.filter_cons_of_neg (by simpa using hk), ih, lookup_cons, hk]
      split <;> rfl
    · rw [List.filter_cons_of_pos (by simpa using hk), lookup_cons, lookup_cons, ih]
      by_cases hkey : key = k
      · rw [if_neg (hkey ▸ Ne.symm hk), if_pos hkey, if_pos hkey]
      · rw [if_neg hkey, if_neg hkey]

/-- Changing the values of entries changes what is found, and not where. -/
theorem lookup_map {β : Type} (f : String → α → β) (key : String) (entries : List (String × α)) :
    (entries.map fun entry => (entry.1, f entry.1 entry.2)).lookup key =
      (entries.lookup key).map (f key) := by
  induction entries with
  | nil => rfl
  | cons entry entries ih =>
    obtain ⟨k, v⟩ := entry
    rw [List.map_cons, lookup_cons, lookup_cons, ih]
    by_cases hk : key = k
    · rw [if_pos hk, if_pos hk, hk, Option.map_some]
    · rw [if_neg hk, if_neg hk]

end Keyed

/-! ## Questions -/

/-- The questions to a provider do not depend on how often others were asked. -/
theorem Calls.count_cons_succ (n : Nat) (calls : Calls) (id : Nat) :
    count (n :: calls) (id + 1) = count calls id := rfl

/-- One more question to a provider is counted for that provider only. -/
theorem Calls.count_bump (calls : Calls) (id asked : Nat) :
    (calls.bump asked).count id = if id = asked then calls.count id + 1 else calls.count id := by
  fun_induction bump calls asked generalizing id with
  | case1 | case3 => cases id <;> rfl
  | case2 asked ih =>
    cases id with
    | zero => rfl
    | succ id =>
      rw [count_cons_succ, ih]
      simp only [Nat.succ_eq_add_one, Nat.add_right_cancel_iff]
      rfl
  | case4 n rest asked ih =>
    cases id with
    | zero => rfl
    | succ id =>
      rw [count_cons_succ, ih, count_cons_succ]
      simp only [Nat.succ_eq_add_one, Nat.add_right_cancel_iff]

/-! ## Binding anew -/

namespace Context

/-- A name is bound to what it was bound to last, and the others stay bound as they were. -/
theorem lookup_bindings_bind (context : Context) (key k : String) (binding : Binding) :
    (context.bind k binding).bindings.lookup key =
      if key = k then some binding else context.bindings.lookup key :=
  Keyed.lookup_insert key k binding context.bindings

/-- A name that is bound anew is forgotten, and what is remembered of the others stays. -/
theorem lookup_resolved_bind (context : Context) (key k : String) (binding : Binding) :
    (context.bind k binding).resolved.lookup key =
      if key = k then none else context.resolved.lookup key :=
  Keyed.lookup_erase key k context.resolved

/-! ## What is known -/

/-- What a read of a name finds without asking a provider, unless it has to ask one. -/
def known? (context : Context) (key : String) : Option (Option Value) :=
  match context.bindings.lookup key with
  | none => some none
  | some (.eager value) => some (some value)
  | some (.lazy _) => (context.resolved.lookup key).map some

/-- Of a lazily bound name what is remembered is known. -/
theorem known?_of_lazy {context : Context} {key : String} {provider : Provider}
    (h : context.bindings.lookup key = some (.lazy provider)) :
    context.known? key = (context.resolved.lookup key).map some := by
  rw [known?, h]

/-- A read has to ask where a name is bound to a provider that has not answered yet. In every other
case it is settled what it finds, even that there is nothing. -/
theorem known?_eq_none {context : Context} {key : String} :
    context.known? key = none ↔
      ∃ provider, context.bindings.lookup key = some (.lazy provider) ∧
        context.resolved.lookup key = none := by
  constructor
  · intro h
    unfold known? at h
    split at h
    · cases h
    · cases h
    · next provider hlazy => exact ⟨provider, hlazy, Option.map_eq_none_iff.mp h⟩
  · rintro ⟨provider, hlazy, hresolved⟩
    rw [known?_of_lazy hlazy, hresolved, Option.map_none]

/-- What is known of a name depends on its binding and on what is remembered of it, and not on other
names. -/
theorem known?_congr {c d : Context} {key : String}
    (hbindings : c.bindings.lookup key = d.bindings.lookup key)
    (hresolved : c.resolved.lookup key = d.resolved.lookup key) :
    c.known? key = d.known? key := by
  rw [known?, known?, hbindings, hresolved]

end Context

/-! ## One read -/

namespace ReadState

/-- The state in which the provider of a name has been asked. -/
def afterAsking (state : ReadState) (key : String) (provider : Provider) : ReadState :=
  (state.force key provider).2

/-- What the provider of a name answers in a state. -/
def answerOf (state : ReadState) (provider : Provider) : Value :=
  provider.answer (state.calls.count provider.id)

variable (state : ReadState) (key : String) (provider : Provider)

theorem bindings_afterAsking :
    (state.afterAsking key provider).context.bindings = state.context.bindings := rfl

theorem calls_afterAsking :
    (state.afterAsking key provider).calls = state.calls.bump provider.id := rfl

theorem forced_afterAsking :
    (state.afterAsking key provider).forced = state.forced ++ [key] := rfl

/-- An answer is remembered under the name that it was asked for. -/
theorem lookup_resolved_afterAsking (k : String) :
    (state.afterAsking key provider).context.resolved.lookup k =
      if k = key then some (state.answerOf provider) else state.context.resolved.lookup k :=
  Keyed.lookup_insert k key _ _

/-- An answer is known from then on, and nothing else becomes known. So no name is asked for twice
on account of another. -/
theorem known?_afterAsking (h : state.context.bindings.lookup key = some (.lazy provider))
    (k : String) : (state.afterAsking key provider).context.known? k =
      if k = key then some (some (state.answerOf provider)) else state.context.known? k := by
  have hresolved := state.lookup_resolved_afterAsking key provider k
  by_cases hk : k = key
  · rw [if_pos hk] at hresolved ⊢
    have hlazy : (state.afterAsking key provider).context.bindings.lookup k =
        some (.lazy provider) := hk ▸ h
    rw [Context.known?_of_lazy hlazy, hresolved, Option.map_some]
  · rw [if_neg hk] at hresolved ⊢
    exact Context.known?_congr rfl hresolved

end ReadState

namespace Reading

/-- A decision that settles how to go on. -/
theorem run_bind_ite {α : Type} (decision : Reading Bool) (yes no : Reading α)
    (state : ReadState) :
    (do if ← decision then yes else no : Reading α).run state =
      if (decision.run state).1 then yes.run (decision.run state).2
      else no.run (decision.run state).2 := by
  show (if (decision.run state).1 then yes else no).run (decision.run state).2 = _
  split <;> rfl

/-- A read of what is known finds it and changes nothing. -/
theorem get_of_known {state : ReadState} {key : String} {found : Option Value}
    (h : state.context.known? key = some found) : (get key).run state = (found, state) := by
  rw [Context.known?] at h
  simp only [get, StateT.run]
  cases hbinding : state.context.bindings.lookup key with
  | none =>
    rw [hbinding] at h
    cases h
    rfl
  | some binding =>
    rw [hbinding] at h
    cases binding with
    | eager value =>
      cases h
      rfl
    | lazy provider =>
      obtain ⟨value, hvalue, rfl⟩ := Option.map_eq_some_iff.mp h
      simp only [hvalue]

/-- A read of a name whose provider has not answered yet asks it. -/
theorem get_of_lazy {state : ReadState} {key : String} {provider : Provider}
    (hlazy : state.context.bindings.lookup key = some (.lazy provider))
    (hresolved : state.context.resolved.lookup key = none) :
    (get key).run state = (some (state.answerOf provider), state.afterAsking key provider) := by
  simp only [get, StateT.run, hlazy, hresolved]
  rfl

/-- **One read.** It finds what is known and changes nothing, or it asks the provider. What is
proved of reads from here on is proved by these two cases. -/
theorem get_cases (state : ReadState) (key : String) :
    (∃ found, state.context.known? key = some found ∧ (get key).run state = (found, state)) ∨
      ∃ provider, state.context.bindings.lookup key = some (.lazy provider) ∧
        state.context.resolved.lookup key = none ∧
        (get key).run state =
          (some (state.answerOf provider), state.afterAsking key provider) := by
  cases hknown : state.context.known? key with
  | some found => exact .inl ⟨found, rfl, get_of_known hknown⟩
  | none =>
    obtain ⟨provider, hlazy, hresolved⟩ := Context.known?_eq_none.mp hknown
    exact .inr ⟨provider, hlazy, hresolved, get_of_lazy hlazy hresolved⟩

end Reading

end WhereRules
