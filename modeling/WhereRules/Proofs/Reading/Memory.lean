import Mathlib
import WhereRules.Proofs.Reading.Course

/-!
# What contexts remember

Contexts live side by side: they are made and copied, names are bound in them, and they are
accessed, in any order (`Act`). Meanwhile providers may be asked elsewhere too. One act either binds
a name anew or keeps its course (`Pool.steady_step`), and what befalls one context is nothing to the
others (`Pool.context?_step_of_ne`). So between two bindings of a name its provider is asked once at
most, all its reads find one value, and a copy goes its own way from where it was made
(`Pool.run_remembers`).
-/

namespace WhereRules

open Seen

/-! ## Acts -/

/-- Named contexts, and how often each provider has been asked. -/
structure Pool where
  contexts : List (String × Context) := []
  calls : Calls := []

inductive Act
  /-- An empty context under a name. -/
  | create (name : String)
  /-- The context of a document. -/
  | load (name : String) (document : Json)
  | copy (name target : String)
  /-- Binds a name, to a value as `Context.insert` or to a provider as `Context.insertLazy`. -/
  | bind (name key : String) (binding : Binding)
  | access (name : String) (access : Access)
  /-- Providers are asked by others than these contexts. -/
  | elsewhere (calls : Calls)

/-- What is seen of a context in one act: whose providers the act asked, and its reads. -/
structure Turn where
  asked : List String := []
  reads : List Seen := []

namespace Act

/-- The context that an act puts in place. -/
def subject? : Act → Option String
  | create name | load name _ | copy _ name | bind name _ _ | access name _ => some name
  | elsewhere _ => none

/-- Whether an act binds a name of a context anew, or puts another context in its place. -/
def rebinds (name key : String) : Act → Bool
  | create n | load n _ | copy _ n => n == name
  | bind n k _ => n == name && k == key
  | access _ _ | elsewhere _ => false

end Act

namespace Pool

/-- The context under a name, if there is one. -/
def context? (pool : Pool) (name : String) : Option Context := pool.contexts.lookup name

/-- Puts a context in place under a name. -/
def put (pool : Pool) (name : String) (context : Context) : Pool :=
  { pool with contexts := Keyed.insert name context pool.contexts }

/-- The state in which a context is read, with no name asked for yet. -/
def readState (pool : Pool) (context : Context) : ReadState := ⟨context, pool.calls, []⟩

/-- One act. There is nothing to do about a context that is not there. -/
def step (pool : Pool) : Act → Pool
  | .create name => pool.put name .empty
  | .load name document => pool.put name (.ofJson document)
  | .copy name target =>
    match pool.context? name with
    | some context => pool.put target context
    | none => pool
  | .bind name key binding =>
    match pool.context? name with
    | some context => pool.put name (context.bind key binding)
    | none => pool
  | .access name access =>
    match pool.context? name with
    | some context =>
      let after := (access.ask.run (pool.readState context)).2
      { pool.put name after.context with calls := after.calls }
    | none => pool
  | .elsewhere calls => { pool with calls }

/-- One act after the other. -/
def run (pool : Pool) (acts : List Act) : Pool := acts.foldl step pool

/-- What is seen of a context in one act. -/
def turn (name : String) (pool : Pool) : Act → Turn
  | .access n access =>
    match pool.context? name with
    | some context =>
      if n = name then
        { asked := (access.ask.run (pool.readState context)).2.forced
          reads := (access.inquiry context).reads (pool.readState context) }
      else {}
    | none => {}
  | _ => {}

/-- What is seen of a context in one act after the other. -/
def turns (name : String) (pool : Pool) : List Act → List Turn
  | [] => []
  | act :: acts => pool.turn name act :: (pool.step act).turns name acts

variable {pool : Pool} {name key : String} {context : Context} {act : Act}

/-- The context that was put in place is found under its name, and the others under theirs. -/
theorem context?_put (pool : Pool) (n : String) (context : Context) (name : String) :
    (pool.put n context).context? name = if name = n then some context else pool.context? name :=
  Keyed.lookup_insert name n context pool.contexts

/-! ## Acts on other contexts -/

/-- **An act changes no context but the one that it puts in place.** -/
theorem context?_step_of_ne (h : act.subject? ≠ some name) :
    (pool.step act).context? name = pool.context? name := by
  have hput : ∀ {n : String} (context : Context), some n ≠ some name →
      (pool.put n context).context? name = pool.context? name := fun context hne => by
    rw [context?_put, if_neg fun heq => hne (congrArg some heq.symm)]
  cases act with
  | create n | load n _ => exact hput _ h
  | copy n _ | bind n _ _ | access n _ =>
    rw [step]
    cases pool.context? n with
    | none => rfl
    | some context => exact hput _ h
  | elsewhere _ => rfl

/-- Acts in a row change no context that none of them is about. -/
theorem context?_run_of_ne {acts : List Act} (h : ∀ act ∈ acts, act.subject? ≠ some name) :
    (pool.run acts).context? name = pool.context? name := by
  induction acts generalizing pool with
  | nil => rfl
  | cons act acts ih =>
    obtain ⟨hact, hacts⟩ := List.forall_mem_cons.mp h
    exact (ih hacts).trans (context?_step_of_ne hact)

/-- Nothing is seen of a context in acts on others. -/
theorem turn_of_ne (h : act.subject? ≠ some name) : pool.turn name act = {} := by
  cases act with
  | access n _ =>
    rw [turn]
    cases pool.context? name with
    | none => rfl
    | some context => exact if_neg fun heq => h (congrArg some heq)
  | _ => rfl

/-! ## Acts on a context -/

theorem step_copy (hcontext : pool.context? name = some context) (target : String) :
    pool.step (.copy name target) = pool.put target context := by
  rw [step, hcontext]

theorem step_bind (hcontext : pool.context? name = some context) (k : String) (binding : Binding) :
    pool.step (.bind name k binding) = pool.put name (context.bind k binding) := by
  rw [step, hcontext]

/-- A context that is there is accessed, and is put back as the access leaves it. -/
theorem step_access (hcontext : pool.context? name = some context) (access : Access) :
    pool.step (.access name access) =
      let after := (access.ask.run (pool.readState context)).2
      { pool.put name after.context with calls := after.calls } := by
  rw [step, hcontext]

theorem context?_step_bind (hcontext : pool.context? name = some context) (k : String)
    (binding : Binding) :
    (pool.step (.bind name k binding)).context? name = some (context.bind k binding) := by
  rw [step_bind hcontext, context?_put, if_pos rfl]

theorem context?_step_copy (hcontext : pool.context? name = some context) (target : String) :
    (pool.step (.copy name target)).context? target = some context := by
  rw [step_copy hcontext, context?_put, if_pos rfl]

theorem context?_step_access (hcontext : pool.context? name = some context) (access : Access) :
    (pool.step (.access name access)).context? name =
      some (access.ask.run (pool.readState context)).2.context := by
  rw [step_access hcontext]
  exact (context?_put pool name _ name).trans (if_pos rfl)

/-- In an access of a context its reads are seen, and whom they asked. -/
theorem turn_access (hcontext : pool.context? name = some context) (access : Access) :
    pool.turn name (.access name access) =
      { asked := (access.ask.run (pool.readState context)).2.forced
        reads := (access.inquiry context).reads (pool.readState context) } := by
  rw [turn, hcontext]
  exact if_pos rfl

/-- The providers that an act asks are those of its reads that had to ask. The log of questions and
the reads are kept apart, and this is where they meet. -/
theorem asked_turn (name : String) (pool : Pool) (act : Act) :
    (pool.turn name act).asked = asks (pool.turn name act).reads := by
  by_cases hact : act.subject? = some name
  · cases act with
    | access n access =>
      obtain rfl := Option.some.inj hact
      cases hcontext : pool.context? n with
      | none =>
        rw [turn, hcontext]
        rfl
      | some context =>
        rw [turn_access hcontext, access.ask_run]
        exact (access.inquiry context).forced_perform (pool.readState context)
    | _ => rfl
  · rw [turn_of_ne hact]
    rfl

/-- **One act keeps the course of a name**, if it does not bind the name anew. Only an access reads
the name, and every access is an inquiry. -/
theorem steady_step (hcontext : pool.context? name = some context)
    (hact : act.rebinds name key = false) :
    ∃ after, (pool.step act).context? name = some after ∧
      Steady key context after (pool.turn name act).reads := by
  by_cases hsubject : act.subject? = some name
  · cases act with
    | create n | load n _ | copy _ n =>
      obtain rfl := Option.some.inj hsubject
      exact absurd hact (by simp [Act.rebinds])
    | bind n k binding =>
      obtain rfl := Option.some.inj hsubject
      have hk : key ≠ k := by
        rintro rfl
        exact absurd hact (by simp [Act.rebinds])
      refine ⟨_, context?_step_bind hcontext k binding, .of_kept ?_ ?_⟩
      · rw [context.lookup_bindings_bind, if_neg hk]
      · rw [context.lookup_resolved_bind, if_neg hk]
    | access n access =>
      obtain rfl := Option.some.inj hsubject
      refine ⟨_, context?_step_access hcontext access, ?_⟩
      rw [turn_access hcontext, access.ask_run]
      exact (access.inquiry context).steady key (pool.readState context)
    | elsewhere _ => cases hsubject
  · rw [turn_of_ne hsubject]
    exact ⟨context, (context?_step_of_ne hsubject).trans hcontext, .refl key context⟩

/-- **Acts keep the course of a name** as long as none binds it anew. The induction is on the acts,
from the first on. -/
theorem steady_run {acts : List Act} (hcontext : pool.context? name = some context)
    (hacts : ∀ act ∈ acts, act.rebinds name key = false) :
    ∃ after, (pool.run acts).context? name = some after ∧
      Steady key context after ((pool.turns name acts).flatMap Turn.reads) := by
  induction acts generalizing pool context with
  | nil => exact ⟨context, hcontext, .refl key context⟩
  | cons act acts ih =>
    obtain ⟨hact, hacts⟩ := List.forall_mem_cons.mp hacts
    obtain ⟨between, hbetween, hfirst⟩ := steady_step hcontext hact
    obtain ⟨after, hafter, hrest⟩ := ih hbetween hacts
    refine ⟨after, hafter, ?_⟩
    rw [turns, List.flatMap_cons]
    exact hfirst.trans hrest

/-! ## What is remembered -/

/-- Every context remembers answers only. -/
def Honest (pool : Pool) : Prop :=
  ∀ name context, pool.context? name = some context → context.Honest

/-- A context that remembers answers only may be put in place. -/
theorem Honest.put (h : pool.Honest) {n : String} (hcontext : context.Honest) :
    (pool.put n context).Honest := by
  intro name other hother
  rw [context?_put] at hother
  split at hother
  · obtain rfl := Option.some.inj hother
    exact hcontext
  · exact h name other hother

/-- An act keeps it so that all contexts remember answers only. A copy remembers what the context
does that it is made of. -/
theorem Honest.step (h : pool.Honest) (act : Act) : (pool.step act).Honest := by
  cases act with
  | create n => exact h.put Context.honest_empty
  | load n document => exact h.put (Context.honest_ofJson document)
  | copy n target =>
    cases hcontext : pool.context? n with
    | none =>
      rw [Pool.step, hcontext]
      exact h
    | some context =>
      rw [step_copy hcontext]
      exact h.put (h n context hcontext)
  | bind n k binding =>
    cases hcontext : pool.context? n with
    | none =>
      rw [Pool.step, hcontext]
      exact h
    | some context =>
      rw [step_bind hcontext]
      exact h.put ((h n context hcontext).bind k binding)
  | access n access =>
    cases hcontext : pool.context? n with
    | none =>
      rw [Pool.step, hcontext]
      exact h
    | some context =>
      have hafter : (access.ask.run (pool.readState context)).2.context.Honest := by
        rw [access.ask_run]
        exact Inquiry.honest _ (h n context hcontext)
      rw [step_access hcontext]
      exact h.put hafter
  | elsewhere _ => exact h

/-- Acts in a row keep it so, from an empty pool on. -/
theorem Honest.run (h : pool.Honest) (acts : List Act) : (pool.run acts).Honest := by
  induction acts generalizing pool with
  | nil => exact h
  | cons act acts ih => exact ih (h.step act)

theorem honest_empty : ({} : Pool).Honest := by
  intro name context h
  cases h

/-! ## Between two bindings -/

/-- What is seen of a name in the turns of a context, from a state of the context on. Its provider
is asked once at most: for a read of the name, and if there is one, unless the value is remembered.
All reads of the name find one value: the one that is remembered, if one is, and otherwise the one
that the name is bound to, or an answer of its provider. -/
structure AskedOnce (key : String) (context : Context) (turns : List Turn) : Prop where
  count_le : (turns.flatMap Turn.asked).count key ≤ 1
  read : ∀ turn ∈ turns, key ∈ turn.asked → ∃ seen ∈ turn.reads, seen.key = key
  asked : ∀ provider, context.bindings.lookup key = some (.lazy provider) →
    context.resolved.lookup key = none →
    ∀ turn ∈ turns, ∀ seen ∈ turn.reads, seen.key = key → key ∈ turns.flatMap Turn.asked
  not_asked : ∀ value, context.resolved.lookup key = some value →
    key ∉ turns.flatMap Turn.asked
  found : ∃ found, (∀ turn ∈ turns, ∀ seen ∈ turn.reads, seen.key = key →
      seen.found = found ∧ context.Offers key found) ∧
    ∀ value, context.resolved.lookup key = some value → found = some value

/-- In each act those are asked for whom a read had to ask. -/
theorem asked_eq_asks {acts : List Act} {turn : Turn} (h : turn ∈ pool.turns name acts) :
    turn.asked = asks turn.reads := by
  induction acts generalizing pool with
  | nil => cases h
  | cons act acts ih =>
    rcases List.mem_cons.mp h with rfl | h
    · exact asked_turn name pool act
    · exact ih h

/-- In all the acts together those are asked for whom a read had to ask, in that order. -/
theorem asked_turns (name : String) (pool : Pool) (acts : List Act) :
    (pool.turns name acts).flatMap Turn.asked =
      asks ((pool.turns name acts).flatMap Turn.reads) := by
  induction acts generalizing pool with
  | nil => rfl
  | cons act acts ih =>
    rw [turns, List.flatMap_cons, List.flatMap_cons, asked_turn, ih, asks_append]

/-- **Between two bindings of a name its provider is asked once at most.** This is what a course
says of the reads, together with what contexts remember. -/
theorem askedOnce_turns {acts : List Act} (hpool : pool.Honest)
    (hcontext : pool.context? name = some context)
    (hacts : ∀ act ∈ acts, act.rebinds name key = false) :
    AskedOnce key context (pool.turns name acts) := by
  obtain ⟨after, hafter, hsteady⟩ := steady_run hcontext hacts
  obtain ⟨found, hfound, hbefore, hbehind⟩ := hsteady.course.exists_found
  have hasks := asked_turns name pool acts
  have hread : ∀ turn ∈ pool.turns name acts, ∀ seen ∈ turn.reads, seen.key = key →
      seen ∈ ofKey key ((pool.turns name acts).flatMap Turn.reads) := by
    intro turn hturn seen hseen hkey
    exact mem_ofKey.mpr ⟨List.mem_flatMap.mpr ⟨turn, hturn, hseen⟩, hkey⟩
  have hremembered : ∀ value, context.resolved.lookup key = some value →
      context.known? key = some (some value) := fun value hvalue => by
    obtain ⟨provider, n, hlazy, -⟩ := hpool name context hcontext key value hvalue
    rw [Context.known?_of_lazy hlazy, hvalue, Option.map_some]
  refine ⟨?_, ?_, ?_, ?_, found, ?_, ?_⟩
  · rw [hasks, count_asks]
    exact hsteady.course.count_asks_le
  · intro turn hturn hkey
    obtain ⟨seen, hseen, -⟩ := mem_asks.mp (asked_eq_asks hturn ▸ hkey)
    exact ⟨seen, mem_ofKey.mp hseen⟩
  · intro provider hlazy hnone turn hturn seen hseen hkey
    have hcourse := hsteady.course
    rw [Context.known?_eq_none.mpr ⟨provider, hlazy, hnone⟩] at hcourse
    have hreads := List.ne_nil_of_mem (hread turn hturn seen hseen hkey)
    rw [hasks]
    exact mem_asks.mpr (hcourse.exists_asked hreads)
  · intro value hvalue hasked
    obtain ⟨_, _, hnone⟩ := hsteady.resolved_eq_none (hasks ▸ hasked)
    cases hvalue.symm.trans hnone
  · intro turn hturn seen hseen hkey
    have hmem := hread turn hturn seen hseen hkey
    -- what the reads found is known behind them, and what is known is on offer
    have hoffers := (hpool.run acts name after hafter).offers (hbehind (List.ne_nil_of_mem hmem))
    rw [Context.Offers, hsteady.bound] at hoffers
    exact ⟨hfound seen hmem, hoffers⟩
  · intro value hvalue
    exact (hbefore _ (hremembered value hvalue)).symm

/-! ## Every run -/

/-- **Lazy bindings are asked once.** In every pool that came about by acts:

* a context remembers values of lazily bound names only, answers of the providers that the names are
  bound to;
* as long as acts do not bind a name of a context anew, its provider is asked once at most, for a
  read of the name, and all reads find one value (`AskedOnce`);
* binding a name anew makes the context forget what it remembers of that name, and of no other;
* a copy starts with the bindings of its original and with what that remembers, so neither asks for
  it again, and what is then done with one of the two is nothing to the other. -/
theorem run_remembers (past : List Act) (name : String) (context : Context)
    (hcontext : (({} : Pool).run past).context? name = some context) :
    context.Honest ∧
      (∀ key acts, (∀ act ∈ acts, act.rebinds name key = false) →
        AskedOnce key context ((({} : Pool).run past).turns name acts)) ∧
      (∀ key binding, ∃ rebound,
        ((({} : Pool).run past).step (.bind name key binding)).context? name = some rebound ∧
          rebound.bindings.lookup key = some binding ∧ rebound.resolved.lookup key = none ∧
          ∀ k, k ≠ key → rebound.bindings.lookup k = context.bindings.lookup k ∧
            rebound.resolved.lookup k = context.resolved.lookup k) ∧
      ∀ target, target ≠ name →
        let copied := (({} : Pool).run past).step (.copy name target)
        ∀ n, n = name ∨ n = target →
          copied.context? n = some context ∧
            (∀ acts, (∀ act ∈ acts, act.subject? ≠ some n) →
              (copied.run acts).context? n = some context) ∧
            ∀ key value, context.resolved.lookup key = some value →
              ∀ acts, (∀ act ∈ acts, act.rebinds n key = false) →
                key ∉ (copied.turns n acts).flatMap Turn.asked := by
  have hpool : (({} : Pool).run past).Honest := honest_empty.run past
  refine ⟨hpool name context hcontext, fun key acts => askedOnce_turns hpool hcontext, ?_, ?_⟩
  · intro key binding
    refine ⟨_, context?_step_bind hcontext key binding, ?_, ?_, fun k hk => ⟨?_, ?_⟩⟩
    · rw [context.lookup_bindings_bind, if_pos rfl]
    · rw [context.lookup_resolved_bind, if_pos rfl]
    · rw [context.lookup_bindings_bind, if_neg hk]
    · rw [context.lookup_resolved_bind, if_neg hk]
  · intro target htarget copied n hn
    have hcopied : copied.context? n = some context := by
      rcases hn with rfl | rfl
      · have hother : (Act.copy n target).subject? ≠ some n := fun heq =>
          htarget (Option.some.inj heq)
        exact (context?_step_of_ne hother).trans hcontext
      · exact context?_step_copy hcontext n
    refine ⟨hcopied, fun acts h => (context?_run_of_ne h).trans hcopied, ?_⟩
    intro key value hvalue acts hacts
    exact (askedOnce_turns (hpool.step _) hcopied hacts).not_asked value hvalue

/-- Answers that it is so, and ever after that it is not. -/
def flicker : Provider := ⟨0, fun n => .bool (n == 0)⟩

/-- Of two names that are bound to one provider the first has been read, and then the second is read
twice. The provider is asked for the second name as well, but once, and the second read finds what
the first one found. -/
theorem run_remembers_flicker :
    let pool := ({} : Pool).run [.create "c", .bind "c" "x" (.lazy flicker),
      .access "c" (.get "x"), .bind "c" "y" (.lazy flicker)]
    let acts : List Act :=
      [.access "c" (.get "y"), .elsewhere [5], .access "c" (.lookup "y" ["y"])]
    ∃ context, pool.context? "c" = some context ∧ context.Honest ∧
      context.resolved.lookup "x" = some (.bool true) ∧
      (pool.turns "c" acts).flatMap Turn.asked = ["y"] ∧
      (∀ turn ∈ pool.turns "c" acts, ∀ seen ∈ turn.reads, seen.key = "y" →
        seen.found = some (.bool false)) ∧
      "x" ∉ ((pool.step (.copy "c" "d")).turns "d" [.access "d" (.get "x")]).flatMap
        Turn.asked := by
  intro pool acts
  obtain ⟨context, hcontext, hresolved⟩ : ∃ context, pool.context? "c" = some context ∧
      context.resolved.lookup "x" = some (.bool true) := ⟨_, by cbv, by cbv⟩
  have hasked : (pool.turns "c" acts).flatMap Turn.asked = ["y"] := by cbv
  have hfirst : ((pool.turns "c" acts).flatMap Turn.reads).head? =
      some ⟨"y", some (.bool false), true⟩ := by cbv
  obtain ⟨turn, hturn, hseen⟩ := List.mem_flatMap.mp (List.mem_of_mem_head? hfirst)
  obtain ⟨honest, honce, -, hcopy⟩ := run_remembers _ "c" context hcontext
  obtain ⟨-, -, -, -, found, hfound, -⟩ := honce "y" acts (by decide)
  obtain rfl : some (.bool false) = found := (hfound turn hturn _ hseen rfl).1
  obtain ⟨-, -, hquiet⟩ := hcopy "d" (by decide) "d" (.inr rfl)
  exact ⟨context, hcontext, honest, hresolved, hasked,
    fun turn hturn seen hseen hkey => (hfound turn hturn seen hseen hkey).1,
    hquiet "x" _ hresolved _ (by decide)⟩

end Pool

end WhereRules
