import Mathlib
import WhereRules.Proofs.Answers
import WhereRules.Proofs.Compilation.Fields
import WhereRules.Proofs.Reading.Course

/-!
# A rule reads what it declares

The paths that a text names say what its rule may read of a context: names that are such a path, and
names that are the first step of one (`Watched`). The rule asks no other provider, and where two
contexts agree on these names it decides alike (`Dialect.evaluate_of_agreeOn`).

A predicate asks for its own paths and their roots only (`Predicate.asksOnly`), these are the paths
that the text names (`Predicate.paths_ofExpr`), and an inquiry reads the same in states that agree
on all that it asks for (`Inquiry.reads_of_agreeOn`).
-/

namespace WhereRules

open Seen

/-! ## What an inquiry asks for -/

/-- Whatever it finds, an inquiry reads names of one kind only. -/
def Inquiry.AsksOnly {α : Type} (K : String → Prop) : Inquiry α → Prop
  | answer _ => True
  | read key next => K key ∧ ∀ found, (next found).AsksOnly K

/-- A kind of names holds what looking up a path reads. -/
def Covers (K : String → Prop) (path : String) : Prop :=
  K path ∧ ∀ root, (pathSegments path).head? = some root → K root

section AsksOnly

variable {α β : Type} {K : String → Prop}

/-- One inquiry after the other asks for names of a kind if both do. -/
theorem Inquiry.AsksOnly.bind {inquiry : Inquiry α} {f : α → Inquiry β} (h : inquiry.AsksOnly K)
    (hf : ∀ a, (f a).AsksOnly K) : (inquiry >>= f).AsksOnly K := by
  induction inquiry with
  | answer a => exact hf a
  | read key next ih => exact ⟨h.1, fun found => ih found (h.2 found)⟩

theorem Inquiry.asksOnly_pure (a : α) : (pure a : Inquiry α).AsksOnly K := trivial

theorem Inquiry.asksOnly_get {key : String} (h : K key) : (get key).AsksOnly K :=
  ⟨h, fun _ => trivial⟩

/-- Looking up a path asks for the path as a name, and at most for its first step. The steps behind
that are taken in the value found, without asking. -/
theorem Inquiry.asksOnly_lookup {path : String} (h : Covers K path) :
    (lookup path (pathSegments path)).AsksOnly K := by
  obtain ⟨hpath, hroot⟩ := h
  refine (asksOnly_get hpath).bind fun found => ?_
  cases found with
  | some value => exact asksOnly_pure value
  | none =>
    generalize pathSegments path = segments at hroot
    obtain _ | ⟨root, _ | ⟨step, rest⟩⟩ := segments
    · exact asksOnly_pure _
    · exact asksOnly_pure _
    · refine (asksOnly_get (hroot root rfl)).bind fun found => ?_
      cases found <;> exact asksOnly_pure _

mutual

/-- An operand asks for its paths and their roots. -/
theorem Operand.asksOnly (operand : Operand) (h : ∀ path ∈ operand.paths, Covers K path) :
    operand.inquiry.AsksOnly K := by
  cases operand with
  | constant _ | pattern _ => exact Inquiry.asksOnly_pure _
  | field field => exact Inquiry.asksOnly_lookup (h field.path (List.mem_singleton_self _))
  | decision predicate => exact (predicate.asksOnly h).bind fun _ => Inquiry.asksOnly_pure _

/-- **A predicate asks for its paths and their roots only.** The recursion is on the predicate, and
a condition that is not reached asks for nothing. -/
theorem Predicate.asksOnly (predicate : Predicate) (h : ∀ path ∈ predicate.paths, Covers K path) :
    predicate.inquiry.AsksOnly K := by
  cases predicate with
  | comparison relation left right =>
    obtain ⟨hleft, hright⟩ := List.forall_mem_append.mp h
    exact (left.asksOnly hleft).bind fun _ => (right.asksOnly hright).bind fun _ =>
      Inquiry.asksOnly_pure _
  | member _ subject _ | matching _ subject _ =>
    exact (subject.asksOnly h).bind fun _ => Inquiry.asksOnly_pure _
  | between subject low high =>
    obtain ⟨hsubject, hbounds⟩ := List.forall_mem_append.mp h
    obtain ⟨hlow, hhigh⟩ := List.forall_mem_append.mp hbounds
    exact (subject.asksOnly hsubject).bind fun _ => (low.asksOnly hlow).bind fun _ =>
      (high.asksOnly hhigh).bind fun _ => Inquiry.asksOnly_pure _
  | all first rest =>
    obtain ⟨hfirst, hrest⟩ := List.forall_mem_append.mp h
    refine (first.asksOnly hfirst).bind fun holds => ?_
    split
    · exact Predicate.asksOnly_inquiryAll rest hrest
    · exact Inquiry.asksOnly_pure false
  | any first rest =>
    obtain ⟨hfirst, hrest⟩ := List.forall_mem_append.mp h
    refine (first.asksOnly hfirst).bind fun holds => ?_
    split
    · exact Inquiry.asksOnly_pure true
    · exact Predicate.asksOnly_inquiryAny rest hrest
  | not operand => exact (operand.asksOnly h).bind fun _ => Inquiry.asksOnly_pure _

/-- A conjunction asks for the paths of its operands. -/
theorem Predicate.asksOnly_inquiryAll (predicates : List Predicate)
    (h : ∀ path ∈ Predicate.pathsAll predicates, Covers K path) :
    (Predicate.inquiryAll predicates).AsksOnly K := by
  cases predicates with
  | nil => exact Inquiry.asksOnly_pure true
  | cons first rest =>
    obtain ⟨hfirst, hrest⟩ := List.forall_mem_append.mp h
    refine (first.asksOnly hfirst).bind fun holds => ?_
    split
    · exact Predicate.asksOnly_inquiryAll rest hrest
    · exact Inquiry.asksOnly_pure false

/-- A disjunction asks for the paths of its operands. -/
theorem Predicate.asksOnly_inquiryAny (predicates : List Predicate)
    (h : ∀ path ∈ Predicate.pathsAll predicates, Covers K path) :
    (Predicate.inquiryAny predicates).AsksOnly K := by
  cases predicates with
  | nil => exact Inquiry.asksOnly_pure false
  | cons first rest =>
    obtain ⟨hfirst, hrest⟩ := List.forall_mem_append.mp h
    refine (first.asksOnly hfirst).bind fun holds => ?_
    split
    · exact Inquiry.asksOnly_pure true
    · exact Predicate.asksOnly_inquiryAny rest hrest

end

/-- The reads of an inquiry are of the names that it asks for, whatever they find. -/
theorem Inquiry.AsksOnly.key_of_mem {inquiry : Inquiry α} (h : inquiry.AsksOnly K)
    {state : ReadState} {seen : Seen} (hseen : seen ∈ inquiry.reads state) : K seen.key := by
  induction inquiry generalizing state with
  | answer a => cases hseen
  | read key next ih =>
    rcases List.mem_cons.mp hseen with rfl | hseen
    · exact h.1
    · exact ih _ (h.2 _) hseen

end AsksOnly

/-! ## States that agree -/

/-- Two states agree on a kind of names: these are bound alike and remembered alike, and the
providers that they are bound to have been asked as often. -/
structure ReadState.AgreeOn (K : String → Prop) (s t : ReadState) : Prop where
  bindings : ∀ key, K key → s.context.bindings.lookup key = t.context.bindings.lookup key
  resolved : ∀ key, K key → s.context.resolved.lookup key = t.context.resolved.lookup key
  calls : ∀ key provider, K key → s.context.bindings.lookup key = some (.lazy provider) →
    s.calls.count provider.id = t.calls.count provider.id

namespace ReadState.AgreeOn

variable {K : String → Prop} {s t : ReadState}

/-- Of the names that states agree on the same is known. -/
theorem known? (h : AgreeOn K s t) {key : String} (hkey : K key) :
    s.context.known? key = t.context.known? key :=
  Context.known?_congr (h.bindings key hkey) (h.resolved key hkey)

/-- Asking one provider in both states keeps the agreement. It answers alike, because it was asked
as often. -/
theorem afterAsking (h : AgreeOn K s t) {key : String} (hkey : K key) {provider : Provider}
    (hlazy : s.context.bindings.lookup key = some (.lazy provider)) :
    AgreeOn K (s.afterAsking key provider) (t.afterAsking key provider) where
  bindings := h.bindings
  resolved k hk := by
    have hanswer : s.answerOf provider = t.answerOf provider :=
      congrArg provider.answer (h.calls key provider hkey hlazy)
    rw [s.lookup_resolved_afterAsking, t.lookup_resolved_afterAsking, hanswer, h.resolved k hk]
  calls k other hk hother := by
    rw [s.calls_afterAsking, t.calls_afterAsking, Calls.count_bump, Calls.count_bump,
      h.calls k other hk hother]

/-- A read finds the same in states that agree on its name, and keeps the agreement. What it
remembers it remembers in both. -/
theorem get (h : AgreeOn K s t) {key : String} (hkey : K key) :
    s.seen key = t.seen key ∧
      AgreeOn K ((Reading.get key).run s).2 ((Reading.get key).run t).2 := by
  rcases s.seen_cases key with
    ⟨found, hknown, hseen, hget⟩ | ⟨provider, hlazy, hunknown, hseen, hget⟩
  · have hknown' : t.context.known? key = some found := h.known? hkey ▸ hknown
    have hget' := Reading.get_of_known hknown'
    rw [hseen, hget, seen, hget', hknown', Option.isNone_some]
    exact ⟨rfl, h⟩
  · have hunknown' : t.context.known? key = none := h.known? hkey ▸ hunknown
    have hlazy' : t.context.bindings.lookup key = some (.lazy provider) :=
      h.bindings key hkey ▸ hlazy
    have hnone : s.context.resolved.lookup key = none := by
      obtain ⟨_, _, hnone⟩ := Context.known?_eq_none.mp hunknown
      exact hnone
    have hget' := Reading.get_of_lazy hlazy' (h.resolved key hkey ▸ hnone)
    have hanswer : s.answerOf provider = t.answerOf provider :=
      congrArg provider.answer (h.calls key provider hkey hlazy)
    rw [hseen, hget, seen, hget', hunknown', Option.isNone_none, hanswer]
    exact ⟨rfl, h.afterAsking hkey hlazy⟩

end ReadState.AgreeOn

/-- **An inquiry reads and answers alike in states that agree on what it asks for.** By induction on
the inquiry: each read finds the same, and goes on alike. -/
theorem Inquiry.reads_of_agreeOn {α : Type} {K : String → Prop} {inquiry : Inquiry α}
    (h : inquiry.AsksOnly K) {s t : ReadState} (hagree : s.AgreeOn K t) :
    inquiry.reads s = inquiry.reads t ∧
      (inquiry.perform.run s).1 = (inquiry.perform.run t).1 := by
  induction inquiry generalizing s t with
  | answer a => exact ⟨rfl, rfl⟩
  | read key next ih =>
    obtain ⟨hseen, hafter⟩ := hagree.get h.1
    have hfound : ((Reading.get key).run s).1 = ((Reading.get key).run t).1 :=
      congrArg Seen.found hseen
    obtain ⟨hreads, hanswer⟩ := ih _ (h.2 ((Reading.get key).run s).1) hafter
    rw [perform_read_run, perform_read_run, reads, reads, hseen, ← hfound, hreads]
    exact ⟨rfl, hanswer⟩

/-! ## Rules of texts -/

/-- A name that is one of the paths, or the first step of one. -/
def Watched (paths : List String) (key : String) : Prop :=
  ∃ path ∈ paths, key = path ∨ (pathSegments path).head? = some key

/-- The names behind the paths cover each of them. -/
theorem covers_watched {paths : List String} {path : String} (h : path ∈ paths) :
    Covers (Watched paths) path :=
  ⟨⟨path, h, .inl rfl⟩, fun _ hroot => ⟨path, h, .inr hroot⟩⟩

open Dialect.Attempt in
/-- **A rule depends on the fields that its text names, and on nothing else.** In states that agree
on the names behind the paths of the text its rule decides alike, and nowhere does it ask the
provider of another name. -/
theorem Dialect.evaluate_of_agreeOn {dialect : Dialect} {source : String} {rule : Rule}
    {log : List Event} (h : (dialect.parse source).answer log = .ok rule) :
    ∃ paths, (∀ log, (dialect.fields source).answer log = .ok paths) ∧
      (∀ s t : ReadState, s.AgreeOn (Watched paths) t →
        (rule.evaluate.run s).1 = (rule.evaluate.run t).1) ∧
      ∀ s : ReadState, ∃ asked, (rule.evaluate.run s).2.forced = s.forced ++ asked ∧
        ∀ key ∈ asked, Watched paths key := by
  obtain ⟨stream, e, p, hstream, he, hp, rfl⟩ := answer_parse_eq_ok.mp h
  have honly : p.inquiry.AsksOnly (Watched e.fields) := p.asksOnly fun path hpath =>
    covers_watched (Expr.mem_fields.mpr (Predicate.paths_ofExpr hp ▸ hpath))
  refine ⟨e.fields, fun _ => answer_fields_eq_ok.mpr ⟨stream, e, hstream, he, rfl⟩, ?_, ?_⟩
  · intro s t hagree
    rw [Rule.evaluate, ← p.perform_inquiry]
    exact (Inquiry.reads_of_agreeOn honly hagree).2
  · intro s
    rw [Rule.evaluate, ← p.perform_inquiry]
    refine ⟨_, p.inquiry.forced_perform s, fun key hkey => ?_⟩
    obtain ⟨seen, hseen, -⟩ := mem_asks.mp hkey
    obtain ⟨hread, rfl⟩ := mem_ofKey.mp hseen
    exact honly.key_of_mem hread

/-- A record with an age, which is one year more each time it is asked for. -/
def aging : Provider := ⟨1, fun n => .map [("age", .int (.ofNat n))]⟩

/-- The age is behind a lazy name; another lazy name is bound in one of two states only. The
decision is the same, and the one provider that is asked belongs to the watched name. -/
theorem Dialect.evaluate_of_agreeOn_aging :
    let context := Context.empty.bind "user" (.lazy aging)
    let s : ReadState := ⟨context.bind "z" (.lazy ⟨0, fun _ => .null⟩), [7, 18], []⟩
    let t : ReadState := ⟨context, [0, 18], []⟩
    ∃ rule, (Dialect.parse {} "user.age >= 18").answer [] = .ok rule ∧
      s.AgreeOn (Watched ["user.age"]) t ∧ (rule.evaluate.run s).1 = (rule.evaluate.run t).1 ∧
      (rule.evaluate.run s).1 = true ∧ (rule.evaluate.run s).2.forced = ["user"] ∧
      Watched ["user.age"] "user" := by
  intro context s t
  let rule : Rule :=
    ⟨.comparison .greaterOrEqual (.field ⟨"user.age", by decide⟩) (.constant (.int 18)), none⟩
  have hparse : (Dialect.parse {} "user.age >= 18").answer [] = .ok rule := by cbv
  have hfields : (Dialect.fields {} "user.age >= 18").answer [] = .ok ["user.age"] := by cbv
  have hforced : (rule.evaluate.run s).2.forced = ["user"] := by cbv
  have hother : ∀ key, Watched ["user.age"] key → key ≠ "z" := by
    rintro key ⟨path, hpath, hkey⟩ rfl
    obtain rfl := List.mem_singleton.mp hpath
    rcases hkey with hkey | hkey
    · exact absurd hkey (by decide)
    · exact absurd hkey (by decide)
  have hagree : s.AgreeOn (Watched ["user.age"]) t := by
    refine ⟨fun key hkey => ?_, fun key hkey => ?_, fun key provider hkey hlazy => ?_⟩
    · exact (Context.lookup_bindings_bind ..).trans (if_neg (hother key hkey))
    · exact (Context.lookup_resolved_bind ..).trans (if_neg (hother key hkey))
    · have huser := (Context.lookup_bindings_bind ..).symm.trans hlazy
      rw [if_neg (hother key hkey), Context.lookup_bindings_bind] at huser
      split at huser
      · obtain rfl := Binding.lazy.inj (Option.some.inj huser)
        rfl
      · cases huser
  obtain ⟨paths, hpaths, hdecides, hasks⟩ := evaluate_of_agreeOn hparse
  obtain rfl := Except.ok.inj ((hpaths []).symm.trans hfields)
  obtain ⟨asked, hasked, hwatched⟩ := hasks s
  obtain rfl : asked = ["user"] := hasked.symm.trans hforced
  exact ⟨rule, hparse, hagree, hdecides s t hagree, by cbv, hforced,
    hwatched "user" (List.mem_singleton_self _)⟩

end WhereRules
