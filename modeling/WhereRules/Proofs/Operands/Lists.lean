import WhereRules.Proofs.Compilation.Malformed
import WhereRules.Proofs.Grammar.Soundness
import WhereRules.Proofs.Operands.Written
import WhereRules.Proofs.Writing.Refusals

/-!
# What is made is well formed

Of the checks that writing a loose predicate takes, one can fail for what the makers make: that the
list of a membership is not empty. A predicate is refused for an empty list just if it holds one
(`Predicate.holdsEmptyList_iff`). The grammar has no empty lists (`Expr.Derives.listed`) and
compiling makes none, so for a rule that was read this cannot happen either
(`Expr.not_holdsEmptyList_of_ofTokens`).
-/

namespace WhereRules

/-! ## Empty lists -/

/-- Somewhere a membership in an empty list. -/
def LoosePredicate.HoldsEmptyList (negated : Bool) (r : LoosePredicate) : Prop :=
  ∃ subject, (mk (.member negated) [subject, .constant (.list [])]).Within r

/-- What an operand holds the whole holds. -/
theorem LoosePredicate.HoldsEmptyList.of_operand {negated : Bool} {inner r : LoosePredicate}
    (h : inner.HoldsEmptyList negated) (hinner : .decision inner ∈ r.operands) :
    r.HoldsEmptyList negated := by
  obtain ⟨subject, hsubject⟩ := h
  exact ⟨subject, .operand hinner hsubject⟩

/-- No value is refused for an empty list, not even one that is a list. -/
theorem Value.emptyList_notMem_refusals (negated : Bool) (v : Value) :
    .emptyList negated ∉ v.refusals := by
  cases v with
  | number x =>
    rw [refusals]
    split <;> simp
  | list _ | map _ => simp [refusals]
  | _ => exact List.not_mem_nil

section Refused

variable {negated : Bool}

mutual

/-- An operand is refused for an empty list only if what stands in it holds one. -/
theorem Operand.holdsEmptyList_of_mem : (o : Operand) → .emptyList negated ∈ o.refusals →
    ∀ r : LoosePredicate, o.loose ∈ r.operands → r.HoldsEmptyList negated
  | .constant v, h, _, _ => absurd h (v.emptyList_notMem_refusals negated)
  | .field named, h, _, _ => by
    rw [Operand.refusals] at h
    split at h <;> simp at h
  | .pattern _, h, _, _ => by simp [Operand.refusals] at h
  | .decision p, h, r, hr => by
    rw [Operand.loose] at hr
    exact (p.holdsEmptyList_of_mem h).of_operand hr

/-- A predicate is refused for an empty list only if it holds one. The induction goes through
predicates and operands together. -/
theorem Predicate.holdsEmptyList_of_mem : (p : Predicate) → .emptyList negated ∈ p.refusals →
    p.loose.HoldsEmptyList negated
  | .comparison _ left right, h => by
    rw [Predicate.loose]
    rcases List.mem_append.mp h with hleft | hright
    · exact left.holdsEmptyList_of_mem hleft _ List.mem_cons_self
    · exact right.holdsEmptyList_of_mem hright _ (List.mem_cons_of_mem _ List.mem_cons_self)
  | .member _ subject values, h => by
    rw [Predicate.refusals, List.mem_append, List.mem_append] at h
    rw [Predicate.loose]
    rcases h with (hempty | hvalues) | hsubject
    · split at hempty
      · next hnil =>
        obtain rfl := List.isEmpty_iff.mp hnil
        cases List.mem_singleton.mp hempty
        exact ⟨_, .self⟩
      · cases hempty
    · obtain ⟨v, _, hv⟩ := List.mem_flatMap.mp hvalues
      exact absurd hv (v.emptyList_notMem_refusals negated)
    · exact subject.holdsEmptyList_of_mem hsubject _ List.mem_cons_self
  | .between subject low high, h => by
    rw [Predicate.refusals, List.mem_append, List.mem_append] at h
    rw [Predicate.loose]
    rcases h with (hsubject | hlow) | hhigh
    · exact subject.holdsEmptyList_of_mem hsubject _ List.mem_cons_self
    · exact low.holdsEmptyList_of_mem hlow _ (List.mem_cons_of_mem _ List.mem_cons_self)
    · exact high.holdsEmptyList_of_mem hhigh _
        (List.mem_cons_of_mem _ (List.mem_cons_of_mem _ List.mem_cons_self))
  | .matching _ subject pattern, h => by
    rw [Predicate.refusals, List.mem_append] at h
    rw [Predicate.loose]
    rcases h with hpattern | hsubject
    · rw [Pattern.refusals] at hpattern
      split at hpattern <;> simp at hpattern
    · exact subject.holdsEmptyList_of_mem hsubject _ List.mem_cons_self
  | .all first rest, h | .any first rest, h => by
    rw [Predicate.loose]
    rcases List.mem_append.mp h with hfirst | hrest
    · exact (first.holdsEmptyList_of_mem hfirst).of_operand List.mem_cons_self
    · obtain ⟨inner, hmem, hinner⟩ := Predicate.holdsEmptyList_of_memEach rest hrest
      exact hinner.of_operand (List.mem_cons_of_mem _ hmem)
  | .not p, h => by
    rw [Predicate.loose]
    exact (p.holdsEmptyList_of_mem h).of_operand List.mem_cons_self

/-- The operands of a chain are refused for an empty list only if one of them holds one. -/
theorem Predicate.holdsEmptyList_of_memEach : (ps : List Predicate) →
    .emptyList negated ∈ Predicate.refusalsEach ps →
      ∃ inner, .decision inner ∈ Predicate.looseEach ps ∧ inner.HoldsEmptyList negated
  | [], h => absurd h List.not_mem_nil
  | p :: rest, h => by
    rw [Predicate.looseEach]
    rcases List.mem_append.mp h with hp | hrest
    · exact ⟨_, List.mem_cons_self, p.holdsEmptyList_of_mem hp⟩
    · obtain ⟨inner, hmem, hinner⟩ := Predicate.holdsEmptyList_of_memEach rest hrest
      exact ⟨inner, List.mem_cons_of_mem _ hmem, hinner⟩

end

namespace Predicate

/-- What refuses a predicate in an operand refuses the whole. The cases are the operators, each with
the places in which a predicate may stand. -/
theorem refusals_subset {p q : Predicate} (h : .decision q ∈ p.operands) :
    q.refusals ⊆ p.refusals := by
  intro error herror
  have hoperand : ∀ o : Operand, .decision q = o → error ∈ o.refusals := by
    rintro o rfl
    exact herror
  cases p with
  | comparison _ left right =>
    simp only [operands, List.mem_cons, List.not_mem_nil, or_false] at h
    rw [refusals, List.mem_append]
    exact h.imp (hoperand left) (hoperand right)
  | member _ subject values =>
    simp only [operands, List.mem_cons, List.not_mem_nil, or_false, reduceCtorEq] at h
    rw [refusals, List.mem_append]
    exact .inr (hoperand subject h)
  | between subject low high =>
    simp only [operands, List.mem_cons, List.not_mem_nil, or_false] at h
    rw [refusals, List.mem_append, List.mem_append, or_assoc]
    exact h.imp (hoperand subject) (Or.imp (hoperand low) (hoperand high))
  | matching _ subject pattern =>
    simp only [operands, List.mem_cons, List.not_mem_nil, or_false, reduceCtorEq] at h
    rw [refusals, List.mem_append]
    exact .inr (hoperand subject h)
  | all first rest | any first rest =>
    rw [operands, ← List.map_cons, List.mem_map] at h
    obtain ⟨p, hp, hdecision⟩ := h
    cases hdecision
    rw [refusals, ← refusalsEach, mem_refusalsEach]
    exact ⟨q, hp, herror⟩
  | not p =>
    cases List.mem_singleton.mp h
    exact herror

/-- An empty list anywhere in a predicate refuses it. By induction from the list outwards, one
operator at a time. -/
theorem mem_of_holdsEmptyList {p : Predicate} (h : p.loose.HoldsEmptyList negated) :
    .emptyList negated ∈ p.refusals := by
  obtain ⟨subject, h⟩ := h
  generalize hr : p.loose = r at h
  induction h generalizing p with
  | self =>
    cases p with
    | member negated' subject' values =>
      rw [loose] at hr
      cases hr
      exact List.mem_append_left _ (List.mem_append_left _ List.mem_cons_self)
    | _ =>
      rw [loose] at hr
      cases hr
  | operand hmem _ ih =>
    subst hr
    rw [operands_loose] at hmem
    obtain ⟨o, ho, hloose⟩ := List.mem_map.mp hmem
    obtain ⟨q, rfl, rfl⟩ := Operand.exists_of_loose_eq_decision hloose
    exact refusals_subset ho (ih rfl)

/-- **A predicate is refused for an empty list just if it holds one.** -/
theorem holdsEmptyList_iff {p : Predicate} :
    p.loose.HoldsEmptyList negated ↔ .emptyList negated ∈ p.refusals :=
  ⟨mem_of_holdsEmptyList, p.holdsEmptyList_of_mem⟩

end Predicate

end Refused

/-- **Only an empty list makes a predicate malformed.** All other checks that writing takes are
about operands that the view of a predicate always has. -/
theorem Predicate.of_toText_eq_malformed {p : Predicate} {limit : Nat} {operator : Operator}
    {misfit : Misfit} (h : p.loose.toText limit = .error (.malformed operator misfit)) :
    ∃ negated, operator = .member negated ∧ misfit = .noValues ∧
      p.loose.HoldsEmptyList negated := by
  rw [toText_loose] at h
  cases htext : p.toText limit with
  | ok text =>
    rw [htext] at h
    cases h
  | error error =>
    rw [htext] at h
    obtain ⟨negated, rfl, rfl, rfl⟩ := WriteError.eq_emptyList_of_loose (Except.error.inj h)
    refine ⟨negated, rfl, rfl, holdsEmptyList_iff.mpr ?_⟩
    rcases Expr.refuses_of_written (map_eq_error.mp htext) with hdeep | hmem
    · cases hdeep
    · exact hmem

/-! ## Lists of rule text -/

namespace Expr

/-- Whether an expression is a membership in an empty list. -/
def isEmptyMember : Expr → Bool
  | member _ [] _ => true
  | _ => false

/-- No membership in an expression is in an empty list. -/
def Listed (e : Expr) : Prop := ∀ f : Expr, f.Within e → f.isEmptyMember = false

/-- An expression has no empty list when its own node is none and its children have none. -/
theorem listed_iff {e : Expr} :
    e.Listed ↔ e.isEmptyMember = false ∧ ∀ f ∈ e.children, f.Listed :=
  forall_within_iff

/-- Folding operands to the left makes no list. -/
theorem listed_foldl {α : Type} {c : Connective} {parts : List (α × Expr)} {e : Expr}
    (he : e.Listed) (hparts : ∀ part ∈ parts, part.2.Listed) :
    (parts.foldl (fun left part => logical c [left, part.2]) e).Listed := by
  induction parts generalizing e with
  | nil => exact he
  | cons part parts ih =>
    obtain ⟨hpart, hparts⟩ := List.forall_mem_cons.mp hparts
    have hpair : (logical c [e, part.2]).Listed :=
      listed_iff.mpr ⟨rfl, List.forall_mem_cons.mpr ⟨he, List.forall_mem_singleton.mpr hpart⟩⟩
    exact ih hpair hparts

/-- What a suffix belongs to has no empty list. -/
def Phrase.LeftListed : Phrase → Prop
  | .suffix left => left.Listed
  | _ => True

/-- **The grammar has no empty lists**: what `IN` takes is one literal at least. The induction is on
the derivation, and every other form only passes on the lists of its parts. -/
theorem Derives.listed {phrase : Phrase} {ts : List Token} {e : Expr} (h : Derives phrase ts e)
    (hleft : phrase.LeftListed) : e.Listed := by
  induction h with
  | expr _ ih | notNegated _ ih | groupAlone _ ih | group _ ih => exact ih trivial
  | orExpr _ _ ih ihs | andExpr _ _ ih ihs =>
    exact listed_foldl (ih trivial) fun part hpart => ihs part hpart trivial
  | not _ ih => exact listed_iff.mpr ⟨rfl, List.forall_mem_singleton.mpr (ih trivial)⟩
  | groupCompared _ _ ih ihs | compared _ _ ih ihs => exact ihs (ih trivial)
  | sign s _ ih =>
    exact listed_iff.mpr ⟨rfl, List.forall_mem_cons.mpr
      ⟨hleft, List.forall_mem_singleton.mpr (ih trivial)⟩⟩
  | isNull _ | like _ _ | member _ _ _ =>
    exact listed_iff.mpr ⟨rfl, List.forall_mem_singleton.mpr hleft⟩
  | between _ _ ih ihs =>
    exact listed_iff.mpr ⟨rfl, List.forall_mem_cons.mpr ⟨hleft, List.forall_mem_cons.mpr
      ⟨ih trivial, List.forall_mem_singleton.mpr (ihs trivial)⟩⟩⟩
  | literal _ | field _ => exact listed_iff.mpr ⟨rfl, List.forall_mem_nil _⟩

/-- Opening chains makes no list either. What it brings up stood in the operands. -/
theorem Listed.of_mem_flatten {c : Connective} {es : List Expr} (h : ∀ e ∈ es, e.Listed) :
    ∀ e ∈ flatten c es, e.Listed := by
  induction es using flatten_induct c with
  | nil =>
    rw [flatten]
    exact List.forall_mem_nil _
  | opened operands rest ih =>
    obtain ⟨hfirst, hrest⟩ := List.forall_mem_cons.mp h
    rw [flatten_logical_self]
    exact ih (List.forall_mem_append.mpr ⟨(listed_iff.mp hfirst).2, hrest⟩)
  | kept e rest hcontinues ih =>
    obtain ⟨hfirst, hrest⟩ := List.forall_mem_cons.mp h
    rw [flatten_of_not_continues hcontinues]
    exact List.forall_mem_cons.mpr ⟨hfirst, ih hrest⟩

section Compiling

variable {resolve : Resolver} {inner : Expr → Predicate → Prop} {negated : Bool}

/-- A compiled operand is refused for no empty list, if the conditions in it are not. A constant
that is a list is refused, but not for being empty. -/
theorem CompilesOperand.emptyList_notMem
    (hinner : ∀ e p, e.Listed → inner e p → .emptyList negated ∉ p.refusals) {e : Expr} {o : Operand}
    (hlisted : e.Listed) (h : CompilesOperand resolve inner e o) :
    .emptyList negated ∉ o.refusals := by
  cases h with
  | literal v => exact v.emptyList_notMem_refusals negated
  | field _ =>
    rw [Operand.refusals]
    split <;> simp
  | decision _ hp => exact hinner _ _ hlisted hp

/-- A compiled null test is refused for no empty list, if its subject is not. -/
theorem emptyList_notMem_isNull {o : Operand} (h : .emptyList negated ∉ o.refusals)
    (asked : Bool) : .emptyList negated ∉ (Predicate.isNull o asked).refusals := by
  cases asked <;> simpa [Predicate.isNull, Predicate.refusals, Operand.refusals, Value.refusals]

/-- What was compiled of an expression without empty lists is refused for none. The cases are those
of compiling, and a list goes into the predicate as it is. -/
theorem Compiles.emptyList_notMem
    (hinner : ∀ e p, e.Listed → inner e p → .emptyList negated ∉ p.refusals) {e : Expr}
    {p : Predicate} (hlisted : e.Listed) (h : Compiles resolve inner e p) :
    .emptyList negated ∉ p.refusals := by
  obtain ⟨hself, hchildren⟩ := listed_iff.mp hlisted
  have hoperand : ∀ f ∈ e.children, ∀ {o : Operand}, CompilesOperand resolve inner f o →
      .emptyList negated ∉ o.refusals := fun f hf o ho =>
    ho.emptyList_notMem hinner (hchildren f hf)
  cases h with
  | comparison _ ha hb =>
    rw [Predicate.refusals, List.mem_append, not_or]
    exact ⟨hoperand _ List.mem_cons_self ha,
      hoperand _ (List.mem_cons_of_mem _ List.mem_cons_self) hb⟩
  | @chain c operands first rest hc hps =>
    have heach : .emptyList negated ∉ Predicate.refusalsEach (first :: rest) := by
      rw [Predicate.mem_refusalsEach]
      rintro ⟨p, hp, hmem⟩
      obtain ⟨f, hf, hcompiled⟩ := exists_of_forall₂_mem hps hp
      exact hinner f p (Listed.of_mem_flatten hchildren f hf) hcompiled hmem
    cases c with
    | and | or => exact heach
    | not => exact absurd rfl hc
  | negation hp =>
    rw [Predicate.refusals]
    exact hinner _ _ (hchildren _ List.mem_cons_self) hp
  | member negated' values ha =>
    rw [Predicate.refusals, List.mem_append, List.mem_append, not_or, not_or]
    refine ⟨⟨?_, fun hmem => ?_⟩, hoperand _ List.mem_cons_self ha⟩
    · cases values with
      | nil => cases hself
      | cons v vs => exact List.not_mem_nil
    · obtain ⟨v, _, hv⟩ := List.mem_flatMap.mp hmem
      exact v.emptyList_notMem_refusals negated hv
  | between ha hb hc =>
    rw [Predicate.refusals, List.mem_append, List.mem_append, not_or, not_or]
    exact ⟨⟨hoperand _ List.mem_cons_self ha,
      hoperand _ (List.mem_cons_of_mem _ List.mem_cons_self) hb⟩,
      hoperand _ (List.mem_cons_of_mem _ (List.mem_cons_of_mem _ List.mem_cons_self)) hc⟩
  | like _ ha _ =>
    rw [Predicate.refusals, List.mem_append, not_or, Pattern.refusals]
    refine ⟨?_, hoperand _ List.mem_cons_self ha⟩
    split <;> simp
  | isNull asked ha => exact emptyList_notMem_isNull (hoperand _ List.mem_cons_self ha) asked

/-- What compiles of an expression without empty lists is refused for none, in whatever room. By
induction on the room. -/
theorem Listed.emptyList_notMem {limit room : Nat} {e : Expr} {p : Predicate} (hlisted : e.Listed)
    (h : condition resolve limit room e = .ok p) : .emptyList negated ∉ p.refusals := by
  induction room generalizing e p with
  | zero => cases h
  | succ room ih =>
    exact (condition_succ_eq_ok.mp h).emptyList_notMem (fun _ _ => ih) hlisted

end Compiling

/-- **A rule that was read holds no empty list.** -/
theorem not_holdsEmptyList_of_ofTokens {limit room : Nat} {stream : TokenStream} {e : Expr}
    {resolve : Resolver} {p : Predicate} (he : ofTokens limit stream = .ok e)
    (hp : Predicate.ofExpr resolve room e = .ok p) (negated : Bool) :
    ¬ p.loose.HoldsEmptyList negated := by
  rw [Predicate.holdsEmptyList_iff]
  exact ((derives_of_ofTokens he).listed trivial).emptyList_notMem hp

end Expr

/-! ## What is made is well formed -/

/-- **Predicates are well formed by the way they are made.** What the makers and the compiler make, in
any number of uses, is the view of a predicate. Each of its nodes has the operands that its operator
takes, so looking them up never misses one, and the decision and what it reads are those of the
predicate, in every state of every context. It is written as the predicate is, and called malformed
only for a membership in an empty list somewhere in it. In what was compiled from a text there is
no such list. -/
theorem LoosePredicate.wellFormed_of_made :
    (∀ r : LoosePredicate, r.Made →
      (∀ q : LoosePredicate, q.Within r → q.operator.Takes q.operands) ∧
      (∃ p : Predicate, p.loose = r ∧
        (∀ state : ReadState, r.evaluate.run state =
          (some (p.evaluate.run state).1, (p.evaluate.run state).2)) ∧
        ∀ limit, r.toText limit = (p.toText limit).mapError WriteError.loose) ∧
      ∀ limit operator misfit, r.toText limit = .error (.malformed operator misfit) →
        ∃ negated, operator = .member negated ∧ misfit = .noValues ∧ r.HoldsEmptyList negated) ∧
    ∀ limit source stream e resolve room p, TokenStream.ofText source = .ok stream →
      Expr.ofTokens limit stream = .ok e → Predicate.ofExpr resolve room e = .ok p →
        (∀ negated, ¬ p.loose.HoldsEmptyList negated) ∧
        ∀ limit' operator misfit, p.loose.toText limit' ≠ .error (.malformed operator misfit) := by
  constructor
  · intro r hr
    obtain ⟨p, rfl⟩ := hr.exists_predicate
    refine ⟨fun q hq => Predicate.takes_of_within hq, ⟨p, rfl, fun state => ?_, fun limit => ?_⟩, ?_⟩
    · rw [p.evaluate_loose]
      rfl
    · exact Predicate.toText_loose limit p
    · intro limit operator misfit h
      exact Predicate.of_toText_eq_malformed h
  · intro limit source stream e resolve room p _ he hp
    have hnone := Expr.not_holdsEmptyList_of_ofTokens he hp
    refine ⟨hnone, fun limit' operator misfit h => ?_⟩
    obtain ⟨negated, -, -, hholds⟩ := Predicate.of_toText_eq_malformed h
    exact hnone negated hholds

/-- `NOT (NULL NOT IN ())`, which no text says. -/
def LoosePredicate.negatedEmptyList : LoosePredicate :=
  mk .not [.decision (mk (.member true) [.constant .null, .constant (.list [])])]

/-- `a IN (1)` -/
def TokenStream.amongOne : TokenStream where
  tokens := [⟨.identifier "a", 0⟩, ⟨.keyword .among, 2⟩, ⟨.leftParen, 5⟩, ⟨.int 1, 6⟩,
    ⟨.rightParen, 7⟩]
  stop := 8

/-- What is made by hand may hold an empty list, and is well formed but for that; a membership that
was read has a list that is not empty. -/
theorem LoosePredicate.wellFormed_negatedEmptyList :
    negatedEmptyList.Made ∧
      (∀ q : LoosePredicate, q.Within negatedEmptyList → q.operator.Takes q.operands) ∧
      negatedEmptyList.toText 2 = .error (.malformed (.member true) .noValues) ∧
      (∃ negated, Operator.member true = .member negated ∧ Misfit.noValues = .noValues ∧
        negatedEmptyList.HoldsEmptyList negated) ∧
      ∃ e p, TokenStream.ofText "a IN (1)" = .ok .amongOne ∧ Expr.ofTokens 1 .amongOne = .ok e ∧
        Predicate.ofExpr FieldPolicy.any.resolve 1 e = .ok p ∧
        ∀ negated, ¬ p.loose.HoldsEmptyList negated := by
  have hmade : negatedEmptyList.Made :=
    .not (.member true [] fun q hq => by cases List.mem_singleton.mp hq)
  have htext : negatedEmptyList.toText 2 = .error (.malformed (.member true) .noValues) := rfl
  obtain ⟨htakes, -, hmalformed⟩ := wellFormed_of_made.1 negatedEmptyList hmade
  have hstream : TokenStream.ofText "a IN (1)" = .ok .amongOne := by cbv
  have he : Expr.ofTokens 1 .amongOne = .ok (.member (.field "a") [.int 1] false) := by cbv
  obtain ⟨p, hp⟩ : ∃ p, Predicate.ofExpr FieldPolicy.any.resolve 1
      (.member (.field "a") [.int 1] false) = .ok p := ⟨_, rfl⟩
  obtain ⟨hnone, -⟩ := wellFormed_of_made.2 _ _ _ _ _ _ _ hstream he hp
  exact ⟨hmade, htakes, htext, hmalformed 2 _ _ htext, _, p, hstream, he, hp, hnone⟩

end WhereRules
