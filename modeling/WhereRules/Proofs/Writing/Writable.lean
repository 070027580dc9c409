import WhereRules.Proofs.Compilation.Chains
import WhereRules.Proofs.Wildcard.Inversion
import WhereRules.Proofs.Wildcard.Language
import WhereRules.Proofs.Writing.Depth

/-!
# What can be written

Rule text has no words for everything that a predicate may hold. What it has words for is said of
predicates, part by part (`Predicate.Writable`), and a predicate is written exactly when all its
parts are of that kind and it is no deeper than the limit (`exists_written_iff`).

The same is said of expressions (`Expr.Writable`). Compiling neither brings in a part without words
nor loses one (`writable_iff_of_condition`).
-/

namespace WhereRules

/-! ## Predicates -/

mutual

def Operand.Writable : Operand → Prop
  | .constant value => value.Writable
  | .field named => isName named.path = true
  | .pattern _ => False
  | .decision p => p.Writable

/-- Whether rule text has words for each part of a predicate. -/
def Predicate.Writable : Predicate → Prop
  | .comparison _ left right => left.Writable ∧ right.Writable
  | .member _ subject values => subject.Writable ∧ values ≠ [] ∧ ∀ v ∈ values, v.Writable
  | .between subject low high => subject.Writable ∧ low.Writable ∧ high.Writable
  | .matching _ subject pattern =>
    subject.Writable ∧ ∃ text, Like.ofRegex? pattern.source = some text
  | .all first rest => first.Writable ∧ Predicate.WritableEach rest
  | .any first rest => first.Writable ∧ Predicate.WritableEach rest
  | .not p => p.Writable

def Predicate.WritableEach : List Predicate → Prop
  | [] => True
  | p :: rest => p.Writable ∧ Predicate.WritableEach rest

end

namespace Predicate

theorem writableEach_iff {ps : List Predicate} : WritableEach ps ↔ ∀ p ∈ ps, p.Writable := by
  induction ps with
  | nil => simp [WritableEach]
  | cons p ps ih => rw [WritableEach, ih, List.forall_mem_cons]

theorem writable_all {first : Predicate} {rest : List Predicate} :
    (all first rest).Writable ↔ ∀ p ∈ first :: rest, p.Writable := by
  rw [← writableEach_iff, WritableEach, Writable]

theorem writable_any {first : Predicate} {rest : List Predicate} :
    (any first rest).Writable ↔ ∀ p ∈ first :: rest, p.Writable := by
  rw [← writableEach_iff, WritableEach, Writable]

/-- Both kinds of chain in one statement, for proofs that do not ask which connective it is. -/
theorem writable_chain {c : Connective} (hc : c ≠ .not) {first : Predicate}
    {rest : List Predicate} : (chain c first rest).Writable ↔ ∀ p ∈ first :: rest, p.Writable := by
  cases c with
  | and => exact writable_all
  | or => exact writable_any
  | not => exact absurd rfl hc

theorem writable_isNull (subject : Operand) (negated : Bool) :
    (isNull subject negated).Writable ↔ subject.Writable := by
  cases negated <;> simp [isNull, Writable, Operand.Writable, Value.Writable]

/-! ## Writing -/

variable {inner : Predicate → Expr → Prop} {n : Nat}

/-- What an operand is written from has words for each part, and is as deep as the condition in
it. -/
theorem WritesOperand.writable (hinner : ∀ p e, inner p e → p.Writable ∧ p.depth ≤ n) {o : Operand}
    {e : Expr} (h : WritesOperand inner o e) : o.Writable ∧ o.depth ≤ n := by
  cases h with
  | literal hv => exact ⟨hv, Nat.zero_le n⟩
  | field hname => exact ⟨hname, Nat.zero_le n⟩
  | decision hp => exact hinner _ _ hp

/-- Operands that are written one by one have words for each part, and are as deep as the conditions
in them. -/
theorem forall_writable (hinner : ∀ p e, inner p e → p.Writable ∧ p.depth ≤ n)
    {ps : List Predicate} {es : List Expr} (h : List.Forall₂ inner ps es) :
    (∀ p ∈ ps, p.Writable) ∧ ∀ p ∈ ps, p.depth ≤ n := by
  constructor
  all_goals
    intro p hp
    obtain ⟨e, _, he⟩ := exists_of_forall₂_mem h.flip hp
  · exact (hinner p e he).1
  · exact (hinner p e he).2

/-- What is written at one level has words for each part, and is one level deeper than what was
written inside. -/
theorem Writes.writable (hinner : ∀ p e, inner p e → p.Writable ∧ p.depth ≤ n) {p : Predicate}
    {e : Expr} (h : Writes inner p e) : p.Writable ∧ p.depth ≤ n + 1 := by
  cases h with
  | isNull ha | isNotNull ha | notIsNull ha =>
    obtain ⟨hwritable, hdepth⟩ := ha.writable hinner
    refine ⟨?_, Nat.succ_le_succ (Nat.max_le.mpr ⟨hdepth, Nat.zero_le n⟩)⟩
    exact ⟨hwritable, trivial⟩
  | comparison _ ha hb =>
    obtain ⟨hleft, hdepthLeft⟩ := ha.writable hinner
    obtain ⟨hright, hdepthRight⟩ := hb.writable hinner
    exact ⟨⟨hleft, hright⟩, Nat.succ_le_succ (Nat.max_le.mpr ⟨hdepthLeft, hdepthRight⟩)⟩
  | member _ hne hvalues ha =>
    obtain ⟨hwritable, hdepth⟩ := ha.writable hinner
    exact ⟨⟨hwritable, hne, hvalues⟩, Nat.succ_le_succ hdepth⟩
  | between ha hb hc =>
    obtain ⟨hsubject, hdepthSubject⟩ := ha.writable hinner
    obtain ⟨hlow, hdepthLow⟩ := hb.writable hinner
    obtain ⟨hhigh, hdepthHigh⟩ := hc.writable hinner
    exact ⟨⟨hsubject, hlow, hhigh⟩, Nat.succ_le_succ (Nat.max_le.mpr
      ⟨hdepthSubject, Nat.max_le.mpr ⟨hdepthLow, hdepthHigh⟩⟩)⟩
  | matching _ hlike ha =>
    obtain ⟨hwritable, hdepth⟩ := ha.writable hinner
    exact ⟨⟨hwritable, _, hlike⟩, Nat.succ_le_succ hdepth⟩
  | all h =>
    obtain ⟨hwritable, hdepth⟩ := forall_writable hinner h
    exact ⟨writable_all.mpr hwritable, depth_chain_le (c := .and) (by decide) hdepth⟩
  | any h =>
    obtain ⟨hwritable, hdepth⟩ := forall_writable hinner h
    exact ⟨writable_any.mpr hwritable, depth_chain_le (c := .or) (by decide) hdepth⟩
  | not hnull hp =>
    obtain ⟨hwritable, hdepth⟩ := hinner _ _ hp
    refine ⟨hwritable, ?_⟩
    rw [depth, hnull, if_neg Bool.false_ne_true]
    exact Nat.succ_le_succ hdepth

/-- An operand with words for each part is written if the condition that it may be is. -/
theorem exists_writesOperand (hinner : ∀ p, p.Writable → p.depth ≤ n → ∃ e, inner p e) {o : Operand}
    (h : o.Writable) (hdepth : o.depth ≤ n) : ∃ e, WritesOperand inner o e := by
  cases o with
  | constant v => exact ⟨_, .literal h⟩
  | field named => exact ⟨_, .field h⟩
  | pattern _ => exact h.elim
  | decision p =>
    obtain ⟨e, he⟩ := hinner p h hdepth
    exact ⟨e, .decision he⟩

/-- Operands with words for each part are written one by one. -/
theorem exists_forall₂_writes (hinner : ∀ p, p.Writable → p.depth ≤ n → ∃ e, inner p e)
    {ps : List Predicate} (h : ∀ p ∈ ps, p.Writable) (hdepth : ∀ p ∈ ps, p.depth ≤ n) :
    ∃ es, List.Forall₂ inner ps es := by
  induction ps with
  | nil => exact ⟨[], .nil⟩
  | cons p ps ih =>
    obtain ⟨hp, hps⟩ := List.forall_mem_cons.mp h
    obtain ⟨hdepthp, hdepthps⟩ := List.forall_mem_cons.mp hdepth
    obtain ⟨e, he⟩ := hinner p hp hdepthp
    obtain ⟨es, hes⟩ := ih hps hdepthps
    exact ⟨e :: es, .cons he hes⟩

/-- A comparison is written at one level, as a null test or as itself. -/
theorem exists_writes_comparison {relation : Relation} {left right : Operand} {a b : Expr}
    (ha : WritesOperand inner left a) (hb : WritesOperand inner right b) :
    ∃ e, Writes inner (comparison relation left right) e := by
  cases htest : relation.testsNull right with
  | false => exact ⟨_, .comparison htest ha hb⟩
  | true =>
    unfold Relation.testsNull at htest
    split at htest
    · exact ⟨_, .isNull ha⟩
    · exact ⟨_, .isNotNull ha⟩
    · cases htest

/-- One level of what has words for each part is written if what is inside is. The cases are the
forms of predicates, with the two kinds of null tests first. -/
theorem exists_writes (hinner : ∀ p, p.Writable → p.depth ≤ n → ∃ e, inner p e) {p : Predicate}
    (h : p.Writable) (hdepth : p.depth ≤ n + 1) : ∃ e, Writes inner p e := by
  cases p with
  | comparison relation left right =>
    obtain ⟨hleft, hright⟩ := h
    obtain ⟨hdepthLeft, hdepthRight⟩ := Nat.max_le.mp (Nat.le_of_succ_le_succ hdepth)
    obtain ⟨a, ha⟩ := exists_writesOperand hinner hleft hdepthLeft
    obtain ⟨b, hb⟩ := exists_writesOperand hinner hright hdepthRight
    exact exists_writes_comparison ha hb
  | member negated subject values =>
    obtain ⟨hsubject, hne, hvalues⟩ := h
    obtain ⟨a, ha⟩ := exists_writesOperand hinner hsubject (Nat.le_of_succ_le_succ hdepth)
    exact ⟨_, .member negated hne hvalues ha⟩
  | between subject low high =>
    obtain ⟨hsubject, hlow, hhigh⟩ := h
    obtain ⟨hdepthSubject, hdepthBounds⟩ := Nat.max_le.mp (Nat.le_of_succ_le_succ hdepth)
    obtain ⟨hdepthLow, hdepthHigh⟩ := Nat.max_le.mp hdepthBounds
    obtain ⟨a, ha⟩ := exists_writesOperand hinner hsubject hdepthSubject
    obtain ⟨b, hb⟩ := exists_writesOperand hinner hlow hdepthLow
    obtain ⟨c, hc⟩ := exists_writesOperand hinner hhigh hdepthHigh
    exact ⟨_, .between ha hb hc⟩
  | matching negated subject pattern =>
    obtain ⟨hsubject, text, hlike⟩ := h
    obtain ⟨a, ha⟩ := exists_writesOperand hinner hsubject (Nat.le_of_succ_le_succ hdepth)
    exact ⟨_, .matching negated hlike ha⟩
  | all first rest =>
    obtain ⟨es, hes⟩ := exists_forall₂_writes hinner (writable_all.mp h) (depth_operands_le hdepth)
    exact ⟨_, .all hes⟩
  | any first rest =>
    obtain ⟨es, hes⟩ := exists_forall₂_writes hinner (writable_any.mp h) (depth_operands_le hdepth)
    exact ⟨_, .any hes⟩
  | not p =>
    cases hnull : p.isNullTest with
    | false =>
      rw [depth, hnull, if_neg Bool.false_ne_true] at hdepth
      obtain ⟨e, he⟩ := hinner p h (Nat.le_of_succ_le_succ hdepth)
      exact ⟨_, .not hnull he⟩
    | true =>
      -- A negated null test takes one level for both.
      rw [depth, hnull, if_pos rfl] at hdepth
      obtain ⟨subject, rfl⟩ := exists_of_isNullTest hnull
      obtain ⟨a, ha⟩ := exists_writesOperand hinner h.1 (depth_subject_le hdepth)
      exact ⟨_, .notIsNull ha⟩

end Predicate

/-- **A predicate is written exactly when rule text has words for each part of it and there is room
for its depth.** One direction is `Writes.writable`, the other `exists_writes`, both by induction on
the room. -/
theorem Expr.exists_written_iff {limit room : Nat} {p : Predicate} :
    (∃ e, written limit room p = .ok e) ↔ p.Writable ∧ p.depth ≤ room := by
  induction room generalizing p with
  | zero =>
    constructor
    · rintro ⟨e, he⟩
      cases he
    · rintro ⟨-, hdepth⟩
      exact absurd hdepth (Nat.not_le_of_lt p.depth_pos)
  | succ room ih =>
    simp only [written_succ_eq_ok]
    constructor
    · rintro ⟨e, he⟩
      exact he.writable fun q f hf => ih.mp ⟨f, hf⟩
    · rintro ⟨hwritable, hdepth⟩
      exact Predicate.exists_writes (fun q hq hdepth => ih.mpr ⟨hq, hdepth⟩) hwritable hdepth

/-! ## Expressions -/

namespace Expr

mutual

/-- Whether rule text has words for each part of an expression. A wildcard text is written as it
is. -/
def Writable : Expr → Prop
  | literal value => value.Writable
  | field path => isName path = true
  | comparison _ left right => left.Writable ∧ right.Writable
  | logical _ operands => WritableEach operands
  | member subject values _ => subject.Writable ∧ values ≠ [] ∧ ∀ v ∈ values, v.Writable
  | between subject low high => subject.Writable ∧ low.Writable ∧ high.Writable
  | like subject _ _ => subject.Writable
  | isNull subject _ => subject.Writable

def WritableEach : List Expr → Prop
  | [] => True
  | e :: rest => e.Writable ∧ WritableEach rest

end

theorem writableEach_iff {es : List Expr} : WritableEach es ↔ ∀ e ∈ es, e.Writable := by
  induction es with
  | nil => simp [WritableEach]
  | cons e es ih => rw [WritableEach, ih, List.forall_mem_cons]

theorem writableEach_append {es fs : List Expr} :
    WritableEach (es ++ fs) ↔ WritableEach es ∧ WritableEach fs := by
  simp only [writableEach_iff, List.forall_mem_append]

/-- Opening the chains of a connective changes nothing about which parts there are. -/
theorem writableEach_flatten {c : Connective} {es : List Expr} :
    WritableEach (flatten c es) ↔ WritableEach es := by
  fun_induction flatten c es with
  | case1 => exact Iff.rfl
  | case2 operands rest ih => rw [ih, writableEach_append, WritableEach, Writable]
  | case3 d operands rest _ ih | case4 e rest _ ih => rw [WritableEach, WritableEach, ih]

/-! ## Compiling -/

variable {resolve : Resolver} {inner : Expr → Predicate → Prop}

/-- An operand has words for each part just when its expression does. A literal keeps its value, and
a field its path. -/
theorem CompilesOperand.writable_iff
    (hresolve : ∀ {path named}, resolve path = .ok named → named.path = path)
    (hinner : ∀ e p, inner e p → (p.Writable ↔ e.Writable)) {e : Expr} {o : Operand}
    (h : CompilesOperand resolve inner e o) : o.Writable ↔ e.Writable := by
  cases h with
  | literal v => exact Iff.rfl
  | field hnamed => rw [Operand.Writable, Writable, hresolve hnamed]
  | decision _ hp => exact hinner _ _ hp

/-- One level of compiling keeps what can be written. A wildcard text always can, and the pattern
that is made of it can be turned back. -/
theorem Compiles.writable_iff
    (hresolve : ∀ {path named}, resolve path = .ok named → named.path = path)
    (hinner : ∀ e p, inner e p → (p.Writable ↔ e.Writable)) {e : Expr} {p : Predicate}
    (h : Compiles resolve inner e p) : p.Writable ↔ e.Writable := by
  cases h with
  | comparison sign ha hb =>
    exact and_congr (ha.writable_iff hresolve hinner) (hb.writable_iff hresolve hinner)
  | @chain c operands first rest hc hps =>
    rw [Predicate.writable_chain hc, Writable, ← writableEach_flatten (c := c), writableEach_iff]
    constructor
    · intro h e he
      obtain ⟨p, hp, hep⟩ := exists_of_forall₂_mem hps.flip he
      exact (hinner e p hep).mp (h p hp)
    · intro h p hp
      obtain ⟨e, he, hep⟩ := exists_of_forall₂_mem hps hp
      exact (hinner e p hep).mpr (h e he)
  | negation hp =>
    rw [Predicate.Writable, Expr.negation, Writable, WritableEach, WritableEach, and_true]
    exact hinner _ _ hp
  | member negated values ha => exact and_congr_left' (ha.writable_iff hresolve hinner)
  | between ha hb hc =>
    exact and_congr (ha.writable_iff hresolve hinner)
      (and_congr (hb.writable_iff hresolve hinner) (hc.writable_iff hresolve hinner))
  | like negated ha hpattern =>
    rw [Predicate.Writable, Writable, ha.writable_iff hresolve hinner,
      Pattern.source_of_ofText? hpattern, Like.ofRegex?_toRegex]
    exact and_iff_left ⟨_, rfl⟩
  | isNull negated ha =>
    rw [Predicate.writable_isNull, Writable]
    exact ha.writable_iff hresolve hinner

/-- **Compiling keeps what can be written and what cannot**, as long as fields keep their paths. -/
theorem writable_iff_of_condition
    (hresolve : ∀ {path named}, resolve path = .ok named → named.path = path) {limit room : Nat}
    {e : Expr} {p : Predicate} (h : condition resolve limit room e = .ok p) :
    p.Writable ↔ e.Writable := by
  induction room generalizing e p with
  | zero => cases h
  | succ room ih => exact (condition_succ_eq_ok.mp h).writable_iff hresolve fun _ _ => ih

end Expr

end WhereRules
