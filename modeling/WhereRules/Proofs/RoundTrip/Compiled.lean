import WhereRules.Proofs.Grammar.Trees
import WhereRules.Proofs.RoundTrip.Reread
import WhereRules.Proofs.Wildcard.Language

/-!
# The shape of compiled predicates

What all predicates have in common that were compiled from rule text. A chain in them has at least
two operands, none of them a chain of its own connective (`flattened_of_condition`), for a chain in
rule text has two and was opened. And each of their patterns is that of a wildcard text
(`patterns_of_condition`); of the second nothing need be known of the expression.
-/

namespace WhereRules

mutual

def Operand.patterns : Operand → List Pattern
  | .decision p => p.patterns
  | .pattern pattern => [pattern]
  | .constant _ | .field _ => []

/-- The patterns in a predicate, in their order. -/
def Predicate.patterns : Predicate → List Pattern
  | .comparison _ left right => left.patterns ++ right.patterns
  | .member _ subject _ => subject.patterns
  | .between subject low high => subject.patterns ++ (low.patterns ++ high.patterns)
  | .matching _ subject pattern => subject.patterns ++ [pattern]
  | .all first rest => first.patterns ++ Predicate.patternsEach rest
  | .any first rest => first.patterns ++ Predicate.patternsEach rest
  | .not p => p.patterns

def Predicate.patternsEach : List Predicate → List Pattern
  | [] => []
  | p :: rest => p.patterns ++ Predicate.patternsEach rest

end

/-- Whether a pattern is that of a wildcard text. -/
def Pattern.IsWildcard (pattern : Pattern) : Prop := ∃ text, pattern.source = Like.toRegex text

namespace Predicate

/-- A pattern stands in a list of predicates when it stands in one of them. Properties of all
patterns are shown predicate by predicate through it. -/
theorem mem_patternsEach {pattern : Pattern} {ps : List Predicate} :
    pattern ∈ patternsEach ps ↔ ∃ p ∈ ps, pattern ∈ p.patterns := by
  induction ps with
  | nil => simp [patternsEach]
  | cons p ps ih => simp only [patternsEach, List.mem_append, ih, List.exists_mem_cons_iff]

/-- The two kinds of chain are alike in their patterns, which are those of the operands in their
order; so a proof about chains need not ask which connective it has. -/
theorem patterns_chain {c : Connective} (hc : c ≠ .not) (first : Predicate)
    (rest : List Predicate) : (chain c first rest).patterns = patternsEach (first :: rest) := by
  cases c with
  | and => rw [chain, patterns, patternsEach]
  | or => rw [chain, patterns, patternsEach]
  | not => exact absurd rfl hc

theorem patterns_isNull (subject : Operand) (negated : Bool) :
    (isNull subject negated).patterns = subject.patterns := by
  cases negated <;> simp [isNull, patterns, Operand.patterns]

/-- The condition on the operands of a chain, read as one on each of them. -/
theorem flattenedEach_iff {c : Connective} {ps : List Predicate} :
    FlattenedEach c ps ↔ ∀ p ∈ ps, p.continues c = false ∧ p.Flattened := by
  induction ps with
  | nil => simp [FlattenedEach]
  | cons p ps ih => rw [FlattenedEach, ih, List.forall_mem_cons, and_assoc]

/-- A chain is in one row when it has a second operand and no operand is a chain of its connective.
This is how one level of compiling meets `Flattened`. -/
theorem flattened_chain {c : Connective} (hc : c ≠ .not) {first : Predicate}
    {rest : List Predicate} (hne : rest ≠ [])
    (h : ∀ p ∈ first :: rest, p.continues c = false ∧ p.Flattened) :
    (chain c first rest).Flattened := by
  obtain ⟨⟨hcont, hflat⟩, hrest⟩ := List.forall_mem_cons.mp h
  cases c with
  | and => exact ⟨hcont, hflat, hne, flattenedEach_iff.mpr hrest⟩
  | or => exact ⟨hcont, hflat, hne, flattenedEach_iff.mpr hrest⟩
  | not => exact absurd rfl hc

/-- A null test has a chain only where its subject has one, so it is in one row when the subject
is. -/
theorem flattened_isNull {subject : Operand} (h : subject.Flattened) (negated : Bool) :
    (isNull subject negated).Flattened := by
  cases negated with
  | false => exact ⟨h, trivial⟩
  | true => exact ⟨h, trivial⟩

/-- A chain continues its own connective and no other. -/
theorem continues_chain {c d : Connective} (hc : c ≠ .not) (hd : d ≠ .not) (first : Predicate)
    (rest : List Predicate) : (chain d first rest).continues c = (d == c) := by
  cases c with
  | not => exact absurd rfl hc
  | and | or =>
    cases d with
    | not => exact absurd rfl hd
    | and | or => rfl

end Predicate

namespace Expr

variable {resolve : Resolver} {inner : Expr → Predicate → Prop}

/-! ## Patterns -/

/-- The patterns of an operand are those of wildcard texts, if those of what compiles inside it are.
Only a condition brings any. -/
theorem CompilesOperand.patterns
    (hinner : ∀ e p, inner e p → ∀ pattern ∈ p.patterns, pattern.IsWildcard)
    {e : Expr} {o : Operand}
    (h : CompilesOperand resolve inner e o) : ∀ pattern ∈ o.patterns, pattern.IsWildcard := by
  cases h with
  | literal _ | field _ =>
    intro pattern hpattern
    cases hpattern
  | decision _ hp => exact hinner _ _ hp

/-- One level of compiling makes a pattern only for `LIKE`, and that from a wildcard text. What is
inside is left to a relation, so that the levels can be counted afterwards. -/
theorem Compiles.patterns
    (hinner : ∀ e p, inner e p → ∀ pattern ∈ p.patterns, pattern.IsWildcard) {e : Expr}
    {p : Predicate} (h : Compiles resolve inner e p) :
    ∀ pattern ∈ p.patterns, pattern.IsWildcard := by
  cases h with
  | comparison _ ha hb =>
    exact List.forall_mem_append.mpr ⟨ha.patterns hinner, hb.patterns hinner⟩
  | chain hc hps =>
    intro pattern hpattern
    rw [Predicate.patterns_chain hc, Predicate.mem_patternsEach] at hpattern
    obtain ⟨p, hp, hpattern⟩ := hpattern
    obtain ⟨e, _, he⟩ := exists_of_forall₂_mem hps hp
    exact hinner e p he pattern hpattern
  | negation hp =>
    rw [Predicate.patterns]
    exact hinner _ _ hp
  | member _ _ ha => exact ha.patterns hinner
  | between ha hb hc =>
    exact List.forall_mem_append.mpr ⟨ha.patterns hinner,
      List.forall_mem_append.mpr ⟨hb.patterns hinner, hc.patterns hinner⟩⟩
  | like _ ha hpattern =>
    refine List.forall_mem_append.mpr ⟨ha.patterns hinner, List.forall_mem_singleton.mpr ?_⟩
    exact ⟨_, Pattern.source_of_ofText? hpattern⟩
  | isNull _ ha =>
    rw [Predicate.patterns_isNull]
    exact ha.patterns hinner

/-- **Every pattern in a compiled predicate is that of a wildcard text.** Nothing is asked of the
expression: it may come from rule text or be built by hand. -/
theorem patterns_of_condition {limit room : Nat} {e : Expr} {p : Predicate}
    (h : condition resolve limit room e = .ok p) :
    ∀ pattern ∈ p.patterns, pattern.IsWildcard := by
  induction room generalizing e p with
  | zero => cases h
  | succ room ih => exact (condition_succ_eq_ok.mp h).patterns fun _ _ => ih

/-! ## Chains -/

/-- What is compiled is a chain exactly of the connectives that the expression is one of. -/
theorem Compiles.continues_eq {c : Connective} (hc : c ≠ .not) {e : Expr} {p : Predicate}
    (h : Compiles resolve inner e p) : p.continues c = e.continues c := by
  cases h with
  | chain hd _ => exact Predicate.continues_chain hc hd _ _
  | negation _ =>
    cases c with
    | and | or => rfl
    | not => exact absurd rfl hc
  | isNull negated _ => cases negated <;> cases c <;> rfl
  | _ => cases c <;> rfl

/-- What compiles in some room is a chain of a connective just when its expression is. So a chain
that was opened has no chain of its own connective left among its operands. -/
theorem continues_of_condition {c : Connective} (hc : c ≠ .not) {limit room : Nat} {e : Expr}
    {p : Predicate} (h : condition resolve limit room e = .ok p) :
    p.continues c = e.continues c := by
  cases room with
  | zero => cases h
  | succ room => exact (condition_succ_eq_ok.mp h).continues_eq hc

/-- An operand is in one row, as a tree of the grammar, if what compiles inside it is. -/
theorem CompilesOperand.flattened (hinner : ∀ e p, e.Folded → inner e p → p.Flattened) {e : Expr}
    {o : Operand} (hfolded : e.Folded) (h : CompilesOperand resolve inner e o) : o.Flattened := by
  cases h with
  | literal _ | field _ => trivial
  | decision _ hp => exact hinner _ _ hfolded hp

theorem forall_mem_pair {P : Expr → Prop} {left right : Expr} :
    (∀ e ∈ [left, right], P e) ↔ P left ∧ P right := by
  rw [List.forall_mem_cons, List.forall_mem_singleton]

/-- Each side of a pair brings an operand into the chain. So the chain has two at least, whatever is
opened on either side. -/
theorem ne_nil_of_pair {c : Connective} {left right : Expr} (hleft : left.Folded)
    (hright : right.Folded) {first : Predicate} {rest : List Predicate}
    (h : List.Forall₂ inner (flatten c [left, right]) (first :: rest)) : rest ≠ [] := by
  rintro rfl
  have hlength := h.length_eq
  rw [← List.singleton_append, flatten_append, List.length_append, List.length_singleton] at hlength
  have hleftPos := List.length_pos_of_ne_nil (hleft.flatten_ne_nil c)
  have hrightPos := List.length_pos_of_ne_nil (hright.flatten_ne_nil c)
  omega

/-- **Of a tree of the grammar every chain is compiled in one row.** The tree has pairs, nested to
the left; they are opened into the row, and a pair has no operand of its own connective left. -/
theorem flattened_of_condition {limit room : Nat} {e : Expr} {p : Predicate}
    (hfolded : e.Folded) (h : condition resolve limit room e = .ok p) : p.Flattened := by
  induction room generalizing e p with
  | zero => cases h
  | succ room ih =>
    have hoperand : ∀ {e : Expr} {o : Operand}, e.Folded →
        CompilesOperand resolve (fun e p => condition resolve limit room e = .ok p) e o →
        o.Flattened := fun hfolded ho => ho.flattened (fun _ _ => ih) hfolded
    cases condition_succ_eq_ok.mp h with
    | comparison sign ha hb =>
      cases hfolded with
      | comparison _ hleft hright => exact ⟨hoperand hleft ha, hoperand hright hb⟩
    | @chain c operands first rest hc hps =>
      cases hfolded with
      | @pair _ left right _ hleft hright =>
        refine Predicate.flattened_chain hc (ne_nil_of_pair hleft hright hps) fun p hp => ?_
        obtain ⟨e, he, hcompiled⟩ := exists_of_forall₂_mem hps hp
        obtain ⟨hfolded, hcont⟩ := Folded.of_mem_flatten (forall_mem_pair.mpr ⟨hleft, hright⟩) e he
        exact ⟨by rw [continues_of_condition hc hcompiled, hcont], ih hfolded hcompiled⟩
      | negation _ => exact absurd rfl hc
    | negation hp =>
      cases hfolded with
      | negation hinner =>
        rw [Predicate.Flattened]
        exact ih hinner hp
    | member _ _ ha =>
      cases hfolded with
      | member _ _ hsubject => exact hoperand hsubject ha
    | between ha hb hc =>
      cases hfolded with
      | between hsubject hlow hhigh =>
        exact ⟨hoperand hsubject ha, hoperand hlow hb, hoperand hhigh hc⟩
    | like _ ha _ =>
      cases hfolded with
      | like _ _ hsubject => exact hoperand hsubject ha
    | isNull negated ha =>
      cases hfolded with
      | isNull _ hsubject => exact Predicate.flattened_isNull (hoperand hsubject ha) negated

end Expr

end WhereRules
