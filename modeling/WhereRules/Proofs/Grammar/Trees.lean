import WhereRules.Proofs.Compilation.Chains
import WhereRules.Proofs.Grammar.Derivation

/-!
# The trees of the grammar

What the trees have in common that the grammar derives. A tree has no more nodes than its text has
tokens (`Derives.size_le`), and its conjunctions and disjunctions have two operands each
(`Derives.folded`).

A chain is a row of operands folded to the left. Two chains of one connective make one when its word
stands between them (`Chains.append`): the tree is another one than that of the two trees under the
connective, but opened it has the same operands in the same order.
-/

namespace WhereRules

/-- The word that stands between the operands of a connective, or before the one of `NOT`. -/
def Connective.word : Connective → Keyword
  | .and => .and
  | .or => .or
  | .not => .not

namespace Expr

/-! ## Chains -/

/-- A chain of operands that are phrases of one kind, and its tree. -/
def Chains (c : Connective) (phrase : Phrase) (ts : List Token) (e : Expr) : Prop :=
  ∃ us first, ∃ parts : List (List Token × Expr), Derives phrase us first ∧
    (∀ part ∈ parts, Derives phrase part.1 part.2) ∧
    ts = us ++ (parts.flatMap fun part => .keyword c.word :: part.1) ∧
    e = parts.foldl (fun left part => logical c [left, part.2]) first

/-- A conjunction is a chain of `AND`. -/
theorem derives_andExpr_iff {ts : List Token} {e : Expr} :
    Derives .andExpr ts e ↔ Chains .and .notExpr ts e := by
  constructor
  · intro h
    cases h with
    | andExpr hfirst hparts => exact ⟨_, _, _, hfirst, hparts, rfl, rfl⟩
  · rintro ⟨us, first, parts, hfirst, hparts, rfl, rfl⟩
    exact .andExpr hfirst hparts

/-- A disjunction is a chain of `OR`. -/
theorem derives_orExpr_iff {ts : List Token} {e : Expr} :
    Derives .orExpr ts e ↔ Chains .or .andExpr ts e := by
  constructor
  · intro h
    cases h with
    | orExpr hfirst hparts => exact ⟨_, _, _, hfirst, hparts, rfl, rfl⟩
  · rintro ⟨us, first, parts, hfirst, hparts, rfl, rfl⟩
    exact .orExpr hfirst hparts

section Fold

variable {α : Type} (c : Connective) (parts : List (α × Expr)) (first : Expr)

/-- A chain that was folded to the left has the nodes of its operands and one for each operand after
the first. -/
theorem size_foldl : (parts.foldl (fun left part => logical c [left, part.2]) first).size =
    first.size + (parts.map fun part => part.2.size + 1).sum := by
  induction parts generalizing first with
  | nil => rfl
  | cons part parts ih =>
    rw [List.foldl_cons, ih, List.map_cons, List.sum_cons]
    simp only [size, sizeAll]
    omega

/-- Opened, a chain that was folded to the left is its operands in their order. They may be chains
themselves, and are then opened too. -/
theorem flatten_foldl (rest : List Expr) :
    flatten c (parts.foldl (fun left part => logical c [left, part.2]) first :: rest) =
      flatten c (first :: parts.map Prod.snd ++ rest) := by
  induction parts generalizing first with
  | nil => rfl
  | cons part parts ih =>
    rw [List.foldl_cons, ih, List.cons_append, flatten_logical_self]
    rfl

/-- A chain with at least two operands is an operation of its connective, however many more there
are. -/
theorem foldl_eq_logical (operands : List Expr) :
    ∃ es, parts.foldl (fun left part => logical c [left, part.2]) (logical c operands) =
      logical c es := by
  induction parts generalizing operands with
  | nil => exact ⟨operands, rfl⟩
  | cons part parts ih => exact ih _

end Fold

/-- **Two chains with the word of their connective between them are one chain**, which opens to the
operands of both. -/
theorem Chains.append {c : Connective} {phrase : Phrase} {ts us : List Token} {e f : Expr}
    (he : Chains c phrase ts e) (hf : Chains c phrase us f) :
    ∃ es, Chains c phrase (ts ++ .keyword c.word :: us) (logical c es) ∧
      flatten c es = flatten c [e] ++ flatten c [f] ∧
      (logical c es).size = e.size + f.size + 1 := by
  obtain ⟨ts₀, e₀, eparts, he₀, heparts, rfl, rfl⟩ := he
  obtain ⟨us₀, f₀, fparts, hf₀, hfparts, rfl, rfl⟩ := hf
  obtain ⟨es, hes⟩ := foldl_eq_logical c fparts
    [eparts.foldl (fun left part => logical c [left, part.2]) e₀, f₀]
  refine ⟨es, ⟨ts₀, e₀, eparts ++ (us₀, f₀) :: fparts, he₀, ?_, ?_, ?_⟩, ?_, ?_⟩
  · intro part hpart
    rcases List.mem_append.mp hpart with hleft | hright
    · exact heparts part hleft
    · rcases List.mem_cons.mp hright with rfl | hright
      · exact hf₀
      · exact hfparts part hright
  · simp only [List.flatMap_append, List.flatMap_cons, List.append_assoc, List.cons_append]
  · rw [List.foldl_append, List.foldl_cons, hes]
  · calc flatten c es
        = flatten c [logical c es] := by rw [flatten_logical_self, List.append_nil]
      _ = flatten c (logical c [_, f₀] :: fparts.map Prod.snd ++ []) := by rw [← hes, flatten_foldl]
      _ = flatten c ([_] ++ (f₀ :: fparts.map Prod.snd ++ [])) := by
        rw [List.cons_append, flatten_logical_self]
        rfl
      _ = _ := by rw [flatten_append, ← flatten_foldl]
  · rw [← hes, size_foldl, size_foldl c fparts f₀]
    simp only [size, sizeAll]
    omega

/-! ## Sizes -/

/-- The size of what a suffix belongs to. Those nodes are in the tree of the suffix and not in its
tokens. -/
def Phrase.leftSize : Phrase → Nat
  | .suffix left => left.size
  | _ => 0

/-- A chain has no more nodes than tokens if no operand has: a node for each further operand, and
its word. -/
theorem size_foldl_le {c : Connective} {ts : List Token} {e : Expr}
    {parts : List (List Token × Expr)} (he : e.size ≤ ts.length)
    (hparts : ∀ part ∈ parts, part.2.size ≤ part.1.length) :
    (parts.foldl (fun left part => logical c [left, part.2]) e).size ≤
      (ts ++ parts.flatMap fun part => .keyword c.word :: part.1).length := by
  have hsum : (parts.map fun part => part.2.size + 1).sum ≤
      (parts.flatMap fun part => .keyword c.word :: part.1).length := by
    induction parts with
    | nil => exact Nat.le_refl _
    | cons part parts ih =>
      have hpart := hparts part List.mem_cons_self
      have hrest := ih fun p hp => hparts p (List.mem_cons_of_mem _ hp)
      simp only [List.map_cons, List.sum_cons, List.flatMap_cons, List.length_append,
        List.length_cons]
      omega
  rw [size_foldl, List.length_append]
  omega

/-- **A tree has no more nodes than its text has tokens**, what a suffix belongs to apart. Each rule
of the grammar brings at least one token for the node that it makes. -/
theorem Derives.size_le {phrase : Phrase} {ts : List Token} {e : Expr}
    (h : Derives phrase ts e) : e.size ≤ phrase.leftSize + ts.length := by
  induction h with
  | expr _ ih => exact ih
  | orExpr _ _ ih ihs =>
    simp only [Phrase.leftSize, Nat.zero_add] at ih ihs ⊢
    exact size_foldl_le ih ihs
  | andExpr _ _ ih ihs =>
    simp only [Phrase.leftSize, Nat.zero_add] at ih ihs ⊢
    exact size_foldl_le ih ihs
  | not _ ih =>
    simp only [Phrase.leftSize, negation, size, sizeAll, List.length_cons] at ih ⊢
    omega
  | notNegated _ ih => exact ih
  | groupAlone _ ih | group _ ih =>
    simp only [Phrase.leftSize, inParens, List.length_append, List.length_cons] at ih ⊢
    omega
  | groupCompared _ _ ih ihs =>
    simp only [Phrase.leftSize, inParens, List.length_append, List.length_cons] at ih ihs ⊢
    omega
  | compared _ _ ih ihs =>
    simp only [Phrase.leftSize, List.length_append] at ih ihs ⊢
    omega
  | sign s _ ih =>
    simp only [Phrase.leftSize, size, List.length_cons] at ih ⊢
    omega
  | isNull negated =>
    simp only [Phrase.leftSize, size, List.length_append, List.length_cons]
    omega
  | between _ _ ih ihs =>
    simp only [Phrase.leftSize, size, List.length_append, List.length_cons] at ih ihs ⊢
    omega
  | member negated _ _ =>
    simp only [Phrase.leftSize, size, List.length_append, List.length_cons]
    omega
  | like negated text =>
    simp only [Phrase.leftSize, size, List.length_append, List.length_cons]
    omega
  | literal _ | field _ => exact Nat.le_refl 1

/-- An expression has no more nodes than its text has tokens. -/
theorem Derives.size_le_length {ts : List Token} {e : Expr} (h : Derives .expr ts e) :
    e.size ≤ ts.length := by
  simpa only [Phrase.leftSize, Nat.zero_add] using h.size_le

/-! ## Operands in pairs -/

/-- Trees whose connectives have the operands that the grammar gives them: two for a conjunction
and a disjunction, one for a negation. -/
inductive Folded : Expr → Prop
  | literal (v : Value) : Folded (literal v)
  | field (path : String) : Folded (field path)
  | comparison (sign : Sign) {left right : Expr} :
    Folded left → Folded right → Folded (comparison sign left right)
  | pair {c : Connective} {left right : Expr} :
    c ≠ .not → Folded left → Folded right → Folded (logical c [left, right])
  | negation {operand : Expr} : Folded operand → Folded (negation operand)
  | member (values : List Value) (negated : Bool) {subject : Expr} :
    Folded subject → Folded (member subject values negated)
  | between {subject low high : Expr} :
    Folded subject → Folded low → Folded high → Folded (between subject low high)
  | like (text : String) (negated : Bool) {subject : Expr} :
    Folded subject → Folded (like subject text negated)
  | isNull (negated : Bool) {subject : Expr} : Folded subject → Folded (isNull subject negated)

/-- Folding operands to the left pairs each with what came before. -/
theorem folded_foldl {α : Type} {c : Connective} (hc : c ≠ .not) {parts : List (α × Expr)}
    {e : Expr} (he : e.Folded) (hparts : ∀ part ∈ parts, part.2.Folded) :
    (parts.foldl (fun left part => logical c [left, part.2]) e).Folded := by
  induction parts generalizing e with
  | nil => exact he
  | cons part parts ih =>
    exact ih (.pair hc he (hparts part List.mem_cons_self)) fun p hp =>
      hparts p (List.mem_cons_of_mem _ hp)

/-- A suffix makes such a tree of one. -/
def Phrase.LeftFolded : Phrase → Prop
  | .suffix left => left.Folded
  | _ => True

/-- The grammar makes no chains of more than two operands, and none of fewer. A longer one in the
text is a pair on the left of a pair. -/
theorem Derives.folded {phrase : Phrase} {ts : List Token} {e : Expr}
    (h : Derives phrase ts e) (hleft : phrase.LeftFolded) : e.Folded := by
  induction h with
  | expr _ ih | notNegated _ ih | groupAlone _ ih | group _ ih => exact ih trivial
  | orExpr _ _ ih ihs =>
    exact folded_foldl (c := .or) (by decide) (ih trivial) fun p hp => ihs p hp trivial
  | andExpr _ _ ih ihs =>
    exact folded_foldl (c := .and) (by decide) (ih trivial) fun p hp => ihs p hp trivial
  | not _ ih => exact .negation (ih trivial)
  | groupCompared _ _ ih ihs | compared _ _ ih ihs => exact ihs (ih trivial)
  | sign s _ ih => exact .comparison s hleft (ih trivial)
  | isNull negated => exact .isNull negated hleft
  | between _ _ ih ihs => exact .between hleft (ih trivial) (ihs trivial)
  | member negated _ _ => exact .member _ negated hleft
  | like negated text => exact .like text negated hleft
  | literal _ => exact .literal _
  | field path => exact .field path

/-- A chain opened has operands, since no chain of the grammar is without any. The recursion goes
down the left side of the pairs. -/
theorem Folded.flatten_ne_nil {e : Expr} (h : e.Folded) (c : Connective) : flatten c [e] ≠ [] := by
  induction h with
  | @pair d left right _ _ _ ih _ =>
    by_cases hd : d = c
    · subst hd
      rw [flatten_logical_self, List.append_nil, ← List.singleton_append, flatten_append]
      exact List.append_ne_nil_of_left_ne_nil ih _
    · have hcont : (logical d [left, right]).continues c = false := beq_eq_false_iff_ne.mpr hd
      rw [flatten_of_not_continues hcont]
      exact List.cons_ne_nil _ _
  | @negation operand _ ih =>
    by_cases hc : Connective.not = c
    · subst hc
      rw [Expr.negation, flatten_logical_self, List.append_nil]
      exact ih
    · have hcont : (Expr.negation operand).continues c = false := beq_eq_false_iff_ne.mpr hc
      rw [flatten_of_not_continues hcont]
      exact List.cons_ne_nil _ _
  | _ =>
    rw [flatten_of_not_continues rfl]
    exact List.cons_ne_nil _ _

/-- The operands of a chain opened are no chains of its connective, and are trees of the grammar
themselves. -/
theorem Folded.of_mem_flatten {c : Connective} {es : List Expr} (h : ∀ e ∈ es, e.Folded) :
    ∀ e ∈ flatten c es, e.Folded ∧ e.continues c = false := by
  induction es using flatten_induct c with
  | nil =>
    rw [flatten]
    exact List.forall_mem_nil _
  | opened operands rest ih =>
    obtain ⟨hfirst, hrest⟩ := List.forall_mem_cons.mp h
    rw [flatten_logical_self]
    refine ih (List.forall_mem_append.mpr ⟨?_, hrest⟩)
    cases hfirst with
    | pair _ hleft hright =>
      exact List.forall_mem_cons.mpr ⟨hleft, List.forall_mem_singleton.mpr hright⟩
    | negation hinner => exact List.forall_mem_singleton.mpr hinner
  | kept e rest hcontinues ih =>
    obtain ⟨hfirst, hrest⟩ := List.forall_mem_cons.mp h
    rw [flatten_of_not_continues hcontinues]
    exact List.forall_mem_cons.mpr ⟨⟨hfirst, hcontinues⟩, ih hrest⟩

end Expr

end WhereRules
