import WhereRules.Proofs.Answers
import WhereRules.Proofs.Grammar.Levels
import WhereRules.Proofs.Grammar.Soundness
import WhereRules.Proofs.RoundTrip.Spelled

/-!
# How deep written text nests

The levels of a predicate are not the levels of its text. A chain is one level of the predicate
however many operands it has, and in the text each operand is one level below the one before it;
and where a conjunction stands in a disjunction, the parentheses that are put around it open one
more. `Expr.nesting` counts the levels of the text.

The text of a rule that was read is read again exactly when its nesting is within the limit
(`parse_write_of_nesting`). The limit that the rule was read and written under may be less: opening
its chains can make the text nest deeper than the one it came from.
-/

namespace WhereRules

namespace Expr

/-! ## Words with counts -/

namespace Counted

/-- Tokens in parentheses if they need them. -/
def inGroup (needed : Bool) (lts : Counted) : Counted := if needed then grouped lts else lts

/-- The operands of a chain with its word between them. -/
def chain (k : Keyword) : List Counted → Counted
  | [] => []
  | first :: rest => first ++ chained k rest

/-- Parentheses that are counted are, without their counts, parentheses. -/
theorem plain_inGroup (needed : Bool) (lts : Counted) :
    plain (inGroup needed lts) = if needed then inParens (plain lts) else plain lts := by
  cases needed with
  | false => rfl
  | true => exact plain_grouped lts

/-- A counted chain is, without its counts, the operands with the word between them. That the
operands after the first stand a level deeper shows in the counts alone. -/
theorem plain_chain (k : Keyword) (parts : List Counted) :
    plain (chain k parts) = separated (.keyword k) (parts.map plain) := by
  cases parts with
  | nil => rfl
  | cons first rest =>
    rw [chain, plain_append, plain_chained, List.map_cons, separated_cons, List.flatMap_map]

/-- The counts can be dropped before the operands are put together or after. -/
theorem plain_flatten (parts : List Counted) :
    plain parts.flatten = (parts.map plain).flatten := List.map_flatten

end Counted

open Counted

mutual

/-- The words of an expression, with the levels that are open at each. -/
def counted : Expr → Counted
  | literal value => flat (valueTokens value)
  | field path => flat [.identifier path]
  | comparison sign left right =>
    inGroup left.isCondition (counted left) ++
      (flat [.sign sign] ++ inGroup right.isCondition (counted right))
  | logical .and operands => Counted.chain .and (countedUnder .and operands)
  | logical .or operands => Counted.chain .or (countedUnder .or operands)
  | logical .not operands => opens (.keyword .not) (countedUnder .not operands).flatten
  | member subject values negated =>
    inGroup subject.isCondition (counted subject) ++
      flat (notTokens negated ++
        .keyword .among :: inParens (separated .comma (values.map valueTokens)))
  | between subject low high =>
    inGroup subject.isCondition (counted subject) ++
      (flat [.keyword .between] ++ (inGroup low.isCondition (counted low) ++
        (flat [.keyword .and] ++ inGroup high.isCondition (counted high))))
  | like subject text negated =>
    inGroup subject.isCondition (counted subject) ++
      flat (notTokens negated ++ [.keyword .like, .string text])
  | isNull subject negated =>
    inGroup subject.isCondition (counted subject) ++
      flat (.keyword .is :: notTokens negated ++ [.keyword .null])

/-- The words of each operand of a connective. -/
def countedUnder (c : Connective) : List Expr → List Counted
  | [] => []
  | e :: rest => inGroup (groupedUnder c e) (counted e) :: countedUnder c rest

end

/-- The words of a chain of either connective, in one equation. -/
theorem counted_logical {c : Connective} (hc : c ≠ .not) (operands : List Expr) :
    (logical c operands).counted = Counted.chain c.word (countedUnder c operands) := by
  cases c with
  | and | or => rw [counted, Connective.word]
  | not => exact absurd rfl hc

/-- How many levels are open at once, at most, in the words of an expression. -/
def nesting (e : Expr) : Nat := e.counted.level

mutual

/-- Without their counts they are the words of the expression. So `nesting` measures the text that
is really written, and counting adds no word and loses none. -/
theorem plain_counted : (e : Expr) → e.counted.plain = e.tokens
  | literal value => by rw [counted, plain_flat, tokens]
  | field path => by rw [counted, plain_flat, tokens]
  | comparison sign left right => by
    simp only [counted, plain_append, plain_flat, plain_inGroup, plain_counted left,
      plain_counted right, tokens, operandTokens, List.cons_append, List.nil_append]
  | logical .and operands => by rw [counted, plain_chain, plain_countedUnder .and operands, tokens]
  | logical .or operands => by rw [counted, plain_chain, plain_countedUnder .or operands, tokens]
  | logical .not operands => by
    rw [counted, plain_opens, plain_flatten, plain_countedUnder .not operands, tokens]
  | member subject values negated => by
    simp only [counted, plain_append, plain_flat, plain_inGroup, plain_counted subject, tokens,
      operandTokens, List.append_assoc]
  | between subject low high => by
    simp only [counted, plain_append, plain_flat, plain_inGroup, plain_counted subject,
      plain_counted low, plain_counted high, tokens, operandTokens, List.append_assoc,
      List.cons_append, List.nil_append]
  | like subject text negated => by
    simp only [counted, plain_append, plain_flat, plain_inGroup, plain_counted subject, tokens,
      operandTokens, List.append_assoc]
  | isNull subject negated => by
    simp only [counted, plain_append, plain_flat, plain_inGroup, plain_counted subject, tokens,
      operandTokens, List.append_assoc, List.cons_append]

/-- The same of each operand of a connective, in parentheses where it needs them. -/
theorem plain_countedUnder (c : Connective) :
    (es : List Expr) → (countedUnder c es).map plain = tokensUnder c es
  | [] => by rw [countedUnder, tokensUnder, List.map_nil]
  | e :: rest => by
    rw [countedUnder, tokensUnder, List.map_cons, plain_inGroup, plain_counted e,
      plain_countedUnder c rest]

end

/-! ## Phrases within phrases -/

/-- A chain may have one operand only, which is then the whole of it: no word opens a level for
it. -/
theorem Leveled.phrase_of_operand {c : Connective} {lts : Counted} {e : Expr}
    (h : Leveled c.operandPhrase lts e) : Leveled c.phrase lts e := by
  cases c with
  | and =>
    have halone := @Leveled.andExpr lts e [] h (List.forall_mem_nil _)
    rwa [List.map_nil, chained, List.append_nil] at halone
  | or =>
    have halone := @Leveled.orExpr lts e [] h (List.forall_mem_nil _)
    rwa [List.map_nil, chained, List.append_nil] at halone
  | not => exact h

/-- What can stand under `NOT` can be an operand of every connective, and no level is opened to make
it one. -/
theorem Leveled.operandPhrase_of_notExpr {lts : Counted} {e : Expr} (h : Leveled .notExpr lts e)
    (c : Connective) : Leveled c.operandPhrase lts e := by
  cases c with
  | and | not => exact h
  | or => exact Leveled.phrase_of_operand (c := .and) h

/-- What a connective makes is an expression, at the same levels. The phrases are nested in each
other, and a phrase that stands for a looser one adds no words. -/
theorem Leveled.expr_of_phrase {c : Connective} {lts : Counted} {e : Expr}
    (h : Leveled c.phrase lts e) : Leveled .expr lts e := by
  cases c with
  | and => exact .expr (Leveled.phrase_of_operand (c := .or) h)
  | or => exact .expr h
  | not => exact .expr (h.operandPhrase_of_notExpr .or).phrase_of_operand

/-- Operands that can stand under `NOT`, with the word of a connective between them, are a chain.
Its tree has pairs, nested to the left, as the parser makes them. -/
theorem leveled_chain {c : Connective} (hc : c ≠ .not) {first : Counted × Expr}
    {parts : List (Counted × Expr)}
    (h : ∀ part ∈ first :: parts, Leveled .notExpr part.1 part.2) :
    Leveled c.phrase (Counted.chain c.word ((first :: parts).map Prod.fst))
      (parts.foldl (fun left part => logical c [left, part.2]) first.2) := by
  obtain ⟨hfirst, hparts⟩ := List.forall_mem_cons.mp h
  cases c with
  | and => exact .andExpr hfirst hparts
  | or =>
    exact .orExpr (hfirst.operandPhrase_of_notExpr .or) fun part hpart =>
      (hparts part hpart).operandPhrase_of_notExpr .or
  | not => exact absurd rfl hc

/-- The words of an expression are by themselves a whole expression, whichever phrase they are. -/
theorem leveled_expr {e tree : Expr} {lts : Counted} (h : Leveled e.phrase lts tree) :
    Leveled .expr lts tree := by
  cases e with
  | logical c _ => exact h.expr_of_phrase
  | _ => exact Leveled.expr_of_phrase (c := .not) (.notNegated h)

/-- **An operand of a connective can stand under `NOT`**, if it is no chain of that connective: what
binds too loosely is put in parentheses. -/
theorem leveled_under {c : Connective} {e tree : Expr} {lts : Counted}
    (h : Leveled e.phrase lts tree) (hcont : c ≠ .not → e.continues c = false) :
    Leveled .notExpr (inGroup (groupedUnder c e) lts) tree := by
  have hgrouped : Leveled .notExpr (grouped lts) tree :=
    .notNegated (.groupAlone (leveled_expr h))
  cases e with
  | logical d _ =>
    cases d with
    | not => exact h
    | and =>
      cases c with
      | and => cases hcont (by decide)
      | or | not => exact hgrouped
    | or =>
      cases c with
      | or => cases hcont (by decide)
      | and | not => exact hgrouped
  | _ => exact .notNegated h

/-! ## Trees of written words -/

/-- Whether the words of an expression are a phrase whose tree compiles to a predicate in some
room. -/
structure ReadsAs (limit room : Nat) (e : Expr) (p : Predicate) : Prop where
  isCondition : e.isCondition = true
  tree : ∃ tree, Leveled e.phrase e.counted tree ∧
    condition FieldPolicy.any.resolve limit room tree = .ok p

/-- The same for an operand, whose words are in parentheses if it is a condition. -/
def ReadsAsOperand (limit room : Nat) (e : Expr) (o : Operand) : Prop :=
  ∃ tree, Leveled .primary (inGroup e.isCondition e.counted) tree ∧
    CompilesOperand FieldPolicy.any.resolve
      (fun e p => condition FieldPolicy.any.resolve limit room e = .ok p) tree o

/-- Whether what is written in some room reads back in the same room. -/
def ReadsBack (limit limit' room : Nat) : Prop :=
  ∀ p e, written limit room p = .ok e → p.Flattened →
    (∀ pattern ∈ p.patterns, pattern.IsWildcard) → ReadsAs limit' room e p.withNullTests

variable {limit limit' room : Nat}

/-- A condition reads as a predicate in one level of room more than its inside needs, if its words
stand for a tree that compiles to it one level down. -/
theorem ReadsAs.of_compiles {e tree : Expr} {p : Predicate} (hcondition : e.isCondition = true)
    (htree : Leveled e.phrase e.counted tree)
    (h : Compiles FieldPolicy.any.resolve
      (fun e p => condition FieldPolicy.any.resolve limit room e = .ok p) tree p) :
    ReadsAs limit (room + 1) e p :=
  ⟨hcondition, tree, htree, condition_succ_eq_ok.mpr h⟩

/-- An operand that is written reads back as one: a constant and a field by their own token, and a
condition by its words in parentheses, which open a level. -/
theorem ReadsBack.operand (h : ReadsBack limit limit' room) {o : Operand} {e : Expr}
    (hwrites : Predicate.WritesOperand (fun p e => written limit room p = .ok e) o e)
    (hflattened : o.Flattened) (hpatterns : ∀ pattern ∈ o.patterns, pattern.IsWildcard) :
    ReadsAsOperand limit' room e o.withNullTests := by
  cases hwrites with
  | @literal v hv =>
    obtain ⟨t, htokens, hdenotes, -⟩ := valueTokens_of_writable hv
    have hcounted : (literal v).counted = flat [t] := by rw [counted, htokens]
    rw [Operand.withNullTests]
    refine ⟨literal v, ?_, .literal v⟩
    rw [hcounted]
    exact .literal hdenotes
  | @field named hname =>
    rw [Operand.withNullTests]
    refine ⟨field named.path, ?_, .field (resolve_any_path named)⟩
    rw [counted]
    exact .field named.path
  | @decision p e hp =>
    obtain ⟨hcondition, tree, htree, hcompiled⟩ := h p e hp hflattened hpatterns
    rw [Operand.withNullTests]
    refine ⟨tree, ?_, .decision (isCondition_of_condition hcompiled) hcompiled⟩
    rw [hcondition]
    exact .group (leveled_expr htree)

/-! ### Chains -/

/-- What is written is a chain of a connective just when the predicate is one. Writing neither opens
chains nor makes any. -/
theorem continues_of_written {c : Connective} (hc : c ≠ .not) {p : Predicate} {e : Expr}
    (h : written limit room p = .ok e) : e.continues c = p.continues c := by
  cases room with
  | zero => cases h
  | succ room =>
    cases written_succ_eq_ok.mp h with
    | _ =>
      cases c with
      | and | or => rfl
      | not => exact absurd rfl hc

/-- The operands of a chain can stand under `NOT`, and compile one by one. None is a chain of the
connective itself, so one that binds more loosely than `NOT` is in parentheses. -/
theorem ReadsBack.operands (h : ReadsBack limit limit' room) {c : Connective} (hc : c ≠ .not)
    {ps : List Predicate} {es : List Expr}
    (hwrites : List.Forall₂ (fun p e => written limit room p = .ok e) ps es)
    (hflattened : Predicate.FlattenedEach c ps)
    (hpatterns : ∀ pattern ∈ Predicate.patternsEach ps, pattern.IsWildcard) :
    ∃ parts : List (Counted × Expr), parts.map Prod.fst = countedUnder c es ∧
      (∀ part ∈ parts, Leveled .notExpr part.1 part.2) ∧
      List.Forall₂ (fun e p => condition FieldPolicy.any.resolve limit' room e = .ok p)
        (parts.map Prod.snd) (Predicate.withNullTestsEach ps) := by
  induction hwrites with
  | nil => exact ⟨[], rfl, List.forall_mem_nil _, .nil⟩
  | @cons p e ps es hp _ ih =>
    obtain ⟨hcont, hflat, hrest⟩ := hflattened
    obtain ⟨hpattern, hothers⟩ := List.forall_mem_append.mp hpatterns
    obtain ⟨-, tree, htree, hcompiled⟩ := h p e hp hflat hpattern
    obtain ⟨parts, hcounted, hparts, hcompiles⟩ := ih hrest hothers
    have hunder : Leveled .notExpr (inGroup (groupedUnder c e) e.counted) tree :=
      leveled_under htree fun _ => by rw [continues_of_written hc hp, hcont]
    refine ⟨(inGroup (groupedUnder c e) e.counted, tree) :: parts, ?_,
      List.forall_mem_cons.mpr ⟨hunder, hparts⟩, .cons hcompiled hcompiles⟩
    rw [List.map_cons, hcounted, countedUnder]

/-- A chain is read in pairs to the left, and opened again when it is compiled. What comes back has
the operands of the chain in one row, each with its null tests. -/
theorem ReadsBack.chain (h : ReadsBack limit limit' room) {c : Connective} (hc : c ≠ .not)
    {first : Predicate} {rest : List Predicate} {es : List Expr}
    (hwrites : List.Forall₂ (fun p e => written limit room p = .ok e) (first :: rest) es)
    (hne : rest ≠ []) (hflattened : Predicate.FlattenedEach c (first :: rest))
    (hpatterns : ∀ pattern ∈ Predicate.patternsEach (first :: rest), pattern.IsWildcard) :
    ReadsAs limit' (room + 1) (logical c es)
      (Predicate.chain c first.withNullTests (Predicate.withNullTestsEach rest)) := by
  obtain ⟨parts, hcounted, hparts, hcompiles⟩ := h.operands hc hwrites hflattened hpatterns
  have hcontinues : ∀ tree ∈ parts.map Prod.snd, tree.continues c = false := by
    intro tree htree
    obtain ⟨p, hp, hcompiled⟩ := exists_of_forall₂_mem hcompiles.flip htree
    rw [← continues_of_condition hc hcompiled]
    exact hflattened.continues_withNullTests p hp
  -- There are two operands at least, so the tree is an operation of the connective.
  obtain ⟨second, others, rfl⟩ := List.exists_cons_of_ne_nil hne
  rw [Predicate.withNullTestsEach, Predicate.withNullTestsEach] at hcompiles
  obtain _ | ⟨part, _ | ⟨next, parts⟩⟩ := parts
  · cases hcompiles
  · obtain _ | ⟨-, hnone⟩ := hcompiles
    cases hnone
  obtain ⟨operands, hfold⟩ := foldl_eq_logical c parts [part.2, next.2]
  have hflatten : flatten c operands = (part :: next :: parts).map Prod.snd :=
    calc flatten c operands
      _ = flatten c [logical c operands] := by rw [flatten_logical_self, List.append_nil]
      _ = flatten c ((part :: next :: parts).map Prod.snd) := by
        rw [← hfold, ← List.foldl_cons (l := parts), flatten_foldl, List.append_nil]
        rfl
      _ = (part :: next :: parts).map Prod.snd := flatten_eq_self hcontinues
  rw [← hflatten] at hcompiles
  refine .of_compiles rfl ?_ (.chain hc hcompiles)
  rw [counted_logical hc, ← hcounted, ← hfold]
  exact leveled_chain hc hparts

/-! ### Comparisons -/

section Comparisons

variable {a b c : Expr} {o m n : Operand}

/-- A null test reads as one if its subject reads as an operand. -/
theorem ReadsAsOperand.isNull (negated : Bool) (ha : ReadsAsOperand limit room a o) :
    ReadsAs limit (room + 1) (Expr.isNull a negated) (Predicate.isNull o negated) := by
  obtain ⟨tree, htree, hcompiles⟩ := ha
  refine .of_compiles rfl ?_ (.isNull negated hcompiles)
  rw [counted]
  exact .compared htree (.isNull negated)

/-- A comparison reads as one of the same relation if both sides read as operands. The sign that a
relation is written with has that relation. -/
theorem ReadsAsOperand.comparison (relation : Relation) (ha : ReadsAsOperand limit room a o)
    (hb : ReadsAsOperand limit room b m) :
    ReadsAs limit (room + 1) (Expr.comparison (signOf relation) a b)
      (.comparison relation o m) := by
  obtain ⟨left, hleft, hleftCompiles⟩ := ha
  obtain ⟨right, hright, hrightCompiles⟩ := hb
  have hcompiles := Compiles.comparison (signOf relation) hleftCompiles hrightCompiles
  rw [relation_signOf] at hcompiles
  refine .of_compiles rfl ?_ hcompiles
  rw [counted]
  exact .compared hleft (.sign _ hright)

/-- A range reads as one if all three of its operands do. Its `AND` is taken by the range and opens
no level. -/
theorem ReadsAsOperand.between (ha : ReadsAsOperand limit room a o)
    (hb : ReadsAsOperand limit room b m) (hc : ReadsAsOperand limit room c n) :
    ReadsAs limit (room + 1) (Expr.between a b c) (.between o m n) := by
  obtain ⟨subject, hsubject, hsubjectCompiles⟩ := ha
  obtain ⟨low, hlow, hlowCompiles⟩ := hb
  obtain ⟨high, hhigh, hhighCompiles⟩ := hc
  refine .of_compiles rfl ?_ (.between hsubjectCompiles hlowCompiles hhighCompiles)
  rw [counted]
  exact .compared hsubject (.between hlow hhigh)

/-- A match reads as one with the same pattern, as long as that is the pattern of the wildcard text
that it was written with. -/
theorem ReadsAsOperand.like (negated : Bool) {pattern : Pattern} {text : String}
    (hpattern : Pattern.ofText? (Like.toRegex text) = some pattern)
    (ha : ReadsAsOperand limit room a o) :
    ReadsAs limit (room + 1) (Expr.like a text negated) (.matching negated o pattern) := by
  obtain ⟨tree, htree, hcompiles⟩ := ha
  refine .of_compiles rfl ?_ (.like negated hcompiles hpattern)
  rw [counted]
  exact .compared htree (.like negated text)

/-- A membership reads as one in the same list, if the list is not empty and each value has a
literal. -/
theorem ReadsAsOperand.member (negated : Bool) {vs : List Value} (hne : vs ≠ [])
    (hvs : ∀ v ∈ vs, v.Writable) (ha : ReadsAsOperand limit room a o) :
    ReadsAs limit (room + 1) (Expr.member a vs negated) (.member negated o vs) := by
  obtain ⟨tree, htree, hcompiles⟩ := ha
  obtain ⟨items, rfl, htokens, hitems⟩ := literals_of_writable hvs
  obtain ⟨item, items, rfl⟩ := List.exists_cons_of_ne_nil (mt (congrArg (List.map Prod.snd)) hne)
  obtain ⟨⟨hdenotes, -⟩, hrest⟩ := List.forall_mem_cons.mp hitems
  have hwords : separated .comma (((item :: items).map Prod.snd).map valueTokens) =
      item.1 :: items.flatMap fun item => [.comma, item.1] := by
    rw [htokens, List.map_cons, separated_comma]
  refine .of_compiles rfl ?_ (.member negated _ hcompiles)
  rw [counted, hwords]
  exact .compared htree (.member negated hdenotes fun i hi => (hrest i hi).1)

end Comparisons

/-! ### One level and all levels -/

/-- **One more level of what is written reads back in one more level of room.** The case split is
that of writing, one case for each form of predicate; the forms with operands are the lemmas
above. -/
theorem ReadsBack.succ (h : ReadsBack limit limit' room) : ReadsBack limit limit' (room + 1) := by
  intro p e hwritten hflattened hpatterns
  cases written_succ_eq_ok.mp hwritten with
  | isNull ha =>
    obtain ⟨hsubject, -⟩ := List.forall_mem_append.mp hpatterns
    exact (h.operand ha hflattened.1 hsubject).isNull false
  | isNotNull ha =>
    obtain ⟨hsubject, -⟩ := List.forall_mem_append.mp hpatterns
    exact (h.operand ha hflattened.1 hsubject).isNull true
  | notIsNull ha =>
    rw [Predicate.patterns] at hpatterns
    obtain ⟨hsubject, -⟩ := List.forall_mem_append.mp hpatterns
    exact (h.operand ha hflattened.1 hsubject).isNull true
  | @comparison relation left right a b hnull ha hb =>
    obtain ⟨hleft, hright⟩ := List.forall_mem_append.mp hpatterns
    have hnull' : relation.testsNull right.withNullTests = false := by
      rw [Predicate.testsNull_withNullTests, hnull]
    rw [Predicate.withNullTests, Predicate.nullTested_of_testsNull hnull']
    exact (h.operand ha hflattened.1 hleft).comparison relation (h.operand hb hflattened.2 hright)
  | member negated hne hvalues ha =>
    exact (h.operand ha hflattened hpatterns).member negated hne hvalues
  | between ha hb hc =>
    obtain ⟨hsubject, hbounds⟩ := List.forall_mem_append.mp hpatterns
    obtain ⟨hlow, hhigh⟩ := List.forall_mem_append.mp hbounds
    obtain ⟨hflatSubject, hflatLow, hflatHigh⟩ := hflattened
    exact (h.operand ha hflatSubject hsubject).between (h.operand hb hflatLow hlow)
      (h.operand hc hflatHigh hhigh)
  | matching negated hlike ha =>
    obtain ⟨hsubject, hpattern⟩ := List.forall_mem_append.mp hpatterns
    have hread := (List.forall_mem_singleton.mp hpattern).ofText?_toRegex hlike
    exact (h.operand ha hflattened hsubject).like negated hread
  | all hps =>
    obtain ⟨hfirst, hflat, hne, hrest⟩ := hflattened
    exact h.chain (c := .and) (by decide) hps hne ⟨hfirst, hflat, hrest⟩ hpatterns
  | any hps =>
    obtain ⟨hfirst, hflat, hne, hrest⟩ := hflattened
    exact h.chain (c := .or) (by decide) hps hne ⟨hfirst, hflat, hrest⟩ hpatterns
  | @not p e hnull hp =>
    rw [Predicate.patterns] at hpatterns
    obtain ⟨-, tree, htree, hcompiled⟩ := h p e hp hflattened hpatterns
    refine .of_compiles rfl ?_ (.negation hcompiled)
    rw [negation, counted, countedUnder, countedUnder, List.flatten_singleton]
    exact .not (leveled_under htree fun hnot => absurd rfl hnot)

/-- **What is written in some room reads back in it**, by its words and their counts. The induction
is on the room. The limit only names the error, so reading may have another limit than writing. -/
theorem readsBack (limit limit' room : Nat) : ReadsBack limit limit' room := by
  induction room with
  | zero =>
    intro p e h
    cases h
  | succ room ih => exact ih.succ

end Expr

namespace Dialect

/-- **The text of a rule is read again just when it nests within the limit.** A rule that was read
from a text is written under the same settings as some expression. If the words of that expression
nest no deeper than the limit, they are read as the rule with null tests; if they nest deeper, they
are refused for that. -/
theorem parse_write_of_nesting {settings : Settings} {source text : String} {rule : Rule}
    {log log' : List Event} (hparse : (Dialect.parse { settings } source).answer log = .ok rule)
    (hwrite : (Dialect.write { settings } rule).answer log' = .ok text) :
    ∃ e, Expr.ofPredicate settings.maxDepth rule.predicate = .ok e ∧ e.toText = text ∧
      (e.nesting ≤ settings.maxDepth → ∀ log, (Dialect.parse { settings } text).answer log =
        .ok { predicate := rule.predicate.withNullTests }) ∧
      (settings.maxDepth < e.nesting → ∃ position, ∀ log,
        (Dialect.parse { settings } text).answer log =
          .error (.parse (.tooDeep settings.maxDepth position))) := by
  obtain ⟨stream, e, p, hstream, he, hp, rfl⟩ := answer_parse_eq_ok.mp hparse
  have hpatterns := Expr.patterns_of_condition hp
  have hflattened := Expr.flattened_of_condition ((Expr.derives_of_ofTokens he).folded trivial) hp
  obtain ⟨written, hwritten, rfl⟩ := map_eq_ok.mp (answer_write_eq_ok.mp hwrite)
  have hlegible := (Expr.spells_of_written hwritten hpatterns).legible
  obtain ⟨-, tree, htree, hcompiled⟩ :=
    Expr.readsBack _ settings.maxDepth _ p written hwritten hflattened hpatterns
  obtain ⟨stream', hstream', hwords⟩ := TokenStream.ofText_chars hlegible
  have hread := Expr.ofTokens_of_leveled (Expr.leveled_expr htree)
    (hwords.trans written.plain_counted.symm) settings.maxDepth
  refine ⟨written, hwritten, rfl, fun hnesting log => ?_, fun hnesting => ?_⟩
  · rw [Expr.Counted.overflow?_eq_none.mpr hnesting] at hread
    exact answer_parse_eq_ok.mpr ⟨stream', tree, _, hstream', hread, hcompiled, rfl⟩
  · cases hover : written.counted.overflow? settings.maxDepth stream'.tokens with
    | none => exact absurd (Expr.Counted.overflow?_eq_none.mp hover) (Nat.not_le_of_lt hnesting)
    | some ts =>
      obtain ⟨position, hposition⟩ := Expr.exists_error_noRoom ts settings.maxDepth stream'.stop
      simp only [hover, hposition] at hread
      exact ⟨position, fun log => answer_parse_of_error hstream' hread⟩

/-- Two comparisons and a conjunction, in a disjunction. -/
def mixedChain : Predicate :=
  .any (.comparison .equal (.field ⟨"x", by decide⟩) (.constant (.int 1)))
    [.comparison .equal (.field ⟨"y", by decide⟩) (.constant (.int 2)),
      .all (.comparison .equal (.field ⟨"z", by decide⟩) (.constant (.int 3)))
        [.comparison .equal (.field ⟨"w", by decide⟩) (.constant (.int 4))]]

/-- Under one level more than its own text needs, the rule is read and written. The written text has
a pair of parentheses that the source does not have. -/
theorem parse_write_mixedChain :
    (Dialect.parse { settings := ⟨4⟩ } "x = 1 OR y = 2 OR z = 3 AND w = 4").answer [] =
        .ok { predicate := mixedChain } ∧
      (Dialect.write { settings := ⟨4⟩ } { predicate := mixedChain }).answer [] =
        .ok "x = 1 OR y = 2 OR (z = 3 AND w = 4)" ∧
      ∃ e, Expr.ofPredicate 4 mixedChain = .ok e ∧
        e.toText = "x = 1 OR y = 2 OR (z = 3 AND w = 4)" ∧
        (e.nesting ≤ 4 → ∀ log, (Dialect.parse { settings := ⟨4⟩ }
            "x = 1 OR y = 2 OR (z = 3 AND w = 4)").answer log =
          .ok { predicate := mixedChain.withNullTests }) ∧
        (4 < e.nesting → ∃ position, ∀ log, (Dialect.parse { settings := ⟨4⟩ }
            "x = 1 OR y = 2 OR (z = 3 AND w = 4)").answer log =
          .error (.parse (.tooDeep 4 position))) := by
  have hparse : (Dialect.parse { settings := ⟨4⟩ } "x = 1 OR y = 2 OR z = 3 AND w = 4").answer [] =
      .ok { predicate := mixedChain } := by cbv
  have hwrite : (Dialect.write { settings := ⟨4⟩ } { predicate := mixedChain }).answer [] =
      .ok "x = 1 OR y = 2 OR (z = 3 AND w = 4)" := by cbv
  exact ⟨hparse, hwrite, parse_write_of_nesting hparse hwrite⟩

/-- Under a limit of three levels the conjunction is read, as the last operand of a chain of three;
written, it is in parentheses, and they are a level too many. -/
theorem not_parse_write_mixedChain :
    (Dialect.parse { settings := ⟨3⟩ } "x = 1 OR y = 2 OR z = 3 AND w = 4").answer [] =
        .ok { predicate := mixedChain } ∧
      (Dialect.write { settings := ⟨3⟩ } { predicate := mixedChain }).answer [] =
        .ok "x = 1 OR y = 2 OR (z = 3 AND w = 4)" ∧
      (Dialect.parse { settings := ⟨3⟩ } "x = 1 OR y = 2 OR (z = 3 AND w = 4)").answer [] =
        .error (.parse (.tooDeep 3 25)) := by
  refine ⟨?_, ?_, ?_⟩ <;> cbv

end Dialect

end WhereRules
