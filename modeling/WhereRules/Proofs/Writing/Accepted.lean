import WhereRules.Proofs.Answers
import WhereRules.Proofs.Compilation.Fields
import WhereRules.Proofs.Grammar.Soundness
import WhereRules.Proofs.RoundTrip.Spelled
import WhereRules.Proofs.Spelling.Tokens
import WhereRules.Proofs.Writing.Writable

/-!
# Which rules can be written back

A rule that was read from a text is made of what rule text has words for, with one exception. A
number in a text may be larger than every double; it then stands for an endless one, and that has no
text. So a rule that was read can be written exactly when every number in its text is finite
(`exists_write_iff_finite`).

The names of a text are names (`legible_iff_of_ofText`), a tree has no parts but what its tokens
stand for (`Derives.writable_iff`), and compiling keeps them. Room is no matter: no predicate is
deeper than the room that it was compiled in.
-/

namespace WhereRules

/-! ## Tokens of a text -/

namespace Token

theorem ne_identifier_of_numberBody {negative : Bool} {cs : List Char} {token : Token} {taken : Nat}
    (h : numberBody negative cs = .ok (token, taken)) (name : String) : token ≠ identifier name := by
  have hwhole : ∀ {digits : List Char} {token : Token},
      ofWhole negative digits = .ok token → token ≠ identifier name := by
    intro digits token h
    unfold ofWhole at h
    simp only at h
    split at h
    · cases h
      nofun
    · cases h
  unfold numberBody at h
  simp only at h
  split at h
  · split at h
    · obtain ⟨_, hint, heq⟩ := map_eq_ok.mp h
      cases heq
      exact hwhole hint
    · cases h
      nofun
  · obtain ⟨_, hint, heq⟩ := map_eq_ok.mp h
    cases heq
    exact hwhole hint

theorem ne_identifier_of_symbol {c : Char} {cs : List Char} {token : Token} {taken : Nat}
    (h : symbol c cs = .ok (token, taken)) (name : String) : token ≠ identifier name := by
  unfold symbol at h
  split at h <;> cases h <;> nofun

/-- A word of a text that is no keyword is a name. -/
theorem isName_of_ofName {c : Char} {cs : List Char} {name : String} (hc : startsName c = true)
    (hcs : ∀ d ∈ cs, continuesName d = true) (h : ofName (c :: cs) = identifier name) :
    isName name = true := by
  unfold ofName at h
  split at h
  · cases h
  · next hnone =>
    cases h
    rw [isName, String.toList_ofList]
    simp only [hc, hnone, Option.isNone_none, Bool.true_and, Bool.and_true]
    exact List.all_eq_true.mpr hcs

/-- A name that is cut from a text is a name that can be written. Of the ways in which a token may
begin only a word leads to one. -/
theorem isName_of_lexeme {c : Char} {cs : List Char} {name : String} {taken : Nat}
    (h : lexeme c cs = .ok (identifier name, taken)) : isName name = true := by
  unfold lexeme at h
  split at h
  · split at h <;> cases h
  split at h
  · obtain ⟨⟨token, _⟩, hnumber, heq⟩ := map_eq_ok.mp h
    exact absurd (Prod.mk.inj heq).1 (ne_identifier_of_numberBody hnumber name)
  split at h
  · exact absurd rfl (ne_identifier_of_numberBody h name)
  split at h
  · next hstarts =>
    obtain ⟨hname, -⟩ := Prod.mk.inj (Except.ok.inj h)
    exact isName_of_ofName hstarts (fun d hd => List.mem_takeWhile_imp hd) hname
  · exact absurd rfl (ne_identifier_of_symbol h name)

/-- All names of a text are names that can be written. The recursion is that of cutting, one token
after the other. -/
theorem isName_of_ofChars {position : Nat} {cs : List Char} {ps : List Placed}
    (h : ofChars position cs = .ok ps) :
    ∀ name, identifier name ∈ Expr.words ps → isName name = true := by
  fun_induction ofChars position cs generalizing ps with
  | case1 =>
    intro name hname
    cases h
    cases hname
  | case2 position c cs _ ih => exact ih h
  | case3 => cases h
  | case4 position c cs _ token taken hlexeme ih =>
    obtain ⟨rest, hrest, rfl⟩ := map_eq_ok.mp h
    intro name hname
    rcases List.mem_cons.mp hname with hname | hname
    · subst hname
      exact isName_of_lexeme hlexeme
    · exact ih hrest name hname

end Token

/-- **The tokens of a text all have texts**, but for endless numbers. Strings have one whatever they
hold, and integers whatever their size. -/
theorem TokenStream.legible_iff_of_ofText {source : String} {stream : TokenStream}
    (h : ofText source = .ok stream) :
    (∀ t ∈ Expr.words stream.tokens, t.Legible) ↔
      ∀ x, .number x ∈ Expr.words stream.tokens → x.isFinite = true := by
  obtain ⟨ps, hps, rfl⟩ := map_eq_ok.mp h
  constructor
  · intro hlegible x hx
    exact hlegible _ hx
  · intro hfinite t ht
    cases t with
    | identifier name => exact Token.isName_of_ofChars hps name ht
    | number x => exact hfinite x ht
    | _ => trivial

/-! ## Trees of the grammar -/

namespace Expr

/-- A literal has a text just when the value it denotes has one, which leaves out numbers that are
not finite. -/
theorem legible_iff_of_denotes {t : Token} {v : Value} (h : t.Denotes v) :
    t.Legible ↔ v.Writable := by
  cases h <;> exact Iff.rfl

/-- A chain can be written when its operands can. -/
theorem writable_foldl {c : Connective} {parts : List (List Token × Expr)} {e : Expr} :
    (parts.foldl (fun left part => logical c [left, part.2]) e).Writable ↔
      e.Writable ∧ ∀ part ∈ parts, part.2.Writable := by
  induction parts generalizing e with
  | nil => simp
  | cons part parts ih =>
    simp only [List.foldl_cons, ih, Writable, WritableEach, List.forall_mem_cons, and_true, and_assoc]

/-- What a suffix belongs to has words for each part. -/
def Phrase.LeftWritable : Phrase → Prop
  | .suffix left => left.Writable
  | _ => True

theorem legible_inParens_iff {ts : List Token} :
    (∀ t ∈ inParens ts, t.Legible) ↔ ∀ t ∈ ts, t.Legible := by
  simp [inParens, or_imp, forall_and, Token.Legible]

theorem legible_chain_iff {k : Keyword} {ts : List Token} {parts : List (List Token × Expr)} :
    (∀ t ∈ ts ++ parts.flatMap (fun part => .keyword k :: part.1), t.Legible) ↔
      (∀ t ∈ ts, t.Legible) ∧ ∀ part ∈ parts, ∀ t ∈ part.1, t.Legible := by
  induction parts with
  | nil => simp
  | cons part parts ih =>
    rw [List.forall_mem_append] at ih ⊢
    simp only [List.flatMap_cons, List.cons_append, List.forall_mem_cons, List.forall_mem_append,
      Token.Legible, true_and]
    tauto

theorem legible_items_iff {items : List (Token × Value)}
    (h : ∀ item ∈ items, item.1.Denotes item.2) :
    (∀ t ∈ items.flatMap fun item => [Token.comma, item.1], t.Legible) ↔
      ∀ v ∈ items.map (·.2), v.Writable := by
  induction items with
  | nil => simp
  | cons item items ih =>
    obtain ⟨hitem, hitems⟩ := List.forall_mem_cons.mp h
    rw [List.flatMap_cons, List.forall_mem_append, List.forall_mem_cons, List.forall_mem_singleton,
      ih hitems, legible_iff_of_denotes hitem, List.map_cons, List.forall_mem_cons]
    exact and_congr_left' (and_iff_right trivial)

/-- A tree has words for each part just when its tokens have texts. The induction is on the
derivation, one case for each form of the grammar. -/
theorem Derives.writable_iff {phrase : Phrase} {ts : List Token} {e : Expr}
    (h : Derives phrase ts e) : e.Writable ↔ phrase.LeftWritable ∧ ∀ t ∈ ts, t.Legible := by
  induction h with
  | expr _ ih | notNegated _ ih => exact ih
  | orExpr _ _ ih ihs | andExpr _ _ ih ihs =>
    simp only [Phrase.LeftWritable, true_and] at ih ihs ⊢
    rw [legible_chain_iff, ← ih]
    refine writable_foldl.trans (and_congr_right' (forall₂_congr ihs))
  | not _ ih =>
    simp only [Phrase.LeftWritable, true_and] at ih ⊢
    simp only [negation, Writable, WritableEach, and_true, List.forall_mem_cons, Token.Legible,
      true_and, ih]
  | groupAlone _ ih | group _ ih =>
    rw [legible_inParens_iff]
    exact ih
  | groupCompared _ _ ih ihs =>
    simp only [Phrase.LeftWritable, true_and] at ih ihs ⊢
    rw [List.forall_mem_append, legible_inParens_iff, ihs, ih]
  | compared _ _ ih ihs =>
    simp only [Phrase.LeftWritable, true_and] at ih ihs ⊢
    rw [List.forall_mem_append, ihs, ih]
  | sign s _ ih =>
    simp only [Phrase.LeftWritable, true_and] at ih ⊢
    simp only [Writable, ih, List.forall_mem_cons, Token.Legible, true_and]
  | isNull negated =>
    have hwords : ∀ t ∈ .keyword .is :: notTokens negated ++ [.keyword .null], t.Legible :=
      List.forall_mem_append.mpr ⟨List.forall_mem_cons.mpr ⟨trivial, legible_notTokens negated⟩,
        List.forall_mem_singleton.mpr trivial⟩
    exact (and_iff_left hwords).symm
  | between _ _ ihlow ihhigh =>
    simp only [Phrase.LeftWritable, true_and] at ihlow ihhigh ⊢
    simp only [Writable, ihlow, ihhigh, List.cons_append, List.forall_mem_cons,
      List.forall_mem_append, Token.Legible, true_and]
  | member negated ht hitems =>
    rw [List.forall_mem_append, iff_true_intro (legible_notTokens negated), true_and,
      List.forall_mem_cons, legible_inParens_iff, List.forall_mem_cons, legible_items_iff hitems,
      legible_iff_of_denotes ht, Writable, List.forall_mem_cons]
    simp only [Phrase.LeftWritable, Token.Legible, ne_eq, reduceCtorEq, not_false_eq_true, true_and]
  | like negated text =>
    have hwords : ∀ t ∈ notTokens negated ++ [.keyword .like, .string text], t.Legible :=
      List.forall_mem_append.mpr ⟨legible_notTokens negated,
        List.forall_mem_cons.mpr ⟨trivial, List.forall_mem_singleton.mpr trivial⟩⟩
    exact (and_iff_left hwords).symm
  | literal ht =>
    rw [List.forall_mem_singleton, legible_iff_of_denotes ht]
    exact (and_iff_right trivial).symm
  | field path =>
    rw [List.forall_mem_singleton]
    exact (and_iff_right trivial).symm

end Expr

namespace Dialect

/-- **A rule that was read from a text can be written exactly when every number in the text is
finite.** -/
theorem exists_write_iff_finite {dialect : Dialect} {source : String} {rule : Rule}
    {log log' : List Event} (h : (dialect.parse source).answer log = .ok rule) :
    ∃ stream, TokenStream.ofText source = .ok stream ∧
      ((∃ text, (dialect.write rule).answer log' = .ok text) ↔
        ∀ x, .number x ∈ Expr.words stream.tokens → x.isFinite = true) := by
  obtain ⟨stream, e, p, hstream, he, hp, rfl⟩ := answer_parse_eq_ok.mp h
  refine ⟨stream, hstream, ?_⟩
  calc (∃ text, (dialect.write { predicate := p }).answer log' = .ok text)
    _ ↔ ∃ e, Expr.ofPredicate dialect.settings.maxDepth p = .ok e := by
      simp only [answer_write_eq_ok, Predicate.toText, map_eq_ok]
      exact ⟨fun ⟨_, e, he, _⟩ => ⟨e, he⟩, fun ⟨e, he⟩ => ⟨_, e, he, rfl⟩⟩
    _ ↔ p.Writable := Expr.exists_written_iff.trans
      (and_iff_left (Expr.depth_le_of_condition hp))
    _ ↔ e.Writable := Expr.writable_iff_of_condition FieldPolicy.path_of_resolve hp
    _ ↔ ∀ t ∈ Expr.words stream.tokens, t.Legible :=
      (Expr.derives_of_ofTokens he).writable_iff.trans (and_iff_right trivial)
    _ ↔ ∀ x, .number x ∈ Expr.words stream.tokens → x.isFinite = true :=
      TokenStream.legible_iff_of_ofText hstream

/-- The rule of `price > x`. -/
def priceAbove (x : Double) : Rule where
  predicate := .comparison .greater (.field ⟨"price", by decide⟩) (.constant (.number x))

/-- A text that is cut into a price, a sign and a number is read as the rule of them. -/
theorem parse_priceAbove {source : String} {x : Double} (h : Token.ofChars 0 source.toList =
      .ok [⟨.identifier "price", 0⟩, ⟨.sign .greater, 6⟩, ⟨.number x, 8⟩]) :
    (Dialect.parse {} source).answer [] = .ok (priceAbove x) := by
  have hexpr : ∀ stop, Expr.ofTokens 256
      ⟨[⟨.identifier "price", 0⟩, ⟨.sign .greater, 6⟩, ⟨.number x, 8⟩], stop⟩ =
        .ok (.comparison .greater (.field "price") (.literal (.number x))) := fun stop => by cbv
  exact answer_parse_eq_ok.mpr ⟨_, _, _, map_eq_ok.mpr ⟨_, h, rfl⟩, hexpr _, rfl, rfl⟩

/-- With a finite number the condition is met, and the rule can be written. -/
theorem exists_write_priceAbove :
    (Dialect.parse {} "price > -2.50").answer [] =
        .ok (priceAbove (Double.ofDigits true ['2'] ['5', '0'])) ∧
      ∃ stream, TokenStream.ofText "price > -2.50" = .ok stream ∧
        ((∃ text, (Dialect.write {} (priceAbove (Double.ofDigits true ['2'] ['5', '0']))).answer [] =
            .ok text) ↔
          ∀ x, .number x ∈ Expr.words stream.tokens → x.isFinite = true) := by
  have hparse : (Dialect.parse {} "price > -2.50").answer [] =
      .ok (priceAbove (Double.ofDigits true ['2'] ['5', '0'])) :=
    parse_priceAbove (by decide +kernel)
  exact ⟨hparse, exists_write_iff_finite hparse⟩

/-- A one with 309 zeros behind it is larger than every double, and the rule that it stands in is
read, but cannot be written. -/
theorem not_exists_write_priceAbove :
    (Dialect.parse {} (String.ofList
        ("price > 1".toList ++ List.replicate 309 '0' ++ ".0".toList))).answer [] =
        .ok (priceAbove (.infinity false)) ∧
      ¬∃ text, (Dialect.write {} (priceAbove (.infinity false))).answer [] = .ok text := by
  constructor
  · refine parse_priceAbove ?_
    rw [String.toList_ofList]
    decide +kernel
  · rintro ⟨text, h⟩
    cases h

end Dialect

end WhereRules
