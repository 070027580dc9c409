import WhereRules.Proofs.Answers
import WhereRules.Proofs.Compilation.Outcome
import WhereRules.Proofs.Grammar.Soundness
import WhereRules.Proofs.Grammar.Trees
import WhereRules.Proofs.Wildcard.Pieces
import WhereRules.Proofs.Wildcard.Size

/-!
# Compiling what was read

The grammar makes conditions of conditions: an operand of `AND`, `OR` and `NOT` is one, no chain is
without operands, and a wildcard text is always the text of a pattern. So the tree of a rule text is
faultless (`Derives.faultless`), and compiling it fails only for want of fields or of room.

Room is no matter in a limit that is as large as the text is long: a tree takes no more levels than it
has nodes, it has no more nodes than the text has tokens, and a token takes a character.
-/

namespace WhereRules

/-! ## Wildcard texts in an expression -/

namespace Expr

mutual

/-- The wildcard texts in an expression, from left to right. -/
def wildcards : Expr → List String
  | literal _ | field _ => []
  | comparison _ left right => left.wildcards ++ right.wildcards
  | logical _ operands => wildcardsAll operands
  | member subject _ _ => subject.wildcards
  | between subject low high => subject.wildcards ++ (low.wildcards ++ high.wildcards)
  | like subject text _ => subject.wildcards ++ [text]
  | isNull subject _ => subject.wildcards

/-- The wildcard texts in a row of expressions. -/
def wildcardsAll : List Expr → List String
  | [] => []
  | e :: rest => e.wildcards ++ wildcardsAll rest

end

/-- The automata of all wildcard texts in an expression are within the limits. -/
def SmallWildcards (e : Expr) : Prop :=
  ∀ text ∈ e.wildcards, (Like.anchored (Like.parts text.toList)).Small

theorem wildcards_pair (c : Connective) (left right : Expr) :
    (logical c [left, right]).wildcards = left.wildcards ++ right.wildcards := by
  rw [wildcards, wildcardsAll, wildcardsAll, wildcardsAll, List.append_nil]

theorem wildcards_negation (e : Expr) : (negation e).wildcards = e.wildcards := by
  rw [negation, wildcards, wildcardsAll, wildcardsAll, List.append_nil]

/-- The wildcard texts of a chain are those of its operands. -/
theorem smallWildcards_foldl {c : Connective} {α : Type} {parts : List (α × Expr)} {first : Expr}
    (h : (parts.foldl (fun left part => logical c [left, part.2]) first).SmallWildcards) :
    first.SmallWildcards ∧ ∀ part ∈ parts, part.2.SmallWildcards := by
  induction parts generalizing first with
  | nil => exact ⟨h, List.forall_mem_nil _⟩
  | cons part parts ih =>
    obtain ⟨hpair, hparts⟩ := ih h
    rw [SmallWildcards, wildcards_pair, List.forall_mem_append] at hpair
    exact ⟨hpair.1, List.forall_mem_cons.mpr ⟨hpair.2, hparts⟩⟩

/-! ## Trees of rule text -/

/-- A suffix leaves the wildcard texts on its left where they are. -/
theorem Derives.smallWildcards_left {left e : Expr} {ts : List Token}
    (h : Derives (.suffix left) ts e) (he : e.SmallWildcards) : left.SmallWildcards := by
  intro text htext
  apply he
  cases h with
  | sign _ _ | between _ _ | like _ _ => exact List.mem_append_left _ htext
  | isNull _ | member _ _ _ => exact htext

/-- The wildcard text of a `LIKE` has a pattern. -/
theorem fault?_like {subject : Expr} {text : String} {negated : Bool}
    (small : (Like.anchored (Like.parts text.toList)).Small) :
    (like subject text negated).fault? = none := by
  have hpattern := Pattern.ofText?_source (Like.toPattern text small)
  have hsource : (Like.toPattern text small).source = Like.toRegex text := rfl
  rw [hsource] at hpattern
  rw [fault?, hpattern, Option.isSome_some, if_pos rfl]

/-- What the tree of a phrase is as a condition. A primary may be a literal or a field, and so may
the left side of a suffix. -/
def Phrase.Faultless : Phrase → Expr → Prop
  | .suffix left, e => (left.isCondition = true → left.Faultless) → e.Faultless
  | .primary, e => e.isCondition = true → e.Faultless
  | _, e => e.Faultless

/-- **The grammar makes faultless trees.** The induction is on the derivation, and a chain of the
grammar has two operands at each node, so no connective is empty. -/
theorem Derives.faultless {phrase : Phrase} {ts : List Token} {e : Expr}
    (h : Derives phrase ts e) (small : e.SmallWildcards) : phrase.Faultless e := by
  induction h with
  | expr _ ih | notNegated _ ih | groupAlone _ ih => exact ih small
  | orExpr _ _ ih ihs =>
    obtain ⟨hfirst, hparts⟩ := smallWildcards_foldl (c := .or) small
    exact faultless_foldl (c := .or) (by decide) (ih hfirst) fun part hpart =>
      ihs part hpart (hparts part hpart)
  | andExpr _ _ ih ihs =>
    obtain ⟨hfirst, hparts⟩ := smallWildcards_foldl (c := .and) small
    exact faultless_foldl (c := .and) (by decide) (ih hfirst) fun part hpart =>
      ihs part hpart (hparts part hpart)
  | not _ ih =>
    rw [SmallWildcards, wildcards_negation] at small
    exact faultless_negation (ih small)
  | groupCompared _ hsuffix ih ihs =>
    exact ihs small fun _ => ih (hsuffix.smallWildcards_left small)
  | compared _ hsuffix ih ihs =>
    exact ihs small (ih (hsuffix.smallWildcards_left small))
  | sign s _ ih =>
    intro hleft
    obtain ⟨-, hright⟩ := List.forall_mem_append.mp small
    apply Expr.Faultless.intro rfl
    rw [inside, forall_mem_conditionsOf, List.forall_mem_cons, List.forall_mem_singleton]
    exact ⟨hleft, ih hright⟩
  | isNull negated =>
    intro hleft
    apply Expr.Faultless.intro rfl
    rw [inside, forall_mem_conditionsOf, List.forall_mem_singleton]
    exact hleft
  | between _ _ ih ihs =>
    intro hleft
    obtain ⟨-, hbounds⟩ := List.forall_mem_append.mp small
    obtain ⟨hlow, hhigh⟩ := List.forall_mem_append.mp hbounds
    apply Expr.Faultless.intro rfl
    rw [inside, forall_mem_conditionsOf, List.forall_mem_cons, List.forall_mem_cons,
      List.forall_mem_singleton]
    exact ⟨hleft, ih hlow, ihs hhigh⟩
  | member negated _ _ =>
    intro hleft
    apply Expr.Faultless.intro rfl
    rw [inside, forall_mem_conditionsOf, List.forall_mem_singleton]
    exact hleft
  | like negated text =>
    intro hleft
    have htext := small text (List.mem_append_right _ (List.mem_singleton_self text))
    apply Expr.Faultless.intro (fault?_like htext)
    rw [inside, forall_mem_conditionsOf, List.forall_mem_singleton]
    exact hleft
  | group _ ih => exact fun _ => ih small
  | literal _ | field _ =>
    intro hcondition
    cases hcondition

end Expr

/-! ## Texts and limits -/

/-- A token takes a character, and blanks take some as well, so there are no more tokens than
characters. -/
theorem Token.length_le_of_ofChars {position : Nat} {cs : List Char} {ts : List Placed}
    (h : ofChars position cs = .ok ts) : ts.length ≤ cs.length := by
  induction hn : cs.length using Nat.strongRecOn generalizing position cs ts with
  | ind n ih =>
    cases cs with
    | nil =>
      rw [ofChars] at h
      cases h
      exact Nat.zero_le _
    | cons c cs =>
      rw [List.length_cons] at hn
      rw [ofChars] at h
      split at h
      · exact Nat.le_trans (ih cs.length (by omega) h rfl) (by omega)
      · split at h
        · cases h
        · next token taken _ =>
          obtain ⟨rest, hrest, rfl⟩ := map_eq_ok.mp h
          have hdrop : (cs.drop taken).length ≤ cs.length := by
            rw [List.length_drop]
            exact Nat.sub_le _ _
          have hle := ih (cs.drop taken).length (by omega) hrest rfl
          rw [List.length_cons]
          omega

/-- A text is cut into no more tokens than it has characters. -/
theorem TokenStream.length_le_of_ofText {source : String} {stream : TokenStream}
    (h : TokenStream.ofText source = .ok stream) : stream.tokens.length ≤ source.length := by
  obtain ⟨tokens, htokens, rfl⟩ := map_eq_ok.mp h
  have hle := Token.length_le_of_ofChars htokens
  rwa [String.length_toList] at hle

/-- **A tree takes no more levels than its text has characters.** -/
theorem Expr.levels_le_length {source : String} {stream : TokenStream} {limit : Nat} {e : Expr}
    (hstream : TokenStream.ofText source = .ok stream) (he : ofTokens limit stream = .ok e) :
    e.levels ≤ source.length := by
  calc e.levels
    _ ≤ e.size := e.levels_le_size
    _ ≤ (words stream.tokens).length := (derives_of_ofTokens he).size_le_length
    _ = stream.tokens.length := length_words stream.tokens
    _ ≤ source.length := TokenStream.length_le_of_ofText hstream

/-! ## The outcome -/

/-- Without an allow list the paths without an empty step are those that name fields. No other rule
is kept about paths then. -/
theorem FieldPolicy.resolve_any_iff {path : String} :
    (∃ field, FieldPolicy.any.resolve path = .ok field) ↔ "" ∉ pathSegments path := by
  have hany : FieldPolicy.any.resolve path = Field.ofPath path := rfl
  rw [hany, Field.ofPath]
  constructor
  · rintro ⟨field, hfield⟩
    split at hfield
    · assumption
    · cases hfield
  · intro hpath
    exact ⟨_, dif_pos hpath⟩

namespace Predicate

/-- **What was read is a condition throughout.** Whatever the resolver and the limit, compiling it
gives a predicate, or some path that it names has no field, or the limit is too small. A limit of as
many levels as the text has characters never is: then, with every field allowed, compiling fails just
when some path has an empty step. That the wildcard texts are within the limits of patterns is all
that is assumed of them. -/
theorem ofExpr_of_ofText {source : String} {stream : TokenStream} {limit : Nat} {e : Expr}
    (hstream : TokenStream.ofText source = .ok stream) (he : Expr.ofTokens limit stream = .ok e)
    (small : ∀ text ∈ e.wildcards, (Like.anchored (Like.parts text.toList)).Small) :
    (∀ (resolve : Resolver) (limit' : Nat),
      (∃ p, ofExpr resolve limit' e = .ok p) ∨
        (∃ path ∈ e.fields, ∃ cause, resolve path = .error cause ∧
          ofExpr resolve limit' e = .error (.unresolved path cause)) ∨
        ofExpr resolve limit' e = .error (.tooDeep limit')) ∧
      ∀ limit', source.length ≤ limit' →
        ((∃ error, ofExpr FieldPolicy.any.resolve limit' e = .error error) ↔
          ∃ path ∈ e.fields, "" ∈ pathSegments path) := by
  have hfaultless : e.Faultless := (Expr.derives_of_ofTokens he).faultless small
  constructor
  · intro resolve limit'
    have hexplained := hfaultless.explained resolve limit' limit'
    rw [← Predicate.ofExpr] at hexplained
    cases hanswer : ofExpr resolve limit' e with
    | ok p => exact .inl ⟨p, rfl⟩
    | error error =>
      rw [hanswer] at hexplained
      rcases hexplained with rfl | ⟨path, hpath, cause, hcause, rfl⟩
      · exact .inr (.inr rfl)
      · exact .inr (.inl ⟨path, Expr.mem_fields.mpr hpath, cause, hcause, rfl⟩)
  · intro limit' hlimit
    have hlevels : e.levels ≤ limit' := Nat.le_trans (Expr.levels_le_length hstream he) hlimit
    have hcompiles : (∃ p, ofExpr FieldPolicy.any.resolve limit' e = .ok p) ↔
        ∀ path ∈ e.fields, "" ∉ pathSegments path := by
      rw [ofExpr, Expr.exists_condition_iff, and_iff_right hfaultless, and_iff_left hlevels]
      simp only [Expr.mem_fields, FieldPolicy.resolve_any_iff]
    cases hanswer : ofExpr FieldPolicy.any.resolve limit' e with
    | ok p =>
      have hpaths := hcompiles.mp ⟨p, hanswer⟩
      constructor
      · rintro ⟨error, herror⟩
        cases herror
      · rintro ⟨path, hpath, hempty⟩
        exact absurd hempty (hpaths path hpath)
    | error error =>
      refine iff_of_true ⟨error, rfl⟩ ?_
      by_contra hnone
      obtain ⟨p, hp⟩ := hcompiles.mpr fun path hpath hempty => hnone ⟨path, hpath, hempty⟩
      rw [hanswer] at hp
      cases hp

/-- `(a LIKE '[%' OR b = 1) = c..d` -/
def emptyStep : TokenStream where
  tokens := [⟨.leftParen, 0⟩, ⟨.identifier "a", 1⟩, ⟨.keyword .like, 3⟩, ⟨.string "[%", 8⟩,
    ⟨.keyword .or, 13⟩, ⟨.identifier "b", 16⟩, ⟨.sign .equal, 18⟩, ⟨.int 1, 20⟩, ⟨.rightParen, 21⟩,
    ⟨.sign .equal, 23⟩, ⟨.identifier "c..d", 25⟩]
  stop := 29

/-- The disjunction, though in the place of a value, is a condition, and its wildcard text has a
pattern: it is the empty step of the path `c..d` that is wrong. -/
theorem ofExpr_emptyStep :
    ∃ e, TokenStream.ofText "(a LIKE '[%' OR b = 1) = c..d" = .ok emptyStep ∧
      Expr.ofTokens 2 emptyStep = .ok e ∧ e.wildcards = ["[%"] ∧
      (∀ text ∈ e.wildcards, (Like.anchored (Like.parts text.toList)).Small) ∧
      ((∃ p, ofExpr FieldPolicy.any.resolve 1 e = .ok p) ∨
        (∃ path ∈ e.fields, ∃ cause, FieldPolicy.any.resolve path = .error cause ∧
          ofExpr FieldPolicy.any.resolve 1 e = .error (.unresolved path cause)) ∨
        ofExpr FieldPolicy.any.resolve 1 e = .error (.tooDeep 1)) ∧
      29 ≤ 29 ∧ ∃ error, ofExpr FieldPolicy.any.resolve 29 e = .error error := by
  have hstream : TokenStream.ofText "(a LIKE '[%' OR b = 1) = c..d" = .ok emptyStep := by cbv
  obtain ⟨e, he, hwildcards, hfields⟩ : ∃ e, Expr.ofTokens 2 emptyStep = .ok e ∧
      e.wildcards = ["[%"] ∧ e.fields = ["a", "b", "c..d"] := ⟨_, by cbv, by cbv, by cbv⟩
  have small : ∀ text ∈ e.wildcards, (Like.anchored (Like.parts text.toList)).Small := by
    rw [hwildcards, List.forall_mem_singleton]
    exact Like.small_of_length_le (by decide)
  obtain ⟨hexplained, hfails⟩ := ofExpr_of_ofText hstream he small
  have hpath : "c..d" ∈ e.fields ∧ "" ∈ pathSegments "c..d" := by
    rw [hfields]
    exact ⟨by decide, by decide⟩
  exact ⟨e, hstream, he, hwildcards, small, hexplained _ 1, Nat.le_refl 29,
    (hfails 29 (by decide)).mpr ⟨_, hpath⟩⟩

end Predicate

end WhereRules
