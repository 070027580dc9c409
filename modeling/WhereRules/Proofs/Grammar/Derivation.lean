import Mathlib.Data.List.Basic
import WhereRules.Predicate.Written

/-!
# The grammar, apart from its reader

Which tokens are rule text, and which tree they stand for, said without a reader: a derivation
(`Expr.Derives`) takes one rule of the grammar at a time. It knows nothing of places, of what comes
after the tokens, or of how deep a tree may be.

    expr       := or_expr
    or_expr    := and_expr ("OR" and_expr)*
    and_expr   := not_expr ("AND" not_expr)*
    not_expr   := "NOT" not_expr | comparison
    comparison := "(" expr ")" [suffix] | primary suffix
    suffix     := sign primary | "IS" ["NOT"] "NULL" | "BETWEEN" primary "AND" primary
                | ["NOT"] "IN" "(" literal ("," literal)* ")" | ["NOT"] "LIKE" string
    primary    := "(" expr ")" | literal | identifier

The tree of a chain is folded to the left into operations of two operands, parentheses leave no
trace, and a negated `IN` or `LIKE` is one node. The rules overlap in one place: an expression in
parentheses with a suffix is a `comparison` in two ways, with one tree.
-/

namespace WhereRules

/-- The literals of rule text and their values. -/
inductive Token.Denotes : Token → Value → Prop
  | int (n : Int64) : Denotes (.int n) (.int n)
  | number (x : Double) : Denotes (.number x) (.number x)
  | string (s : String) : Denotes (.string s) (.text s)
  | yes : Denotes (.keyword .yes) (.bool true)
  | no : Denotes (.keyword .no) (.bool false)
  | null : Denotes (.keyword .null) .null

/-- The reader's view of a literal is the grammar's. -/
theorem Token.literal?_eq_some_iff {t : Token} {v : Value} : t.literal? = some v ↔ t.Denotes v := by
  constructor
  · intro h
    cases t with
    | keyword k => cases k <;> cases h <;> constructor
    | int _ | number _ | string _ => cases h; constructor
    | identifier _ | sign _ | leftParen | rightParen | comma => cases h
  · intro h
    cases h <;> rfl

namespace Expr

/-! ## Derivations -/

/-- What a stretch of tokens can be derived as. A suffix belongs to the expression on its left. -/
inductive Phrase
  | expr
  | orExpr
  | andExpr
  | notExpr
  | comparison
  | suffix (left : Expr)
  | primary

/-- **The grammar**: the tokens are a phrase of this kind, and stand for this tree. -/
inductive Derives : Phrase → List Token → Expr → Prop
  | expr {ts : List Token} {e : Expr} : Derives .orExpr ts e → Derives .expr ts e
  | orExpr {ts : List Token} {e : Expr} {parts : List (List Token × Expr)} :
    Derives .andExpr ts e → (∀ part ∈ parts, Derives .andExpr part.1 part.2) →
    Derives .orExpr (ts ++ parts.flatMap fun part => .keyword .or :: part.1)
      (parts.foldl (fun left part => either left part.2) e)
  | andExpr {ts : List Token} {e : Expr} {parts : List (List Token × Expr)} :
    Derives .notExpr ts e → (∀ part ∈ parts, Derives .notExpr part.1 part.2) →
    Derives .andExpr (ts ++ parts.flatMap fun part => .keyword .and :: part.1)
      (parts.foldl (fun left part => both left part.2) e)
  | not {ts : List Token} {e : Expr} :
    Derives .notExpr ts e → Derives .notExpr (.keyword .not :: ts) (negation e)
  | notNegated {ts : List Token} {e : Expr} : Derives .comparison ts e → Derives .notExpr ts e
  | groupAlone {ts : List Token} {e : Expr} :
    Derives .expr ts e → Derives .comparison (inParens ts) e
  | groupCompared {ts us : List Token} {e f : Expr} :
    Derives .expr ts e → Derives (.suffix e) us f → Derives .comparison (inParens ts ++ us) f
  | compared {ts us : List Token} {e f : Expr} :
    Derives .primary ts e → Derives (.suffix e) us f → Derives .comparison (ts ++ us) f
  | sign (s : Sign) {left e : Expr} {ts : List Token} :
    Derives .primary ts e → Derives (.suffix left) (.sign s :: ts) (comparison s left e)
  | isNull (negated : Bool) {left : Expr} :
    Derives (.suffix left) (.keyword .is :: notTokens negated ++ [.keyword .null])
      (isNull left negated)
  | between {left low high : Expr} {ts us : List Token} :
    Derives .primary ts low → Derives .primary us high →
    Derives (.suffix left) (.keyword .between :: ts ++ .keyword .and :: us)
      (between left low high)
  | member (negated : Bool) {left : Expr} {t : Token} {v : Value}
      {items : List (Token × Value)} :
    t.Denotes v → (∀ item ∈ items, item.1.Denotes item.2) →
    Derives (.suffix left)
      (notTokens negated ++ .keyword .among ::
        inParens (t :: items.flatMap fun item => [.comma, item.1]))
      (member left (v :: items.map (·.2)) negated)
  | like (negated : Bool) (text : String) {left : Expr} :
    Derives (.suffix left) (notTokens negated ++ [.keyword .like, .string text])
      (like left text negated)
  | group {ts : List Token} {e : Expr} : Derives .expr ts e → Derives .primary (inParens ts) e
  | literal {t : Token} {v : Value} : t.Denotes v → Derives .primary [t] (literal v)
  | field (path : String) : Derives .primary [.identifier path] (field path)

/-! ## How a phrase begins -/

/-- Whether a token begins a field, a literal or a parenthesis. -/
def beginsPrimary : Token → Bool
  | .identifier _ | .leftParen => true
  | t => t.isLiteral

/-- Whether a token begins an expression. -/
def beginsExpr (t : Token) : Bool := t == .keyword .not || beginsPrimary t

theorem beginsPrimary_of_denotes {t : Token} {v : Value} (h : t.Denotes v) :
    beginsPrimary t = true := by
  cases h <;> rfl

theorem beginsExpr_of_beginsPrimary {t : Token} (h : beginsPrimary t = true) :
    beginsExpr t = true := by
  rw [beginsExpr, h, Bool.or_true]

/-- The first token of a phrase. A suffix is looked at by `startsSuffix_of_derives`. -/
def Phrase.BeginsAs : Phrase → List Token → Prop
  | .suffix _, _ => True
  | .comparison, ts | .primary, ts => ∃ t us, ts = t :: us ∧ beginsPrimary t = true
  | _, ts => ∃ t us, ts = t :: us ∧ beginsExpr t = true

/-- Every phrase but a suffix has a first token, of the kind that begins such phrases. By induction
on the derivation: the first token of a phrase is that of its first part. -/
theorem Derives.beginsAs {phrase : Phrase} {ts : List Token} {e : Expr}
    (h : Derives phrase ts e) : phrase.BeginsAs ts := by
  induction h with
  | expr _ ih => exact ih
  | orExpr _ _ ih _ =>
    obtain ⟨t, us, rfl, ht⟩ := ih
    exact ⟨t, _, rfl, ht⟩
  | andExpr _ _ ih _ =>
    obtain ⟨t, us, rfl, ht⟩ := ih
    exact ⟨t, _, rfl, ht⟩
  | not _ _ => exact ⟨_, _, rfl, rfl⟩
  | notNegated _ ih =>
    obtain ⟨t, us, rfl, ht⟩ := ih
    exact ⟨t, us, rfl, beginsExpr_of_beginsPrimary ht⟩
  | groupAlone _ _ | groupCompared _ _ _ _ | group _ _ => exact ⟨_, _, rfl, rfl⟩
  | compared _ _ ih _ =>
    obtain ⟨t, us, rfl, ht⟩ := ih
    exact ⟨t, _, rfl, ht⟩
  | sign _ _ _ | isNull _ | between _ _ _ _ | member _ _ _ | like _ _ => trivial
  | literal h => exact ⟨_, _, rfl, beginsPrimary_of_denotes h⟩
  | field _ => exact ⟨_, _, rfl, rfl⟩

end Expr

end WhereRules
