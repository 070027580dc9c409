import Mathlib.Algebra.Order.Ring.Int
import Mathlib.Data.List.Basic
import WhereRules.Proofs.Grammar.Derivation

/-!
# Parentheses

Every phrase closes the parentheses that it opens and no others (`Derives.balanced`). So wherever an
expression in parentheses stands among the tokens of a text, it stands whole in one part of the text
or in another (`Balanced.split`), and its two parentheses belong together (`Balanced.split_inParens`).

The only parentheses that enclose no expression are those of `IN`, and what they enclose is no
expression: it has no operator (`Derives.hasOperator`).
-/

namespace WhereRules

namespace Token

/-- How many parentheses a token opens. -/
def opens : Token → Int
  | leftParen => 1
  | rightParen => -1
  | _ => 0

/-- How many parentheses are open behind some tokens. -/
def opened (ts : List Token) : Int := (ts.map opens).sum

/-- Whether a token begins the operator part of a comparison. -/
def isOperator : Token → Bool
  | sign _ => true
  | keyword .is | keyword .between | keyword .among | keyword .like => true
  | _ => false

end Token

namespace Expr

open Token

/-- Behind two stretches of tokens as many parentheses are open as both open together. -/
theorem opened_append (ts us : List Token) : opened (ts ++ us) = opened ts + opened us := by
  rw [opened, List.map_append, List.sum_append]
  rfl

theorem opened_cons (t : Token) (ts : List Token) : opened (t :: ts) = t.opens + opened ts := by
  rw [opened, List.map_cons, List.sum_cons]
  rfl

/-- Tokens that close what they open, and nothing else: at their end nothing is open, and nowhere
before it more is closed than was opened. -/
structure Balanced (ts : List Token) : Prop where
  closed : opened ts = 0
  nonneg : ∀ us vs, ts = us ++ vs → 0 ≤ opened us

/-- No tokens open nothing. -/
theorem balanced_nil : Balanced [] where
  closed := rfl
  nonneg us vs h := by
    obtain ⟨rfl, -⟩ := List.append_eq_nil_iff.mp h.symm
    exact Int.le_refl 0

/-- Balanced tokens one after the other are balanced. -/
theorem Balanced.append {ts us : List Token} (hts : Balanced ts) (hus : Balanced us) :
    Balanced (ts ++ us) where
  closed := by rw [opened_append, hts.closed, hus.closed, Int.add_zero]
  nonneg vs ws h := by
    rcases List.append_eq_append_iff.mp h with ⟨rest, rfl, hrest⟩ | ⟨rest, hrest, -⟩
    · rw [opened_append, hts.closed, Int.zero_add]
      exact hus.nonneg rest ws hrest
    · exact hts.nonneg vs rest hrest

/-- A token that is no parenthesis. -/
theorem balanced_singleton {t : Token} (h : t.opens = 0) : Balanced [t] where
  closed := by rw [opened_cons, h, Int.zero_add]; rfl
  nonneg us vs hsplit := by
    rcases List.singleton_eq_append_iff.mp hsplit with ⟨rfl, -⟩ | ⟨rfl, -⟩
    · exact Int.le_refl 0
    · rw [opened_cons, h, Int.zero_add]
      exact Int.le_refl 0

/-- A token that is no parenthesis may stand in front. -/
theorem Balanced.cons {t : Token} {ts : List Token} (ht : t.opens = 0) (h : Balanced ts) :
    Balanced (t :: ts) := (balanced_singleton ht).append h

/-- Tokens without parentheses are balanced. -/
theorem balanced_of_forall {ts : List Token} (h : ∀ t ∈ ts, t.opens = 0) : Balanced ts := by
  induction ts with
  | nil => exact balanced_nil
  | cons t ts ih =>
    obtain ⟨ht, hts⟩ := List.forall_mem_cons.mp h
    exact (ih hts).cons ht

/-- Balanced stretches one after the other are balanced, however many. -/
theorem balanced_flatMap {α : Type} {parts : List α} {f : α → List Token}
    (h : ∀ part ∈ parts, Balanced (f part)) : Balanced (parts.flatMap f) := by
  induction parts with
  | nil => exact balanced_nil
  | cons part parts ih =>
    obtain ⟨hpart, hparts⟩ := List.forall_mem_cons.mp h
    rw [List.flatMap_cons]
    exact hpart.append (ih hparts)

/-- Balanced tokens in parentheses are balanced: inside there is always one more open, which the
last parenthesis closes. -/
theorem Balanced.inParens {ts : List Token} (h : Balanced ts) : Balanced (inParens ts) where
  closed := by
    rw [Expr.inParens, opened_append, opened_cons, h.closed]
    rfl
  nonneg us vs hsplit := by
    rw [Expr.inParens] at hsplit
    cases us with
    | nil => exact Int.le_refl 0
    | cons u us =>
      obtain ⟨rfl, hrest⟩ := List.cons.inj hsplit
      have hopen : opened (.leftParen :: us) = 1 + opened us := opened_cons _ _
      rw [hopen]
      rcases List.append_eq_append_iff.mp hrest with ⟨rest, rfl, hend⟩ | ⟨rest, hus, -⟩
      · rw [opened_append, h.closed]
        rcases List.singleton_eq_append_iff.mp hend with ⟨rfl, -⟩ | ⟨rfl, -⟩ <;> decide
      · have hnonneg := h.nonneg us rest hus
        omega

/-! ## Phrases are balanced -/

theorem opens_of_denotes {t : Token} {v : Value} (h : t.Denotes v) : t.opens = 0 := by
  cases h <;> rfl

/-- An optional `NOT` is no parenthesis. -/
theorem balanced_notTokens (negated : Bool) : Balanced (notTokens negated) := by
  cases negated with
  | false => exact balanced_nil
  | true => exact balanced_singleton rfl

/-- What `IN` encloses: literals and commas, and no parentheses. -/
theorem opens_of_mem_constants {t : Token} {v : Value} {items : List (Token × Value)}
    (ht : t.Denotes v) (hitems : ∀ item ∈ items, item.1.Denotes item.2) :
    ∀ u ∈ t :: items.flatMap fun item => [.comma, item.1], u.opens = 0 := by
  intro u hu
  rcases List.mem_cons.mp hu with rfl | hu
  · exact opens_of_denotes ht
  · obtain ⟨item, hitem, hu⟩ := List.mem_flatMap.mp hu
    rcases List.mem_cons.mp hu with rfl | hu
    · rfl
    · rw [List.mem_singleton.mp hu]
      exact opens_of_denotes (hitems item hitem)

/-- **Every phrase is balanced.** The grammar has parentheses in pairs only, and the induction is on
the derivation. -/
theorem Derives.balanced {phrase : Phrase} {ts : List Token} {e : Expr} (h : Derives phrase ts e) :
    Balanced ts := by
  induction h with
  | expr _ ih | notNegated _ ih => exact ih
  | orExpr _ _ ih ihs | andExpr _ _ ih ihs =>
    exact ih.append (balanced_flatMap fun part hpart => (ihs part hpart).cons rfl)
  | not _ ih => exact ih.cons rfl
  | groupAlone _ ih | group _ ih => exact ih.inParens
  | groupCompared _ _ ih ihs => exact ih.inParens.append ihs
  | compared _ _ ih ihs => exact ih.append ihs
  | sign s _ ih => exact ih.cons rfl
  | isNull negated =>
    exact ((balanced_notTokens negated).cons rfl).append (balanced_singleton rfl)
  | between _ _ ih ihs => exact (ih.cons rfl).append (ihs.cons rfl)
  | member negated ht hitems =>
    have hitems := balanced_of_forall (opens_of_mem_constants ht hitems)
    exact (balanced_notTokens negated).append (hitems.inParens.cons rfl)
  | like negated text =>
    exact (balanced_notTokens negated).append ((balanced_singleton rfl).cons rfl)
  | literal ht => exact balanced_singleton (opens_of_denotes ht)
  | field path => exact balanced_singleton rfl

/-! ## Where a group stands -/

section Groups

variable {ts us xs before after : List Token}

/-- A group stands in balanced tokens or behind them. It cannot begin in them and end behind them,
since then more would be open at their end than is. -/
theorem Balanced.split (hts : Balanced ts) (hxs : Balanced xs)
    (h : ts ++ us = before ++ (Expr.inParens xs ++ after)) :
    (∃ rest, ts = before ++ (Expr.inParens xs ++ rest) ∧ after = rest ++ us) ∨
      ∃ rest, before = ts ++ rest ∧ us = rest ++ (Expr.inParens xs ++ after) := by
  rcases List.append_eq_append_iff.mp h with hbehind | ⟨front, rfl, hfront⟩
  · exact .inr hbehind
  rcases List.append_eq_append_iff.mp hfront with ⟨rest, rfl, rfl⟩ | ⟨back, hback, rfl⟩
  · exact .inl ⟨rest, rfl, rfl⟩
  · -- the group ends in what is behind, so it cannot have begun before
    cases front with
    | nil => exact .inr ⟨[], by rw [List.append_nil, List.append_nil], by rw [hback]; rfl⟩
    | cons t front =>
      rcases List.eq_nil_or_concat back with rfl | ⟨back, u, rfl⟩
      · rw [List.append_nil] at hback
        exact .inl ⟨[], by rw [hback, List.append_nil], rfl⟩
      · rw [List.concat_eq_append] at hback
        have hinside : xs ++ [.rightParen] = front ++ back ++ [u] := by
          rw [List.append_assoc]
          exact (List.cons.inj hback).2
        obtain rfl : Token.leftParen = t := (List.cons.inj hback).1
        obtain ⟨hxs', -⟩ := List.append_inj' hinside rfl
        have hfront := hxs.nonneg front back hxs'
        have hbefore := hts.nonneg before _ rfl
        have hclosed := hts.closed
        rw [opened_append, opened_cons] at hclosed
        have hone : Token.leftParen.opens = 1 := rfl
        omega

/-- A group stands behind a token that is no parenthesis. -/
theorem split_cons {t : Token} (ht : t.opens = 0)
    (h : t :: us = before ++ (inParens xs ++ after)) :
    ∃ rest, before = t :: rest ∧ us = rest ++ (inParens xs ++ after) := by
  cases before with
  | nil =>
    obtain ⟨rfl, -⟩ := List.cons.inj h
    cases ht
  | cons u before =>
    obtain ⟨rfl, hus⟩ := List.cons.inj h
    exact ⟨before, rfl, hus⟩

/-- No group stands where no parenthesis does. -/
theorem ne_of_forall_opens (h : ∀ t ∈ ts, t.opens = 0) :
    ts ≠ before ++ (inParens xs ++ after) := by
  rintro rfl
  have hparen : Token.leftParen.opens = 0 := h _ (by simp [inParens])
  cases hparen

/-- A group in parentheses is all that they enclose, or stands in it. Its closing parenthesis is not
that of the whole, unless the opening ones are the same. -/
theorem Balanced.split_inParens (hts : Balanced ts) (hxs : Balanced xs)
    (h : Expr.inParens ts = before ++ (Expr.inParens xs ++ after)) :
    (before = [] ∧ ts = xs ∧ after = []) ∨
      ∃ front back, before = .leftParen :: front ∧ after = back ++ [.rightParen] ∧
        ts = front ++ (Expr.inParens xs ++ back) := by
  rw [Expr.inParens, List.cons_append] at h
  cases before with
  | nil =>
    rw [List.nil_append, Expr.inParens, List.cons_append, List.cons_append, List.append_assoc] at h
    obtain ⟨-, h⟩ := List.cons.inj h
    rcases List.append_eq_append_iff.mp h with ⟨rest, rfl, hrest⟩ | ⟨rest, rfl, hrest⟩
    · cases rest with
      | nil =>
        obtain ⟨-, hafter⟩ := List.cons.inj hrest
        exact .inl ⟨rfl, (List.append_nil ts).symm, hafter.symm⟩
      | cons t rest => simp at hrest
    · cases rest with
      | nil =>
        obtain ⟨-, hafter⟩ := List.cons.inj hrest
        exact .inl ⟨rfl, List.append_nil xs, hafter⟩
      | cons t rest =>
        -- the closing parenthesis of the group would close what was never opened
        obtain ⟨rfl, -⟩ := List.cons.inj hrest
        have hnonneg := hts.nonneg (xs ++ [.rightParen]) rest (by simp)
        rw [opened_append, hxs.closed] at hnonneg
        exact absurd hnonneg (by decide)
  | cons t before =>
    obtain ⟨rfl, hrest⟩ := List.cons.inj h
    rcases hts.split hxs hrest with ⟨rest, hin, rfl⟩ | ⟨rest, -, hbehind⟩
    · exact .inr ⟨before, rest, rfl, rfl, hin⟩
    · have hlength := congrArg List.length hbehind
      simp only [Expr.inParens, List.length_append, List.length_cons, List.length_nil] at hlength
      omega

/-- Of the operands of a chain after its first one has the group. A group that stood in two would
take the word between them along, and then one of the two would not be balanced. -/
theorem split_flatMap {k : Keyword} {parts : List (List Token × Expr)}
    (hparts : ∀ part ∈ parts, Balanced part.1) (hxs : Balanced xs)
    (h : (parts.flatMap fun part => .keyword k :: part.1) = before ++ (inParens xs ++ after)) :
    ∃ earlier part later front back, parts = earlier ++ part :: later ∧
      part.1 = front ++ (inParens xs ++ back) ∧
      before = (earlier.flatMap fun part => .keyword k :: part.1) ++ .keyword k :: front ∧
      after = back ++ later.flatMap fun part => .keyword k :: part.1 := by
  induction parts generalizing before with
  | nil => exact absurd h (ne_of_forall_opens (List.forall_mem_nil _))
  | cons part parts ih =>
    obtain ⟨hpart, hparts⟩ := List.forall_mem_cons.mp hparts
    rw [List.flatMap_cons] at h
    rcases Balanced.split (hpart.cons rfl) hxs h with ⟨rest, hin, rfl⟩ | ⟨rest, rfl, hbehind⟩
    · obtain ⟨front, rfl, hpart⟩ := split_cons rfl hin
      exact ⟨[], part, parts, front, rest, rfl, hpart, rfl, rfl⟩
    · obtain ⟨earlier, found, later, front, back, rfl, hfound, rfl, rfl⟩ := ih hparts hbehind
      refine ⟨part :: earlier, found, later, front, back, rfl, hfound, ?_, rfl⟩
      rw [List.flatMap_cons, List.append_assoc]

end Groups

/-! ## Operators -/

/-- What a phrase has in it somewhere, if it is not a primary: the operator of a comparison. -/
def Phrase.HasOperator : Phrase → List Token → Prop
  | .primary, _ => True
  | _, ts => ∃ t ∈ ts, t.isOperator = true

/-- **Every expression compares something.** There is no expression that is only a field or a
literal, so what `IN` encloses cannot be taken for one. -/
theorem Derives.hasOperator {phrase : Phrase} {ts : List Token} {e : Expr}
    (h : Derives phrase ts e) : phrase.HasOperator ts := by
  induction h with
  | expr _ ih | notNegated _ ih => exact ih
  | orExpr _ _ ih _ | andExpr _ _ ih _ =>
    obtain ⟨t, ht, hoperator⟩ := ih
    exact ⟨t, List.mem_append_left _ ht, hoperator⟩
  | not _ ih =>
    obtain ⟨t, ht, hoperator⟩ := ih
    exact ⟨t, List.mem_cons_of_mem _ ht, hoperator⟩
  | groupAlone _ ih =>
    obtain ⟨t, ht, hoperator⟩ := ih
    exact ⟨t, List.mem_cons_of_mem _ (List.mem_append_left _ ht), hoperator⟩
  | groupCompared _ _ _ ih | compared _ _ _ ih =>
    obtain ⟨t, ht, hoperator⟩ := ih
    exact ⟨t, List.mem_append_right _ ht, hoperator⟩
  | sign s _ _ => exact ⟨.sign s, List.mem_cons_self, rfl⟩
  | isNull negated => exact ⟨.keyword .is, List.mem_cons_self, rfl⟩
  | between _ _ _ _ => exact ⟨.keyword .between, List.mem_cons_self, rfl⟩
  | member negated _ _ =>
    exact ⟨.keyword .among, List.mem_append_right _ List.mem_cons_self, rfl⟩
  | like negated text =>
    exact ⟨.keyword .like, List.mem_append_right _ List.mem_cons_self, rfl⟩
  | group _ _ | literal _ | field _ => trivial

/-- What `IN` encloses is no expression. A literal alone is none, and a comma follows no operand. -/
theorem not_derives_constants {t : Token} {v : Value} {items : List (Token × Value)}
    (ht : t.Denotes v) (hitems : ∀ item ∈ items, item.1.Denotes item.2) {e : Expr} :
    ¬Derives .expr (t :: items.flatMap fun item => [.comma, item.1]) e := by
  have hliteral : ∀ {u : Token} {w : Value}, u.Denotes w → u.isOperator = false := by
    intro u w hu
    cases hu <;> rfl
  intro h
  obtain ⟨u, hu, hoperator⟩ := h.hasOperator
  rcases List.mem_cons.mp hu with rfl | hu
  · rw [hliteral ht] at hoperator
    cases hoperator
  · obtain ⟨item, hitem, hu⟩ := List.mem_flatMap.mp hu
    rcases List.mem_cons.mp hu with rfl | hu
    · cases hoperator
    · rw [List.mem_singleton.mp hu, hliteral (hitems item hitem)] at hoperator
      cases hoperator

end Expr

end WhereRules
