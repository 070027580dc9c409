import WhereRules.Proofs.Grammar.Derivation

/-!
# Rule text with counts

The grammar once more, with a count beside each token that says how many levels are open once the
token has been taken (`Expr.Leveled`). A parenthesis and a `NOT` open a level for themselves and what
they enclose. So does each `AND` or `OR` of a chain, and that level stays open to the end of the
chain. The `AND` of a `BETWEEN` opens none.

Without its counts the grammar is the grammar (`Leveled.derives`), and each derivation has its counts
(`Derives.leveled`). As every level is opened by a token of its own, no count is larger than there are
tokens (`Leveled.level_le_length`).
-/

namespace WhereRules.Expr

/-! ## Counts -/

/-- Tokens with counts. -/
abbrev Counted := List (Token × Nat)

namespace Counted

/-- The tokens alone. -/
def plain (lts : Counted) : List Token := lts.map Prod.fst

/-- Tokens that open no level. -/
def flat (ts : List Token) : Counted := ts.map fun t => (t, 0)

/-- One level further down. -/
def deeper (lts : Counted) : Counted := lts.map fun lt => (lt.1, lt.2 + 1)

/-- A token that opens a level for itself and what follows. -/
def opens (t : Token) (lts : Counted) : Counted := deeper ((t, 0) :: lts)

/-- Tokens in parentheses, of which the opening one opens a level. -/
def grouped (lts : Counted) : Counted := opens .leftParen (lts ++ [(.rightParen, 0)])

/-- The operands of a chain after its first, each one level below the one before it. -/
def chained (k : Keyword) : List Counted → Counted
  | [] => []
  | part :: parts => opens (.keyword k) (part ++ chained k parts)

/-- The largest count. -/
def level : Counted → Nat
  | [] => 0
  | lt :: lts => max lt.2 (level lts)

/-- What is left of the tokens of a text from the first one on whose count is beyond the room. -/
def overflow? (room : Nat) : Counted → List Placed → Option (List Placed)
  | [], _ => none
  | lt :: lts, ps => if room < lt.2 then some ps else overflow? room lts ps.tail

section Plain

theorem plain_append (lts mts : Counted) : plain (lts ++ mts) = plain lts ++ plain mts :=
  List.map_append

theorem plain_flat (ts : List Token) : plain (flat ts) = ts := by
  simp only [plain, flat, List.map_map, Function.comp_def, List.map_id']

theorem plain_deeper (lts : Counted) : plain (deeper lts) = plain lts := by
  simp only [plain, deeper, List.map_map, Function.comp_def]

theorem plain_opens (t : Token) (lts : Counted) : plain (opens t lts) = t :: plain lts := by
  rw [opens, plain_deeper]
  rfl

theorem plain_grouped (lts : Counted) : plain (grouped lts) = inParens (plain lts) := by
  rw [grouped, plain_opens, plain_append]
  rfl

/-- The operands of a chain after its first stand behind its word, each. -/
theorem plain_chained (k : Keyword) (parts : List Counted) :
    plain (chained k parts) = parts.flatMap fun part => .keyword k :: plain part := by
  induction parts with
  | nil => rfl
  | cons part parts ih => rw [chained, plain_opens, plain_append, ih, List.flatMap_cons,
      List.cons_append]

end Plain

section Level

/-- The largest count of two stretches is the larger of theirs. -/
theorem level_append (lts mts : Counted) : level (lts ++ mts) = max (level lts) (level mts) := by
  induction lts with
  | nil => exact (Nat.zero_max _).symm
  | cons lt lts ih => rw [List.cons_append, level, level, ih, Nat.max_assoc]

/-- Tokens that open no level have no level. -/
theorem level_flat (ts : List Token) : level (flat ts) = 0 := by
  induction ts with
  | nil => rfl
  | cons t ts ih => exact (Nat.zero_max _).trans ih

/-- What opens a level has one more than what it opens it for. -/
theorem level_opens (t : Token) (lts : Counted) : level (opens t lts) = level lts + 1 := by
  show max 1 (level (deeper lts)) = level lts + 1
  induction lts with
  | nil => rfl
  | cons lt lts ih =>
    have hcons : level (deeper (lt :: lts)) = max (lt.2 + 1) (level (deeper lts)) := rfl
    rw [hcons, level]
    omega

theorem level_grouped (lts : Counted) : level (grouped lts) = level lts + 1 := by
  have hparen : level [(.rightParen, 0)] ≤ level lts := Nat.zero_le _
  rw [grouped, level_opens, level_append, Nat.max_eq_left hparen]

end Level

section Length

theorem length_opens (t : Token) (lts : Counted) : (opens t lts).length = lts.length + 1 := by
  rw [opens, deeper, List.length_map, List.length_cons]

theorem length_grouped (lts : Counted) : (grouped lts).length = lts.length + 2 := by
  rw [grouped, length_opens, List.length_append, List.length_singleton]

end Length

section Overflow

variable {room : Nat}

/-- No count is beyond the room when the largest is not. The other way round, the first that is
beyond it is the place that is reported. -/
theorem overflow?_eq_none {lts : Counted} {ps : List Placed} :
    overflow? room lts ps = none ↔ level lts ≤ room := by
  induction lts generalizing ps with
  | nil => simp [overflow?, level]
  | cons lt lts ih =>
    rw [overflow?, level, Nat.max_le]
    split
    · next hlt => simp only [reduceCtorEq, Nat.not_le_of_lt hlt, false_and]
    · next hlt => rw [ih, and_iff_right (Nat.not_lt.mp hlt)]

/-- Of two stretches the first count beyond the room is in the first of them, or else in the
second. -/
theorem overflow?_append {lts mts : Counted} {ps : List Placed} (hlength : ps.length = lts.length)
    (rest : List Placed) : overflow? room (lts ++ mts) (ps ++ rest) =
      (overflow? room lts (ps ++ rest)).or (overflow? room mts rest) := by
  induction lts generalizing ps with
  | nil =>
    obtain rfl := List.length_eq_zero_iff.mp hlength
    rfl
  | cons lt lts ih =>
    cases ps with
    | nil => cases hlength
    | cons p ps =>
      rw [List.cons_append, List.cons_append, overflow?, overflow?]
      split
      · rfl
      · exact ih (Nat.succ.inj hlength)

theorem overflow?_flat (ts : List Token) (ps : List Placed) : overflow? room (flat ts) ps = none :=
  overflow?_eq_none.mpr (by rw [level_flat]; exact Nat.zero_le room)

theorem overflow?_flat_append (t : Token) (lts : Counted) (p : Placed) (ps : List Placed) :
    overflow? room (flat [t] ++ lts) (p :: ps) = overflow? room lts ps :=
  if_neg (Nat.not_lt_zero room)

/-- A level further down needs one room more. -/
theorem overflow?_deeper (lts : Counted) (ps : List Placed) :
    overflow? (room + 1) (deeper lts) ps = overflow? room lts ps := by
  induction lts generalizing ps with
  | nil => rfl
  | cons lt lts ih =>
    show (if room + 1 < lt.2 + 1 then some ps else overflow? (room + 1) (deeper lts) ps.tail) = _
    rw [ih, overflow?]
    simp only [Nat.add_lt_add_iff_right]

/-- Without room the first level that is opened is one too many. -/
theorem overflow?_opens_zero (t : Token) (lts : Counted) (ps : List Placed) :
    overflow? 0 (opens t lts) ps = some ps := rfl

/-- With room for the level that is opened, the rest decides. -/
theorem overflow?_opens_succ (t : Token) (lts : Counted) (p : Placed) (ps : List Placed) :
    overflow? (room + 1) (opens t lts) (p :: ps) = overflow? room lts ps := by
  rw [opens, overflow?_deeper, overflow?, if_neg (Nat.not_lt_zero room)]
  rfl

end Overflow

end Counted

/-! ## The grammar with counts -/

open Counted in
/-- **The grammar, with the levels that are open at each token.** -/
inductive Leveled : Phrase → Counted → Expr → Prop
  | expr {lts : Counted} {e : Expr} : Leveled .orExpr lts e → Leveled .expr lts e
  | orExpr {lts : Counted} {e : Expr} {parts : List (Counted × Expr)} :
    Leveled .andExpr lts e → (∀ part ∈ parts, Leveled .andExpr part.1 part.2) →
    Leveled .orExpr (lts ++ chained .or (parts.map Prod.fst))
      (parts.foldl (fun left part => either left part.2) e)
  | andExpr {lts : Counted} {e : Expr} {parts : List (Counted × Expr)} :
    Leveled .notExpr lts e → (∀ part ∈ parts, Leveled .notExpr part.1 part.2) →
    Leveled .andExpr (lts ++ chained .and (parts.map Prod.fst))
      (parts.foldl (fun left part => both left part.2) e)
  | not {lts : Counted} {e : Expr} :
    Leveled .notExpr lts e → Leveled .notExpr (opens (.keyword .not) lts) (negation e)
  | notNegated {lts : Counted} {e : Expr} : Leveled .comparison lts e → Leveled .notExpr lts e
  | groupAlone {lts : Counted} {e : Expr} :
    Leveled .expr lts e → Leveled .comparison (grouped lts) e
  | groupCompared {lts mts : Counted} {e f : Expr} :
    Leveled .expr lts e → Leveled (.suffix e) mts f → Leveled .comparison (grouped lts ++ mts) f
  | compared {lts mts : Counted} {e f : Expr} :
    Leveled .primary lts e → Leveled (.suffix e) mts f → Leveled .comparison (lts ++ mts) f
  | sign (s : Sign) {left e : Expr} {lts : Counted} :
    Leveled .primary lts e →
    Leveled (.suffix left) (flat [.sign s] ++ lts) (comparison s left e)
  | isNull (negated : Bool) {left : Expr} :
    Leveled (.suffix left) (flat (.keyword .is :: notTokens negated ++ [.keyword .null]))
      (isNull left negated)
  | between {left low high : Expr} {lts mts : Counted} :
    Leveled .primary lts low → Leveled .primary mts high →
    Leveled (.suffix left) (flat [.keyword .between] ++ (lts ++ (flat [.keyword .and] ++ mts)))
      (between left low high)
  | member (negated : Bool) {left : Expr} {t : Token} {v : Value}
      {items : List (Token × Value)} :
    t.Denotes v → (∀ item ∈ items, item.1.Denotes item.2) →
    Leveled (.suffix left)
      (flat (notTokens negated ++ .keyword .among ::
        inParens (t :: items.flatMap fun item => [.comma, item.1])))
      (member left (v :: items.map (·.2)) negated)
  | like (negated : Bool) (text : String) {left : Expr} :
    Leveled (.suffix left) (flat (notTokens negated ++ [.keyword .like, .string text]))
      (like left text negated)
  | group {lts : Counted} {e : Expr} : Leveled .expr lts e → Leveled .primary (grouped lts) e
  | literal {t : Token} {v : Value} : t.Denotes v → Leveled .primary (flat [t]) (literal v)
  | field (path : String) : Leveled .primary (flat [.identifier path]) (field path)

/-- The operands of a chain without their counts. -/
def uncounted (parts : List (Counted × Expr)) : List (List Token × Expr) :=
  parts.map fun part => (part.1.plain, part.2)

theorem plain_chained_eq (k : Keyword) (parts : List (Counted × Expr)) :
    (Counted.chained k (parts.map Prod.fst)).plain =
      (uncounted parts).flatMap fun part => .keyword k :: part.1 := by
  rw [Counted.plain_chained, uncounted, List.flatMap_map, List.flatMap_map]

/-- Counts have no part in the tree of a chain. -/
theorem foldl_uncounted (join : Expr → Expr → Expr) (parts : List (Counted × Expr)) (e : Expr) :
    (uncounted parts).foldl (fun left part => join left part.2) e =
      parts.foldl (fun left part => join left part.2) e := List.foldl_map

/-- Operands that are derived without their counts are derived. -/
theorem derives_uncounted {phrase : Phrase} {parts : List (Counted × Expr)}
    (h : ∀ part ∈ parts, Derives phrase part.1.plain part.2) :
    ∀ part ∈ uncounted parts, Derives phrase part.1 part.2 :=
  List.forall_mem_map.mpr h

/-- Without its counts the grammar is the grammar. Rule for rule, the tokens and the trees are the
same. -/
theorem Leveled.derives {phrase : Phrase} {lts : Counted} {e : Expr}
    (h : Leveled phrase lts e) : Derives phrase lts.plain e := by
  induction h with
  | expr _ ih => exact .expr ih
  | orExpr _ _ ih ihs =>
    rw [Counted.plain_append, plain_chained_eq, ← foldl_uncounted]
    exact .orExpr ih (derives_uncounted ihs)
  | andExpr _ _ ih ihs =>
    rw [Counted.plain_append, plain_chained_eq, ← foldl_uncounted]
    exact .andExpr ih (derives_uncounted ihs)
  | not _ ih =>
    rw [Counted.plain_opens]
    exact .not ih
  | notNegated _ ih => exact .notNegated ih
  | groupAlone _ ih =>
    rw [Counted.plain_grouped]
    exact .groupAlone ih
  | groupCompared _ _ ih ihs =>
    rw [Counted.plain_append, Counted.plain_grouped]
    exact .groupCompared ih ihs
  | compared _ _ ih ihs =>
    rw [Counted.plain_append]
    exact .compared ih ihs
  | sign s _ ih => exact .sign s ih
  | isNull negated =>
    rw [Counted.plain_flat]
    exact .isNull negated
  | between _ _ ih ihs =>
    simp only [Counted.plain_append, Counted.plain_flat]
    exact .between ih ihs
  | member negated ht hitems =>
    rw [Counted.plain_flat]
    exact .member negated ht hitems
  | like negated text =>
    rw [Counted.plain_flat]
    exact .like negated text
  | group _ ih =>
    rw [Counted.plain_grouped]
    exact .group ih
  | literal ht => exact .literal ht
  | field path => exact .field path

/-- Counts for each operand are counts for all of them. -/
theorem exists_counted {phrase : Phrase} {parts : List (List Token × Expr)}
    (h : ∀ part ∈ parts, ∃ lts : Counted, lts.plain = part.1 ∧ Leveled phrase lts part.2) :
    ∃ counted, uncounted counted = parts ∧ ∀ part ∈ counted, Leveled phrase part.1 part.2 := by
  induction parts with
  | nil => exact ⟨[], rfl, List.forall_mem_nil _⟩
  | cons part parts ih =>
    obtain ⟨⟨lts, hplain, hlts⟩, hparts⟩ := List.forall_mem_cons.mp h
    obtain ⟨counted, rfl, hcounted⟩ := ih hparts
    refine ⟨(lts, part.2) :: counted, ?_, List.forall_mem_cons.mpr ⟨hlts, hcounted⟩⟩
    rw [uncounted, List.map_cons, hplain]
    rfl

/-- Every derivation has its counts. They are put beside the tokens rule by rule, by induction on
the derivation. -/
theorem Derives.leveled {phrase : Phrase} {ts : List Token} {e : Expr} (h : Derives phrase ts e) :
    ∃ lts : Counted, lts.plain = ts ∧ Leveled phrase lts e := by
  induction h with
  | expr _ ih =>
    obtain ⟨lts, hplain, hlts⟩ := ih
    exact ⟨lts, hplain, .expr hlts⟩
  | orExpr _ _ ih ihs =>
    obtain ⟨lts, rfl, hlts⟩ := ih
    obtain ⟨parts, rfl, hparts⟩ := exists_counted ihs
    rw [foldl_uncounted]
    exact ⟨_, by rw [Counted.plain_append, plain_chained_eq], .orExpr hlts hparts⟩
  | andExpr _ _ ih ihs =>
    obtain ⟨lts, rfl, hlts⟩ := ih
    obtain ⟨parts, rfl, hparts⟩ := exists_counted ihs
    rw [foldl_uncounted]
    exact ⟨_, by rw [Counted.plain_append, plain_chained_eq], .andExpr hlts hparts⟩
  | not _ ih =>
    obtain ⟨lts, rfl, hlts⟩ := ih
    exact ⟨_, Counted.plain_opens _ lts, .not hlts⟩
  | notNegated _ ih =>
    obtain ⟨lts, hplain, hlts⟩ := ih
    exact ⟨lts, hplain, .notNegated hlts⟩
  | groupAlone _ ih =>
    obtain ⟨lts, rfl, hlts⟩ := ih
    exact ⟨_, Counted.plain_grouped lts, .groupAlone hlts⟩
  | groupCompared _ _ ih ihs =>
    obtain ⟨lts, rfl, hlts⟩ := ih
    obtain ⟨mts, rfl, hmts⟩ := ihs
    exact ⟨_, by rw [Counted.plain_append, Counted.plain_grouped], .groupCompared hlts hmts⟩
  | compared _ _ ih ihs =>
    obtain ⟨lts, rfl, hlts⟩ := ih
    obtain ⟨mts, rfl, hmts⟩ := ihs
    exact ⟨_, Counted.plain_append lts mts, .compared hlts hmts⟩
  | sign s _ ih =>
    obtain ⟨lts, rfl, hlts⟩ := ih
    exact ⟨_, rfl, .sign s hlts⟩
  | isNull negated => exact ⟨_, Counted.plain_flat _, .isNull negated⟩
  | between _ _ ih ihs =>
    obtain ⟨lts, rfl, hlts⟩ := ih
    obtain ⟨mts, rfl, hmts⟩ := ihs
    refine ⟨_, ?_, .between hlts hmts⟩
    simp only [Counted.plain_append, Counted.plain_flat]
    rfl
  | member negated ht hitems => exact ⟨_, Counted.plain_flat _, .member negated ht hitems⟩
  | like negated text => exact ⟨_, Counted.plain_flat _, .like negated text⟩
  | group _ ih =>
    obtain ⟨lts, rfl, hlts⟩ := ih
    exact ⟨_, Counted.plain_grouped lts, .group hlts⟩
  | literal ht => exact ⟨_, rfl, .literal ht⟩
  | field path => exact ⟨_, rfl, .field path⟩

/-! ## How large counts are -/

/-- A chain has no larger level than tokens if its operands have none: each operand after the first
is one level further down, and has a word in front of it. -/
theorem level_chained_le {parts : List (Counted × Expr)}
    (h : ∀ part ∈ parts, part.1.level ≤ part.1.length) (k : Keyword) :
    (Counted.chained k (parts.map Prod.fst)).level ≤
      (Counted.chained k (parts.map Prod.fst)).length := by
  induction parts with
  | nil => exact Nat.le_refl _
  | cons part parts ih =>
    obtain ⟨hpart, hparts⟩ := List.forall_mem_cons.mp h
    have hrest := ih hparts
    rw [List.map_cons, Counted.chained, Counted.level_opens, Counted.level_append,
      Counted.length_opens, List.length_append]
    omega

/-- **No more levels are open than there are tokens.** Each level is opened by a token that opens no
other. -/
theorem Leveled.level_le_length {phrase : Phrase} {lts : Counted} {e : Expr}
    (h : Leveled phrase lts e) : lts.level ≤ lts.length := by
  induction h with
  | expr _ ih | notNegated _ ih => exact ih
  | orExpr _ _ ih ihs | andExpr _ _ ih ihs =>
    have hchained := level_chained_le ihs
    rw [Counted.level_append, List.length_append]
    exact Nat.max_le.mpr ⟨Nat.le_add_right_of_le ih, Nat.le_add_left_of_le (hchained _)⟩
  | not _ ih =>
    rw [Counted.level_opens, Counted.length_opens]
    exact Nat.succ_le_succ ih
  | groupAlone _ ih | group _ ih =>
    rw [Counted.level_grouped, Counted.length_grouped]
    omega
  | groupCompared _ _ ih ihs =>
    rw [Counted.level_append, Counted.level_grouped, List.length_append, Counted.length_grouped]
    omega
  | compared _ _ ih ihs =>
    rw [Counted.level_append, List.length_append]
    omega
  | sign s _ ih =>
    rw [Counted.level_append, Counted.level_flat, List.length_append]
    omega
  | between _ _ ih ihs =>
    simp only [Counted.level_append, Counted.level_flat, List.length_append]
    omega
  | isNull | member | like | literal | field =>
    rw [Counted.level_flat]
    exact Nat.zero_le _

end WhereRules.Expr
