import WhereRules.Proofs.Grammar.Soundness

/-!
# What the limit measures

How deep rule text nests, said by the grammar alone (`Nests`): a `NOT` and a parenthesis add one to
what they enclose, an operand of a chain adds its place in the chain, and nothing else adds anything.
This is the largest count that the tokens have in the grammar with counts (`Leveled.nests`,
`Nests.leveled`).

The counts go up one at a time, and only at the tokens that open a level (`Leveled.climbs`). So the
first token whose count is beyond a limit stands just one level beyond it, and that is where the
text is refused (`ofTokens_of_nesting`).
-/

namespace WhereRules

/-- Whether a token can open a level. -/
def Token.opensLevel : Token → Bool
  | leftParen => true
  | keyword .not | keyword .and | keyword .or => true
  | _ => false

namespace Expr

/-! ## Nesting -/

/-- How deep operands nest as the operands of one chain from its `i`-th on. Each of them is as many
levels down as there are operands before it. -/
def chainNesting (i : Nat) : List Nat → Nat
  | [] => 0
  | m :: ms => max (i + m) (chainNesting (i + 1) ms)

/-- An operand of a chain, and how deep it nests. -/
structure Measured where
  tokens : List Token
  tree : Expr
  nesting : Nat

/-- **How deep a phrase nests.** -/
inductive Nests : Phrase → List Token → Expr → Nat → Prop
  | expr {ts : List Token} {e : Expr} {m : Nat} : Nests .orExpr ts e m → Nests .expr ts e m
  | orExpr {ts : List Token} {e : Expr} {m : Nat} {parts : List Measured} :
    Nests .andExpr ts e m →
    (∀ part ∈ parts, Nests .andExpr part.tokens part.tree part.nesting) →
    Nests .orExpr (ts ++ parts.flatMap fun part => .keyword .or :: part.tokens)
      (parts.foldl (fun left part => either left part.tree) e)
      (chainNesting 0 (m :: parts.map Measured.nesting))
  | andExpr {ts : List Token} {e : Expr} {m : Nat} {parts : List Measured} :
    Nests .notExpr ts e m →
    (∀ part ∈ parts, Nests .notExpr part.tokens part.tree part.nesting) →
    Nests .andExpr (ts ++ parts.flatMap fun part => .keyword .and :: part.tokens)
      (parts.foldl (fun left part => both left part.tree) e)
      (chainNesting 0 (m :: parts.map Measured.nesting))
  | not {ts : List Token} {e : Expr} {m : Nat} :
    Nests .notExpr ts e m → Nests .notExpr (.keyword .not :: ts) (negation e) (1 + m)
  | notNegated {ts : List Token} {e : Expr} {m : Nat} :
    Nests .comparison ts e m → Nests .notExpr ts e m
  | groupAlone {ts : List Token} {e : Expr} {m : Nat} :
    Nests .expr ts e m → Nests .comparison (inParens ts) e (1 + m)
  | groupCompared {ts us : List Token} {e f : Expr} {m n : Nat} :
    Nests .expr ts e m → Nests (.suffix e) us f n →
    Nests .comparison (inParens ts ++ us) f (max (1 + m) n)
  | compared {ts us : List Token} {e f : Expr} {m n : Nat} :
    Nests .primary ts e m → Nests (.suffix e) us f n → Nests .comparison (ts ++ us) f (max m n)
  | sign (s : Sign) {left e : Expr} {ts : List Token} {m : Nat} :
    Nests .primary ts e m → Nests (.suffix left) (.sign s :: ts) (comparison s left e) m
  | isNull (negated : Bool) {left : Expr} :
    Nests (.suffix left) (.keyword .is :: notTokens negated ++ [.keyword .null])
      (isNull left negated) 0
  | between {left low high : Expr} {ts us : List Token} {m n : Nat} :
    Nests .primary ts low m → Nests .primary us high n →
    Nests (.suffix left) (.keyword .between :: ts ++ .keyword .and :: us)
      (between left low high) (max m n)
  | member (negated : Bool) {left : Expr} {t : Token} {v : Value} {items : List (Token × Value)} :
    t.Denotes v → (∀ item ∈ items, item.1.Denotes item.2) →
    Nests (.suffix left)
      (notTokens negated ++ .keyword .among ::
        inParens (t :: items.flatMap fun item => [.comma, item.1]))
      (member left (v :: items.map (·.2)) negated) 0
  | like (negated : Bool) (text : String) {left : Expr} :
    Nests (.suffix left) (notTokens negated ++ [.keyword .like, .string text])
      (like left text negated) 0
  | group {ts : List Token} {e : Expr} {m : Nat} :
    Nests .expr ts e m → Nests .primary (inParens ts) e (1 + m)
  | literal {t : Token} {v : Value} : t.Denotes v → Nests .primary [t] (literal v) 0
  | field (path : String) : Nests .primary [.identifier path] (field path) 0

/-! ## Nesting is the largest count -/

/-- One more level above a chain is one more level above each of its operands. -/
theorem max_chainNesting_succ (m i : Nat) (ms : List Nat) :
    max (m + 1) (chainNesting (i + 1) ms) = max m (chainNesting i ms) + 1 := by
  -- The first operand is taken into `m`.
  induction ms generalizing m i with
  | nil => rw [chainNesting, chainNesting, Nat.max_zero, Nat.max_zero]
  | cons n ns ih =>
    have hmax : max (m + 1) (i + 1 + n) = max m (i + n) + 1 := by omega
    rw [chainNesting, chainNesting, ← Nat.max_assoc, ← Nat.max_assoc, hmax, ih]

/-- The operands of a chain after its first go one level down each. -/
theorem level_chained (k : Keyword) (parts : List Counted) :
    (Counted.chained k parts).level = chainNesting 1 (parts.map Counted.level) := by
  induction parts with
  | nil => rfl
  | cons part parts ih =>
    rw [Counted.chained, Counted.level_opens, Counted.level_append, ih, List.map_cons,
      chainNesting, Nat.add_comm 1, max_chainNesting_succ]

/-- The level of a chain is how deep its operands nest, of which the first goes no level down. -/
theorem level_chain (lts : Counted) (k : Keyword) (parts : List Counted) :
    (lts ++ Counted.chained k parts).level =
      chainNesting 0 (lts.level :: parts.map Counted.level) := by
  rw [Counted.level_append, level_chained, chainNesting, Nat.zero_add]

/-- An operand with counts as one with its nesting. -/
def measured (part : Counted × Expr) : Measured := ⟨part.1.plain, part.2, part.1.level⟩

section Measured

variable {k : Keyword} {phrase : Phrase} {parts : List (Counted × Expr)}

/-- The words of a chain with counts are those of its operands. -/
theorem plain_chained_measured : (Counted.chained k (parts.map Prod.fst)).plain =
    (parts.map measured).flatMap fun part => .keyword k :: part.tokens := by
  rw [Counted.plain_chained, List.flatMap_map, List.flatMap_map]
  rfl

/-- Its tree is that of its operands. -/
theorem foldl_measured (join : Expr → Expr → Expr) (e : Expr) :
    parts.foldl (fun left part => join left part.2) e =
      (parts.map measured).foldl (fun left part => join left part.tree) e := by
  rw [List.foldl_map]
  rfl

/-- Its level is how deep its operands nest. -/
theorem level_chain_measured (lts : Counted) (k : Keyword) :
    (lts ++ Counted.chained k (parts.map Prod.fst)).level =
      chainNesting 0 (lts.level :: (parts.map measured).map Measured.nesting) := by
  rw [level_chain, List.map_map, List.map_map]
  rfl

/-- The operands of a chain with counts nest as deep as the largest of their counts. -/
theorem nests_measured (h : ∀ part ∈ parts, Nests phrase part.1.plain part.2 part.1.level) :
    ∀ part ∈ parts.map measured, Nests phrase part.tokens part.tree part.nesting :=
  List.forall_mem_map.mpr h

/-- Operands that have counts have them together. -/
theorem exists_measured {operands : List Measured}
    (h : ∀ part ∈ operands, ∃ lts : Counted, lts.plain = part.tokens ∧
      Leveled phrase lts part.tree ∧ lts.level = part.nesting) :
    ∃ parts : List (Counted × Expr), parts.map measured = operands ∧
      ∀ part ∈ parts, Leveled phrase part.1 part.2 := by
  induction operands with
  | nil => exact ⟨[], rfl, List.forall_mem_nil _⟩
  | cons operand operands ih =>
    obtain ⟨⟨lts, hplain, hlts, hlevel⟩, hoperands⟩ := List.forall_mem_cons.mp h
    obtain ⟨parts, rfl, hparts⟩ := ih hoperands
    refine ⟨(lts, operand.tree) :: parts, ?_, List.forall_mem_cons.mpr ⟨hlts, hparts⟩⟩
    rw [List.map_cons, measured, hplain, hlevel]

end Measured

/-- A phrase with counts nests as deep as its largest count. The two grammars have the same rules,
and each adds to the nesting what it opens. -/
theorem Leveled.nests {phrase : Phrase} {lts : Counted} {e : Expr} (h : Leveled phrase lts e) :
    Nests phrase lts.plain e lts.level := by
  induction h with
  | expr _ ih => exact .expr ih
  | orExpr _ _ ih ihs =>
    rw [Counted.plain_append, plain_chained_measured, foldl_measured, level_chain_measured]
    exact .orExpr ih (nests_measured ihs)
  | andExpr _ _ ih ihs =>
    rw [Counted.plain_append, plain_chained_measured, foldl_measured, level_chain_measured]
    exact .andExpr ih (nests_measured ihs)
  | not _ ih =>
    rw [Counted.plain_opens, Counted.level_opens, Nat.add_comm]
    exact .not ih
  | notNegated _ ih => exact .notNegated ih
  | groupAlone _ ih =>
    rw [Counted.plain_grouped, Counted.level_grouped, Nat.add_comm]
    exact .groupAlone ih
  | groupCompared _ _ ih ihs =>
    rw [Counted.plain_append, Counted.plain_grouped, Counted.level_append, Counted.level_grouped,
      Nat.add_comm]
    exact .groupCompared ih ihs
  | compared _ _ ih ihs =>
    rw [Counted.plain_append, Counted.level_append]
    exact .compared ih ihs
  | sign s _ ih =>
    rw [Counted.plain_append, Counted.level_append, Counted.level_flat, Nat.zero_max]
    exact .sign s ih
  | isNull negated =>
    rw [Counted.plain_flat, Counted.level_flat]
    exact .isNull negated
  | between _ _ ih ihs =>
    simp only [Counted.plain_append, Counted.plain_flat, Counted.level_append, Counted.level_flat,
      Nat.zero_max]
    exact .between ih ihs
  | member negated ht hitems =>
    rw [Counted.plain_flat, Counted.level_flat]
    exact .member negated ht hitems
  | like negated text =>
    rw [Counted.plain_flat, Counted.level_flat]
    exact .like negated text
  | group _ ih =>
    rw [Counted.plain_grouped, Counted.level_grouped, Nat.add_comm]
    exact .group ih
  | literal ht => exact .literal ht
  | field path => exact .field path

/-- A phrase that nests has counts, the largest of which is its nesting. The induction is on how it
nests, and the counts are those that a reader keeps. -/
theorem Nests.leveled {phrase : Phrase} {ts : List Token} {e : Expr} {m : Nat}
    (h : Nests phrase ts e m) :
    ∃ lts : Counted, lts.plain = ts ∧ Leveled phrase lts e ∧ lts.level = m := by
  induction h with
  | expr _ ih =>
    obtain ⟨lts, hplain, hlts, hlevel⟩ := ih
    exact ⟨lts, hplain, .expr hlts, hlevel⟩
  | orExpr _ _ ih ihs =>
    obtain ⟨lts, rfl, hlts, rfl⟩ := ih
    obtain ⟨parts, rfl, hparts⟩ := exists_measured ihs
    rw [← foldl_measured]
    exact ⟨_, by rw [Counted.plain_append, plain_chained_measured], .orExpr hlts hparts,
      level_chain_measured lts .or⟩
  | andExpr _ _ ih ihs =>
    obtain ⟨lts, rfl, hlts, rfl⟩ := ih
    obtain ⟨parts, rfl, hparts⟩ := exists_measured ihs
    rw [← foldl_measured]
    exact ⟨_, by rw [Counted.plain_append, plain_chained_measured], .andExpr hlts hparts,
      level_chain_measured lts .and⟩
  | not _ ih =>
    obtain ⟨lts, rfl, hlts, rfl⟩ := ih
    exact ⟨_, Counted.plain_opens _ lts, .not hlts, by rw [Counted.level_opens, Nat.add_comm]⟩
  | notNegated _ ih =>
    obtain ⟨lts, hplain, hlts, hlevel⟩ := ih
    exact ⟨lts, hplain, .notNegated hlts, hlevel⟩
  | groupAlone _ ih =>
    obtain ⟨lts, rfl, hlts, rfl⟩ := ih
    exact ⟨_, Counted.plain_grouped lts, .groupAlone hlts,
      by rw [Counted.level_grouped, Nat.add_comm]⟩
  | groupCompared _ _ ih ihs =>
    obtain ⟨lts, rfl, hlts, rfl⟩ := ih
    obtain ⟨mts, rfl, hmts, rfl⟩ := ihs
    exact ⟨_, by rw [Counted.plain_append, Counted.plain_grouped], .groupCompared hlts hmts,
      by rw [Counted.level_append, Counted.level_grouped, Nat.add_comm]⟩
  | compared _ _ ih ihs =>
    obtain ⟨lts, rfl, hlts, rfl⟩ := ih
    obtain ⟨mts, rfl, hmts, rfl⟩ := ihs
    exact ⟨_, Counted.plain_append lts mts, .compared hlts hmts, Counted.level_append lts mts⟩
  | sign s _ ih =>
    obtain ⟨lts, rfl, hlts, rfl⟩ := ih
    exact ⟨_, rfl, .sign s hlts,
      by rw [Counted.level_append, Counted.level_flat, Nat.zero_max]⟩
  | isNull negated =>
    exact ⟨_, Counted.plain_flat _, .isNull negated, Counted.level_flat _⟩
  | between _ _ ih ihs =>
    obtain ⟨lts, rfl, hlts, rfl⟩ := ih
    obtain ⟨mts, rfl, hmts, rfl⟩ := ihs
    refine ⟨_, ?_, .between hlts hmts, ?_⟩
    · simp only [Counted.plain_append, Counted.plain_flat]
      rfl
    · simp only [Counted.level_append, Counted.level_flat, Nat.zero_max]
  | member negated ht hitems =>
    exact ⟨_, Counted.plain_flat _, .member negated ht hitems, Counted.level_flat _⟩
  | like negated text =>
    exact ⟨_, Counted.plain_flat _, .like negated text, Counted.level_flat _⟩
  | group _ ih =>
    obtain ⟨lts, rfl, hlts, rfl⟩ := ih
    exact ⟨_, Counted.plain_grouped lts, .group hlts, by rw [Counted.level_grouped, Nat.add_comm]⟩
  | literal ht => exact ⟨_, rfl, .literal ht, rfl⟩
  | field path => exact ⟨_, rfl, .field path, rfl⟩

/-! ## Counts go up one at a time -/

namespace Counted

/-- Above the counts so far, of which the largest is `top`, there comes none but the next one, and
that at a token that can open a level. -/
def Climbs : Nat → Counted → Prop
  | _, [] => True
  | top, lt :: lts =>
    (lt.2 ≤ top ∨ lt.1.opensLevel = true ∧ lt.2 = top + 1) ∧ Climbs (max top lt.2) lts

/-- Counts that climb from some height climb from any above it. -/
theorem Climbs.mono {lts : Counted} {top top' : Nat} (h : Climbs top lts) (hle : top ≤ top') :
    Climbs top' lts := by
  induction lts generalizing top top' with
  | nil => trivial
  | cons lt lts ih =>
    refine ⟨?_, ih h.2 (by omega)⟩
    rcases h.1 with hcount | ⟨hopens, hcount⟩
    · exact .inl (Nat.le_trans hcount hle)
    · rcases Nat.lt_or_eq_of_le hle with hlt | rfl
      · exact .inl (by omega)
      · exact .inr ⟨hopens, hcount⟩

/-- Counts of two stretches climb if each climbs from the ground: the second may begin below the
height that the first has reached. -/
theorem Climbs.append {lts mts : Counted} {top : Nat} (hlts : Climbs top lts)
    (hmts : Climbs 0 mts) : Climbs top (lts ++ mts) := by
  induction lts generalizing top with
  | nil => exact hmts.mono (Nat.zero_le top)
  | cons lt lts ih => exact ⟨hlts.1, ih hlts.2⟩

/-- Tokens that open no level do not climb. -/
theorem climbs_flat (ts : List Token) (top : Nat) : Climbs top (flat ts) := by
  induction ts generalizing top with
  | nil => trivial
  | cons t ts ih => exact ⟨.inl (Nat.zero_le top), ih _⟩

/-- Further down, counts climb from one level further down. -/
theorem Climbs.deeper {lts : Counted} {top : Nat} (h : Climbs top lts) :
    Climbs (top + 1) (deeper lts) := by
  induction lts generalizing top with
  | nil => trivial
  | cons lt lts ih =>
    refine ⟨?_, (ih h.2).mono (Nat.le_of_eq (Nat.succ_max_succ top lt.2).symm)⟩
    rcases h.1 with hcount | ⟨hopens, hcount⟩
    · exact .inl (Nat.succ_le_succ hcount)
    · exact .inr ⟨hopens, congrArg Nat.succ hcount⟩

/-- A token that opens a level takes the first step. -/
theorem Climbs.opens {lts : Counted} {t : Token} (h : Climbs 0 lts) (ht : t.opensLevel = true) :
    Climbs 0 (opens t lts) := ⟨.inr ⟨ht, rfl⟩, h.deeper⟩

/-- A group climbs with its parenthesis. -/
theorem Climbs.grouped {lts : Counted} (h : Climbs 0 lts) : Climbs 0 (grouped lts) :=
  (h.append (climbs_flat [.rightParen] 0)).opens rfl

/-- A chain climbs with each of its words. -/
theorem climbs_chained {k : Keyword} (hk : (Token.keyword k).opensLevel = true)
    {parts : List Counted} (h : ∀ part ∈ parts, Climbs 0 part) : Climbs 0 (chained k parts) := by
  induction parts with
  | nil => trivial
  | cons part parts ih =>
    obtain ⟨hpart, hparts⟩ := List.forall_mem_cons.mp h
    exact (hpart.append (ih hparts)).opens hk

/-- Each new largest count takes a token that can open a level, so there are no more levels than
such tokens. -/
theorem Climbs.level_le {lts : Counted} {top : Nat} (h : Climbs top lts) :
    level lts ≤ top + lts.plain.countP Token.opensLevel := by
  induction lts generalizing top with
  | nil => exact Nat.zero_le _
  | cons lt lts ih =>
    obtain ⟨hcount, hrest⟩ := h
    have hlevel := ih hrest
    have hplain : plain (lt :: lts) = lt.1 :: plain lts := rfl
    rw [level, hplain, List.countP_cons]
    rcases hcount with hcount | ⟨hopens, hcount⟩
    · omega
    · rw [if_pos hopens]
      omega

/-- The first count beyond the room is the next one after it. So it is the count of a token that
opens a level, and it is beyond the room by one. -/
theorem Climbs.exists_overflow {lts : Counted} {ps : List Placed} {top room : Nat}
    (h : Climbs top lts) (htop : top ≤ room) (hps : words ps = lts.plain)
    (hlevel : room < lts.level) :
    ∃ before t after, ps = before ++ t :: after ∧
      overflow? room lts ps = some (t :: after) ∧ t.token.opensLevel = true ∧
      (∀ lt ∈ lts.take before.length, lt.2 ≤ room) ∧
      lts[before.length]? = some (t.token, room + 1) := by
  induction lts generalizing top ps with
  | nil => exact absurd hlevel (Nat.not_lt_zero room)
  | cons lt lts ih =>
    obtain ⟨t, n⟩ := lt
    obtain ⟨p, qs, rfl, hqs⟩ := words_eq_cons hps
    rw [overflow?]
    by_cases hroom : room < n
    · obtain ⟨hopens, hn⟩ : t.opensLevel = true ∧ n = top + 1 :=
        h.1.resolve_left (Nat.not_le_of_lt (Nat.lt_of_le_of_lt htop hroom))
      have hcount : n = room + 1 := by omega
      refine ⟨[], ⟨t, p⟩, qs, rfl, if_pos hroom, hopens, List.forall_mem_nil _, ?_⟩
      rw [hcount]
      rfl
    · have hn : n ≤ room := Nat.not_lt.mp hroom
      have hlevel : room < level lts := by
        rw [level] at hlevel
        omega
      obtain ⟨before, u, after, rfl, hover, hopens, hbefore, hcount⟩ :=
        ih h.2 (Nat.max_le.mpr ⟨htop, hn⟩) hqs hlevel
      refine ⟨⟨t, p⟩ :: before, u, after, rfl, ?_, hopens, ?_, hcount⟩
      · rw [if_neg hroom]
        exact hover
      · exact List.forall_mem_cons.mpr ⟨hn, hbefore⟩

end Counted

/-- **The counts of a phrase go up one at a time**, at the tokens that open a level. By induction on
the counted derivation. -/
theorem Leveled.climbs {phrase : Phrase} {lts : Counted} {e : Expr} (h : Leveled phrase lts e) :
    lts.Climbs 0 := by
  induction h with
  | expr _ ih | notNegated _ ih => exact ih
  | orExpr _ _ ih ihs | andExpr _ _ ih ihs =>
    exact ih.append (Counted.climbs_chained rfl (List.forall_mem_map.mpr ihs))
  | not _ ih => exact ih.opens rfl
  | groupAlone _ ih | group _ ih => exact ih.grouped
  | groupCompared _ _ ih ihs => exact ih.grouped.append ihs
  | compared _ _ ih ihs => exact ih.append ihs
  | sign _ _ ih => exact (Counted.climbs_flat _ 0).append ih
  | between _ _ ih ihs =>
    exact (Counted.climbs_flat _ 0).append (ih.append ((Counted.climbs_flat _ 0).append ihs))
  | isNull | member | like | literal | field => exact Counted.climbs_flat _ 0

/-! ## The limit -/

/-- A stream that nests so deep is read within just the limits that are no less. So how deep it
nests is the least limit that reads it, and there is only one answer. -/
theorem Nests.ofTokens_eq_ok_iff {stream : TokenStream} {e : Expr} {m : Nat}
    (h : Nests .expr (words stream.tokens) e m) (limit : Nat) :
    ofTokens limit stream = .ok e ↔ m ≤ limit := by
  obtain ⟨lts, hwords, hlts, rfl⟩ := h.leveled
  have hoverflow : lts.overflow? limit stream.tokens = none ↔ lts.level ≤ limit :=
    Counted.overflow?_eq_none
  rw [ofTokens_of_leveled hlts hwords.symm, ← hoverflow]
  cases lts.overflow? limit stream.tokens with
  | none => simp only
  | some ts => simp only [reduceCtorEq]

/-- **The limit measures how deep a text nests, and nothing else.** Of the tokens of an expression
the grammar says how deep they nest. Within a limit that is no less, the stream is read; otherwise it
is refused at the first token that opens one level more than the limit allows, where no token before
it is beyond the limit. -/
theorem ofTokens_of_nesting {stream : TokenStream} {e : Expr}
    (h : Derives .expr (words stream.tokens) e) :
    ∃ (lts : Counted) (m : Nat), lts.plain = words stream.tokens ∧ Leveled .expr lts e ∧
      (∀ n, Nests .expr (words stream.tokens) e n ↔ n = m) ∧
      ∀ limit, (ofTokens limit stream = .ok e ↔ m ≤ limit) ∧
        (limit < m → ∃ before t after, stream.tokens = before ++ t :: after ∧
          t.token.opensLevel = true ∧ (∀ lt ∈ lts.take before.length, lt.2 ≤ limit) ∧
          lts[before.length]? = some (t.token, limit + 1) ∧
          ofTokens limit stream = .error (.tooDeep limit t.position)) := by
  obtain ⟨lts, hwords, hlts⟩ := h.leveled
  have hnests : Nests .expr (words stream.tokens) e lts.level := hwords ▸ hlts.nests
  refine ⟨lts, lts.level, hwords, hlts, fun n => ⟨fun hn => ?_, ?_⟩, fun limit =>
    ⟨hnests.ofTokens_eq_ok_iff limit, fun hlimit => ?_⟩⟩
  · -- the limits within which the stream is read tell its nesting
    have hiff : ∀ limit, n ≤ limit ↔ lts.level ≤ limit := fun limit =>
      (hn.ofTokens_eq_ok_iff limit).symm.trans (hnests.ofTokens_eq_ok_iff limit)
    exact Nat.le_antisymm ((hiff _).mpr (Nat.le_refl _)) ((hiff _).mp (Nat.le_refl _))
  · rintro rfl
    exact hnests
  · obtain ⟨before, t, after, hsplit, hover, hopens, hbefore, hcount⟩ :=
      hlts.climbs.exists_overflow (Nat.zero_le limit) hwords.symm hlimit
    refine ⟨before, t, after, hsplit, hopens, hbefore, hcount, ?_⟩
    rw [ofTokens_of_leveled hlts hwords.symm, hover]
    rfl

/-- The tokens of `a = 1 OR b = 2 AND NOT (c = 3)`, at the places that they have there. -/
def nestedStream : TokenStream where
  tokens := [⟨.identifier "a", 0⟩, ⟨.sign .equal, 2⟩, ⟨.int 1, 4⟩, ⟨.keyword .or, 6⟩,
    ⟨.identifier "b", 9⟩, ⟨.sign .equal, 11⟩, ⟨.int 2, 13⟩, ⟨.keyword .and, 15⟩,
    ⟨.keyword .not, 19⟩, ⟨.leftParen, 23⟩, ⟨.identifier "c", 24⟩, ⟨.sign .equal, 26⟩,
    ⟨.int 3, 28⟩, ⟨.rightParen, 29⟩]
  stop := 30

/-- The tree that the grammar gives it. -/
def nestedTree : Expr :=
  either (comparison .equal (field "a") (literal (.int 1)))
    (both (comparison .equal (field "b") (literal (.int 2)))
      (negation (comparison .equal (field "c") (literal (.int 3)))))

/-- It takes four levels, one each for `OR`, `AND`, `NOT` and the parenthesis. Under a limit of two
the third is refused where it is opened. -/
theorem nests_nestedStream : Derives .expr (words nestedStream.tokens) nestedTree ∧
    (∀ n, Nests .expr (words nestedStream.tokens) nestedTree n ↔ n = 4) ∧
      ofTokens 2 nestedStream = .error (.tooDeep 2 19) := by
  have hread : ofTokens 4 nestedStream = .ok nestedTree := by cbv
  have hderives : Derives .expr (words nestedStream.tokens) nestedTree := derives_of_ofTokens hread
  obtain ⟨lts, m, -, -, hnests, hlimits⟩ := ofTokens_of_nesting hderives
  have hfour : m ≤ 4 := (hlimits 4).1.mp hread
  have hrefused : ofTokens 3 nestedStream = .error (.tooDeep 3 23) := by cbv
  have hthree : ¬m ≤ 3 := by
    rw [← (hlimits 3).1, hrefused]
    simp only [reduceCtorEq, not_false_eq_true]
  obtain rfl : m = 4 := by omega
  refine ⟨hderives, hnests, ?_⟩
  cbv

end Expr

end WhereRules
