import WhereRules.Proofs.Compilation.Room
import WhereRules.Proofs.Grammar.Soundness
import WhereRules.Proofs.Spelling.Tokens

/-!
# One limit for reading and compiling

Reading and compiling are bounded by one limit, but they count different things. Reading counts the
levels that are open at a token, and compiling the conditions around a condition, itself included.
So `NOT NOT a = 1` is read within two levels and takes three to compile.

What is read within `n` levels takes at most `3 * n + 1` to compile (`Leveled.shallow`): each level
of the text can hold a disjunction, a conjunction and a comparison of what is in its parentheses.
For every `n` there is a text that takes all of them (`exists_ofTokens_deepest`).
-/

namespace WhereRules.Expr

/-! ## Levels of chains that were folded to the left -/

/-- Under a connective an expression takes at most one level less than by itself, namely where it
continues the chain. -/
theorem levels_le_underConnective (c : Connective) (e : Expr) :
    e.levels ≤ underConnective c e e.levels + 1 := by
  rw [underConnective]
  split <;> omega

/-- Folding one more operand to the left keeps the levels under the connective: the chain so far
continues, and the operand is below it. -/
theorem underConnective_foldl_le {c : Connective} (hc : c ≠ .not) {n : Nat} {α : Type}
    {parts : List (α × Expr)} {first whole : Expr}
    (hfirst : underConnective c first first.levels ≤ n)
    (hparts : ∀ part ∈ parts, part.2.levels ≤ n)
    (hwhole : parts.foldl (fun left part => logical c [left, part.2]) first = whole) :
    underConnective c whole whole.levels ≤ n := by
  induction parts generalizing first with
  | nil => exact hwhole ▸ hfirst
  | cons part parts ih =>
    obtain ⟨hpart, hparts⟩ := List.forall_mem_cons.mp hparts
    refine ih ?_ hparts hwhole
    rw [underConnective_logical hc, levelsEach, levelsEach, levelsEach, Nat.max_le, Nat.max_le]
    exact ⟨hfirst, Nat.le_trans (underConnective_le c _ _) hpart, Nat.zero_le n⟩

/-- A chain takes one level more than its operands, however many they are, though its tree is nested
as deep as it is long. -/
theorem levels_foldl_le {c : Connective} (hc : c ≠ .not) {n : Nat} {α : Type}
    {parts : List (α × Expr)} {first : Expr} (hfirst : first.levels ≤ n)
    (hparts : ∀ part ∈ parts, part.2.levels ≤ n) :
    (parts.foldl (fun left part => logical c [left, part.2]) first).levels ≤ n + 1 := by
  have hunder : underConnective c first first.levels ≤ n :=
    Nat.le_trans (underConnective_le c first _) hfirst
  exact Nat.le_trans (levels_le_underConnective c _)
    (Nat.succ_le_succ (underConnective_foldl_le hc hunder hparts rfl))

/-! ## Levels of what was read -/

/-- Each operand of a chain but the first is below the chain, which opens a level for it. The first
may use as many levels as the chain has. -/
theorem level_lt_chained {k : Keyword} {parts : List (Counted × Expr)} :
    ∀ part ∈ parts, part.1.level < (Counted.chained k (parts.map Prod.fst)).level := by
  induction parts with
  | nil => exact List.forall_mem_nil _
  | cons part parts ih =>
    rw [List.map_cons, Counted.chained, Counted.level_opens, Counted.level_append]
    refine List.forall_mem_cons.mpr ⟨by omega, fun p hp => ?_⟩
    have hlt := ih p hp
    omega

/-- If operands take no more than `m` of their levels, so does a chain that is an operand alone; a
longer chain opens a level and takes one more. It is stated for any `m`, since disjunctions and
conjunctions count from different ones. -/
theorem levels_chain_le {c : Connective} (hc : c ≠ .not) (k : Keyword) {m : Nat → Nat}
    (hm : Monotone m) {lts : Counted} {e : Expr} {parts : List (Counted × Expr)}
    (hfirst : e.levels ≤ m lts.level) (hparts : ∀ part ∈ parts, part.2.levels ≤ m part.1.level)
    {n : Nat} (hn : (lts ++ Counted.chained k (parts.map Prod.fst)).level = n) :
    let whole := parts.foldl (fun left part => logical c [left, part.2]) e
    whole.levels ≤ m n ∨ 0 < n ∧ whole.levels ≤ m n + 1 := by
  rw [Counted.level_append] at hn
  cases hp : parts with
  | nil => exact .inl (Nat.le_trans hfirst (hm (by omega)))
  | cons part rest =>
    rw [← hp]
    have hbelow : ∀ p ∈ parts, p.1.level < n := fun p hp => by
      have hlt := level_lt_chained (k := k) p hp
      omega
    refine .inr ⟨Nat.zero_lt_of_lt (hbelow part (hp ▸ List.mem_cons_self)), ?_⟩
    exact levels_foldl_le hc (Nat.le_trans hfirst (hm (by omega))) fun p hp =>
      Nat.le_trans (hparts p hp) (hm (Nat.le_of_lt (hbelow p hp)))

/-- What the tree of a phrase takes at most when no more than `n` levels are open in its text.
Each kind of phrase stands for one more way to spend a level: a disjunction, a conjunction, a
comparison. -/
def Phrase.Shallow (n : Nat) : Phrase → Expr → Prop
  | .expr, e | .orExpr, e => e.levels ≤ 3 * n + 1
  | .andExpr, e => e.levels ≤ max 1 (3 * n)
  | .notExpr, e | .comparison, e => e.levels ≤ max 1 (3 * n - 1)
  | .suffix left, e => e.levels ≤ max (left.asOperand left.levels) (3 * n - 2) + 1
  | .primary, e => e.asOperand e.levels ≤ 3 * n - 2

/-- As an operand an expression takes no more levels than as a condition. -/
theorem asOperand_le_levels (e : Expr) : e.asOperand e.levels ≤ e.levels := by
  rw [asOperand]
  split
  · exact Nat.le_refl _
  · exact Nat.zero_le _

/-- **The tree of a phrase takes a level of its own and three for each level of its text.** Of the
three one is for a disjunction, one for a conjunction and one for the comparison that a group stands
in. -/
theorem Leveled.shallow {phrase : Phrase} {lts : Counted} {e : Expr} (h : Leveled phrase lts e) :
    phrase.Shallow lts.level e := by
  induction h with
  | expr _ ih => exact ih
  | @orExpr lts e parts _ _ ih ihs =>
    have hm : Monotone fun n => max 1 (3 * n) := fun a b hab => by dsimp only; omega
    simp only [Phrase.Shallow] at ih ihs ⊢
    rcases levels_chain_le (c := .or) (by decide) .or hm ih ihs rfl with hle | ⟨hpos, hle⟩ <;>
      exact Nat.le_trans hle (by omega)
  | @andExpr lts e parts _ _ ih ihs =>
    have hm : Monotone fun n => max 1 (3 * n - 1) := fun a b hab => by dsimp only; omega
    simp only [Phrase.Shallow] at ih ihs ⊢
    rcases levels_chain_le (c := .and) (by decide) .and hm ih ihs rfl with hle | ⟨hpos, hle⟩ <;>
      exact Nat.le_trans hle (by omega)
  | @not lts e _ ih =>
    have hlevels : (negation e).levels ≤ e.levels + 1 :=
      levels_le_succ.mpr (List.forall_mem_singleton.mpr (Nat.le_refl _))
    simp only [Phrase.Shallow, Counted.level_opens] at ih ⊢
    omega
  | notNegated _ ih => exact ih
  | groupAlone _ ih =>
    simp only [Phrase.Shallow, Counted.level_grouped] at ih ⊢
    omega
  | @groupCompared lts mts e f _ _ ih ihs =>
    have hoperand := asOperand_le_levels e
    simp only [Phrase.Shallow, Counted.level_append, Counted.level_grouped] at ih ihs ⊢
    omega
  | compared _ _ ih ihs =>
    simp only [Phrase.Shallow, Counted.level_append] at ih ihs ⊢
    omega
  | sign s _ ih =>
    simp only [Phrase.Shallow, levels, Counted.level_append, Counted.level_flat] at ih ⊢
    omega
  | between _ _ ih ihs =>
    simp only [Phrase.Shallow, levels, Counted.level_append, Counted.level_flat] at ih ihs ⊢
    omega
  | isNull | member | like =>
    simp only [Phrase.Shallow, levels]
    omega
  | @group lts e _ ih =>
    have hoperand := asOperand_le_levels e
    simp only [Phrase.Shallow, Counted.level_grouped] at ih ⊢
    omega
  | literal | field => exact Nat.zero_le _

/-- What was read within a limit has counts within it. The counts are those of the levels that were
open when each token was read. -/
theorem exists_leveled_of_ofTokens {limit : Nat} {stream : TokenStream} {e : Expr}
    (h : ofTokens limit stream = .ok e) : ∃ lts : Counted, Leveled .expr lts e ∧
      lts.level ≤ limit := by
  obtain ⟨lts, hplain, hlts⟩ := (derives_of_ofTokens h).leveled
  refine ⟨lts, hlts, ?_⟩
  rw [ofTokens_of_leveled hlts hplain.symm] at h
  cases hover : lts.overflow? limit stream.tokens with
  | none => exact Counted.overflow?_eq_none.mp hover
  | some ts =>
    rw [hover] at h
    cases h

/-- An expression that was read within a limit takes at most three times as many levels to compile,
and one more. -/
theorem levels_le_of_ofTokens {limit : Nat} {stream : TokenStream} {e : Expr}
    (h : ofTokens limit stream = .ok e) : e.levels ≤ 3 * limit + 1 := by
  obtain ⟨lts, hlts, hlevel⟩ := exists_leveled_of_ofTokens h
  have hshallow : e.levels ≤ 3 * lts.level + 1 := hlts.shallow
  omega

/-! ## The deepest texts -/

section Deepest

open Counted

/-- `a = 1` -/
def least : Expr := comparison .equal (field "a") (literal (.int 1))

/-- The words of `a = 1`. -/
def leastWords : Counted := flat [.identifier "a"] ++ (flat [.sign .equal] ++ flat [.int 1])

/-- In each level a disjunction, a conjunction and a comparison: `(…) = TRUE AND a = 1 OR a = 1`. -/
def deepest : Nat → Expr
  | 0 => least
  | n + 1 => either (both (comparison .equal (deepest n) (literal (.bool true))) least) least

/-- The words of the deepest expression that is read within some levels. -/
def deepestWords : Nat → Counted
  | 0 => leastWords
  | n + 1 =>
    grouped (deepestWords n) ++ (flat [.sign .equal] ++ flat [.keyword .yes]) ++
      chained .and [leastWords] ++ chained .or [leastWords]

/-- The least expression is a phrase by itself, with no level open. -/
theorem leveled_least : Leveled .notExpr leastWords least :=
  .notNegated (.compared (.field "a") (.sign .equal (.literal (.int 1))))

theorem leveled_andExpr_least : Leveled .andExpr leastWords least := by
  have halone := @Leveled.andExpr _ _ [] leveled_least (List.forall_mem_nil _)
  rwa [List.map_nil, chained, List.append_nil] at halone

/-- The words of the deepest expression derive it: in each level a disjunction opens, over a
conjunction, over a comparison whose left side is the level below in parentheses. -/
theorem leveled_deepest (n : Nat) : Leveled .expr (deepestWords n) (deepest n) := by
  induction n with
  | zero =>
    have halone := @Leveled.orExpr _ _ [] leveled_andExpr_least (List.forall_mem_nil _)
    rw [List.map_nil, chained, List.append_nil] at halone
    exact .expr halone
  | succ n ih =>
    have hcompared : Leveled .comparison _ (comparison .equal (deepest n) (literal (.bool true))) :=
      .groupCompared ih (.sign .equal (.literal .yes))
    have hboth := @Leveled.andExpr _ _ [(leastWords, least)] (.notNegated hcompared)
      (List.forall_mem_singleton.mpr leveled_least)
    exact .expr (@Leveled.orExpr _ _ [(leastWords, least)] hboth
      (List.forall_mem_singleton.mpr leveled_andExpr_least))

/-- They open just as many levels as were asked for. -/
theorem level_deepestWords (n : Nat) : (deepestWords n).level = n := by
  induction n with
  | zero => rfl
  | succ n ih =>
    simp only [deepestWords, leastWords, chained, level_append, level_grouped, level_opens,
      level_flat, level, ih]
    omega

/-- Each word of the least expression can be written. -/
theorem legible_leastWords : ∀ t ∈ leastWords.plain, t.Legible := by
  have hname : isName "a" = true := by decide +kernel
  exact List.forall_mem_cons.mpr ⟨hname, List.forall_mem_cons.mpr
    ⟨trivial, List.forall_mem_singleton.mpr trivial⟩⟩

/-- Each word of the deepest expression has a text too, and so some text is cut into just these
words. -/
theorem legible_deepestWords (n : Nat) : ∀ t ∈ (deepestWords n).plain, t.Legible := by
  have hchained : ∀ k, ∀ t ∈ (chained k [leastWords]).plain, t.Legible := fun k => by
    rw [chained, plain_opens, chained, List.append_nil]
    exact List.forall_mem_cons.mpr ⟨trivial, legible_leastWords⟩
  have hyes : ∀ t ∈ (flat [.sign .equal] ++ flat [.keyword .yes]).plain, t.Legible :=
    List.forall_mem_cons.mpr ⟨trivial, List.forall_mem_singleton.mpr trivial⟩
  induction n with
  | zero => exact legible_leastWords
  | succ n ih =>
    rw [deepestWords, plain_append, plain_append, plain_append, plain_grouped]
    refine List.forall_mem_append.mpr ⟨List.forall_mem_append.mpr ⟨?_, hchained .and⟩, hchained .or⟩
    exact List.forall_mem_append.mpr ⟨legible_inParens ih, hyes⟩

/-- The deepest expression is a condition at every level, so that comparing it takes a level each
time. -/
theorem isCondition_deepest (n : Nat) : (deepest n).isCondition = true := by
  cases n <;> rfl

/-- The deepest expression takes all the levels that reading within the limit allows: three for each
group, and one for the comparison in the middle. -/
theorem levels_deepest (n : Nat) : (deepest n).levels = 3 * n + 1 := by
  induction n with
  | zero => rfl
  | succ n ih =>
    have hleast : least.levels = 1 := rfl
    have hcompared : (comparison .equal (deepest n) (literal (.bool true))).levels = 3 * n + 2 := by
      have hliteral : (literal (.bool true)).asOperand (literal (.bool true)).levels = 0 := rfl
      rw [levels, asOperand, if_pos (isCondition_deepest n), ih, hliteral]
      omega
    have hboth : (both (comparison .equal (deepest n) (literal (.bool true))) least).levels =
        3 * n + 3 := by
      rw [both, levels, levelsEach, levelsEach, levelsEach, underConnective_of_not_continues rfl,
        underConnective_of_not_continues rfl, hcompared, hleast]
      omega
    rw [deepest, either, levels, levelsEach, levelsEach, levelsEach,
      underConnective_of_not_continues rfl, underConnective_of_not_continues rfl, hboth, hleast]
    omega

/-- Two operands that compile and are no chains make a chain that compiles with room for one level
more. -/
theorem exists_condition_pair {resolve : Resolver} {limit room : Nat} {c : Connective}
    (hc : c ≠ .not) {left right : Expr}
    (hleft : left.continues c = false ∧ ∃ p, condition resolve limit room left = .ok p)
    (hright : right.continues c = false ∧ ∃ p, condition resolve limit room right = .ok p) :
    ∃ p, condition resolve limit (room + 1) (logical c [left, right]) = .ok p := by
  obtain ⟨hleft, p, hp⟩ := hleft
  obtain ⟨hright, q, hq⟩ := hright
  have hflatten : flatten c [left, right] = [left, right] :=
    flatten_eq_self (List.forall_mem_cons.mpr ⟨hleft, List.forall_mem_singleton.mpr hright⟩)
  have hoperands : List.Forall₂ (fun e p => condition resolve limit room e = .ok p)
      (flatten c [left, right]) [p, q] := by
    rw [hflatten]
    exact .cons hp (.cons hq .nil)
  exact ⟨_, condition_succ_eq_ok.mpr (.chain hc hoperands)⟩

/-- The least expression compiles wherever there is room for one condition. -/
theorem exists_condition_least (limit room : Nat) :
    ∃ p, condition FieldPolicy.any.resolve limit (room + 1) least = .ok p := by
  obtain ⟨named, hnamed⟩ : ∃ named, FieldPolicy.any.resolve "a" = .ok named := ⟨_, rfl⟩
  exact ⟨_, condition_succ_eq_ok.mpr (.comparison .equal (.field hnamed) (.literal _))⟩

/-- The deepest expression compiles where there is room for all its levels. It is only for the room
that it can be refused. -/
theorem exists_condition_deepest (limit n : Nat) :
    ∃ p, condition FieldPolicy.any.resolve limit (3 * n + 1) (deepest n) = .ok p := by
  induction n with
  | zero => exact exists_condition_least limit 0
  | succ n ih =>
    obtain ⟨p, hp⟩ := ih
    have hcompared := condition_succ_eq_ok.mpr
      (.comparison .equal (.decision (isCondition_deepest n) hp) (.literal (.bool true)))
    have hboth := exists_condition_pair (c := .and) (by decide) ⟨rfl, _, hcompared⟩
      ⟨rfl, exists_condition_least limit (3 * n + 1)⟩
    exact exists_condition_pair (c := .or) (by decide) ⟨rfl, hboth⟩
      ⟨rfl, exists_condition_least limit (3 * n + 2)⟩

/-- **For each limit some text is read within it that takes all the levels to compile** that a text
can take. -/
theorem exists_ofTokens_deepest (limit : Nat) :
    ∃ source stream, TokenStream.ofText source = .ok stream ∧
      ofTokens limit stream = .ok (deepest limit) := by
  obtain ⟨stream, hstream, hwords⟩ := TokenStream.ofText_chars (legible_deepestWords limit)
  refine ⟨_, stream, hstream, ?_⟩
  have hlevel : (deepestWords limit).level ≤ limit := Nat.le_of_eq (level_deepestWords limit)
  rw [ofTokens_of_leveled (leveled_deepest limit) hwords, overflow?_eq_none.mpr hlevel]

end Deepest

end WhereRules.Expr

namespace WhereRules.Predicate

/-- **The room that compiling takes for what was read.** An expression that was read within a limit
never wants for room when it is compiled in as many levels as it takes; in fewer, it does, if it
compiles at all. It takes at most one level and three for each level of the limit, and some
expression takes all of them. -/
theorem ofExpr_of_ofTokens (limit : Nat) :
    (∀ source stream e, TokenStream.ofText source = .ok stream →
      Expr.ofTokens limit stream = .ok e →
        e.levels ≤ 3 * limit + 1 ∧ ∀ (resolve : Resolver) (limit' : Nat),
          (e.levels ≤ limit' → ∀ n, ofExpr resolve limit' e ≠ .error (.tooDeep n)) ∧
          (limit' < e.levels → (∃ room p, ofExpr resolve room e = .ok p) →
            ofExpr resolve limit' e = .error (.tooDeep limit'))) ∧
      ∃ source stream e p, TokenStream.ofText source = .ok stream ∧
        Expr.ofTokens limit stream = .ok e ∧ e.levels = 3 * limit + 1 ∧
        ofExpr FieldPolicy.any.resolve (3 * limit + 1) e = .ok p := by
  constructor
  · intro source stream e _ he
    refine ⟨Expr.levels_le_of_ofTokens he, fun resolve limit' => ⟨fun henough n => ?_, ?_⟩⟩
    · exact Expr.condition_ne_tooDeep henough n
    · rintro hlittle ⟨room, p, hp⟩
      exact Expr.condition_eq_tooDeep hp hlittle
  · obtain ⟨source, stream, hstream, he⟩ := Expr.exists_ofTokens_deepest limit
    obtain ⟨p, hp⟩ := Expr.exists_condition_deepest (3 * limit + 1) limit
    exact ⟨source, stream, _, p, hstream, he, Expr.levels_deepest limit, hp⟩

/-- `NOT NOT a = 1` -/
def doubleNegation : TokenStream where
  tokens := [⟨.keyword .not, 0⟩, ⟨.keyword .not, 4⟩, ⟨.identifier "a", 8⟩, ⟨.sign .equal, 10⟩,
    ⟨.int 1, 12⟩]
  stop := 13

/-- A twice negated comparison is read within two levels and compiles in three. -/
theorem ofExpr_doubleNegation :
    ∃ e p, TokenStream.ofText "NOT NOT a = 1" = .ok doubleNegation ∧
      Expr.ofTokens 2 doubleNegation = .ok e ∧ e.levels ≤ 7 ∧
        (∀ n, ofExpr FieldPolicy.any.resolve 3 e ≠ .error (.tooDeep n)) ∧
        ofExpr FieldPolicy.any.resolve 3 e = .ok p ∧
        ofExpr FieldPolicy.any.resolve 2 e = .error (.tooDeep 2) := by
  have hstream : TokenStream.ofText "NOT NOT a = 1" = .ok doubleNegation := by cbv
  have he : Expr.ofTokens 2 doubleNegation = .ok (.negation (.negation Expr.least)) := by cbv
  obtain ⟨p, hp⟩ : ∃ p, ofExpr FieldPolicy.any.resolve 3 (.negation (.negation Expr.least)) =
      .ok p := ⟨_, rfl⟩
  obtain ⟨hlevels, hroom⟩ := (ofExpr_of_ofTokens 2).1 _ _ _ hstream he
  exact ⟨_, p, hstream, he, hlevels, (hroom _ 3).1 (by decide), hp,
    (hroom _ 2).2 (by decide) ⟨3, p, hp⟩⟩

/-- A text that is read within a limit need not compile within it. -/
theorem not_ofExpr_of_ofTokens : ¬ ∀ limit source stream e, TokenStream.ofText source = .ok stream →
    Expr.ofTokens limit stream = .ok e →
      ∀ n, ofExpr FieldPolicy.any.resolve limit e ≠ .error (.tooDeep n) := by
  intro hverdict
  have hstream : TokenStream.ofText "NOT NOT a = 1" = .ok doubleNegation := by cbv
  have he : Expr.ofTokens 2 doubleNegation = .ok (.negation (.negation Expr.least)) := by cbv
  exact hverdict 2 _ doubleNegation _ hstream he 2 rfl

end WhereRules.Predicate
