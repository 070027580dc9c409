import WhereRules.Proofs.Compilation.Limit
import WhereRules.Proofs.Compilation.Malformed

/-!
# How deep a walk goes

A walk (`Expr.visits`) has no limit of its own: it has as many calls open as there are nodes above
the one it is at. So its depth is the height of the tree (`visitsWithin_eq`), which is the length of
the longest path from the root to a leaf.

The limit of reading bounds that height, but not by itself. It counts the places in a chain, and the
first operand of a chain is read before any place of the chain is counted, so an operand that uses up
the limit can still be followed by a chain as long as the limit. In each level of parentheses the two
chains add to the left spine what room there is, and the sum over all levels is a square
(`Leveled.low`). For every limit there is a text whose tree is that high (`exists_ofTokens_tallest`).
-/

namespace WhereRules.Expr

/-! ## Height -/

mutual

/-- The number of nodes on the longest path from the root of a tree to a leaf. -/
def height : Expr → Nat
  | literal _ | field _ => 1
  | comparison _ left right => max left.height right.height + 1
  | logical _ operands => heightEach operands + 1
  | member subject _ _ => subject.height + 1
  | between subject low high => max subject.height (max low.height high.height) + 1
  | like subject _ _ => subject.height + 1
  | isNull subject _ => subject.height + 1

/-- The height of the highest of some trees. -/
def heightEach : List Expr → Nat
  | [] => 0
  | e :: rest => max e.height (heightEach rest)

end

theorem height_pos (e : Expr) : 0 < e.height := by
  cases e <;> simp [height]

theorem heightEach_le {n : Nat} {es : List Expr} : heightEach es ≤ n ↔ ∀ e ∈ es, e.height ≤ n := by
  induction es with
  | nil => simp [heightEach]
  | cons e es ih => rw [heightEach, Nat.max_le, ih, List.forall_mem_cons]

/-- **A tree is one node higher than the highest of its children.** All that is shown of heights
goes through this and not through the kinds of nodes. -/
theorem height_le_succ {n : Nat} {e : Expr} :
    e.height ≤ n + 1 ↔ ∀ f ∈ e.children, f.height ≤ n := by
  cases e with
  | literal _ | field _ => simp [height, children]
  | comparison _ left right => simp [height, children]
  | logical _ operands => simp [height, children, heightEach_le]
  | member _ _ _ | like _ _ _ | isNull _ _ => simp [height, children]
  | between _ _ _ => simp [height, children]

theorem height_le_of_mem_children {e f : Expr} {n : Nat} (h : e.height ≤ n + 1)
    (hf : f ∈ e.children) : f.height ≤ n :=
  height_le_succ.mp h f hf

/-! ### Paths -/

/-- The nodes from the root of a tree down to one of its leaves. -/
inductive IsPath : Expr → List Expr → Prop
  | leaf {e : Expr} : e.children = [] → IsPath e [e]
  | child {e f : Expr} {path : List Expr} : f ∈ e.children → IsPath f path → IsPath e (e :: path)

/-- No path is longer than the tree is high. -/
theorem IsPath.length_le_height {e : Expr} {path : List Expr} (h : e.IsPath path) :
    path.length ≤ e.height := by
  induction h with
  | @leaf e _ => exact height_pos e
  | @child e f path hf _ ih =>
    obtain ⟨n, hn⟩ : ∃ n, e.height = n + 1 := Nat.exists_eq_add_one.mpr (height_pos e)
    have hlow : f.height ≤ n := height_le_of_mem_children (Nat.le_of_eq hn) hf
    rw [List.length_cons, hn]
    exact Nat.succ_le_succ (Nat.le_trans ih hlow)

/-- In a tree that is no leaf some child is just one node lower. -/
theorem exists_child_of_height {n : Nat} {e : Expr} (h : e.height = n + 2) :
    ∃ f ∈ e.children, f.height = n + 1 := by
  have hhigh : ∃ f ∈ e.children, n < f.height := by
    by_contra hnone
    have hlow : e.height ≤ n + 1 :=
      height_le_succ.mpr fun f hf => Nat.le_of_not_lt fun hlt => hnone ⟨f, hf, hlt⟩
    omega
  obtain ⟨f, hf, hlt⟩ := hhigh
  have hle : f.height ≤ n + 1 := height_le_of_mem_children (Nat.le_of_eq h) hf
  exact ⟨f, hf, by omega⟩

/-- Some path is as long as the tree is high. It goes from each node to a child that is just one
node lower. -/
theorem exists_isPath (e : Expr) : ∃ path, e.IsPath path ∧ path.length = e.height := by
  obtain ⟨n, hn⟩ : ∃ n, e.height = n + 1 := Nat.exists_eq_add_one.mpr (height_pos e)
  induction n generalizing e with
  | zero =>
    have hchildren : e.children = [] := by
      refine List.eq_nil_iff_forall_not_mem.mpr fun f hf => ?_
      have hlow : f.height ≤ 0 := height_le_of_mem_children (Nat.le_of_eq hn) hf
      have hpos := height_pos f
      omega
    exact ⟨[e], .leaf hchildren, hn.symm⟩
  | succ n ih =>
    obtain ⟨f, hf, hheight⟩ := exists_child_of_height hn
    obtain ⟨path, hpath, hlength⟩ := ih f hheight
    exact ⟨e :: path, .child hf hpath, by rw [List.length_cons, hlength, hheight, hn]⟩

/-! ## A walk with limited depth -/

/-- What a walk meets at a node itself, once it is through with the children. -/
def leaves : Expr → List Visit
  | literal value => [.value value]
  | field path => [.field path]
  | member _ values _ => values.map .value
  | _ => []

/-- Several trees are walked one after the other. -/
theorem visitsAll_eq_flatMap (es : List Expr) : visitsAll es = es.flatMap visits := by
  induction es with
  | nil => rfl
  | cons e es ih => rw [visitsAll, List.flatMap_cons, ih]

/-- **A walk meets the node, what its children hold from left to right, and what it holds itself.**
So the walk can be told by children, like the height. -/
theorem visits_eq (e : Expr) :
    e.visits = .node e.isCondition :: ((e.children.map visits).flatten ++ e.leaves) := by
  cases e <;> simp [visits, children, leaves, isCondition, visitsAll_eq_flatMap, List.flatMap]

/-- The walk, where at most so many nodes may be open at once: nothing, if it would take more. -/
def visitsWithin : Nat → Expr → Option (List Visit)
  | 0, _ => none
  | n + 1, e => do
    let inner ← e.children.mapM (visitsWithin n)
    some (.node e.isCondition :: (inner.flatten ++ e.leaves))

/-- Steps that each succeed under a condition succeed together under all conditions. Here the
condition is that a child is not too high. -/
theorem mapM_eq_ite {α β : Type} {p : α → Prop} [DecidablePred p] {f : α → Option β} {g : α → β}
    (h : ∀ a, f a = if p a then some (g a) else none) (as : List α) :
    as.mapM f = if ∀ a ∈ as, p a then some (as.map g) else none := by
  induction as with
  | nil => simp
  | cons a as ih =>
    rw [List.mapM_cons, h a, ih]
    simp only [List.forall_mem_cons]
    by_cases ha : p a
    · by_cases has : ∀ b ∈ as, p b
      · rw [if_pos ha, if_pos has, if_pos ⟨ha, has⟩]
        rfl
      · have hsome : ¬ (p a ∧ ∀ b ∈ as, p b) := fun hall => has hall.2
        rw [if_pos ha, if_neg has, if_neg hsome]
        rfl
    · have hfirst : ¬ (p a ∧ ∀ b ∈ as, p b) := fun hall => ha hall.1
      rw [if_neg ha, if_neg hfirst]
      rfl

/-- **A walk takes as many open nodes as the tree is high.** With fewer it does not get through, and
with so many or more it meets all that the walk without a bound meets. -/
theorem visitsWithin_eq (n : Nat) (e : Expr) :
    visitsWithin n e = if e.height ≤ n then some e.visits else none := by
  induction n generalizing e with
  | zero => rw [visitsWithin, if_neg (Nat.not_le_of_lt (height_pos e))]
  | succ n ih =>
    rw [visitsWithin, mapM_eq_ite ih, visits_eq]
    by_cases hlow : ∀ f ∈ e.children, f.height ≤ n
    · rw [if_pos hlow, if_pos (height_le_succ.mpr hlow)]
      rfl
    · rw [if_neg hlow, if_neg fun h => hlow (height_le_succ.mp h)]
      rfl

/-! ## Heights of chains that were folded to the left -/

/-- An operation of two operands is one node higher than the higher of them. -/
theorem height_pair (c : Connective) (left right : Expr) :
    (logical c [left, right]).height = max left.height right.height + 1 := by
  simp [height, heightEach]

section Chains

variable {c : Connective} {α : Type}

/-- A chain is at most as many nodes higher than its operands as it has operators: it is folded to
the left, and each operator puts a node on top. -/
theorem height_foldl_le {n : Nat} {parts : List (α × Expr)} {first : Expr}
    (hfirst : first.height ≤ n) (hparts : ∀ part ∈ parts, part.2.height ≤ n) :
    (parts.foldl (fun left part => logical c [left, part.2]) first).height ≤ n + parts.length := by
  -- On the operators; what is folded so far is one node higher for each of them.
  induction parts generalizing first n with
  | nil => exact hfirst
  | cons part parts ih =>
    obtain ⟨hpart, hparts⟩ := List.forall_mem_cons.mp hparts
    have hjoined : (logical c [first, part.2]).height ≤ n + 1 := by
      rw [height_pair]
      omega
    have hfold := ih hjoined fun p hp => Nat.le_succ_of_le (hparts p hp)
    rw [List.foldl_cons, List.length_cons]
    omega

/-- A chain is at least as many nodes higher than its first operand as it has operators. That
operand is at the bottom of the fold. -/
theorem height_add_length_le_foldl (parts : List (α × Expr)) (first : Expr) :
    first.height + parts.length ≤
      (parts.foldl (fun left part => logical c [left, part.2]) first).height := by
  induction parts generalizing first with
  | nil => exact Nat.le_refl _
  | cons part parts ih =>
    have hfold := ih (logical c [first, part.2])
    rw [height_pair] at hfold
    rw [List.foldl_cons, List.length_cons]
    omega

end Chains

/-! ## Heights of what was read -/

/-- A chain opens a level for each of its operators. -/
theorem length_le_level_chained (k : Keyword) (parts : List (Counted × Expr)) :
    parts.length ≤ (Counted.chained k (parts.map Prod.fst)).level := by
  induction parts with
  | nil => exact Nat.zero_le _
  | cons part parts ih =>
    rw [List.map_cons, Counted.chained, Counted.level_opens, Counted.level_append, List.length_cons]
    omega

/-- A chain in whose text `n` levels are open is at most `n` nodes higher than its operands, the
first of which may use all of the levels and the others less. -/
theorem height_chain_le {c : Connective} {k : Keyword} {m : Nat → Nat} (hm : Monotone m)
    {lts : Counted} {e : Expr} {parts : List (Counted × Expr)} (hfirst : e.height ≤ m lts.level)
    (hparts : ∀ part ∈ parts, part.2.height ≤ m part.1.level) {n : Nat}
    (hn : (lts ++ Counted.chained k (parts.map Prod.fst)).level = n) :
    (parts.foldl (fun left part => logical c [left, part.2]) e).height ≤ m n + n := by
  rw [Counted.level_append] at hn
  have hlength := length_le_level_chained k parts
  have hbelow : ∀ part ∈ parts, part.2.height ≤ m n := fun part hpart => by
    have hlt := level_lt_chained (k := k) part hpart
    exact Nat.le_trans (hparts part hpart) (hm (by omega))
  have hfold := height_foldl_le (c := c) (Nat.le_trans hfirst (hm (by omega))) hbelow
  omega

/-- How high the tree of a phrase is at most when no more than `n` levels are open in its text. -/
def Phrase.Low (n : Nat) : Phrase → Expr → Prop
  | .expr, e | .orExpr, e => e.height ≤ n * n + 2 * n + 2
  | .andExpr, e => e.height ≤ n * n + n + 2
  | .notExpr, e | .comparison, e => e.height ≤ n * n + 2
  | .suffix left, e => e.height ≤ max left.height (n * n + 1) + 1
  | .primary, e => e.height ≤ n * n + 1

theorem succ_mul_self (n : Nat) : (n + 1) * (n + 1) = n * n + 2 * n + 1 := by ring

/-- **The tree of a phrase is at most as high as the square of its levels and the chains on it.** In
one level more, a group is an operand like any other, so the bound for a disjunction is the bound for
an operand in the next level: `n * n + 2 * n + 2 = (n + 1) * (n + 1) + 1`. -/
theorem Leveled.low {phrase : Phrase} {lts : Counted} {e : Expr} (h : Leveled phrase lts e) :
    phrase.Low lts.level e := by
  have hsquare : ∀ a b : Counted, a.level * a.level ≤ (a ++ b).level * (a ++ b).level ∧
      b.level * b.level ≤ (a ++ b).level * (a ++ b).level := fun a b => by
    rw [Counted.level_append]
    exact ⟨Nat.mul_self_le_mul_self (by omega), Nat.mul_self_le_mul_self (by omega)⟩
  induction h with
  | expr _ ih => exact ih
  | orExpr _ _ ih ihs =>
    have hm : Monotone fun n => n * n + n + 2 := fun a b hab => by
      have := Nat.mul_self_le_mul_self hab
      dsimp only
      omega
    simp only [Phrase.Low] at ih ihs ⊢
    have hchain := height_chain_le (c := .or) (k := .or) hm ih ihs rfl
    exact Nat.le_trans hchain (by omega)
  | andExpr _ _ ih ihs =>
    have hm : Monotone fun n => n * n + 2 := fun a b hab => by
      have := Nat.mul_self_le_mul_self hab
      dsimp only
      omega
    simp only [Phrase.Low] at ih ihs ⊢
    have hchain := height_chain_le (c := .and) (k := .and) hm ih ihs rfl
    exact Nat.le_trans hchain (by omega)
  | @not lts e _ ih =>
    have hheight : (negation e).height = e.height + 1 := by simp [negation, height, heightEach]
    simp only [Phrase.Low, Counted.level_opens, succ_mul_self] at ih ⊢
    omega
  | notNegated _ ih => exact ih
  | groupAlone _ ih | group _ ih =>
    simp only [Phrase.Low, Counted.level_grouped, succ_mul_self] at ih ⊢
    omega
  | @groupCompared lts mts e f _ _ ih ihs =>
    have hsquares := hsquare (Counted.grouped lts) mts
    simp only [Phrase.Low, Counted.level_grouped, succ_mul_self] at ih ihs hsquares ⊢
    omega
  | @compared lts mts e f _ _ ih ihs =>
    have hsquares := hsquare lts mts
    simp only [Phrase.Low] at ih ihs ⊢
    omega
  | sign s _ ih =>
    simp only [Phrase.Low, height, Counted.level_append, Counted.level_flat, Nat.zero_max] at ih ⊢
    omega
  | @between left low high lts mts _ _ ih ihs =>
    have hsquares := hsquare lts mts
    simp only [Phrase.Low, height, Counted.level_append, Counted.level_flat, Nat.zero_max]
      at ih ihs hsquares ⊢
    omega
  | isNull | member | like =>
    simp only [Phrase.Low, height]
    omega
  | literal | field =>
    simp only [Phrase.Low, height]
    omega

/-- No tree that was read within a limit is higher than the square of the limit, twice the limit and
two. -/
theorem height_le_of_ofTokens {limit : Nat} {stream : TokenStream} {e : Expr}
    (h : ofTokens limit stream = .ok e) : e.height ≤ limit * limit + 2 * limit + 2 := by
  obtain ⟨lts, hlts, hlevel⟩ := exists_leveled_of_ofTokens h
  have hlow : e.height ≤ lts.level * lts.level + 2 * lts.level + 2 := hlts.low
  have hsquare := Nat.mul_self_le_mul_self hlevel
  omega

/-! ## The highest trees -/

section Tallest

open Counted

/-- Operands `a = 1`, one for each operator of a chain. -/
def leastParts (n : Nat) : List (Counted × Expr) := List.replicate n (leastWords, least)

/-- In each level a comparison with a group, and on it a conjunction and a disjunction that both have
as many operators as there are levels: `(…) = TRUE AND a = 1 … OR a = 1 …`. -/
def tallest : Nat → Expr
  | 0 => least
  | n + 1 =>
    (leastParts (n + 1)).foldl (fun left part => either left part.2)
      ((leastParts (n + 1)).foldl (fun left part => both left part.2)
        (comparison .equal (tallest n) (literal (.bool true))))

/-- The words of the highest tree that is read within some levels. -/
def tallestWords : Nat → Counted
  | 0 => leastWords
  | n + 1 =>
    grouped (tallestWords n) ++ (flat [.sign .equal] ++ flat [.keyword .yes]) ++
      chained .and ((leastParts (n + 1)).map Prod.fst) ++
      chained .or ((leastParts (n + 1)).map Prod.fst)

/-- The words of the highest tree are a phrase of the grammar that stands for it. The induction is
on the levels, one group in another. -/
theorem leveled_tallest (n : Nat) : Leveled .expr (tallestWords n) (tallest n) := by
  induction n with
  | zero => exact leveled_deepest 0
  | succ n ih =>
    have hcompared : Leveled .comparison _ (comparison .equal (tallest n) (literal (.bool true))) :=
      .groupCompared ih (.sign .equal (.literal .yes))
    have hboth := @Leveled.andExpr _ _ (leastParts (n + 1)) (.notNegated hcompared)
      (List.forall_mem_replicate.mpr (.inr leveled_least))
    exact .expr (@Leveled.orExpr _ _ (leastParts (n + 1)) hboth
      (List.forall_mem_replicate.mpr (.inr leveled_andExpr_least)))

/-- A chain of least operands opens a level for each operator and no other. -/
theorem level_chained_least (k : Keyword) (n : Nat) :
    (chained k ((leastParts n).map Prod.fst)).level = n := by
  induction n with
  | zero => rfl
  | succ n ih =>
    have hleast : leastWords.level = 0 := rfl
    rw [leastParts, List.replicate_succ, List.map_cons, chained, level_opens, level_append,
      ← leastParts, ih, hleast]
    omega

/-- The highest tree takes exactly the levels that it is made for: the levels of the group and those
of each chain are the same ones, one after the other. -/
theorem level_tallestWords (n : Nat) : (tallestWords n).level = n := by
  induction n with
  | zero => rfl
  | succ n ih =>
    simp only [tallestWords, level_chained_least, level_append, level_grouped, level_flat, ih]
    omega

/-- The words of a chain of least operands have texts. -/
theorem legible_chained_least (k : Keyword) (n : Nat) :
    ∀ t ∈ (chained k ((leastParts n).map Prod.fst)).plain, t.Legible := by
  induction n with
  | zero => exact List.forall_mem_nil _
  | succ n ih =>
    rw [leastParts, List.replicate_succ, List.map_cons, chained, plain_opens, plain_append,
      ← leastParts]
    exact List.forall_mem_cons.mpr ⟨trivial, List.forall_mem_append.mpr ⟨legible_leastWords, ih⟩⟩

/-- The words of the highest tree have texts, so there is a rule text of them. -/
theorem legible_tallestWords (n : Nat) : ∀ t ∈ (tallestWords n).plain, t.Legible := by
  have hyes : ∀ t ∈ (flat [.sign .equal] ++ flat [.keyword .yes]).plain, t.Legible :=
    List.forall_mem_cons.mpr ⟨trivial, List.forall_mem_singleton.mpr trivial⟩
  induction n with
  | zero => exact legible_leastWords
  | succ n ih =>
    rw [tallestWords, plain_append, plain_append, plain_append, plain_grouped]
    simp only [List.forall_mem_append]
    exact ⟨⟨⟨legible_inParens ih, hyes⟩, legible_chained_least .and (n + 1)⟩,
      legible_chained_least .or (n + 1)⟩

/-- In each level two chains as long as the level is high add to the height of the group, which
makes a square in the end. -/
theorem le_height_tallest (n : Nat) : n * n + 2 * n + 2 ≤ (tallest n).height := by
  induction n with
  | zero => exact Nat.le_refl 2
  | succ n ih =>
    have hcompared : (tallest n).height + 1 ≤
        (comparison .equal (tallest n) (literal (.bool true))).height := by
      rw [height]
      omega
    have hboth := height_add_length_le_foldl (c := .and) (leastParts (n + 1))
      (comparison .equal (tallest n) (literal (.bool true)))
    have heither := height_add_length_le_foldl (c := .or) (leastParts (n + 1))
      ((leastParts (n + 1)).foldl (fun left part => both left part.2)
        (comparison .equal (tallest n) (literal (.bool true))))
    simp only [leastParts, List.length_replicate] at hboth heither
    rw [tallest, succ_mul_self]
    simp only [leastParts, both, either] at hboth heither ⊢
    omega

/-- **For each limit some text is read within it whose tree is as high as a tree can be.** -/
theorem exists_ofTokens_tallest (limit : Nat) :
    ∃ source stream, TokenStream.ofText source = .ok stream ∧
      ofTokens limit stream = .ok (tallest limit) := by
  obtain ⟨stream, hstream, hwords⟩ := TokenStream.ofText_chars (legible_tallestWords limit)
  refine ⟨_, stream, hstream, ?_⟩
  have hlevel : (tallestWords limit).level ≤ limit := Nat.le_of_eq (level_tallestWords limit)
  rw [ofTokens_of_leveled (leveled_tallest limit) hwords, overflow?_eq_none.mpr hlevel]

end Tallest

/-- **What the limit of reading bounds on the tree.** No path of a tree that was read within a limit
has more nodes than the square of the limit, twice the limit and two, so a walk that has as many
nodes open meets everything. For each limit there is a text whose tree has a path of that length, and
a walk with less depth does not get through it. -/
theorem visitsWithin_of_ofTokens (limit : Nat) :
    (∀ source stream e, TokenStream.ofText source = .ok stream → ofTokens limit stream = .ok e →
      (∀ path, e.IsPath path → path.length ≤ limit * limit + 2 * limit + 2) ∧
        visitsWithin (limit * limit + 2 * limit + 2) e = some e.visits) ∧
      ∃ source stream e path, TokenStream.ofText source = .ok stream ∧
        ofTokens limit stream = .ok e ∧ e.IsPath path ∧
        path.length = limit * limit + 2 * limit + 2 ∧
        visitsWithin (limit * limit + 2 * limit + 1) e = none := by
  constructor
  · intro source stream e _ he
    have hheight := height_le_of_ofTokens he
    refine ⟨fun path hpath => Nat.le_trans hpath.length_le_height hheight, ?_⟩
    rw [visitsWithin_eq, if_pos hheight]
  · obtain ⟨source, stream, hstream, he⟩ := exists_ofTokens_tallest limit
    obtain ⟨path, hpath, hlength⟩ := exists_isPath (tallest limit)
    have hheight : (tallest limit).height = limit * limit + 2 * limit + 2 :=
      Nat.le_antisymm (height_le_of_ofTokens he) (le_height_tallest limit)
    refine ⟨source, stream, _, path, hstream, he, hpath, hlength.trans hheight, ?_⟩
    rw [visitsWithin_eq, hheight, if_neg (by omega)]

/-- `(a = 1) = TRUE AND a = 1 OR a = 1` -/
def groupInChains : TokenStream where
  tokens := [⟨.leftParen, 0⟩, ⟨.identifier "a", 1⟩, ⟨.sign .equal, 3⟩, ⟨.int 1, 5⟩, ⟨.rightParen, 6⟩,
    ⟨.sign .equal, 8⟩, ⟨.keyword .yes, 10⟩, ⟨.keyword .and, 15⟩, ⟨.identifier "a", 19⟩,
    ⟨.sign .equal, 21⟩, ⟨.int 1, 23⟩, ⟨.keyword .or, 25⟩, ⟨.identifier "a", 28⟩,
    ⟨.sign .equal, 30⟩, ⟨.int 1, 32⟩]
  stop := 33

/-- Within one level a text is read that is five nodes high, all of which a walk has open. -/
theorem visitsWithin_groupInChains :
    TokenStream.ofText "(a = 1) = TRUE AND a = 1 OR a = 1" = .ok groupInChains ∧
      ofTokens 1 groupInChains = .ok (tallest 1) ∧
      (∀ path, (tallest 1).IsPath path → path.length ≤ 5) ∧
      visitsWithin 5 (tallest 1) = some (tallest 1).visits ∧ visitsWithin 4 (tallest 1) = none := by
  have hstream : TokenStream.ofText "(a = 1) = TRUE AND a = 1 OR a = 1" = .ok groupInChains := by cbv
  have he : ofTokens 1 groupInChains = .ok (tallest 1) := by cbv
  obtain ⟨hpaths, hwalk⟩ := (visitsWithin_of_ofTokens 1).1 _ _ _ hstream he
  exact ⟨hstream, he, hpaths, hwalk, rfl⟩

end WhereRules.Expr
