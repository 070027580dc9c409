import WhereRules.Proofs.Grammar.Brackets
import WhereRules.Proofs.Grammar.Soundness

/-!
# What stands in parentheses is on its own

Wherever an expression in parentheses stands in a text, its tree is a part of the tree of the text,
and the rest of that tree, a `Place`, does not depend on the expression: any other expression in the
same parentheses has its tree in the same place (`Derives.hasPlaces`). So no expression reaches
out of its parentheses, and none changes how what is around them is grouped.
-/

namespace WhereRules.Expr

/-! ## Places -/

/-- A node with one of its parts missing. -/
inductive Frame
  | comparisonLeft (sign : Sign) (right : Expr)
  | comparisonRight (sign : Sign) (left : Expr)
  | operand (connective : Connective) (before after : List Expr)
  | member (values : List Value) (negated : Bool)
  | betweenSubject (low high : Expr)
  | betweenLow (subject high : Expr)
  | betweenHigh (subject low : Expr)
  | like (text : String) (negated : Bool)
  | isNull (negated : Bool)

/-- The node with the part put in. -/
def Frame.fill : Frame → Expr → Expr
  | comparisonLeft sign right, e => .comparison sign e right
  | comparisonRight sign left, e => .comparison sign left e
  | operand c before after, e => .logical c (before ++ e :: after)
  | member values negated, e => .member e values negated
  | betweenSubject low high, e => .between e low high
  | betweenLow subject high, e => .between subject e high
  | betweenHigh subject low, e => .between subject low e
  | like text negated, e => .like e text negated
  | isNull negated, e => .isNull e negated

/-- A tree with a part missing: the nodes around the part, the nearest first. -/
abbrev Place := List Frame

namespace Place

/-- The tree with the part put in. -/
def fill (place : Place) (e : Expr) : Expr := place.foldl (fun e frame => frame.fill e) e

/-- Nodes around a place with nodes around them. -/
theorem fill_append (place outer : Place) (e : Expr) :
    fill (place ++ outer) e = fill outer (fill place e) := List.foldl_append

/-- One more node is put around the whole. -/
theorem fill_snoc (place : Place) (frame : Frame) (e : Expr) :
    fill (place ++ [frame]) e = frame.fill (place.fill e) := fill_append place [frame] e

/-- The nodes around the first operand of a chain that was folded to the left. -/
def folded (c : Connective) (parts : List (List Token × Expr)) : Place :=
  parts.map fun part => .operand c [] [part.2]

/-- The first operand of a chain stands in the chain at the bottom of the fold. -/
theorem fill_folded (c : Connective) (parts : List (List Token × Expr)) (e : Expr) :
    fill (folded c parts) e = parts.foldl (fun left part => logical c [left, part.2]) e := by
  rw [fill, folded, List.foldl_map]
  rfl

end Place

/-! ## Groups in phrases -/

/-- Wherever an expression in parentheses stands in these tokens, its tree has a place in this one,
and the same place has any other expression that stands there in parentheses instead. -/
def HasPlaces (phrase : Phrase) (ts : List Token) (e : Expr) : Prop :=
  ∀ before xs after x, ts = before ++ (inParens xs ++ after) → Derives .expr xs x →
    ∃ place : Place, e = place.fill x ∧ ∀ ys y, Derives .expr ys y →
      Derives phrase (before ++ (inParens ys ++ after)) (place.fill y)

/-- What is derived as one phrase wherever it is derived as another keeps its places. -/
theorem HasPlaces.mono {phrase phrase' : Phrase} {ts : List Token} {e : Expr}
    (h : HasPlaces phrase ts e) (hle : ∀ us f, Derives phrase us f → Derives phrase' us f) :
    HasPlaces phrase' ts e := by
  intro before xs after x hts hx
  obtain ⟨place, rfl, hplace⟩ := h before xs after x hts hx
  exact ⟨place, rfl, fun ys y hy => hle _ _ (hplace ys y hy)⟩

/-- Where no parenthesis stands there is nothing to say. -/
theorem hasPlaces_of_forall_opens {phrase : Phrase} {ts : List Token} {e : Expr}
    (h : ∀ t ∈ ts, t.opens = 0) : HasPlaces phrase ts e := by
  intro before xs after x hts _
  exact absurd hts (ne_of_forall_opens h)

/-- Behind a token that is no parenthesis, and under one more node. The place gets this node as its
outermost. -/
theorem HasPlaces.cons {phrase phrase' : Phrase} {t : Token} {ts : List Token} {e : Expr}
    (h : HasPlaces phrase ts e) (ht : t.opens = 0) (frame : Frame)
    (hstep : ∀ us f, Derives phrase us f → Derives phrase' (t :: us) (frame.fill f)) :
    HasPlaces phrase' (t :: ts) (frame.fill e) := by
  intro before xs after x hts hx
  obtain ⟨front, rfl, rfl⟩ := split_cons ht hts
  obtain ⟨place, rfl, hplace⟩ := h front xs after x rfl hx
  refine ⟨place ++ [frame], (Place.fill_snoc place frame x).symm, fun ys y hy => ?_⟩
  rw [Place.fill_snoc]
  exact hstep _ _ (hplace ys y hy)

/-- In parentheses the group is the whole, or stands inside. Either way parentheses are left when
another expression takes its place. -/
theorem HasPlaces.inParens {ts before xs after : List Token} {e x : Expr} (h : HasPlaces .expr ts e)
    (he : Derives .expr ts e) (hts : Expr.inParens ts = before ++ (Expr.inParens xs ++ after))
    (hx : Derives .expr xs x) :
    ∃ place : Place, e = place.fill x ∧ ∀ ys y, Derives .expr ys y →
      ∃ zs, before ++ (Expr.inParens ys ++ after) = Expr.inParens zs ∧
        Derives .expr zs (place.fill y) := by
  rcases he.balanced.split_inParens hx.balanced hts with
    ⟨rfl, rfl, rfl⟩ | ⟨front, back, rfl, rfl, rfl⟩
  · refine ⟨[], he.unique hx, fun ys y hy => ⟨ys, ?_, hy⟩⟩
    rw [List.nil_append, List.append_nil]
  · obtain ⟨place, rfl, hplace⟩ := h front xs back x rfl hx
    refine ⟨place, rfl, fun ys y hy => ⟨_, ?_, hplace ys y hy⟩⟩
    simp only [Expr.inParens, List.cons_append, List.append_assoc]

/-- A suffix puts one node around what is on its left, whatever that is. -/
theorem Derives.exists_frame {left f : Expr} {us : List Token} (h : Derives (.suffix left) us f) :
    ∃ frame : Frame, f = frame.fill left ∧
      ∀ left', Derives (.suffix left') us (frame.fill left') := by
  cases h with
  | @sign s _ right _ hright => exact ⟨.comparisonLeft s right, rfl, fun _ => .sign s hright⟩
  | isNull negated => exact ⟨.isNull negated, rfl, fun _ => .isNull negated⟩
  | @between _ low high _ _ hlow hhigh =>
    exact ⟨.betweenSubject low high, rfl, fun _ => .between hlow hhigh⟩
  | member negated ht hitems => exact ⟨.member _ negated, rfl, fun _ => .member negated ht hitems⟩
  | like negated text => exact ⟨.like text negated, rfl, fun _ => .like negated text⟩

/-! ## Chains -/

/-- A group in a chain stands in one of the operands. The others are around it, those before it
folded together. -/
theorem hasPlaces_chain {c : Connective} {k : Keyword} {phrase phrase' : Phrase}
    (hwhole : ∀ (ts : List Token) (e : Expr) (parts : List (List Token × Expr)),
      Derives phrase ts e → (∀ part ∈ parts, Derives phrase part.1 part.2) →
      Derives phrase' (ts ++ parts.flatMap fun part => .keyword k :: part.1)
        (parts.foldl (fun left part => logical c [left, part.2]) e))
    {ts : List Token} {e : Expr} {parts : List (List Token × Expr)}
    (he : Derives phrase ts e) (hparts : ∀ part ∈ parts, Derives phrase part.1 part.2)
    (hfirst : HasPlaces phrase ts e) (hrest : ∀ part ∈ parts, HasPlaces phrase part.1 part.2) :
    HasPlaces phrase' (ts ++ parts.flatMap fun part => .keyword k :: part.1)
      (parts.foldl (fun left part => logical c [left, part.2]) e) := by
  intro before xs after x hts hx
  rcases he.balanced.split hx.balanced hts with ⟨back, rfl, rfl⟩ | ⟨front, rfl, hbehind⟩
  · obtain ⟨place, rfl, hplace⟩ := hfirst before xs back x rfl hx
    refine ⟨place ++ Place.folded c parts, ?_, fun ys y hy => ?_⟩
    · rw [Place.fill_append, Place.fill_folded]
    · have hchain := hwhole _ _ parts (hplace ys y hy) hparts
      rw [Place.fill_append, Place.fill_folded]
      simpa only [List.append_assoc] using hchain
  · have hbalanced : ∀ part ∈ parts, Balanced part.1 := fun part hpart =>
      (hparts part hpart).balanced
    obtain ⟨earlier, part, later, inner, back, rfl, hpart, rfl, rfl⟩ :=
      split_flatMap hbalanced hx.balanced hbehind
    obtain ⟨place, hfill, hplace⟩ := hrest part (by simp) inner xs back x hpart hx
    have hbefore : ∀ p ∈ earlier, Derives phrase p.1 p.2 := fun p hp =>
      hparts p (List.mem_append_left _ hp)
    have hafter : ∀ p ∈ later, Derives phrase p.1 p.2 := fun p hp =>
      hparts p (List.mem_append_right _ (List.mem_cons_of_mem _ hp))
    let left := earlier.foldl (fun left part => logical c [left, part.2]) e
    refine ⟨place ++ .operand c [left] [] :: Place.folded c later, ?_, fun ys y hy => ?_⟩
    · rw [Place.fill_append, List.foldl_append, List.foldl_cons, hfill]
      exact (Place.fill_folded c later _).symm
    · -- the same chain with the other expression as this operand
      have hchain := hwhole ts e (earlier ++ (inner ++ (inParens ys ++ back), place.fill y) :: later)
        he (List.forall_mem_append.mpr ⟨hbefore,
          List.forall_mem_cons.mpr ⟨hplace ys y hy, hafter⟩⟩)
      rw [List.foldl_append, List.foldl_cons, ← Place.fill_folded c later, List.flatMap_append,
        List.flatMap_cons] at hchain
      have hfilled : Place.fill (place ++ .operand c [left] [] :: Place.folded c later) y =
          Place.fill (Place.folded c later) (logical c [left, place.fill y]) :=
        Place.fill_append ..
      rw [hfilled]
      simpa only [List.append_assoc, List.cons_append] using hchain

/-! ## Every phrase -/

/-- A group in the bounds of a range stands in one of the two bounds. It cannot reach over the
`AND`, for each bound is balanced. -/
theorem hasPlaces_between {left low high : Expr} {ts us : List Token} (hlow : Derives .primary ts low)
    (hhigh : Derives .primary us high) (ihlow : HasPlaces .primary ts low)
    (ihhigh : HasPlaces .primary us high) :
    HasPlaces (.suffix left) (.keyword .between :: ts ++ .keyword .and :: us)
      (between left low high) := by
  intro before xs after x hts hx
  rcases Balanced.split (hlow.balanced.cons rfl) hx.balanced hts with
    ⟨back, hin, rfl⟩ | ⟨front, rfl, hbehind⟩
  · obtain ⟨front, rfl, rfl⟩ := split_cons rfl hin
    obtain ⟨place, rfl, hplace⟩ := ihlow front xs back x rfl hx
    refine ⟨place ++ [.betweenLow left high], ?_, fun ys y hy => ?_⟩
    · rw [Place.fill_snoc, Frame.fill]
    have hbetween : Derives (.suffix left) _ _ := .between (hplace ys y hy) hhigh
    rw [Place.fill_snoc, Frame.fill]
    simpa only [List.append_assoc, List.cons_append] using hbetween
  · obtain ⟨front, rfl, rfl⟩ := split_cons rfl hbehind
    obtain ⟨place, rfl, hplace⟩ := ihhigh front xs after x rfl hx
    refine ⟨place ++ [.betweenHigh left low], ?_, fun ys y hy => ?_⟩
    · rw [Place.fill_snoc, Frame.fill]
    have hbetween : Derives (.suffix left) _ _ := .between hlow (hplace ys y hy)
    rw [Place.fill_snoc, Frame.fill]
    simpa only [List.append_assoc, List.cons_append] using hbetween

/-- An optional `NOT` has no parenthesis. -/
theorem opens_of_mem_notTokens {negated : Bool} : ∀ t ∈ notTokens negated, t.opens = 0 := by
  cases negated with
  | false => exact List.forall_mem_nil _
  | true => exact List.forall_mem_singleton.mpr rfl

/-- The parentheses of `IN` are those of no expression, so a group that stood there would be no
group. -/
theorem hasPlaces_member {left : Expr} (negated : Bool) {t : Token} {v : Value}
    {items : List (Token × Value)} (ht : t.Denotes v)
    (hitems : ∀ item ∈ items, item.1.Denotes item.2) {e : Expr} :
    HasPlaces (.suffix left)
      (notTokens negated ++ .keyword .among ::
        inParens (t :: items.flatMap fun item => [.comma, item.1])) e := by
  intro before xs after x hts hx
  have hconstants := opens_of_mem_constants ht hitems
  rcases (balanced_notTokens negated).split hx.balanced hts with
    ⟨_, hin, -⟩ | ⟨front, -, hbehind⟩
  · exact absurd hin (ne_of_forall_opens opens_of_mem_notTokens)
  obtain ⟨front, -, hlist⟩ := split_cons rfl hbehind
  rcases (balanced_of_forall hconstants).split_inParens hx.balanced hlist with
    ⟨-, rfl, -⟩ | ⟨_, _, -, -, hin⟩
  · exact absurd hx (not_derives_constants ht hitems)
  · exact absurd hin (ne_of_forall_opens hconstants)

/-- A group as a comparison or as a primary. -/
theorem HasPlaces.group {phrase : Phrase} {ts : List Token} {e : Expr} (h : HasPlaces .expr ts e)
    (he : Derives .expr ts e)
    (hgroup : ∀ us f, Derives .expr us f → Derives phrase (Expr.inParens us) f) :
    HasPlaces phrase (Expr.inParens ts) e := by
  intro before xs after x hts hx
  obtain ⟨place, hfill, hplace⟩ := h.inParens he hts hx
  refine ⟨place, hfill, fun ys y hy => ?_⟩
  obtain ⟨zs, hzs, hder⟩ := hplace ys y hy
  rw [hzs]
  exact hgroup zs _ hder

/-- A group in a comparison stands on its left or in its suffix. A suffix looks at its left side
only to put a node around it. -/
theorem hasPlaces_compared {ts us : List Token} {e f : Expr} (he : Derives .primary ts e)
    (hsuffix : Derives (.suffix e) us f) (hleft : HasPlaces .primary ts e)
    (hright : HasPlaces (.suffix e) us f) : HasPlaces .comparison (ts ++ us) f := by
  intro before xs after x hts hx
  rcases he.balanced.split hx.balanced hts with ⟨back, hin, rfl⟩ | ⟨front, rfl, hbehind⟩
  · obtain ⟨place, rfl, hplace⟩ := hleft before xs back x hin hx
    obtain ⟨frame, rfl, hframe⟩ := hsuffix.exists_frame
    refine ⟨place ++ [frame], by rw [Place.fill_snoc], fun ys y hy => ?_⟩
    rw [Place.fill_snoc, ← List.append_assoc (inParens ys), ← List.append_assoc before]
    exact .compared (hplace ys y hy) (hframe _)
  · obtain ⟨place, rfl, hplace⟩ := hright front xs after x hbehind hx
    refine ⟨place, rfl, fun ys y hy => ?_⟩
    rw [List.append_assoc]
    exact .compared he (hplace ys y hy)

/-- **What stands in parentheses is on its own**, in every phrase. By induction on the derivation,
with the lemma above for each way to put phrases together. -/
theorem Derives.hasPlaces {phrase : Phrase} {ts : List Token} {e : Expr} (h : Derives phrase ts e) :
    HasPlaces phrase ts e := by
  induction h with
  | expr _ ih => exact ih.mono fun _ _ => .expr
  | orExpr he hparts ih ihs =>
    exact hasPlaces_chain (c := .or) (fun _ _ _ => .orExpr) he hparts ih ihs
  | andExpr he hparts ih ihs =>
    exact hasPlaces_chain (c := .and) (fun _ _ _ => .andExpr) he hparts ih ihs
  | not _ ih => exact ih.cons rfl (.operand .not [] []) fun _ _ => .not
  | notNegated _ ih => exact ih.mono fun _ _ => .notNegated
  | groupAlone he ih => exact ih.group he fun _ _ => .groupAlone
  | groupCompared he hsuffix ih ihs =>
    exact hasPlaces_compared (.group he) hsuffix (ih.group he fun _ _ => .group) ihs
  | compared he hsuffix ih ihs => exact hasPlaces_compared he hsuffix ih ihs
  | @sign s left _ _ _ ih => exact ih.cons rfl (.comparisonRight s left) fun _ _ => .sign s
  | isNull negated =>
    apply hasPlaces_of_forall_opens
    rw [List.cons_append, List.forall_mem_cons, List.forall_mem_append, List.forall_mem_singleton]
    exact ⟨rfl, opens_of_mem_notTokens, rfl⟩
  | between hlow hhigh ihlow ihhigh => exact hasPlaces_between hlow hhigh ihlow ihhigh
  | member negated ht hitems => exact hasPlaces_member negated ht hitems
  | like negated text =>
    apply hasPlaces_of_forall_opens
    rw [List.forall_mem_append, List.forall_mem_cons, List.forall_mem_singleton]
    exact ⟨opens_of_mem_notTokens, rfl, rfl⟩
  | group he ih => exact ih.group he fun _ _ => .group
  | literal ht =>
    exact hasPlaces_of_forall_opens (List.forall_mem_singleton.mpr (opens_of_denotes ht))
  | field path => exact hasPlaces_of_forall_opens (List.forall_mem_singleton.mpr rfl)

end WhereRules.Expr
