import WhereRules.Proofs.Serving.Following

/-!
# Trails of cursors

Work on a cursor can be traced (`Traced`). It then leaves a trail: every move that it made, with the
cursor that it was made on. The rules of the grammar are the same definitions, traced or carried out
by a parser, so what a trail shows is what the parser does.

A single move never goes back and never leaves the text. It keeps the count of levels right if it is
fair (`Cursor.Step.Fair`): a level is opened below the limit or, once, at it, and no more levels are
closed than are open. Along steps that lead from one cursor to another (`Cursor.Leads`) each of
these holds at every cursor between. That work makes fair moves only is an account of the levels
that it opens and closes (`Accounted`), and accounts add up from one piece of work to the next.
-/

namespace WhereRules

/-! ## Steps -/

namespace Cursor

/-- A move, and the cursor that it is made on. -/
structure Step where
  before : Cursor
  move : Move

/-- Steps from a cursor to another, each from where the one before it led. -/
inductive Leads : Cursor → List Step → Cursor → Prop
  | stay (cursor : Cursor) : Leads cursor [] cursor
  | step {cursor last : Cursor} {move : Move} {steps : List Step} :
    Leads (cursor.after move) steps last → Leads cursor (⟨cursor, move⟩ :: steps) last

/-- Opening a level above the limit is unfair, and closing more levels than are open. -/
def Step.Fair (step : Step) : Prop :=
  match step.move with
  | .advance => True
  | .deepen => step.before.depth ≤ step.before.maxDepth
  | .leave n => n ≤ step.before.depth

/-- The second cursor is in the text of the first, and not before it. -/
structure Later (cursor next : Cursor) : Prop where
  tokens_eq : next.tokens = cursor.tokens
  maxDepth_eq : next.maxDepth = cursor.maxDepth
  position_le : cursor.position ≤ next.position

/-- The cursor is on a token of its text or at the end, and at most one level is open that should
not be. -/
structure InBounds (cursor : Cursor) : Prop where
  position_lt : cursor.position < cursor.tokens.size + 1
  depth_le : cursor.depth ≤ cursor.maxDepth + 1

theorem Later.refl (cursor : Cursor) : cursor.Later cursor := ⟨rfl, rfl, Nat.le_refl _⟩

theorem Later.trans {a b c : Cursor} (hab : a.Later b) (hbc : b.Later c) : a.Later c where
  tokens_eq := hbc.tokens_eq.trans hab.tokens_eq
  maxDepth_eq := hbc.maxDepth_eq.trans hab.maxDepth_eq
  position_le := Nat.le_trans hab.position_le hbc.position_le

/-! ### One move -/

theorem after_advance {cursor : Cursor} (h : cursor.current?.isSome = true) :
    cursor.after .advance = cursor.passed := if_pos h

theorem after_advance_of_end {cursor : Cursor} (h : ¬cursor.current?.isSome = true) :
    cursor.after .advance = cursor := if_neg h

theorem position_lt_of_current? {cursor : Cursor} (h : cursor.current?.isSome = true) :
    cursor.position < cursor.tokens.size := by
  rw [current?, Option.isSome_map] at h
  exact (Array.getElem?_eq_some_iff.mp (Option.eq_some_of_isSome h)).1

/-- No move goes back, leaves the text or changes the limit, be it fair or not. -/
theorem later_after (cursor : Cursor) (move : Move) : cursor.Later (cursor.after move) := by
  cases move with
  | advance =>
    by_cases hcurrent : cursor.current?.isSome = true
    · rw [after_advance hcurrent]
      exact ⟨rfl, rfl, Nat.le_succ _⟩
    · rw [after_advance_of_end hcurrent]
      exact .refl cursor
  | deepen | leave n => exact ⟨rfl, rfl, Nat.le_refl _⟩

/-- **A fair move keeps the cursor in its bounds.** Advancing stops at the end, a level may be
opened at the limit once, and closing never opens. -/
theorem InBounds.after {cursor : Cursor} (h : cursor.InBounds) {move : Move}
    (hfair : Step.Fair ⟨cursor, move⟩) : (cursor.after move).InBounds := by
  cases move with
  | advance =>
    by_cases hcurrent : cursor.current?.isSome = true
    · rw [after_advance hcurrent]
      exact ⟨Nat.succ_lt_succ (position_lt_of_current? hcurrent), h.depth_le⟩
    · rw [after_advance_of_end hcurrent]
      exact h
  | deepen => exact ⟨h.position_lt, Nat.succ_le_succ hfair⟩
  | leave n => exact ⟨h.position_lt, Nat.le_trans (Nat.sub_le _ _) h.depth_le⟩

/-! ### Many moves -/

variable {start last : Cursor} {steps : List Step}

/-- Steps that begin where others end can be joined to them. -/
theorem Leads.append {middle : Cursor} {more : List Step} (h : Leads start steps middle)
    (hmore : Leads middle more last) : Leads start (steps ++ more) last := by
  induction h with
  | stay => exact hmore
  | step _ ih => exact .step (ih hmore)

/-- What every step keeps holds all along: at every cursor that a step is made on, and at the last
one. -/
theorem Leads.forall_mem {P : Cursor → Prop} (h : Leads start steps last) (hstart : P start)
    (hstep : ∀ step ∈ steps, P step.before → P (step.before.after step.move)) :
    ∀ cursor ∈ steps.map Step.before ++ [last], P cursor := by
  induction h with
  | stay cursor => exact List.forall_mem_singleton.mpr hstart
  | @step cursor last move steps _ ih =>
    obtain ⟨hfirst, hrest⟩ := List.forall_mem_cons.mp hstep
    exact List.forall_mem_cons.mpr ⟨hstart, ih (hfirst hstart) hrest⟩

/-- All cursors on the way are in the text of the first and not before it. -/
theorem Leads.later (h : Leads start steps last) :
    ∀ cursor ∈ steps.map Step.before ++ [last], start.Later cursor :=
  h.forall_mem (.refl start) fun step _ hlater => hlater.trans (later_after step.before step.move)

/-- So is the last one. -/
theorem Leads.later_last (h : Leads start steps last) : start.Later last :=
  h.later last (List.mem_append_right _ (List.mem_singleton_self last))

/-- **Steps never go back.** This compares any two cursors on the way, and not only neighbours. -/
theorem Leads.sorted (h : Leads start steps last) :
    (steps.map Step.before ++ [last]).Pairwise
      fun cursor next => cursor.position ≤ next.position := by
  induction h with
  | stay cursor => exact List.pairwise_singleton _ cursor
  | @step cursor last move steps hsteps ih =>
    refine List.pairwise_cons.mpr ⟨fun next hnext => ?_, ih⟩
    exact ((later_after cursor move).trans (hsteps.later next hnext)).position_le

/-- **Fair steps keep the cursor in its bounds all along.** It need only begin in them. -/
theorem Leads.inBounds (h : Leads start steps last) (hfair : ∀ step ∈ steps, step.Fair)
    (hstart : start.InBounds) : ∀ cursor ∈ steps.map Step.before ++ [last], cursor.InBounds :=
  h.forall_mem hstart fun step hstep hbefore => hbefore.after (hfair step hstep)

end Cursor

/-! ## Traced work -/

open Cursor MonadCursor

/-- What traced work came to: its answer, the cursor in the end, and all steps from first to
last. -/
structure Trail (α : Type) where
  answer : Except ParseError α
  last : Cursor
  steps : List Step

/-- All cursors of a trail: each one that a move was made on, and the last one. -/
def Trail.cursors {α : Type} (trail : Trail α) : List Cursor :=
  trail.steps.map Step.before ++ [trail.last]

/-- Work on a cursor that is traced. -/
def Traced (α : Type) := Cursor → Trail α

namespace Traced

instance : Monad Traced where
  pure a := fun cursor => ⟨.ok a, cursor, []⟩
  bind x f := fun cursor =>
    let trail := x cursor
    match trail.answer with
    | .ok a =>
      let further := f a trail.last
      ⟨further.answer, further.last, trail.steps ++ further.steps⟩
    | .error error => ⟨.error error, trail.last, trail.steps⟩

instance : MonadCursor Traced where
  look := fun cursor => ⟨.ok cursor, cursor, []⟩
  move move := fun cursor => ⟨.ok (), cursor.after move, [⟨cursor, move⟩]⟩
  giveUp error := fun cursor => ⟨.error error, cursor, []⟩

variable {α β : Type} {cursor : Cursor}

theorem bind_of_ok {x : Traced α} {a : α} (h : (x cursor).answer = .ok a) (f : α → Traced β) :
    (x >>= f) cursor = ⟨(f a (x cursor).last).answer, (f a (x cursor).last).last,
      (x cursor).steps ++ (f a (x cursor).last).steps⟩ := by
  show (match (x cursor).answer with | .ok a => _ | .error error => _ : Trail β) = _
  rw [h]

theorem bind_of_error {x : Traced α} {error : ParseError} (h : (x cursor).answer = .error error)
    (f : α → Traced β) :
    (x >>= f) cursor = ⟨.error error, (x cursor).last, (x cursor).steps⟩ := by
  show (match (x cursor).answer with | .ok a => _ | .error error => _ : Trail β) = _
  rw [h]

/-- A level is opened before it is found to be one too many. -/
theorem enter_apply (place : Nat) (cursor : Cursor) :
    (enter place : Traced Unit) cursor =
      ⟨if cursor.maxDepth < cursor.depth + 1 then .error (.tooDeep cursor.maxDepth place)
        else .ok (), cursor.after .deepen, [⟨cursor, .deepen⟩]⟩ := by
  show (let trail := (if cursor.maxDepth < cursor.depth + 1 then tooDeep place else pure ()
      : Traced Unit) (cursor.after .deepen)
    (⟨trail.answer, trail.last, ⟨cursor, .deepen⟩ :: trail.steps⟩ : Trail Unit)) = _
  split
  · rfl
  · rfl

end Traced

/-! ## Accounts -/

/-- The trail is that of work from a cursor on. Its steps are fair if no level is open that should
not be, and where there is an answer at least `taken` tokens have been passed and `closed` levels,
no more and no fewer, have been closed for good. -/
structure Trail.Accounts {α : Type} (trail : Trail α) (work : Parsing α) (cursor : Cursor)
    (taken closed : Nat) : Prop where
  run_eq : work.run.run cursor = (trail.answer, trail.last)
  leads : Leads cursor trail.steps trail.last
  fair : cursor.depth ≤ cursor.maxDepth → ∀ step ∈ trail.steps, step.Fair
  balanced : ∀ a, trail.answer = .ok a →
    cursor.position + taken ≤ trail.last.position ∧ trail.last.depth + closed = cursor.depth

/-- From a cursor on, traced work leaves the trail of the work. -/
def Accounted {α : Type} (traced : Traced α) (work : Parsing α) (cursor : Cursor)
    (taken closed : Nat) : Prop :=
  (traced cursor).Accounts work cursor taken closed

variable {α β : Type} {cursor : Cursor} {taken closed : Nat}

/-- Fewer tokens may be asked for. Behind the first piece of work of a rule no more tokens are owed,
so whatever comes next is taken with this. -/
theorem Accounted.any {traced : Traced α} {work : Parsing α}
    (h : Accounted traced work cursor taken closed) : Accounted traced work cursor 0 closed where
  run_eq := h.run_eq
  leads := h.leads
  fair := h.fair
  balanced a ha := ⟨Nat.le_trans (Nat.le_add_right _ _) (h.balanced a ha).1, (h.balanced a ha).2⟩

/-- Work that does nothing takes no token and closes no level. -/
theorem accounted_pure (a : α) (cursor : Cursor) : Accounted (pure a) (pure a) cursor 0 0 where
  run_eq := rfl
  leads := .stay cursor
  fair _ := List.forall_mem_nil _
  balanced _ _ := ⟨Nat.le_refl _, rfl⟩

/-- Work that is given up takes and closes whatever it should: what is promised is promised of an
answer. -/
theorem accounted_giveUp (error : ParseError) :
    Accounted (giveUp error : Traced α) (giveUp error) cursor taken closed where
  run_eq := rfl
  leads := .stay cursor
  fair _ := List.forall_mem_nil _
  balanced _ ha := by cases ha

/-- Work that looks at the cursor first is accounted for as what it does then. -/
theorem Accounted.look {f : Cursor → Traced α} {f' : Cursor → Parsing α}
    (h : Accounted (f cursor) (f' cursor) cursor taken closed) :
    Accounted (MonadCursor.look >>= f) (MonadCursor.look >>= f') cursor taken closed where
  run_eq := h.run_eq
  leads := h.leads
  fair := h.fair
  balanced := h.balanced

/-- Work that goes one of two ways is accounted for if both are. -/
theorem Accounted.ite {c : Prop} [Decidable c] {x y : Traced α} {x' y' : Parsing α}
    (hx : c → Accounted x x' cursor taken closed) (hy : ¬c → Accounted y y' cursor taken closed) :
    Accounted (if c then x else y) (if c then x' else y') cursor taken closed := by
  by_cases hc : c
  · rw [if_pos hc, if_pos hc]
    exact hx hc
  · rw [if_neg hc, if_neg hc]
    exact hy hc

/-- **Accounts add up.** What is done after work that closes its levels is accounted for from where
that work ends. -/
theorem Accounted.bind {x : Traced α} {x' : Parsing α} {f : α → Traced β} {f' : α → Parsing β}
    (hx : Accounted x x' cursor taken 0)
    (hf : ∀ a next, next.depth = cursor.depth → Accounted (f a) (f' a) next 0 closed) :
    Accounted (x >>= f) (x' >>= f') cursor taken closed := by
  rw [Accounted]
  cases hanswer : (x cursor).answer with
  | error error =>
    rw [Traced.bind_of_error hanswer f]
    exact {
      run_eq := by rw [run_run_bind, hx.run_eq, hanswer]
      leads := hx.leads
      fair := hx.fair
      balanced := nofun }
  | ok a =>
    obtain ⟨htaken, hdepth⟩ := hx.balanced a hanswer
    have hnext := hf a (x cursor).last hdepth
    rw [Traced.bind_of_ok hanswer f]
    refine {
      run_eq := by rw [run_run_bind, hx.run_eq, hanswer]; exact hnext.run_eq
      leads := hx.leads.append hnext.leads
      fair := fun hroom => ?_
      balanced := fun b hb => ?_ }
    · have hlast : (x cursor).last.depth ≤ (x cursor).last.maxDepth := by
        rw [hx.leads.later_last.maxDepth_eq, ← Nat.add_zero (x cursor).last.depth, hdepth]
        exact hroom
      exact List.forall_mem_append.mpr ⟨hx.fair hroom, hnext.fair hlast⟩
    · obtain ⟨hlater, hclosed⟩ := hnext.balanced b hb
      exact ⟨Nat.le_trans htaken hlater, hclosed.trans hdepth⟩

/-! ### Moves -/

/-- To advance from a token takes one. -/
theorem accounted_advance (h : cursor.current?.isSome = true) :
    Accounted advance advance cursor 1 0 where
  run_eq := rfl
  leads := .step (.stay _)
  fair _ := List.forall_mem_singleton.mpr trivial
  balanced _ _ := by
    show cursor.position + 1 ≤ (cursor.after .advance).position ∧
      (cursor.after .advance).depth + 0 = cursor.depth
    rw [after_advance h]
    exact ⟨Nat.le_refl _, rfl⟩

/-- Levels that are open can be closed. That they are open is what makes the move a fair one. -/
theorem accounted_leave {n : Nat} (a : α) (h : n ≤ cursor.depth) :
    Accounted (leave n >>= fun _ => pure a) (leave n >>= fun _ => pure a) cursor 0 n where
  run_eq := rfl
  leads := .step (.stay _)
  fair _ := List.forall_mem_singleton.mpr h
  balanced _ _ := ⟨Nat.le_refl _, Nat.sub_add_cancel h⟩

/-- To find a level one too many is to give the text up. -/
theorem accounted_tooDeep (place : Nat) :
    Accounted (tooDeep place : Traced α) (tooDeep place) cursor taken closed :=
  Accounted.look (accounted_giveUp _)

/-- A level that is opened has to be closed again, so what comes next owes one more. If the level is
one too many, the text is given up and nothing is owed. -/
theorem Accounted.enter {place : Nat} {f : Unit → Traced α} {f' : Unit → Parsing α}
    (h : Accounted (f ()) (f' ()) (cursor.after .deepen) 0 (closed + 1)) :
    Accounted (MonadCursor.enter place >>= f) (MonadCursor.enter place >>= f') cursor 0 closed := by
  have hrun := Parsing.run_enter place cursor
  have henter := Traced.enter_apply place cursor
  have hfair : cursor.depth ≤ cursor.maxDepth → Step.Fair ⟨cursor, .deepen⟩ := fun hroom => hroom
  rw [Accounted]
  by_cases hdeep : cursor.maxDepth < cursor.depth + 1
  · rw [if_pos hdeep] at hrun henter
    rw [Traced.bind_of_error (congrArg Trail.answer henter) f, henter]
    exact {
      run_eq := by rw [run_run_bind, hrun]
      leads := .step (.stay _)
      fair := fun hroom => List.forall_mem_singleton.mpr (hfair hroom)
      balanced := nofun }
  · rw [if_neg hdeep] at hrun henter
    rw [Traced.bind_of_ok (congrArg Trail.answer henter) f, henter]
    refine {
      run_eq := by rw [run_run_bind, hrun]; exact h.run_eq
      leads := .step h.leads
      fair := fun hroom => ?_
      balanced := fun a ha => ?_ }
    · exact List.forall_mem_cons.mpr ⟨hfair hroom, h.fair (Nat.not_lt.mp hdeep)⟩
    · obtain ⟨hlater, hclosed⟩ := h.balanced a ha
      exact ⟨hlater, Nat.succ.inj hclosed⟩

end WhereRules
