import WhereRules.Proofs.Compilation.Inside

/-!
# Allow lists

An allow list screens what compiles without one. It changes no predicate: an expression that names
listed paths only compiles to what it compiles to when every field may be named. Of the paths that
are not listed the first is reported. And it saves nothing: what is wrong for every resolver stays
wrong, although another thing may be found wrong first.

The two compilations are walked side by side (`Screened`). That the report is about the first path in
the order of `Expr.fields` is where the walk of the compiler, which opens chains, and the walk that
collects the fields have to agree.
-/

namespace WhereRules.Expr

/-! ## The first path that is not listed -/

/-- The first text with a property is the same with its repetitions and without them, for a
repetition comes after the text that it repeats. -/
theorem find?_distinct (q : String → Bool) (texts : List String) :
    (distinct texts).find? q = texts.find? q := by
  induction texts with
  | nil => rfl
  | cons s rest ih =>
    rw [distinct]
    cases hs : q s with
    | true => rw [List.find?_cons_of_pos hs, List.find?_cons_of_pos hs]
    | false =>
      -- what the filter drops is not looked for
      have hkeep : (fun t => decide (decide (t ≠ s) = true ∧ q t = true)) = q := by
        funext t
        by_cases ht : t = s
        · simp only [ht, hs, Bool.false_eq_true, and_false, decide_false]
        · simp only [decide_eq_true ht, true_and, Bool.decide_eq_true]
      have hrest : ((distinct rest).filter (· ≠ s)).find? q = rest.find? q := by
        rw [List.find?_filter, hkeep, ih]
      rw [List.find?_cons_of_neg (Bool.not_eq_true _ ▸ hs), hrest,
        List.find?_cons_of_neg (Bool.not_eq_true _ ▸ hs)]

/-- The first of the named paths that an allow list does not have. -/
def unlisted? (paths named : List String) : Option String := named.find? (· ∉ paths)

/-- Repetitions do not matter for which path is the first that the list does not have. -/
theorem unlisted?_fields (paths : List String) (e : Expr) :
    unlisted? paths e.fields = unlisted? paths e.paths := find?_distinct _ _

/-- The first path that the list does not have is named, and the list does not have it. -/
theorem unlisted?_eq_some {paths named : List String} {path : String}
    (h : unlisted? paths named = some path) : path ∈ named ∧ path ∉ paths := by
  have hnot : decide (path ∉ paths) = true := List.find?_some (p := fun s => decide (s ∉ paths)) h
  exact ⟨List.mem_of_find?_eq_some h, of_decide_eq_true hnot⟩

/-- The first such path is among those named first, or else among those named later. -/
theorem unlisted?_append (paths named more : List String) :
    unlisted? paths (named ++ more) = (unlisted? paths named).or (unlisted? paths more) :=
  List.find?_append

/-! ## Compiling with the list and without it -/

/-- What is found wrong with a path that is not listed. -/
def notListed (path : String) : CompileError := .unresolved path (.unknown path)

/-- What the list makes of an answer that was given without it, when these paths were named. -/
def screen (paths named : List String) {α : Type} (a : α) : Except CompileError α :=
  match unlisted? paths named with
  | none => .ok a
  | some path => .error (notListed path)

/-- An answer without the list and the answer with it. -/
def Screened (paths named : List String) {α : Type} : Except CompileError α →
    Except CompileError α → Prop
  | .ok a, y => y = screen paths named a
  | .error error, y =>
    ∃ error', y = .error error' ∧
      (error' = error ∨ ∃ path ∈ named, path ∉ paths ∧ error' = notListed path)

variable {paths : List String}

/-- Where there was no answer the list gives none. -/
theorem Screened.exists_error {named : List String} {α : Type} {error : CompileError}
    {y : Except CompileError α} (h : Screened paths named (.error error) y) :
    ∃ error', y = .error error' ∧
      (error' = error ∨ ∃ path ∈ named, path ∉ paths ∧ error' = notListed path) := h

/-- What was answered after an answer that the list leaves is screened by what was named then. The
names of both steps follow one another, as the steps do. -/
theorem Screened.of_unlisted?_eq_none {named more : List String} {α : Type}
    {x y : Except CompileError α} (hnone : unlisted? paths named = none)
    (h : Screened paths more x y) : Screened paths (named ++ more) x y := by
  cases x with
  | ok a =>
    show y = screen paths (named ++ more) a
    rw [screen, unlisted?_append, hnone, Option.none_or]
    exact h
  | error error =>
    obtain ⟨error', hy, hsame | ⟨path, hpath, hnot, hunlisted⟩⟩ := h
    · exact ⟨error', hy, .inl hsame⟩
    · exact ⟨error', hy, .inr ⟨path, List.mem_append_right named hpath, hnot, hunlisted⟩⟩

/-- An answer that the list takes away stays away, whatever would have come of it. -/
theorem Screened.of_unlisted?_eq_some {named : List String} {path : String}
    (hsome : unlisted? paths named = some path) (more : List String) {α : Type}
    (x : Except CompileError α) : Screened paths (named ++ more) x (.error (notListed path)) := by
  cases x with
  | ok a =>
    show _ = screen paths (named ++ more) a
    rw [screen, unlisted?_append, hsome, Option.some_or]
  | error error =>
    obtain ⟨hmem, hnot⟩ := unlisted?_eq_some hsome
    exact ⟨_, rfl, .inr ⟨path, List.mem_append_left more hmem, hnot, rfl⟩⟩

/-- Screening is kept from steps to computations: the list takes away the answer of the step that
names the first path which it does not have, whatever the later steps would name. -/
theorem graded_screened (paths : List String) : Graded fun {_} named x y => Screened paths named x y where
  ok _ := rfl
  bind {α β named more x y f g} hxy hfg := by
    cases x with
    | error error =>
      obtain ⟨error', rfl, hsame | ⟨path, hpath, hnot, hunlisted⟩⟩ := hxy
      · exact ⟨error', rfl, .inl hsame⟩
      · exact ⟨error', rfl, .inr ⟨path, List.mem_append_left more hpath, hnot, hunlisted⟩⟩
    | ok a =>
      have hy : y = screen paths named a := hxy
      rw [hy, screen]
      cases hunlisted : unlisted? paths named with
      | none => exact (hfg a).of_unlisted?_eq_none hunlisted
      | some path => exact Screened.of_unlisted?_eq_some hunlisted more (f a)

/-- The list is asked before the path is looked at. So a path that no field can have is still
reported as not listed. -/
theorem screened_resolve (paths : List String) :
    Resolves (fun {_} named x y => Screened paths named x y) FieldPolicy.any.resolve
      (FieldPolicy.only paths).resolve := by
  intro path
  have hany : FieldPolicy.any.resolve path = Field.ofPath path := rfl
  rw [hany]
  by_cases hmem : path ∈ paths
  · have honly : (FieldPolicy.only paths).resolve path = Field.ofPath path :=
      if_pos (List.contains_iff_mem.mpr hmem)
    have hlisted : unlisted? paths [path] = none :=
      List.find?_cons_of_neg fun h => of_decide_eq_true h hmem
    rw [honly]
    cases Field.ofPath path with
    | ok named =>
      show _ = screen paths [path] named
      rw [screen, hlisted]
      rfl
    | error cause => exact ⟨_, rfl, .inl rfl⟩
  · have honly : (FieldPolicy.only paths).resolve path = .error (.unknown path) :=
      if_neg fun h => hmem (List.contains_iff_mem.mp h)
    have hunlisted : unlisted? paths [path] = some path :=
      List.find?_cons_of_pos (decide_eq_true hmem)
    rw [honly]
    exact Screened.of_unlisted?_eq_some hunlisted [] _

/-- **The list screens every condition**, in every room, and the paths that count are those that the
expression names from left to right. -/
theorem screened_condition (paths : List String) (limit room : Nat) (e : Expr) :
    Screened paths e.paths (condition FieldPolicy.any.resolve limit room e)
      (condition (FieldPolicy.only paths).resolve limit room e) := by
  induction room generalizing e with
  | zero => exact ⟨_, rfl, .inl rfl⟩
  | succ room ih =>
    refine (graded_screened paths).condition_succ (screened_resolve paths) ?_ fun f _ => ih f
    intro error hfault named
    exact ⟨error, rfl, .inl rfl⟩

end WhereRules.Expr

namespace WhereRules.Predicate

/-- **An allow list filters by the fields that an expression names.** What compiles without a list
compiles with one to the same predicate if the list has all the fields, and otherwise the first
field that the list does not have is reported as unknown. What does not compile without a list does
not compile with one: the error is the same, or it is about a field that the list does not have. -/
theorem ofExpr_only (paths : List String) (limit : Nat) (e : Expr) :
    match ofExpr FieldPolicy.any.resolve limit e with
    | .ok p =>
      ofExpr (FieldPolicy.only paths).resolve limit e =
        match e.fields.find? (· ∉ paths) with
        | none => .ok p
        | some path => .error (.unresolved path (.unknown path))
    | .error error =>
      ∃ error', ofExpr (FieldPolicy.only paths).resolve limit e = .error error' ∧
        (error' = error ∨
          ∃ path ∈ e.fields, path ∉ paths ∧ error' = .unresolved path (.unknown path)) := by
  have hscreened := Expr.screened_condition paths limit limit e
  rw [← Predicate.ofExpr, ← Predicate.ofExpr] at hscreened
  cases hany : ofExpr FieldPolicy.any.resolve limit e with
  | ok p =>
    rw [hany] at hscreened
    have hscreen : ofExpr (FieldPolicy.only paths).resolve limit e =
      Expr.screen paths e.paths p := hscreened
    rw [Expr.screen, ← Expr.unlisted?_fields] at hscreen
    exact hscreen
  | error error =>
    rw [hany] at hscreened
    obtain ⟨error', honly, hsame | ⟨path, hpath, hnot, hunlisted⟩⟩ := hscreened.exists_error
    · exact ⟨error', honly, .inl hsame⟩
    · exact ⟨error', honly, .inr ⟨path, Expr.mem_fields.mpr hpath, hnot, hunlisted⟩⟩

end WhereRules.Predicate
