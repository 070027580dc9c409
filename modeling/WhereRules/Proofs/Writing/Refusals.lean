import WhereRules.Proofs.RoundTrip.Compiled
import WhereRules.Proofs.Wildcard.Inversion
import WhereRules.Proofs.Writing.Steps

/-!
# Why a predicate is not written

Each part of a predicate that rule text has no words for has its own reason (`Predicate.refusals`),
and a predicate that is not written is refused for one of them, or for its depth
(`Expr.refuses_of_written`). So whatever parts cannot occur, their reasons cannot either. The
pattern of a compiled predicate is that of a wildcard text and is turned back into it, so no compiled
predicate is refused for a pattern (`Predicate.toText_ne_pattern`).
-/

namespace WhereRules

/-! ## Reasons -/

/-- Why a value has no literal. -/
def Value.refusals : Value → List WriteError
  | .number x => if x.isFinite then [] else [.value (.nonFinite x)]
  | .list items => [.value (.collection (.list items))]
  | .map entries => [.value (.collection (.map entries))]
  | _ => []

/-- Why a pattern has no wildcard text. -/
def Pattern.refusals (pattern : Pattern) : List WriteError :=
  if (Like.ofRegex? pattern.source).isSome then [] else [.pattern pattern.source]

mutual

def Operand.refusals : Operand → List WriteError
  | .constant value => value.refusals
  | .field named => if isName named.path then [] else [.value (.path named.path)]
  | .pattern pattern => [.value (.pattern pattern.source)]
  | .decision p => p.refusals

/-- Why rule text has no words for parts of a predicate, part by part. -/
def Predicate.refusals : Predicate → List WriteError
  | .comparison _ left right => left.refusals ++ right.refusals
  | .member negated subject values =>
    (if values.isEmpty then [.emptyList negated] else []) ++ values.flatMap Value.refusals ++
      subject.refusals
  | .between subject low high => subject.refusals ++ low.refusals ++ high.refusals
  | .matching _ subject pattern => pattern.refusals ++ subject.refusals
  | .all first rest => first.refusals ++ Predicate.refusalsEach rest
  | .any first rest => first.refusals ++ Predicate.refusalsEach rest
  | .not p => p.refusals

def Predicate.refusalsEach : List Predicate → List WriteError
  | [] => []
  | p :: rest => p.refusals ++ Predicate.refusalsEach rest

end

theorem Predicate.mem_refusalsEach {error : WriteError} {ps : List Predicate} :
    error ∈ refusalsEach ps ↔ ∃ p ∈ ps, error ∈ p.refusals := by
  induction ps with
  | nil => simp [refusalsEach]
  | cons p ps ih => simp only [refusalsEach, List.mem_append, ih, List.exists_mem_cons_iff]

/-! ## Errors of writing -/

namespace Expr

/-- A value that has no literal is refused for its reason: it is a number that is not finite, or a
collection. -/
theorem mem_refusals_of_writableValue {v : Value} {error : WriteError}
    (h : writableValue v = .error error) : error ∈ v.refusals := by
  cases v with
  | number x =>
    rw [writableValue] at h
    split at h
    · cases h
    · next hfinite =>
      cases h
      rw [Value.refusals, if_neg hfinite]
      exact List.mem_singleton_self _
  | list _ | map _ =>
    cases h
    exact List.mem_singleton_self _
  | _ => cases h

section Writing

variable {limit room : Nat} {error : WriteError}

/-- What `error` is when writing with it has failed: the depth, or the reason of a part. -/
def Refuses (limit : Nat) (refusals : List WriteError) (error : WriteError) : Prop :=
  error = .tooDeep limit ∨ error ∈ refusals

/-- What is refused for the reasons of a part is refused for those of the whole. -/
theorem Refuses.mono {as bs : List WriteError} (h : Refuses limit as error) (hsub : as ⊆ bs) :
    Refuses limit bs error := h.imp_right (@hsub error)

/-- An operand is refused for its own reason, or for one of the condition that it is. -/
theorem refuses_of_ofOperand
    (hinner : ∀ p, written limit room p = .error error → Refuses limit p.refusals error)
    {o : Operand} (h : ofOperand (written limit room) o = .error error) :
    Refuses limit o.refusals error := by
  cases o with
  | constant v => exact .inr (mem_refusals_of_writableValue (map_eq_error.mp h))
  | field named =>
    rw [ofOperand, ofField] at h
    split at h
    · cases h
    · next hname =>
      cases h
      rw [Operand.refusals, if_neg hname]
      exact .inr (List.mem_singleton_self _)
  | pattern _ =>
    cases h
    exact .inr (List.mem_singleton_self _)
  | decision p => exact hinner p h

/-- The operands of a chain are written in their order, so what is refused is refused for the first
that is not written, and in any case for one of them. -/
theorem refuses_of_mapM
    (hinner : ∀ p, written limit room p = .error error → Refuses limit p.refusals error)
    {first : Predicate} {rest : List Predicate}
    (h : (first :: rest).mapM (written limit room) = .error error) :
    Refuses limit (first.refusals ++ Predicate.refusalsEach rest) error := by
  obtain ⟨p, hp, h⟩ := exists_of_mapM_eq_error h
  exact (hinner p h).imp_right fun hmem => Predicate.mem_refusalsEach.mpr ⟨p, hp, hmem⟩

/-- Of two steps one after the other each has its own reasons. -/
theorem refuses_of_bind {α β : Type} {x : Except WriteError α} {f : α → Except WriteError β}
    {as bs : List WriteError} (h : x >>= f = .error error)
    (hx : x = .error error → Refuses limit as error)
    (hf : ∀ a, f a = .error error → Refuses limit bs error) : Refuses limit (as ++ bs) error := by
  rcases bind_eq_error.mp h with h | ⟨a, _, h⟩
  · exact (hx h).mono (List.subset_append_left as bs)
  · exact (hf a h).mono (List.subset_append_right as bs)

/-- A last step that only puts the answer together has none. -/
theorem refuses_of_bind_ok {α β : Type} {x : Except WriteError α} {f : α → β}
    {as : List WriteError} (h : (x >>= fun a => .ok (f a)) = .error error)
    (hx : x = .error error → Refuses limit as error) : Refuses limit as error :=
  hx (error_of_bind h fun _ hok => nomatch hok)

/-- **What is not written is refused for the reason of a part of it, or for its depth.** The
induction is on the room, and each form of predicate is some steps one after the other. -/
theorem refuses_of_written {p : Predicate} (h : written limit room p = .error error) :
    Refuses limit p.refusals error := by
  induction room generalizing p with
  | zero =>
    cases h
    exact .inl rfl
  | succ room ih =>
    have hoperand : ∀ {o : Operand}, ofOperand (written limit room) o = .error error →
        Refuses limit o.refusals error := fun h => refuses_of_ofOperand (fun _ => ih) h
    -- a null test is written without its null, which has no reasons
    have htest : ∀ {left : Operand} {negated : Bool},
        (do let left ← ofOperand (written limit room) left; .ok (isNull left negated)) =
          .error error →
        Refuses limit (left.refusals ++ Value.null.refusals) error := by
      intro left negated h
      show Refuses limit (left.refusals ++ []) error
      rw [List.append_nil]
      exact refuses_of_bind_ok h hoperand
    unfold written at h
    simp only at h
    split at h
    · exact htest h
    · exact htest h
    · exact refuses_of_bind h hoperand fun a h => refuses_of_bind_ok h hoperand
    · next negated subject values =>
      rw [Predicate.refusals]
      cases values with
      | nil =>
        cases h
        exact .inr List.mem_cons_self
      | cons v vs =>
        refine refuses_of_bind h (fun h => ?_) fun ws h => refuses_of_bind_ok h hoperand
        obtain ⟨w, hw, h⟩ := exists_of_mapM_eq_error h
        exact .inr (List.mem_flatMap.mpr ⟨w, hw, mem_refusals_of_writableValue h⟩)
    · rw [Predicate.refusals, List.append_assoc]
      exact refuses_of_bind h hoperand fun a h =>
        refuses_of_bind h hoperand fun b h => refuses_of_bind_ok h hoperand
    · next negated subject pattern =>
      rw [Predicate.refusals, Pattern.refusals]
      split at h
      · next hlike =>
        cases h
        rw [hlike]
        exact .inr List.mem_cons_self
      · next text hlike =>
        rw [hlike]
        exact refuses_of_bind_ok h hoperand
    · exact refuses_of_bind_ok h (refuses_of_mapM fun _ => ih)
    · exact refuses_of_bind_ok h (refuses_of_mapM fun _ => ih)
    · exact htest h
    · exact refuses_of_bind_ok h ih

end Writing

end Expr

/-! ## Patterns -/

/-- No value is refused for a pattern. -/
theorem Value.pattern_notMem_refusals (source : String) (v : Value) :
    .pattern source ∉ v.refusals := by
  cases v with
  | number x =>
    rw [Value.refusals]
    split <;> simp
  | list _ | map _ => simp [Value.refusals]
  | _ => exact List.not_mem_nil

variable {source : String}

mutual

/-- Nor is an operand, if the patterns inside it are those of wildcard texts. One that is itself a
pattern has another error, that of a value without a literal. -/
theorem Operand.pattern_notMem_refusals : (o : Operand) →
    (∀ pattern ∈ o.patterns, pattern.IsWildcard) → .pattern source ∉ o.refusals
  | .constant v, _ => v.pattern_notMem_refusals source
  | .field named, _ => by
    rw [Operand.refusals]
    split <;> simp
  | .pattern _, _ => by simp [Operand.refusals]
  | .decision p, h => p.pattern_notMem_refusals h

/-- The patterns of wildcard texts are no reason to refuse a predicate: each is turned back into its
text. -/
theorem Predicate.pattern_notMem_refusals : (p : Predicate) →
    (∀ pattern ∈ p.patterns, pattern.IsWildcard) → .pattern source ∉ p.refusals
  | .comparison _ left right, h => by
    obtain ⟨hleft, hright⟩ := List.forall_mem_append.mp h
    rw [Predicate.refusals, List.mem_append]
    exact not_or.mpr ⟨left.pattern_notMem_refusals hleft, right.pattern_notMem_refusals hright⟩
  | .member negated subject values, h => by
    have hvalues : .pattern source ∉ values.flatMap Value.refusals := by
      intro hmem
      obtain ⟨v, _, hv⟩ := List.mem_flatMap.mp hmem
      exact v.pattern_notMem_refusals source hv
    rw [Predicate.refusals, List.mem_append, List.mem_append]
    refine not_or.mpr ⟨not_or.mpr ⟨?_, hvalues⟩, subject.pattern_notMem_refusals h⟩
    split <;> simp
  | .between subject low high, h => by
    obtain ⟨hsubject, hbounds⟩ := List.forall_mem_append.mp h
    obtain ⟨hlow, hhigh⟩ := List.forall_mem_append.mp hbounds
    rw [Predicate.refusals, List.mem_append, List.mem_append]
    exact not_or.mpr ⟨not_or.mpr ⟨subject.pattern_notMem_refusals hsubject,
      low.pattern_notMem_refusals hlow⟩, high.pattern_notMem_refusals hhigh⟩
  | .matching _ subject pattern, h => by
    obtain ⟨hsubject, hpattern⟩ := List.forall_mem_append.mp h
    obtain ⟨like, hlike⟩ := List.forall_mem_singleton.mp hpattern
    rw [Predicate.refusals, Pattern.refusals, hlike, Like.ofRegex?_toRegex]
    exact subject.pattern_notMem_refusals hsubject
  | .all first rest, h | .any first rest, h => by
    obtain ⟨hfirst, hrest⟩ := List.forall_mem_append.mp h
    rw [Predicate.refusals, List.mem_append]
    exact not_or.mpr ⟨first.pattern_notMem_refusals hfirst,
      Predicate.pattern_notMem_refusalsEach rest hrest⟩
  | .not p, h => p.pattern_notMem_refusals h

/-- The same of the operands of a chain. -/
theorem Predicate.pattern_notMem_refusalsEach : (ps : List Predicate) →
    (∀ pattern ∈ Predicate.patternsEach ps, pattern.IsWildcard) →
    .pattern source ∉ Predicate.refusalsEach ps
  | [], _ => List.not_mem_nil
  | p :: rest, h => by
    obtain ⟨hp, hrest⟩ := List.forall_mem_append.mp h
    rw [Predicate.refusalsEach, List.mem_append]
    exact not_or.mpr ⟨p.pattern_notMem_refusals hp,
      Predicate.pattern_notMem_refusalsEach rest hrest⟩

end

/-- **A predicate whose patterns are those of wildcard texts is never refused for a pattern**, under
whatever limit it is written. -/
theorem Predicate.toText_ne_pattern {p : Predicate} (h : ∀ pattern ∈ p.patterns, pattern.IsWildcard)
    (limit : Nat) (source : String) : p.toText limit ≠ .error (.pattern source) := by
  intro herror
  rcases Expr.refuses_of_written (map_eq_error.mp herror) with hdeep | hmem
  · cases hdeep
  · exact p.pattern_notMem_refusals h hmem

/-! ## Wildcard texts -/

/-- A compiled `LIKE` is a match with the pattern of its wildcard text. -/
theorem Expr.source_of_ofExpr_like {resolve : Resolver} {limit : Nat} {subject : Expr}
    {text : String} {negated : Bool} {p : Predicate}
    (h : Predicate.ofExpr resolve limit (.like subject text negated) = .ok p) :
    ∃ operand pattern, p = .matching negated operand pattern ∧
      pattern.source = Like.toRegex text := by
  cases limit with
  | zero => cases h
  | succ room =>
    cases condition_succ_eq_ok.mp h with
    | like _ _ hpattern => exact ⟨_, _, rfl, Pattern.source_of_ofText? hpattern⟩

/-- **Nothing of a wildcard text is lost in its expression.** Turning the expression back gives the
same text, so different texts have different expressions, a condition that is compiled holds the one
of its text, and no compiled predicate is refused for a pattern when it is written. -/
theorem Like.toRegex_reversible :
    (∀ like : String, Like.ofRegex? (Like.toRegex like) = some like) ∧
    Function.Injective Like.toRegex ∧
    ∀ (resolve : Resolver) (limit : Nat),
      (∀ (subject : Expr) (text : String) (negated : Bool) (p : Predicate),
        Predicate.ofExpr resolve limit (.like subject text negated) = .ok p →
        ∃ operand pattern, p = .matching negated operand pattern ∧
          pattern.source = Like.toRegex text) ∧
      ∀ (e : Expr) (p : Predicate), Predicate.ofExpr resolve limit e = .ok p →
        ∀ (limit' : Nat) (source : String), p.toText limit' ≠ .error (.pattern source) := by
  refine ⟨Like.ofRegex?_toRegex, fun text text' h => ?_, fun resolve limit => ⟨?_, ?_⟩⟩
  · have htext := Like.ofRegex?_toRegex text
    rw [h, Like.ofRegex?_toRegex] at htext
    exact (Option.some.inj htext).symm
  · intro subject text negated p h
    exact Expr.source_of_ofExpr_like h
  · intro e p h limit' source
    exact Predicate.toText_ne_pattern (Expr.patterns_of_condition h) limit' source

/-- A text with backslashes before wildcards and with characters that mean something in an expression,
and a compiled condition that there is no room to write: it is not refused for its pattern. -/
theorem Like.toRegex_reversible_mixed :
    Like.ofRegex? (Like.toRegex "\\\\_%\\%(_.*") = some "\\\\_%\\%(_.*" ∧
      Like.toRegex "\\_" ≠ Like.toRegex "_" ∧
      ∃ p, Predicate.ofExpr FieldPolicy.any.resolve 1 (.like (.field "d") "5_" true) = .ok p ∧
        (∃ operand pattern, p = .matching true operand pattern ∧
          pattern.source = Like.toRegex "5_") ∧
        p.toText 0 ≠ .error (.pattern (Like.toRegex "5_")) := by
  obtain ⟨hback, hinjective, hcompiled⟩ := Like.toRegex_reversible
  have hpattern : Pattern.ofText? (Like.toRegex "5_") = some .fiveAndOne :=
    Pattern.ofText?_source .fiveAndOne
  have compiles : Predicate.ofExpr FieldPolicy.any.resolve 1 (.like (.field "d") "5_" true) =
      .ok (.matching true (.field ⟨"d", by decide⟩) .fiveAndOne) :=
    Expr.condition_succ_eq_ok.mpr (.like true (.field rfl) hpattern)
  obtain ⟨hlike, hwritten⟩ := hcompiled FieldPolicy.any.resolve 1
  exact ⟨hback _, hinjective.ne (by decide), _, compiles, hlike _ _ _ _ compiles,
    hwritten _ _ compiles 0 _⟩

end WhereRules
