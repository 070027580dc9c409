import WhereRules.Proofs.Compilation.Steps
import WhereRules.Proofs.Writing.Steps

/-!
# How deep a predicate nests

Writing needs as much room as the predicate is deep (`Predicate.depth`), and more room changes
nothing (`written_of_depth_le`). Compiling makes no predicate that is deeper than its room
(`depth_le_of_condition`), so what was compiled under a limit is written under it.
-/

namespace WhereRules

mutual

def Operand.depth : Operand → Nat
  | .decision p => p.depth
  | .constant _ | .field _ | .pattern _ => 0

/-- How many levels writing a predicate takes. A negated null test is one condition. -/
def Predicate.depth : Predicate → Nat
  | .comparison _ left right => max left.depth right.depth + 1
  | .member _ subject _ => subject.depth + 1
  | .between subject low high => max subject.depth (max low.depth high.depth) + 1
  | .matching _ subject _ => subject.depth + 1
  | .all first rest => max first.depth (Predicate.depthEach rest) + 1
  | .any first rest => max first.depth (Predicate.depthEach rest) + 1
  | .not p => if p.isNullTest then p.depth else p.depth + 1

/-- The depth of the deepest. -/
def Predicate.depthEach : List Predicate → Nat
  | [] => 0
  | p :: rest => max p.depth (Predicate.depthEach rest)

end

namespace Predicate

theorem depthEach_le {n : Nat} {ps : List Predicate} :
    depthEach ps ≤ n ↔ ∀ p ∈ ps, p.depth ≤ n := by
  induction ps with
  | nil => simp [depthEach]
  | cons p ps ih => rw [depthEach, Nat.max_le, ih, List.forall_mem_cons]

/-- A chain is one level deeper than the deepest of its operands, however many it has. Its text
nests deeper with each operand; its writing does not. -/
theorem depth_chain_le {c : Connective} (hc : c ≠ .not) {n : Nat} {first : Predicate}
    {rest : List Predicate} (h : ∀ p ∈ first :: rest, p.depth ≤ n) :
    (chain c first rest).depth ≤ n + 1 := by
  have hmax : max first.depth (depthEach rest) ≤ n := depthEach_le.mpr h
  cases c with
  | and => exact Nat.succ_le_succ hmax
  | or => exact Nat.succ_le_succ hmax
  | not => exact absurd rfl hc

/-- A null test is one level deeper than its subject, and so is a negated one: the negation and the
test are written as one condition. -/
theorem depth_isNull (subject : Operand) (negated : Bool) :
    (isNull subject negated).depth = subject.depth + 1 := by
  cases negated <;> simp [isNull, depth, Operand.depth, isNullTest]

theorem depth_pos (p : Predicate) : 0 < p.depth := by
  cases p with
  | not p =>
    rw [depth]
    split
    · next hnull =>
      obtain ⟨subject, rfl⟩ := exists_of_isNullTest hnull
      exact Nat.succ_pos _
    · exact Nat.succ_pos _
  | _ => exact Nat.succ_pos _

end Predicate

/-! ## Compiling -/

namespace Expr

variable {resolve : Resolver}

/-- An operand is no deeper than the condition that it may be, so it takes no level of its own. -/
theorem CompilesOperand.depth_le {inner : Expr → Predicate → Prop} {n : Nat}
    (hinner : ∀ e p, inner e p → p.depth ≤ n) {e : Expr} {o : Operand}
    (h : CompilesOperand resolve inner e o) : o.depth ≤ n := by
  cases h with
  | literal _ => exact Nat.zero_le n
  | field _ => exact Nat.zero_le n
  | decision _ hp => exact hinner _ _ hp

/-- One level of compiling adds one level of depth at most. A chain is one level however many
operands it has, and a negated null test is one though it is two predicates. -/
theorem Compiles.depth_le {inner : Expr → Predicate → Prop} {n : Nat}
    (hinner : ∀ e p, inner e p → p.depth ≤ n) {e : Expr} {p : Predicate}
    (h : Compiles resolve inner e p) : p.depth ≤ n + 1 := by
  cases h with
  | comparison _ ha hb =>
    exact Nat.succ_le_succ (Nat.max_le.mpr ⟨ha.depth_le hinner, hb.depth_le hinner⟩)
  | chain hc hps =>
    refine Predicate.depth_chain_le hc fun p hp => ?_
    obtain ⟨e, _, he⟩ := exists_of_forall₂_mem hps hp
    exact hinner e p he
  | negation hp =>
    have hle := hinner _ _ hp
    rw [Predicate.depth]
    split <;> omega
  | member _ _ ha => exact Nat.succ_le_succ (ha.depth_le hinner)
  | between ha hb hc =>
    exact Nat.succ_le_succ (Nat.max_le.mpr
      ⟨ha.depth_le hinner, Nat.max_le.mpr ⟨hb.depth_le hinner, hc.depth_le hinner⟩⟩)
  | like _ ha _ => exact Nat.succ_le_succ (ha.depth_le hinner)
  | isNull _ ha =>
    rw [Predicate.depth_isNull]
    exact Nat.succ_le_succ (ha.depth_le hinner)

/-- **No compiled predicate is deeper than the room it was compiled in.** The induction is on the
room: the compiler counts a level for each condition, and writing takes no more. -/
theorem depth_le_of_condition {limit room : Nat} {e : Expr} {p : Predicate}
    (h : condition resolve limit room e = .ok p) : p.depth ≤ room := by
  induction room generalizing e p with
  | zero => cases h
  | succ room ih => exact (condition_succ_eq_ok.mp h).depth_le fun _ _ => ih

end Expr

/-! ## Writing -/

namespace Predicate

variable {inner inner' : Predicate → Expr → Prop} {n : Nat}

/-- Writing an operand looks only at the condition that it may be, which is no deeper. -/
theorem WritesOperand.of_depth_le (hinner : ∀ p e, p.depth ≤ n → inner p e → inner' p e)
    {o : Operand} {e : Expr} (hdepth : o.depth ≤ n) (h : WritesOperand inner o e) :
    WritesOperand inner' o e := by
  cases h with
  | literal hv => exact .literal hv
  | field hname => exact .field hname
  | decision hp => exact .decision (hinner _ _ hdepth hp)

/-- Writing operands one by one looks only at the operands. -/
theorem forall₂_of_depth_le (hinner : ∀ p e, p.depth ≤ n → inner p e → inner' p e)
    {ps : List Predicate} {es : List Expr} (hdepth : ∀ p ∈ ps, p.depth ≤ n)
    (h : List.Forall₂ inner ps es) : List.Forall₂ inner' ps es := by
  induction h with
  | nil => exact .nil
  | cons hp _ ih =>
    obtain ⟨hfirst, hrest⟩ := List.forall_mem_cons.mp hdepth
    exact .cons (hinner _ _ hfirst hp) (ih hrest)

theorem depth_subject_le {relation : Relation} {subject right : Operand}
    (h : (comparison relation subject right).depth ≤ n + 1) : subject.depth ≤ n :=
  (Nat.max_le.mp (Nat.le_of_succ_le_succ h)).1

theorem depth_operands_le {first : Predicate} {rest : List Predicate}
    (h : max first.depth (depthEach rest) + 1 ≤ n + 1) : ∀ p ∈ first :: rest, p.depth ≤ n :=
  depthEach_le.mp (Nat.le_of_succ_le_succ h)

/-- One level of writing looks only at predicates that are less deep. One case for each form; a
negated null test has the subject of the test inside. -/
theorem Writes.of_depth_le (hinner : ∀ p e, p.depth ≤ n → inner p e → inner' p e)
    {p : Predicate} {e : Expr} (hdepth : p.depth ≤ n + 1) (h : Writes inner p e) :
    Writes inner' p e := by
  cases h with
  | isNull ha => exact .isNull (ha.of_depth_le hinner (depth_subject_le hdepth))
  | isNotNull ha => exact .isNotNull (ha.of_depth_le hinner (depth_subject_le hdepth))
  | notIsNull ha =>
    have htest : (Predicate.comparison .equal _ (.constant .null)).depth ≤ n + 1 := hdepth
    exact .notIsNull (ha.of_depth_le hinner (depth_subject_le htest))
  | comparison hnull ha hb =>
    obtain ⟨hleft, hright⟩ := Nat.max_le.mp (Nat.le_of_succ_le_succ hdepth)
    exact .comparison hnull (ha.of_depth_le hinner hleft) (hb.of_depth_le hinner hright)
  | member negated hne hvalues ha =>
    exact .member negated hne hvalues (ha.of_depth_le hinner (Nat.le_of_succ_le_succ hdepth))
  | between ha hb hc =>
    obtain ⟨hsubject, hbounds⟩ := Nat.max_le.mp (Nat.le_of_succ_le_succ hdepth)
    obtain ⟨hlow, hhigh⟩ := Nat.max_le.mp hbounds
    exact .between (ha.of_depth_le hinner hsubject) (hb.of_depth_le hinner hlow)
      (hc.of_depth_le hinner hhigh)
  | matching negated hlike ha =>
    exact .matching negated hlike (ha.of_depth_le hinner (Nat.le_of_succ_le_succ hdepth))
  | all h => exact .all (forall₂_of_depth_le hinner (depth_operands_le hdepth) h)
  | any h => exact .any (forall₂_of_depth_le hinner (depth_operands_le hdepth) h)
  | not hnull hp =>
    rw [depth, hnull, if_neg Bool.false_ne_true] at hdepth
    exact .not hnull (hinner _ _ (Nat.le_of_succ_le_succ hdepth) hp)

end Predicate

/-- **A predicate is written alike in any room that is no less than it is deep.** The limit, which
only names the error, may be another one too. -/
theorem Expr.written_of_depth_le {limit limit' room room' : Nat} {p : Predicate} {e : Expr}
    (h : written limit room p = .ok e) (hdepth : p.depth ≤ room') :
    written limit' room' p = .ok e := by
  -- Both rooms are used up together: one level of writing takes one level of depth.
  induction room generalizing room' p e with
  | zero => cases h
  | succ room ih =>
    cases room' with
    | zero => exact absurd hdepth (Nat.not_le_of_lt p.depth_pos)
    | succ room' =>
      exact written_succ_eq_ok.mpr
        ((written_succ_eq_ok.mp h).of_depth_le (fun _ _ hq hwritten => ih hwritten hq) hdepth)

end WhereRules
