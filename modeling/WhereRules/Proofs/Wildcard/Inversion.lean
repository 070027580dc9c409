import WhereRules.Proofs.Wildcard.Language

/-!
# From a regular expression back to its wildcard text

The expression of a wildcard text is turned back into that text (`ofRegex?_toRegex`): each wildcard,
each escaped wildcard and each other character is recognised by how it begins, for no other
character stands in an expression without a backslash.
-/

namespace WhereRules.Like

/-- What is escaped is no letter or digit, so the escape is read as the character. -/
theorem isAlphanum_of_isMeta {c : Char} (h : isMeta c = true) : c.isAlphanum = false := by
  rw [isMeta_iff] at h
  simp only [List.mem_cons, List.not_mem_nil, or_false] at h
  rcases h with rfl | rfl | rfl | rfl | rfl | rfl | rfl | rfl | rfl | rfl | rfl | rfl | rfl | rfl |
    rfl | rfl | rfl | rfl <;> decide

/-- A character that means nothing in an expression stands for itself. -/
theorem ofBody?_of_not_isMeta {c : Char} (h : isMeta c = false) (cs : List Char) :
    ofBody? (c :: cs) = (ofBody? cs).map (escaped c ++ ·) := by
  have hne : ∀ d, isMeta d = true → c ≠ d := by
    rintro d hd rfl
    rw [hd] at h
    cases h
  have hoperator : ¬isOperator c = true := by
    intro htrue
    exact hne c (isMeta_of_isOperator htrue) rfl
  rw [ofBody?, if_neg hoperator]
  · exact fun heq _ => hne '$' (by decide) heq
  · exact hne '$' (by decide)
  · exact fun heq _ => hne '\\' (by decide) heq
  · exact fun _ _ heq _ => hne '\\' (by decide) heq
  · exact fun _ heq _ => hne '.' (by decide) heq
  · exact hne '.' (by decide)

/-- A character of a wildcard text comes back as itself. -/
theorem ofBody?_literal (c : Char) (cs : List Char) :
    ofBody? (literal c ++ cs) = (ofBody? cs).map (escaped c ++ ·) := by
  unfold literal
  split
  · next hmeta =>
    rw [List.cons_append, List.singleton_append, ofBody?, isAlphanum_of_isMeta hmeta,
      if_neg Bool.false_ne_true]
  · next hmeta => exact ofBody?_of_not_isMeta (Bool.eq_false_iff.mpr hmeta) cs

/-- Part by part, the body of an expression is turned back into the wildcard text it was made of.
The recursion is that of making it. -/
theorem ofBody?_body (cs : List Char) : ofBody? (body cs ++ ['$']) = some cs := by
  fun_induction body cs with
  | case1 => rfl
  | case2 cs ih | case3 cs ih =>
    rw [List.cons_append, ofBody?_of_not_isMeta (by decide), ih]
    rfl
  | case4 cs ih =>
    rw [List.cons_append, List.cons_append, ofBody?, ih]
    rfl
  | case5 cs ih =>
    rw [List.cons_append, ofBody?, ih]
    · rfl
    · -- What begins with `*` has no wildcard text.
      intro rest hstar
      rw [hstar] at ih
      cases ih
  | case6 c cs h₁ h₂ hrun hone ih =>
    rw [List.append_assoc, ofBody?_literal, ih, escaped, if_neg (not_or.mpr ⟨hrun, hone⟩)]
    rfl

/-- **The expression of a wildcard text is turned back into it**, without a look at what it matches.
Two wildcard texts that match the same may have two expressions. -/
theorem ofRegex?_toRegex (like : String) : ofRegex? (toRegex like) = some like := by
  rw [ofRegex?, toRegex, String.toList_ofList]
  simp only [List.cons_append, ofBody?_body, Option.map_some, String.ofList_toList]

end WhereRules.Like
