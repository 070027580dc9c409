import Mathlib.Algebra.Order.Ring.Int
import WhereRules.Proofs.Spelling.Double

/-!
# Rounding crosses no double

A ratio is rounded to the nearest magnitude, so no magnitude lies between the two
(`Magnitude.nearest?_le`, `Magnitude.le_nearest?`): what is at most some magnitude is rounded to at
most that one, what is at least some magnitude to at least that one, and a magnitude is rounded to
itself. For whole numbers under a sign this is said of places on the line (`Double.ofInt_sides`). Of
two ratios the larger one is rounded to no smaller magnitude (`Magnitude.nearest?_mono`), and so with
whole numbers (`Double.rank?_ofInt_mono`). A whole number of 64 bits is rounded to a finite double
(`Double.isFinite_ofInt`).
-/

namespace WhereRules

/-- What is at most a whole number of steps is rounded to at most that many. -/
theorem roundHalfEven_le {n d q : Nat} (h : n ≤ q * d) : roundHalfEven n d ≤ q := by
  have hquot : n / d ≤ q := Nat.div_le_of_le_mul (Nat.mul_comm q d ▸ h)
  unfold roundHalfEven
  dsimp only
  split
  · exact hquot
  · next hup =>
    -- At `q` itself nothing would be left over, and the rounding would go down.
    refine Nat.lt_of_le_of_ne hquot fun heq => hup ?_
    have hsplit := Nat.div_add_mod n d
    rw [heq, Nat.mul_comm] at hsplit
    have hrest : n % d = 0 := by omega
    rw [hrest, heq]
    rcases Nat.eq_zero_or_pos d with rfl | hd
    · rw [Nat.div_zero] at heq
      subst heq
      exact .inr ⟨rfl, rfl⟩
    · exact .inl hd

/-- What is at least a whole number of steps is rounded to at least that many. -/
theorem le_roundHalfEven {n d q : Nat} (hd : 0 < d) (h : q * d ≤ n) : q ≤ roundHalfEven n d := by
  have hquot : q ≤ n / d := (Nat.le_div_iff_mul_le hd).mpr h
  unfold roundHalfEven
  dsimp only
  split
  · exact hquot
  · exact Nat.le_succ_of_le hquot

/-- Rounding to steps keeps the order of what is rounded. Where the quotients differ, only the
smaller one may go up; where they are the same, the larger number leaves no less over. -/
theorem roundHalfEven_mono {n m d : Nat} (h : n ≤ m) : roundHalfEven n d ≤ roundHalfEven m d := by
  have hquot : n / d ≤ m / d := Nat.div_le_div_right h
  have hn := Nat.div_add_mod n d
  have hm := Nat.div_add_mod m d
  unfold roundHalfEven
  dsimp only
  rcases Nat.lt_or_eq_of_le hquot with hlt | heq
  · -- Only the smaller one may go up, and not beyond the quotient of the other.
    split <;> split <;> omega
  · -- With one quotient the larger one leaves no less over.
    rw [heq] at hn ⊢
    have hrest : n % d ≤ m % d := by omega
    split <;> split <;> omega

namespace Magnitude

/-! ## What a ratio is rounded to -/

section Nearest

variable {n d : Nat}

/-- The exponent of the magnitudes around a ratio: how many binary digits the steps between them are
above the smallest one. -/
def exponentOf (n d : Nat) : Nat := exponentFor (n * unitsPerOne / d)

/-- The significand that a ratio is rounded to. -/
def significandOf (n d : Nat) : Nat :=
  roundHalfEven (n * unitsPerOne) (d * Nat.pow 2 (exponentOf n d))

/-- Rounding in terms of the exponent and the significand. Where the significand has grown by a
digit, the pair is that of the next power of two. -/
theorem nearest?_eq (n d : Nat) : nearest? n d =
    if significandOf n d = Nat.pow 2 53 then ofPair? (Nat.pow 2 52) (exponentOf n d + 1)
    else ofPair? (significandOf n d) (exponentOf n d) := rfl

/-- A larger ratio has no smaller exponent, so the steps that it is rounded to are no finer. -/
theorem exponentOf_mono {m : Nat} (h : n ≤ m) : exponentOf n d ≤ exponentOf m d := by
  have hscaled : n * unitsPerOne / d ≤ m * unitsPerOne / d :=
    Nat.div_le_div_right (Nat.mul_le_mul_right _ h)
  unfold exponentOf exponentFor
  generalize n * unitsPerOne / d = small at hscaled ⊢
  generalize m * unitsPerOne / d = large at hscaled ⊢
  refine Nat.sub_le_sub_right ?_ 52
  rcases Nat.eq_zero_or_pos small with rfl | hpos
  · exact Nat.zero_le _
  · have hne : large ≠ 0 := by omega
    exact (Nat.le_log2 hne).mpr (Nat.le_trans (Nat.log2_self_le (Nat.ne_of_gt hpos)) hscaled)

/-- A ratio has at most 53 binary digits before the point at its exponent. -/
theorem scaled_lt (hd : 0 < d) : n * unitsPerOne < Nat.pow 2 (53 + exponentOf n d) * d := by
  rw [← Nat.div_lt_iff_lt_mul hd, exponentOf]
  generalize n * unitsPerOne / d = units
  rw [exponentFor]
  refine Nat.lt_of_lt_of_le Nat.lt_log2_self (Nat.pow_le_pow_right (by decide) ?_)
  omega

/-- It has no fewer, unless its exponent is the smallest one. -/
theorem le_scaled (hd : 0 < d) (h : 0 < exponentOf n d) :
    Nat.pow 2 (52 + exponentOf n d) * d ≤ n * unitsPerOne := by
  rw [← Nat.le_div_iff_mul_le hd]
  rw [exponentOf] at h ⊢
  generalize n * unitsPerOne / d = units at h ⊢
  rw [exponentFor] at h ⊢
  have hne : units ≠ 0 := by
    rintro rfl
    exact absurd h (by decide)
  have hlog : 52 + (units.log2 - 52) = units.log2 := by omega
  rw [hlog]
  exact Nat.log2_self_le hne

/-- Units below a power of two have an exponent below it as well, by the 52 digits behind the
first. -/
theorem exponentFor_le {units p : Nat} (h : units < Nat.pow 2 p) : exponentFor units ≤ p - 52 := by
  by_cases hzero : units = 0
  · subst hzero
    exact Nat.zero_le _
  · have hlog := (Nat.log2_lt hzero).mpr h
    rw [exponentFor]
    omega

theorem mul_step (q d e : Nat) : q * (d * Nat.pow 2 e) = q * Nat.pow 2 e * d := by
  rw [Nat.mul_comm d, Nat.mul_assoc]

/-- A pair that is a magnitude comes to its significand in steps of its exponent. -/
theorem units_of_ofPair? {significand exponent : Nat} {m : Magnitude}
    (h : ofPair? significand exponent = some m) : m.units = significand * Nat.pow 2 exponent := by
  unfold ofPair? at h
  split at h
  · cases h
    rfl
  · cases h

/-- Rounding up to one more digit changes the pair and not the value. So what a ratio is rounded to
is always its significand in steps of its exponent. -/
theorem units_nearest? {m : Magnitude} (h : nearest? n d = some m) :
    m.units = significandOf n d * Nat.pow 2 (exponentOf n d) := by
  rw [nearest?_eq] at h
  split at h
  · next hcarry =>
    have hpow : ∀ e, Nat.pow 2 52 * Nat.pow 2 (e + 1) = Nat.pow 2 53 * Nat.pow 2 e := by
      intro e
      simp only [Nat.pow_eq, ← Nat.pow_add]
      congr 1
      omega
    rw [units_of_ofPair? h, hcarry, hpow]
  · exact units_of_ofPair? h

/-- A magnitude of no smaller exponent is a whole number of steps, so rounding to steps does not
cross it. -/
theorem units_eq_mul {m : Magnitude} {e : Nat} (h : e ≤ m.exponent) :
    m.units = m.significand * Nat.pow 2 (m.exponent - e) * Nat.pow 2 e := by
  have hpow : Nat.pow 2 (m.exponent - e) * Nat.pow 2 e = Nat.pow 2 m.exponent := by
    simp only [Nat.pow_eq, ← Nat.pow_add, Nat.sub_add_cancel h]
  rw [Nat.mul_assoc, hpow, units]

/-- A magnitude of a smaller exponent is below all that have the exponent, and so it is on the same
side of the ratio as of all it can be rounded to. -/
theorem units_lt {m : Magnitude} {e : Nat} (h : m.exponent < e) :
    m.units < Nat.pow 2 (52 + e) := by
  have hlt : m.units < Nat.pow 2 53 * Nat.pow 2 m.exponent :=
    Nat.mul_lt_mul_of_pos_right m.significand_lt (Nat.two_pow_pos _)
  have hpow : Nat.pow 2 53 * Nat.pow 2 m.exponent = Nat.pow 2 (53 + m.exponent) :=
    (Nat.pow_add 2 53 _).symm
  rw [hpow] at hlt
  exact Nat.lt_of_lt_of_le hlt (Nat.pow_le_pow_right (by decide) (by omega))

/-- **A ratio that is at most a magnitude is rounded to at most that magnitude.** Either the
magnitude is a whole number of the steps that are rounded to, or it would be below the ratio. -/
theorem nearest?_le (hd : 0 < d) {k m : Magnitude} (hk : nearest? n d = some k)
    (h : n * unitsPerOne ≤ m.units * d) : k.units ≤ m.units := by
  rw [units_nearest? hk]
  by_cases hexp : exponentOf n d ≤ m.exponent
  · rw [units_eq_mul hexp, ← mul_step] at h
    rw [units_eq_mul hexp]
    exact Nat.mul_le_mul_right _ (roundHalfEven_le h)
  · -- The magnitude would be below all that have the exponent, and the ratio is not.
    have hlt : m.exponent < exponentOf n d := Nat.lt_of_not_le hexp
    have hleast := le_scaled hd (Nat.zero_lt_of_lt hlt)
    have hle := Nat.le_of_mul_le_mul_right (Nat.le_trans hleast h) hd
    exact absurd hle (Nat.not_le_of_lt (units_lt hlt))

/-- **A ratio that is at least a magnitude is rounded to at least that magnitude**, for the same
reason. -/
theorem le_nearest? (hd : 0 < d) {k m : Magnitude} (hk : nearest? n d = some k)
    (h : m.units * d ≤ n * unitsPerOne) : m.units ≤ k.units := by
  have hstep : 0 < d * Nat.pow 2 (exponentOf n d) := Nat.mul_pos hd (Nat.two_pow_pos _)
  rw [units_nearest? hk]
  by_cases hexp : exponentOf n d ≤ m.exponent
  · rw [units_eq_mul hexp, ← mul_step] at h
    rw [units_eq_mul hexp]
    exact Nat.mul_le_mul_right _ (le_roundHalfEven hstep h)
  · have hlt : m.exponent < exponentOf n d := Nat.lt_of_not_le hexp
    have hleast := le_scaled hd (Nat.zero_lt_of_lt hlt)
    have hpow : Nat.pow 2 (52 + exponentOf n d) = Nat.pow 2 52 * Nat.pow 2 (exponentOf n d) :=
      Nat.pow_add 2 52 _
    have hsmall := Nat.le_of_lt (units_lt hlt)
    rw [hpow] at hleast hsmall
    rw [← mul_step] at hleast
    exact Nat.le_trans hsmall (Nat.mul_le_mul_right _ (le_roundHalfEven hstep hleast))

/-- A significand has at most 53 digits, or is the next power of two. -/
theorem significandOf_le (hd : 0 < d) : significandOf n d ≤ Nat.pow 2 53 := by
  have hlt := scaled_lt (n := n) hd
  have hpow : Nat.pow 2 (53 + exponentOf n d) = Nat.pow 2 53 * Nat.pow 2 (exponentOf n d) :=
    Nat.pow_add 2 53 _
  rw [hpow, ← mul_step] at hlt
  exact roundHalfEven_le (Nat.le_of_lt hlt)

/-- It has all 53 digits, unless the exponent is the smallest one. -/
theorem le_significandOf (hd : 0 < d) (h : 0 < exponentOf n d) :
    Nat.pow 2 52 ≤ significandOf n d := by
  have hleast := le_scaled hd h
  have hpow : Nat.pow 2 (52 + exponentOf n d) = Nat.pow 2 52 * Nat.pow 2 (exponentOf n d) :=
    Nat.pow_add 2 52 _
  rw [hpow, ← mul_step] at hleast
  exact le_roundHalfEven (Nat.mul_pos hd (Nat.two_pow_pos _)) hleast

/-- Only beyond the largest exponent there is no magnitude to round to: the significand of a ratio
always has the digits that its exponent asks for. -/
theorem exists_nearest? (hd : 0 < d) (h : exponentOf n d < 2045) :
    ∃ m, nearest? n d = some m := by
  rw [nearest?_eq]
  split
  · exact ⟨_, dif_pos ⟨by decide, h, .inr (Nat.le_refl _)⟩⟩
  · next hne =>
    exact ⟨_, dif_pos ⟨Nat.lt_of_le_of_ne (significandOf_le hd) hne, Nat.le_of_lt h,
      (Nat.eq_zero_or_pos _).imp_right (le_significandOf hd)⟩⟩

/-- **A larger ratio is rounded to no smaller magnitude.** Under one exponent the significands are
in order; a larger exponent leaves the magnitudes of the smaller one behind. -/
theorem nearest?_mono {m : Nat} (hd : 0 < d) (h : n ≤ m) {k l : Magnitude}
    (hk : nearest? n d = some k) (hl : nearest? m d = some l) : k.units ≤ l.units := by
  rw [units_nearest? hk, units_nearest? hl]
  rcases Nat.lt_or_eq_of_le (exponentOf_mono (d := d) h) with hlt | heq
  · -- What has a smaller exponent stays below all that has the larger one.
    have hpow : Nat.pow 2 53 * Nat.pow 2 (exponentOf n d) ≤
        Nat.pow 2 52 * Nat.pow 2 (exponentOf m d) := by
      simp only [Nat.pow_eq, ← Nat.pow_add]
      exact Nat.pow_le_pow_right (by decide) (by omega)
    calc significandOf n d * Nat.pow 2 (exponentOf n d)
      _ ≤ Nat.pow 2 53 * Nat.pow 2 (exponentOf n d) :=
        Nat.mul_le_mul_right _ (significandOf_le hd)
      _ ≤ Nat.pow 2 52 * Nat.pow 2 (exponentOf m d) := hpow
      _ ≤ significandOf m d * Nat.pow 2 (exponentOf m d) :=
        Nat.mul_le_mul_right _ (le_significandOf hd (Nat.zero_lt_of_lt hlt))
  · rw [heq]
    refine Nat.mul_le_mul_right _ ?_
    rw [significandOf, significandOf, heq]
    exact roundHalfEven_mono (Nat.mul_le_mul_right _ h)

end Nearest

end Magnitude

/-! ## Whole numbers -/

namespace Double

/-- Counts under a sign keep to the same side of a place, if they do without the sign. Signs turn
the order around, and with different signs it is that of the signs. -/
theorem signed_sides {a k m : Nat} (hle : a ≤ m → k ≤ m) (hge : m ≤ a → m ≤ k)
    (negative below : Bool) :
    (signed negative a ≤ signed below m → signed negative k ≤ signed below m) ∧
      (signed below m ≤ signed negative a → signed below m ≤ signed negative k) := by
  cases negative <;> cases below <;>
    simp only [signed, if_true, Bool.false_eq_true, if_false] <;> omega

/-- The place of a whole number is its size in units, under its sign. -/
theorem mul_unitsPerOne (n : Int) :
    n * Magnitude.unitsPerOne = signed (n < 0) (n.natAbs * Magnitude.unitsPerOne) := by
  by_cases hneg : n < 0
  · have habs : n = -n.natAbs := by omega
    rw [signed, decide_eq_true hneg, if_pos rfl, Int.natCast_mul, ← Int.neg_mul, ← habs]
  · have habs : n = n.natAbs := by omega
    rw [signed, decide_eq_false hneg, if_neg Bool.false_ne_true, Int.natCast_mul, ← habs]

/-- A whole number that is rounded to a finite double is rounded as its size is, and keeps its
sign. -/
theorem ofInt_eq_finite {n : Int} {negative : Bool} {k : Magnitude}
    (h : ofInt n = finite negative k) :
    negative = decide (n < 0) ∧ Magnitude.nearest? n.natAbs 1 = some k := by
  rw [ofInt, ofRatio] at h
  cases hk : Magnitude.nearest? n.natAbs 1 with
  | none =>
    rw [hk] at h
    cases h
  | some m =>
    rw [hk, ofMagnitude?] at h
    obtain ⟨hneg, rfl⟩ := Double.finite.inj h
    exact ⟨hneg.symm, rfl⟩

/-- **No finite double lies between a whole number and what it is rounded to.** This is all that the
comparison of whole numbers with doubles rests on. -/
theorem ofInt_sides {n r s : Int} {x : Double} (hx : x.isFinite = true) (hs : x.rank? = some s)
    (hfinite : (ofInt n).isFinite = true) (hr : (ofInt n).rank? = some r) :
    (n * Magnitude.unitsPerOne ≤ s → r ≤ s) ∧ (s ≤ n * Magnitude.unitsPerOne → s ≤ r) := by
  cases hn : ofInt n with
  | nan | infinity _ =>
    rw [hn] at hfinite
    cases hfinite
  | finite negative k =>
    cases x with
    | nan | infinity _ => cases hx
    | finite below m =>
      obtain ⟨rfl, hk⟩ := ofInt_eq_finite hn
      rw [hn] at hr
      cases hr
      cases hs
      rw [mul_unitsPerOne]
      refine signed_sides (fun hle => ?_) (fun hge => ?_) _ _
      · exact Magnitude.nearest?_le Nat.one_pos hk (by rw [Nat.mul_one]; exact hle)
      · exact Magnitude.le_nearest? Nat.one_pos hk (by rw [Nat.mul_one]; exact hge)

/-- A double that stands where a whole number does is what the number is rounded to, since otherwise
it would lie between the two. -/
theorem rank?_ofInt_of_place {n r : Int} {x : Double} (hx : x.isFinite = true)
    (hplace : x.rank? = some (n * Magnitude.unitsPerOne)) (hfinite : (ofInt n).isFinite = true)
    (hr : (ofInt n).rank? = some r) : r = n * Magnitude.unitsPerOne := by
  obtain ⟨hle, hge⟩ := ofInt_sides hx hplace hfinite hr
  exact Int.le_antisymm (hle (Int.le_refl _)) (hge (Int.le_refl _))

/-- **A larger whole number is rounded to no smaller double.** The signs are taken apart first;
among numbers of one sign it is the rounding of magnitudes. -/
theorem rank?_ofInt_mono {m n p q : Int} (h : m ≤ n) (hm : (ofInt m).isFinite = true)
    (hn : (ofInt n).isFinite = true) (hp : (ofInt m).rank? = some p)
    (hq : (ofInt n).rank? = some q) : p ≤ q := by
  cases hofm : ofInt m with
  | nan | infinity _ =>
    rw [hofm] at hm
    cases hm
  | finite negative k =>
    cases hofn : ofInt n with
    | nan | infinity _ =>
      rw [hofn] at hn
      cases hn
    | finite below l =>
      obtain ⟨rfl, hk⟩ := ofInt_eq_finite hofm
      obtain ⟨rfl, hl⟩ := ofInt_eq_finite hofn
      rw [hofm] at hp
      rw [hofn] at hq
      cases hp
      cases hq
      by_cases hneg : n < 0
      · -- both below zero, where the larger one has the smaller magnitude
        have hunits := Magnitude.nearest?_mono Nat.one_pos (by omega : n.natAbs ≤ m.natAbs) hl hk
        rw [decide_eq_true hneg, decide_eq_true (by omega), signed, signed, if_pos rfl, if_pos rfl]
        omega
      · rw [decide_eq_false hneg, signed, signed, if_neg Bool.false_ne_true]
        by_cases hneg' : m < 0
        · rw [decide_eq_true hneg', if_pos rfl]
          omega
        · have hunits :=
            Magnitude.nearest?_mono Nat.one_pos (by omega : m.natAbs ≤ n.natAbs) hk hl
          rw [decide_eq_false hneg', if_neg Bool.false_ne_true]
          omega

/-- **A whole number of 64 bits is rounded to a finite double**, since its exponent is far from the
largest. -/
theorem isFinite_ofInt {n : Int} (h : n.natAbs < Nat.pow 2 64) : (ofInt n).isFinite = true := by
  -- The power of the unit is kept as a variable: only its size matters.
  have hscale : ∀ p unit, 0 < unit → unit ≤ Nat.pow 2 p →
      Magnitude.exponentFor (n.natAbs * unit) ≤ 64 + p - 52 := by
    intro p unit hpos hunit
    refine Magnitude.exponentFor_le ?_
    have hpow : Nat.pow 2 (64 + p) = Nat.pow 2 64 * Nat.pow 2 p := Nat.pow_add 2 64 p
    rw [hpow]
    exact Nat.lt_of_lt_of_le (Nat.mul_lt_mul_of_pos_right h hpos) (Nat.mul_le_mul_left _ hunit)
  have hexponent : Magnitude.exponentOf n.natAbs 1 < 2045 := by
    rw [Magnitude.exponentOf, Nat.div_one]
    have hunit : Magnitude.unitsPerOne ≤ Nat.pow 2 1074 := by
      rw [Magnitude.unitsPerOne]
    exact Nat.lt_of_le_of_lt (hscale 1074 _ Magnitude.unitsPerOne_pos hunit) (by decide)
  obtain ⟨m, hm⟩ := Magnitude.exists_nearest? Nat.one_pos hexponent
  rw [ofInt, ofRatio, hm]
  rfl

end Double

end WhereRules
