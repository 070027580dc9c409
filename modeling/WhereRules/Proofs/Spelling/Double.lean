import Mathlib.Algebra.Order.Ring.Nat
import Mathlib.Tactic.Ring
import WhereRules.Double.Text
import WhereRules.Token.Basic

/-!
# Doubles read back as they were written

The text of a finite double is that double's: reading it rounds to the double that was written
(`Double.ofDigits_spelling`). Rounding looks at the value of a decimal only and not at how it is
split into numerator and denominator (`Magnitude.nearest?_congr`), every decimal that the search for
the shortest one accepts rounds to the magnitude searched for, and so does the exact expansion that
is left when it accepts none (`Magnitude.nearest?_shortest`). What remains is that laying the digits
out around a point keeps the value.
-/

namespace WhereRules

/-! ## Rounding depends on the value -/

/-- Rounding a ratio does not depend on how it is expanded. Quotient and remainder both scale, so
the remainder stands to half the divisor as it did. -/
theorem roundHalfEven_mul {k : Nat} (hk : 0 < k) (n d : Nat) :
    roundHalfEven (k * n) (k * d) = roundHalfEven n d := by
  have hquot : k * n / (k * d) = n / d := Nat.mul_div_mul_left n d hk
  have hrem : k * n % (k * d) = k * (n % d) := Nat.mul_mod_mul_left k n d
  have hlt : 2 * (k * (n % d)) < k * d ↔ 2 * (n % d) < d := by
    rw [Nat.mul_left_comm, Nat.mul_lt_mul_left hk]
  have heq : 2 * (k * (n % d)) = k * d ↔ 2 * (n % d) = d := by
    rw [Nat.mul_left_comm, Nat.mul_right_inj (Nat.ne_of_gt hk)]
  simp only [roundHalfEven, hquot, hrem, hlt, heq]

/-- A whole number is rounded to itself. -/
theorem roundHalfEven_mul_self {d : Nat} (hd : 0 < d) (n : Nat) : roundHalfEven (n * d) d = n := by
  have hlt : 2 * (n * d % d) < d := by
    rw [Nat.mul_mod_left, Nat.mul_zero]
    exact hd
  rw [roundHalfEven, if_pos (.inl hlt), Nat.mul_div_cancel n hd]

theorem Decimal.denominator_pos (d : Decimal) : 0 < d.denominator := Nat.pow_pos (by decide)

namespace Magnitude

/-- The nearest magnitude of a ratio does not depend on how the ratio is expanded, for it is found
by rounding and comparing alone. -/
theorem nearest?_mul {k : Nat} (hk : 0 < k) (n d : Nat) :
    nearest? (k * n) (k * d) = nearest? n d := by
  have hquot : k * n * unitsPerOne / (k * d) = n * unitsPerOne / d := by
    rw [Nat.mul_assoc, Nat.mul_div_mul_left _ _ hk]
  have hround : ∀ e, roundHalfEven (k * n * unitsPerOne) (k * d * e) =
      roundHalfEven (n * unitsPerOne) (d * e) := by
    intro e
    rw [Nat.mul_assoc, Nat.mul_assoc, roundHalfEven_mul hk]
  simp only [nearest?, hquot, hround]

/-- Two ratios of one value have one nearest magnitude, for each can be expanded by the denominator
of the other. -/
theorem nearest?_congr {n d n' d' : Nat} (hd : 0 < d) (hd' : 0 < d') (h : n * d' = n' * d) :
    nearest? n d = nearest? n' d' := by
  calc nearest? n d
      = nearest? (d' * n) (d' * d) := (nearest?_mul hd' n d).symm
    _ = nearest? (d * n') (d * d') := by
        rw [Nat.mul_comm d' n, h, Nat.mul_comm n' d, Nat.mul_comm d' d]
    _ = nearest? n' d' := nearest?_mul hd n' d'

/-! ## The search for the shortest decimal -/

theorem units_eq_zero_iff {m : Magnitude} : m.units = 0 ↔ m = zero := by
  constructor
  · intro hzero
    obtain ⟨significand, exponent, _, _, normal⟩ := m
    obtain rfl : significand = 0 := by
      rcases Nat.mul_eq_zero.mp hzero with hsig | hpow
      · exact hsig
      · exact absurd hpow (Nat.ne_of_gt (Nat.pow_pos (by decide)))
    obtain rfl : exponent = 0 := by
      rcases normal with hexp | hsig
      · exact hexp
      · exact absurd hsig (by decide)
    rfl
  · rintro rfl
    rfl

/-- The least exponent for the units of a magnitude is its own: its significand leaves 53 binary
digits before the point, or the exponent cannot be less. -/
theorem exponentFor_units (m : Magnitude) : exponentFor m.units = m.exponent := by
  obtain ⟨significand, exponent, hlt, _, normal⟩ := m
  simp only [exponentFor, units, Nat.pow_eq] at hlt normal ⊢
  rcases normal with rfl | hle
  · by_cases hzero : significand = 0
    · subst hzero
      rfl
    · have hlog : (significand * 2 ^ 0).log2 < 53 := by
        rw [Nat.pow_zero, Nat.mul_one]
        exact (Nat.log2_lt hzero).mpr hlt
      omega
  · have hne : significand * 2 ^ exponent ≠ 0 := by
      have hpos : 0 < 2 ^ exponent := Nat.pow_pos (by decide)
      exact Nat.mul_ne_zero (by omega) (Nat.ne_of_gt hpos)
    have hlog : (significand * 2 ^ exponent).log2 = 52 + exponent := by
      rw [Nat.log2_eq_iff hne, Nat.add_right_comm, Nat.pow_add, Nat.pow_add]
      exact ⟨Nat.mul_le_mul_right _ hle, Nat.mul_lt_mul_of_pos_right hlt (Nat.pow_pos (by decide))⟩
    rw [hlog]
    exact Nat.add_sub_cancel_left ..

theorem unitsPerOne_pos : 0 < unitsPerOne := by
  have hpos : ∀ n : Nat, 0 < Nat.pow 2 n := fun n => Nat.two_pow_pos n
  unfold unitsPerOne
  apply hpos

/-- A magnitude is nearest to its own value: at its own exponent its significand is whole and is
rounded to itself. -/
theorem nearest?_units (m : Magnitude) : nearest? m.units unitsPerOne = some m := by
  have hround : roundHalfEven (m.units * unitsPerOne) (unitsPerOne * Nat.pow 2 m.exponent) =
      m.significand := by
    rw [units, Nat.mul_assoc, Nat.mul_comm (Nat.pow 2 m.exponent) unitsPerOne]
    have hpos := Nat.mul_pos unitsPerOne_pos (Nat.two_pow_pos m.exponent)
    exact roundHalfEven_mul_self hpos m.significand
  simp only [nearest?, Nat.mul_div_cancel m.units unitsPerOne_pos, exponentFor_units, hround]
  rw [if_neg (Nat.ne_of_lt m.significand_lt), ofPair?,
    dif_pos ⟨m.significand_lt, m.exponent_le, m.normal⟩]

/-- What the search finds on a grid rounds to the magnitude that was searched for. The search asks
for that before it answers. -/
theorem nearest?_onGrid? {m : Magnitude} {tie : Tie} {exponent : Int} {d : Decimal}
    (h : m.onGrid? tie exponent = some d) : d.nearest? = some m := by
  unfold onGrid? at h
  simp only at h
  split at h
  · next hlow =>
    cases h
    exact hlow.1
  · split at h
    · next hhigh =>
      cases h
      exact hhigh
    · cases h

/-- The exact expansion of a magnitude has its value, and so rounds to it. -/
theorem nearest?_exactDecimal (m : Magnitude) : m.exactDecimal.nearest? = some m := by
  -- The two powers are kept as variables: nothing here depends on how large they are.
  have hscale : ∀ n u : Nat, u * Nat.pow 5 n * Nat.pow 10 0 * Nat.pow 2 n = u * Nat.pow 10 n := by
    intro n u
    simp only [Nat.pow_eq, Nat.pow_zero, Nat.mul_one]
    rw [Nat.mul_assoc, ← Nat.mul_pow]
  rw [← nearest?_units m]
  refine nearest?_congr ?_ unitsPerOne_pos ?_
  · exact Decimal.denominator_pos _
  · exact hscale 1074 m.units

/-- **The shortest decimal of a magnitude rounds to it**, be it one that the search accepted or the
exact expansion that is left when it accepts none. -/
theorem nearest?_shortest (m : Magnitude) (tie : Tie) : (m.shortest tie).nearest? = some m := by
  unfold shortest
  split
  · next hzero =>
    rw [units_eq_zero_iff.mp hzero]
    decide +kernel
  · cases hfound : (List.range 17).findSome?
        fun (i : Nat) => m.onGrid? tie (m.wholeDigits - (i + 1)) with
    | none => exact nearest?_exactDecimal m
    | some d =>
      obtain ⟨i, _, hi⟩ := List.exists_of_findSome?_eq_some hfound
      exact nearest?_onGrid? hi

end Magnitude

/-! ## Digits around a point -/

/-- Digits before and after a point that write a decimal. Neither side is empty, as a double in rule
text needs. -/
structure Decimal.Layout (d : Decimal) (whole fraction : List Char) : Prop where
  whole_ne : whole ≠ []
  fraction_ne : fraction ≠ []
  isDigit : ∀ c ∈ whole ++ fraction, c.isDigit
  value : Nat.ofDigitChars 10 (whole ++ fraction) 0 * d.denominator =
    d.numerator * Nat.pow 10 fraction.length

/-- The characters of `Token.pointed`. -/
def pointedChars (cs : List Char) : List Char := if '.' ∈ cs then cs else cs ++ ['.', '0']

/-- A number gets a point and a zero unless it has a point already. -/
theorem toList_pointed (cs : List Char) :
    (Token.pointed (String.ofList cs)).toList = pointedChars cs := by
  by_cases hpoint : '.' ∈ cs
  · simp [Token.pointed, pointedChars, hpoint]
  · simp [Token.pointed, pointedChars, hpoint]

/-- Zeros in front do not change a number. -/
theorem ofDigitChars_zeros_append (n : Nat) (cs : List Char) :
    Nat.ofDigitChars 10 (List.replicate n '0' ++ cs) 0 = Nat.ofDigitChars 10 cs 0 := by
  rw [Nat.ofDigitChars_append, Nat.ofDigitChars_replicate_zero, Nat.mul_zero]

theorem isDigit_of_mem_zeros {n : Nat} {c : Char} (h : c ∈ List.replicate n '0') : c.isDigit := by
  rw [List.eq_of_mem_replicate h]
  rfl

theorem isDigit_of_mem_toDigits {n : Nat} {c : Char} (h : c ∈ Nat.toDigits 10 n) : c.isDigit :=
  Nat.isDigit_of_mem_toDigits (by decide) (by decide) h

theorem point_notMem {cs : List Char} (h : ∀ c ∈ cs, c.isDigit) : '.' ∉ cs := by
  intro hmem
  exact absurd (h '.' hmem) (by decide)

namespace Decimal

/-- A whole number is its digits and zeros; the point comes after them. The zero behind the point is
there because a double in rule text needs a digit. -/
theorem exists_layout_of_nonneg {d : Decimal} (h : 0 ≤ d.exponent) :
    ∃ whole fraction, d.Layout whole fraction ∧
      pointedChars d.positional = whole ++ '.' :: fraction := by
  have hneg : (-d.exponent).toNat = 0 := by omega
  have hdigits : ∀ c ∈ Nat.toDigits 10 d.digits ++ List.replicate d.exponent.toNat '0',
      c.isDigit := by
    intro c hc
    exact (List.mem_append.mp hc).elim isDigit_of_mem_toDigits isDigit_of_mem_zeros
  refine ⟨Nat.toDigits 10 d.digits ++ List.replicate d.exponent.toNat '0', List.replicate 1 '0',
    ⟨by simp [Nat.toDigits_ne_nil], by simp, ?_, ?_⟩, ?_⟩
  · intro c hc
    exact (List.mem_append.mp hc).elim (hdigits c) isDigit_of_mem_zeros
  · rw [Nat.ofDigitChars_append, Nat.ofDigitChars_replicate_zero, Nat.ofDigitChars_append,
      Nat.ofDigitChars_replicate_zero, Nat.ofDigitChars_ten_toDigits, numerator, denominator, hneg]
    simp only [Nat.pow_eq, List.length_replicate]
    ring
  · unfold positional
    rw [if_pos h, pointedChars, if_neg (point_notMem hdigits)]
    rfl

/-- As many digits behind the point as the exponent takes off keep the value. -/
theorem value_of_neg {d : Decimal} (h : ¬0 ≤ d.exponent) {whole fraction : List Char}
    (hdigits : Nat.ofDigitChars 10 (whole ++ fraction) 0 = d.digits)
    (hlength : fraction.length = (-d.exponent).toNat) :
    Nat.ofDigitChars 10 (whole ++ fraction) 0 * d.denominator =
      d.numerator * Nat.pow 10 fraction.length := by
  have hpos : d.exponent.toNat = 0 := by omega
  rw [hdigits, hlength, numerator, denominator, hpos]
  simp only [Nat.pow_eq, Nat.pow_zero, Nat.mul_one]

/-- A number of one or more with digits below one has its point among them. Splitting the digits
does not change the number that they are together. -/
theorem exists_layout_of_long {d : Decimal} (h : ¬0 ≤ d.exponent)
    (hlong : (-d.exponent).toNat < (Nat.toDigits 10 d.digits).length) :
    ∃ whole fraction, d.Layout whole fraction ∧
      pointedChars d.positional = whole ++ '.' :: fraction := by
  refine ⟨(Nat.toDigits 10 d.digits).take ((Nat.toDigits 10 d.digits).length - (-d.exponent).toNat),
    (Nat.toDigits 10 d.digits).drop ((Nat.toDigits 10 d.digits).length - (-d.exponent).toNat),
    ⟨?_, ?_, ?_, value_of_neg h ?_ ?_⟩, ?_⟩
  · intro hnil
    have hlength := congrArg List.length hnil
    rw [List.length_take, List.length_nil] at hlength
    omega
  · intro hnil
    have hlength := congrArg List.length hnil
    rw [List.length_drop, List.length_nil] at hlength
    omega
  · intro c hc
    rw [List.take_append_drop] at hc
    exact isDigit_of_mem_toDigits hc
  · rw [List.take_append_drop, Nat.ofDigitChars_ten_toDigits]
  · rw [List.length_drop]
    omega
  · unfold positional
    rw [if_neg h]
    simp only [if_pos hlong, pointedChars]
    rw [if_pos (List.mem_append_right _ List.mem_cons_self)]

/-- A number below one has its point before all its digits, behind a zero. Zeros fill the places
between, and change nothing. -/
theorem exists_layout_of_short {d : Decimal} (h : ¬0 ≤ d.exponent)
    (hshort : ¬(-d.exponent).toNat < (Nat.toDigits 10 d.digits).length) :
    ∃ whole fraction, d.Layout whole fraction ∧
      pointedChars d.positional = whole ++ '.' :: fraction := by
  refine ⟨List.replicate 1 '0',
    List.replicate ((-d.exponent).toNat - (Nat.toDigits 10 d.digits).length) '0' ++
      Nat.toDigits 10 d.digits,
    ⟨by simp, by simp [Nat.toDigits_ne_nil], ?_, value_of_neg h ?_ ?_⟩, ?_⟩
  · intro c hc
    rcases List.mem_append.mp hc with hzero | hrest
    · exact isDigit_of_mem_zeros hzero
    · exact (List.mem_append.mp hrest).elim isDigit_of_mem_zeros isDigit_of_mem_toDigits
  · rw [ofDigitChars_zeros_append, ofDigitChars_zeros_append, Nat.ofDigitChars_ten_toDigits]
  · rw [List.length_append, List.length_replicate]
    omega
  · unfold positional
    rw [if_neg h]
    simp only [if_neg hshort, pointedChars, List.cons_append]
    rw [if_pos (List.mem_cons_of_mem _ List.mem_cons_self)]
    rfl

/-- However a decimal is laid out, its digits keep its value. The cases are those of the layout: no
digit behind the point, some, or all of them with zeros in front. -/
theorem exists_layout (d : Decimal) :
    ∃ whole fraction, d.Layout whole fraction ∧
      pointedChars d.positional = whole ++ '.' :: fraction := by
  by_cases h : 0 ≤ d.exponent
  · exact exists_layout_of_nonneg h
  · by_cases hlong : (-d.exponent).toNat < (Nat.toDigits 10 d.digits).length
    · exact exists_layout_of_long h hlong
    · exact exists_layout_of_short h hlong

/-- Reading digits around a point rounds the decimal that they write. -/
theorem Layout.nearest?_eq {d : Decimal} {whole fraction : List Char}
    (layout : d.Layout whole fraction) :
    Magnitude.nearest? (Nat.ofDigitChars 10 (whole ++ fraction) 0) (Nat.pow 10 fraction.length) =
      d.nearest? :=
  Magnitude.nearest?_congr (Nat.pow_pos (by decide)) d.denominator_pos layout.value

end Decimal

/-! ## The text of a double -/

/-- **A finite double reads back.** Its text is a sign, digits, a point and digits, and the digits
round to it. This is the only place where the spelling of doubles meets their rounding. -/
theorem Double.ofDigits_spelling (negative : Bool) (m : Magnitude) :
    ∃ whole fraction : List Char, whole ≠ [] ∧ fraction ≠ [] ∧
      (∀ c ∈ whole ++ fraction, c.isDigit) ∧
      (Token.number (.finite negative m)).spelling.toList =
        signText negative ++ (whole ++ '.' :: fraction) ∧
      Double.ofDigits negative whole fraction = .finite negative m := by
  obtain ⟨whole, fraction, layout, htext⟩ := (m.shortest .up).exists_layout
  refine ⟨whole, fraction, layout.whole_ne, layout.fraction_ne, layout.isDigit, ?_, ?_⟩
  · show (Token.pointed (String.ofList (signText negative ++ m.toText))).toList = _
    rw [toList_pointed, ← htext]
    have hsign : '.' ∉ signText negative := by
      cases negative <;> decide
    by_cases hpoint : '.' ∈ m.toText
    · rw [pointedChars, if_pos (List.mem_append_right _ hpoint)]
      exact congrArg _ (if_pos hpoint).symm
    · have hnone : '.' ∉ signText negative ++ m.toText := by
        simp only [List.mem_append, hsign, hpoint, or_self, not_false_eq_true]
      rw [pointedChars, if_neg hnone, List.append_assoc]
      exact congrArg _ (if_neg hpoint).symm
  · rw [ofDigits, ofRatio, layout.nearest?_eq, Magnitude.nearest?_shortest, ofMagnitude?]

end WhereRules
