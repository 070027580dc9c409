import Mathlib.Data.List.TakeWhile
import WhereRules.Json.Reader
import WhereRules.Json.Text
import WhereRules.Proofs.Spelling.Tokens
import WhereRules.Proofs.Success

/-!
# Numbers of a document read back

Reading a number goes no further than the number does (`ReadsAhead`), so what was read of a text that
ends with it is also read where the text goes on (`readsAhead_numberRest`).

A whole number in range reads back from its digits (`value_whole`). The text of a double always has a
fraction or an exponent (`exists_magnitude_eq_cons`), so what it reads as is a double and never a
whole number. Whether it is the same double is another matter (`reread?`): digits are gathered and
scaled, which does not find the nearest double everywhere. The largest double below one is read as one
(`reread?_belowOne`).
-/

namespace WhereRules.Json

/-! ## Runs of digits -/

/-- The digits that a text begins with, and what comes after them. There is at least one, and what
comes after them goes on with none. -/
structure IsRun (cs digits rest : List Char) : Prop where
  append : digits ++ rest = cs
  isDigit : ∀ c ∈ digits, c.isDigit = true
  stops : ∀ c ∈ rest.head?, c.isDigit = false
  ne_nil : digits ≠ []

/-- Digits before a text that does not begin with one are all the digits in front. -/
theorem takeWhile_run {ds rest : List Char} (hds : ∀ c ∈ ds, c.isDigit = true)
    (hrest : ∀ c ∈ rest.head?, c.isDigit = false) :
    (ds ++ rest).takeWhile Char.isDigit = ds ∧ (ds ++ rest).dropWhile Char.isDigit = rest := by
  have htake := Token.takeWhile_append hds hrest
  have hwhole := List.takeWhile_append_dropWhile (p := Char.isDigit) (l := ds ++ rest)
  rw [htake] at hwhole
  exact ⟨htake, List.append_cancel_left hwhole⟩

/-- A run begins with a digit and goes on as long as there are digits. -/
theorem isRun_cons_iff {c : Char} {cs digits rest : List Char} :
    IsRun (c :: cs) digits rest ↔ c.isDigit = true ∧
      digits = c :: cs.takeWhile Char.isDigit ∧ rest = cs.dropWhile Char.isDigit := by
  constructor
  · rintro ⟨happend, hdigits, hstops, hne⟩
    obtain ⟨d, ds, rfl⟩ := List.exists_cons_of_ne_nil hne
    rw [List.cons_append] at happend
    obtain ⟨rfl, rfl⟩ := List.cons.inj happend
    obtain ⟨hd, hds⟩ := List.forall_mem_cons.mp hdigits
    obtain ⟨htake, hdrop⟩ := takeWhile_run hds hstops
    exact ⟨hd, by rw [htake], hdrop.symm⟩
  · rintro ⟨hc, rfl, rfl⟩
    refine ⟨?_, List.forall_mem_cons.mpr ⟨hc, fun d hd => List.mem_takeWhile_imp hd⟩, ?_,
      List.cons_ne_nil _ _⟩
    · rw [List.cons_append, List.takeWhile_append_dropWhile]
    · intro d hd
      have hnot := List.head?_dropWhile_not Char.isDigit cs
      rw [Option.mem_def.mp hd] at hnot
      exact hnot

/-- What is read as digits is a run of them, which is as long as it can be and not empty. -/
theorem someDigits_eq_ok {care : Care} {cs digits rest : List Char} :
    someDigits care cs = .ok (digits, rest) ↔ IsRun cs digits rest := by
  cases cs with
  | nil =>
    refine iff_of_false (fun h => by cases h) fun h => h.ne_nil ?_
    exact (List.append_eq_nil_iff.mp h.append).1
  | cons c cs =>
    rw [someDigits, isRun_cons_iff]
    by_cases hc : c.isDigit = true
    · rw [if_pos hc, Except.ok.injEq, Prod.mk.injEq, and_iff_right hc, @eq_comm _ digits,
        @eq_comm _ rest]
    · rw [if_neg hc]
      exact iff_of_false (fun h => by cases h) fun h => hc h.1

theorem wholePart_of_ne_zero {care : Care} {c : Char} (h : c ≠ '0') (cs : List Char) :
    wholePart care (c :: cs) = someDigits care (c :: cs) := by
  rw [wholePart, someDigits]
  exact h

/-- A zero in front stands alone: with a digit behind it the number would be refused. Numbers are
written without such zeros, so this never stands in the way. -/
theorem wholePart_zero_eq_ok {care : Care} {cs digits rest : List Char} :
    wholePart care ('0' :: cs) = .ok (digits, rest) ↔
      (∀ c ∈ cs.head?, c.isDigit = false) ∧ digits = ['0'] ∧ rest = cs := by
  cases cs with
  | nil =>
    rw [wholePart, Except.ok.injEq, Prod.mk.injEq, @eq_comm _ digits, @eq_comm _ rest]
    exact (and_iff_right fun c hc => by cases hc).symm
  | cons c cs =>
    rw [wholePart]
    by_cases hc : c.isDigit = true
    · rw [if_pos hc]
      exact iff_of_false (fun h => by cases h) fun h => Bool.eq_false_iff.mp (h.1 c rfl) hc
    · rw [if_neg hc, Except.ok.injEq, Prod.mk.injEq, @eq_comm _ digits, @eq_comm _ rest]
      refine (and_iff_right fun d hd => ?_).symm
      obtain rfl := Option.some.inj hd
      exact Bool.eq_false_iff.mpr hc

/-- Digits before the point are a run of which only a lone zero starts with zero. In this form it
does not matter which way they were read. -/
theorem wholePart_eq_ok {care : Care} {cs digits rest : List Char} :
    wholePart care cs = .ok (digits, rest) ↔
      IsRun cs digits rest ∧ (digits.head? = some '0' → digits = ['0']) := by
  cases cs with
  | nil =>
    refine iff_of_false (fun h => by cases h) fun h => h.1.ne_nil ?_
    exact (List.append_eq_nil_iff.mp h.1.append).1
  | cons c cs =>
    by_cases hzero : c = '0'
    · subst hzero
      rw [wholePart_zero_eq_ok]
      constructor
      · rintro ⟨hstops, rfl, rfl⟩
        exact ⟨⟨rfl, fun c hc => by cases List.mem_singleton.mp hc; rfl, hstops,
          List.cons_ne_nil _ _⟩, fun _ => rfl⟩
      · rintro ⟨hrun, hlone⟩
        obtain ⟨_, rfl, rfl⟩ := isRun_cons_iff.mp hrun
        have hnil : cs.takeWhile Char.isDigit = [] := (List.cons.inj (hlone rfl)).2
        have hrest : cs.dropWhile Char.isDigit = cs := by
          have hwhole := List.takeWhile_append_dropWhile (p := Char.isDigit) (l := cs)
          rwa [hnil] at hwhole
        have hstops := hrun.stops
        rw [hrest] at hstops
        exact ⟨hstops, hlone rfl, hrest⟩
    · rw [wholePart_of_ne_zero hzero, someDigits_eq_ok]
      refine (and_iff_left_of_imp fun hrun hhead => ?_).symm
      obtain ⟨_, rfl, _⟩ := isRun_cons_iff.mp hrun
      exact absurd (Option.some.inj hhead) hzero

/-! ## Reading no further than a number -/

/-- What may follow a number: nothing that could go on with it. -/
def EndsNumber (after : List Char) : Prop :=
  ∀ c ∈ after.head?, c.isDigit = false ∧ c ≠ '.' ∧ c ≠ 'e' ∧ c ≠ 'E'

/-- What a reader reads of a text it also reads where a text comes after it that ends a number. The
rest of the text is then followed by what came after. -/
def ReadsAhead {α : Type} (reader : Reader α) : Prop :=
  ∀ {cs rest : List Char} {a : α}, reader cs = .ok (a, rest) →
    ∀ {after : List Char}, EndsNumber after → reader (cs ++ after) = .ok (a, rest ++ after)

/-- A run of digits stays one before text that ends a number. -/
theorem IsRun.ahead {cs digits rest after : List Char} (h : IsRun cs digits rest)
    (hafter : EndsNumber after) : IsRun (cs ++ after) digits (rest ++ after) where
  append := by rw [← List.append_assoc, h.append]
  isDigit := h.isDigit
  stops := by
    cases rest with
    | nil => exact fun c hc => (hafter c hc).1
    | cons d ds => exact h.stops
  ne_nil := h.ne_nil

section ReadsAhead

variable {care : Care}

/-- Reading digits goes no further than they do. -/
theorem readsAhead_someDigits : ReadsAhead (someDigits care) := by
  intro cs rest digits h after hafter
  exact someDigits_eq_ok.mpr ((someDigits_eq_ok.mp h).ahead hafter)

/-- Reading the digits before the point goes no further than they do, whatever text ends the number
behind them. -/
theorem readsAhead_wholePart : ReadsAhead (wholePart care) := by
  intro cs rest digits h after hafter
  obtain ⟨hrun, hlone⟩ := wholePart_eq_ok.mp h
  exact wholePart_eq_ok.mpr ⟨hrun.ahead hafter, hlone⟩

/-- What is made of what was read has no say in how far reading goes. -/
theorem ReadsAhead.map {α β : Type} {reader : Reader α} (h : ReadsAhead reader) (f : α → β) :
    ReadsAhead fun cs => (reader cs).map fun (a, rest) => (f a, rest) := by
  intro cs rest b hread after hafter
  obtain ⟨⟨a, rest'⟩, ha, heq⟩ := map_eq_ok.mp hread
  cases heq
  dsimp only
  rw [h ha hafter]
  rfl

/-- Without a point there is no fraction, and nothing is taken. -/
theorem fractionPart_of_ne {cs : List Char} (h : ∀ c ∈ cs.head?, c ≠ '.') :
    fractionPart care cs = .ok (none, cs) := by
  rw [fractionPart]
  rintro ds rfl
  exact h '.' rfl rfl

/-- Reading a fraction goes no further than it does. Where there is none, no point follows either.
-/
theorem readsAhead_fractionPart : ReadsAhead (fractionPart care) := by
  intro cs rest fraction h after hafter
  cases cs with
  | nil =>
    cases h
    exact fractionPart_of_ne fun c hc => (hafter c hc).2.1
  | cons c cs =>
    by_cases hpoint : c = '.'
    · subst hpoint
      exact readsAhead_someDigits.map some h hafter
    · have hne : ∀ ds, ∀ d ∈ (c :: ds).head?, d ≠ '.' := by
        rintro ds d hd rfl
        exact hpoint (Option.some.inj hd)
      rw [fractionPart_of_ne (hne cs)] at h
      cases h
      exact fractionPart_of_ne (hne _)

/-- Without its letter there is no exponent, and nothing is taken. -/
theorem exponentPart_of_ne {cs : List Char} (h : ∀ c ∈ cs.head?, c ≠ 'e' ∧ c ≠ 'E') :
    exponentPart care cs = .ok (none, cs) := by
  cases cs with
  | nil => rw [exponentPart]
  | cons c cs =>
    obtain ⟨hsmall, hlarge⟩ := h c rfl
    unfold exponentPart
    exact if_neg (not_or.mpr ⟨hsmall, hlarge⟩)

/-- A sign, if there is one, and digits: this is what stands behind the letter of an exponent. One
equation for both letters and for all three forms of the sign. -/
theorem exponentPart_of_mark {c : Char} (hmark : c = 'e' ∨ c = 'E') {d : Char} (ds : List Char) :
    exponentPart care (c :: d :: ds) =
      if d = '-' then (someDigits care ds).map fun (digits, rest) => (some (true, digits), rest)
      else if d = '+' then
        (someDigits care ds).map fun (digits, rest) => (some (false, digits), rest)
      else (someDigits care (d :: ds)).map fun (digits, rest) => (some (false, digits), rest) := by
  unfold exponentPart
  dsimp only
  rw [if_pos hmark]
  by_cases hminus : d = '-'
  · subst hminus
    rfl
  · by_cases hplus : d = '+'
    · subst hplus
      rfl
    · rw [if_neg hminus, if_neg hplus]
      split
      · next h => exact absurd (List.cons.inj h).1 hminus
      · next h => exact absurd (List.cons.inj h).1 hplus
      · rfl

/-- Reading an exponent goes no further than it does. The cases are its letter, its sign and that
there is none. -/
theorem readsAhead_exponentPart : ReadsAhead (exponentPart care) := by
  intro cs rest exponent h after hafter
  cases cs with
  | nil =>
    rw [exponentPart] at h
    cases h
    exact exponentPart_of_ne fun c hc => (hafter c hc).2.2
  | cons c cs =>
    by_cases hmark : c = 'e' ∨ c = 'E'
    · cases cs with
      | nil =>
        unfold exponentPart at h
        dsimp only at h
        rw [if_pos hmark] at h
        cases h
      | cons d ds =>
        rw [exponentPart_of_mark hmark] at h
        rw [List.cons_append, List.cons_append, exponentPart_of_mark hmark]
        by_cases hminus : d = '-'
        · rw [if_pos hminus] at h ⊢
          exact readsAhead_someDigits.map (fun digits => some (true, digits)) h hafter
        · rw [if_neg hminus] at h ⊢
          by_cases hplus : d = '+'
          · rw [if_pos hplus] at h ⊢
            exact readsAhead_someDigits.map (fun digits => some (false, digits)) h hafter
          · rw [if_neg hplus] at h ⊢
            exact readsAhead_someDigits.map (fun digits => some (false, digits)) h hafter
    · have hne : ∀ ds, ∀ d ∈ (c :: ds).head?, d ≠ 'e' ∧ d ≠ 'E' := by
        rintro ds d hd
        cases Option.some.inj hd
        exact not_or.mp hmark
      rw [exponentPart_of_ne (hne cs)] at h
      cases h
      exact exponentPart_of_ne (hne _)

/-- **Reading a number goes no further than the number does**, since none of its parts does. They
are read one after the other, and only the last one meets what is behind the number. -/
theorem readsAhead_numberRest (negative : Bool) : ReadsAhead (numberRest care negative) := by
  intro cs rest n h after hafter
  obtain ⟨⟨whole, ds⟩, hwhole, h⟩ := bind_eq_ok.mp h
  obtain ⟨⟨fraction, es⟩, hfraction, h⟩ := bind_eq_ok.mp h
  obtain ⟨⟨exponent, fs⟩, hexponent, h⟩ := bind_eq_ok.mp h
  refine bind_eq_ok.mpr ⟨_, readsAhead_wholePart hwhole hafter, ?_⟩
  refine bind_eq_ok.mpr ⟨_, readsAhead_fractionPart hfraction hafter, ?_⟩
  refine bind_eq_ok.mpr ⟨_, readsAhead_exponentPart hexponent hafter, ?_⟩
  dsimp only at h ⊢
  split at h
  · cases h
    rfl
  · cases h
  · cases h
    rfl

end ReadsAhead

/-! ## What a number's text says about its kind -/

/-- Where no fraction was found nothing was taken. -/
theorem eq_of_fractionPart_none {cs rest : List Char}
    (h : fractionPart .kept cs = .ok (none, rest)) : rest = cs := by
  unfold fractionPart at h
  split at h
  · obtain ⟨_, _, heq⟩ := map_eq_ok.mp h
    cases heq
  · cases h
    rfl

/-- Where no exponent was found nothing was taken. -/
theorem eq_of_exponentPart_none {cs rest : List Char}
    (h : exponentPart .kept cs = .ok (none, rest)) : rest = cs := by
  unfold exponentPart at h
  split at h
  · cases h
    rfl
  · split at h
    · obtain ⟨_, _, heq⟩ := map_eq_ok.mp h
      cases heq
    · cases h
      rfl

/-- Only digits alone name a whole number. With a fraction or an exponent the number is a double,
even if its value is whole. -/
theorem eq_none_of_assemble?_whole {negative : Bool} {whole : List Char}
    {fraction : Option (List Char)} {exponent : Option (Bool × List Char)} {n : Int}
    (h : assemble? negative whole fraction exponent = some (.whole n)) :
    fraction = none ∧ exponent = none := by
  have hdouble : ∀ x? : Option Double, x?.map Number.double ≠ some (.whole n) := by
    intro x? hx
    obtain ⟨_, _, heq⟩ := Option.map_eq_some_iff.mp hx
    cases heq
  cases fraction with
  | none =>
    cases exponent with
    | none => exact ⟨rfl, rfl⟩
    | some _ => exact absurd h (hdouble _)
  | some _ =>
    cases exponent with
    | none => exact absurd h (hdouble _)
    | some _ => exact absurd h (hdouble _)

/-- A whole number is read from digits and nothing else. So text with a point or an exponent is
never read as one. -/
theorem exists_digits_of_numberRest_whole {negative : Bool} {cs rest : List Char} {n : Int}
    (h : numberRest .kept negative cs = .ok (.whole n, rest)) :
    ∃ digits, digits ++ rest = cs ∧ ∀ c ∈ digits, c.isDigit = true := by
  obtain ⟨⟨whole, ds⟩, hwhole, h⟩ := bind_eq_ok.mp h
  obtain ⟨⟨fraction, es⟩, hfraction, h⟩ := bind_eq_ok.mp h
  obtain ⟨⟨exponent, fs⟩, hexponent, h⟩ := bind_eq_ok.mp h
  have hrun := (wholePart_eq_ok.mp hwhole).1
  dsimp only at hfraction hexponent h
  cases hassemble : assemble? negative whole fraction exponent with
  | none =>
    rw [hassemble] at h
    cases h
  | some k =>
    rw [hassemble] at h
    cases h
    obtain ⟨rfl, rfl⟩ := eq_none_of_assemble?_whole hassemble
    obtain rfl := eq_of_fractionPart_none hfraction
    obtain rfl := eq_of_exponentPart_none hexponent
    exact ⟨whole, hrun.append, hrun.isDigit⟩

/-! ## Values that are numbers -/

/-- However deep a document may nest, one value is read with some reader for what is in it. Strings
and numbers hold nothing, so which reader it is does not matter to them. -/
theorem exists_valueWith_eq (care : Care) (depth : Nat) :
    ∃ inner, ∀ cs, value care depth cs = valueWith care inner cs := by
  cases depth with
  | zero => exact ⟨none, fun cs => by rw [value]⟩
  | succ depth => exact ⟨some (value care depth), fun cs => by rw [value]⟩

/-- No digit is a blank. -/
theorem isBlank_of_isDigit {c : Char} (h : c.isDigit = true) : isBlank c = false := by
  have hblank : ∀ c, isBlank c = true → c.isDigit = false := by
    intro c hc
    simp only [isBlank, Bool.or_eq_true, beq_iff_eq] at hc
    rcases hc with ((rfl | rfl) | rfl) | rfl <;> rfl
  exact Bool.eq_false_iff.mpr fun hc => Bool.false_ne_true ((hblank c hc).symm.trans h)

theorem skipBlanks_of_isBlank {c : Char} (h : isBlank c = false) (cs : List Char) :
    skipBlanks (c :: cs) = c :: cs := List.dropWhile_cons_of_neg (Bool.eq_false_iff.mp h)

/-- A sign and a digit begin a number. -/
theorem value_sign_digit (depth : Nat) (negative : Bool) {c : Char} (h : c.isDigit = true)
    (cs : List Char) : value .kept depth (signText negative ++ c :: cs) =
      (numberRest .kept negative (c :: cs)).map fun (n, rest) => (.number n, rest) := by
  obtain ⟨inner, hinner⟩ := exists_valueWith_eq .kept depth
  rw [hinner]
  cases negative with
  | true => rfl
  | false =>
    show valueWith .kept inner (c :: cs) = _
    rw [valueWith, skipBlanks_of_isBlank (isBlank_of_isDigit h)]
    split
    · next heq => cases heq
    · next heq =>
      cases heq
      split
      any_goals cases h
      exact if_pos h

/-! ## Whole numbers -/

/-- Digits behind a number make it no smaller. -/
theorem le_ofDigitChars (digits : List Char) (n : Nat) : n ≤ Nat.ofDigitChars 10 digits n := by
  rw [Nat.ofDigitChars_eq_ofDigitChars_zero]
  have hpos : 0 < 10 ^ digits.length := Nat.pow_pos (by decide)
  exact Nat.le_add_right_of_le (Nat.le_mul_of_pos_left n hpos)

/-- Digits that fit a significand are all gathered. Others would be dropped and counted, and the
number would lose them. -/
theorem gather_eq {digits : List Char} {n : Nat}
    (h : Nat.ofDigitChars 10 digits n ≤ significandMax) :
    gather n digits = (Nat.ofDigitChars 10 digits n, 0) := by
  induction digits generalizing n with
  | nil => rw [gather, Nat.ofDigitChars_nil]
  | cons c cs ih =>
    rw [Nat.ofDigitChars_cons, Nat.mul_comm] at h ⊢
    have hfits := Nat.le_trans (le_ofDigitChars cs _) h
    rw [gather, if_neg (Nat.not_lt.mpr hfits), ih h]

/-- The digits of a number begin with a digit. -/
theorem exists_toDigits_eq_cons (n : Nat) :
    ∃ c cs, Nat.toDigits 10 n = c :: cs ∧ c.isDigit = true := by
  obtain ⟨c, cs, hdigits⟩ := List.exists_cons_of_ne_nil (Nat.toDigits_ne_nil (b := 10) (n := n))
  exact ⟨c, cs, hdigits, isDigit_of_mem_toDigits (hdigits ▸ List.mem_cons_self)⟩

/-- Only zero is written with a zero in front. -/
theorem toDigits_of_head?_zero {n : Nat} (h : (Nat.toDigits 10 n).head? = some '0') : n = 0 := by
  induction n using Nat.strongRecOn with
  | _ n ih =>
    rw [Nat.toDigits_eq_if (by decide)] at h
    by_cases hsmall : n < 10
    · rw [if_pos hsmall] at h
      exact Nat.digitChar_eq_zero.mp (Option.some.inj h)
    · rw [if_neg hsmall, List.head?_append_of_ne_nil _ Nat.toDigits_ne_nil] at h
      have hzero := ih (n / 10) (by omega) h
      omega

/-- The digits of a number that fits 64 bits, unsigned, and signed where it has a sign. They are
read as the number, whatever follows that ends one. -/
theorem numberRest_toDigits {n : Int} (hmin : -(UInt64.size / 2 : Nat) ≤ n)
    (hmax : n ≤ significandMax) {after : List Char} (hafter : EndsNumber after) :
    numberRest .kept (n < 0) (Nat.toDigits 10 n.natAbs ++ after) = .ok (.whole n, after) := by
  have hwhole : wholePart .kept (Nat.toDigits 10 n.natAbs ++ after) =
      .ok (Nat.toDigits 10 n.natAbs, after) := by
    refine wholePart_eq_ok.mpr ⟨⟨rfl, fun c hc => isDigit_of_mem_toDigits hc,
      fun c hc => (hafter c hc).1, Nat.toDigits_ne_nil⟩, fun hhead => ?_⟩
    rw [toDigits_of_head?_zero hhead]
    rfl
  have hgather : gather 0 (Nat.toDigits 10 n.natAbs) = (n.natAbs, 0) := by
    have hle : Nat.ofDigitChars 10 (Nat.toDigits 10 n.natAbs) 0 ≤ significandMax := by
      rw [Nat.ofDigitChars_ten_toDigits]
      have hhalf : UInt64.size / 2 ≤ significandMax := by decide
      omega
    rw [gather_eq hle, Nat.ofDigitChars_ten_toDigits]
  have hassemble : assemble? (n < 0) (Nat.toDigits 10 n.natAbs) none none = some (.whole n) := by
    unfold assemble?
    rw [hgather]
    dsimp only
    by_cases hneg : n < 0
    · rw [if_neg (by simp), if_neg (by simp [hneg]), if_neg (by omega)]
      exact congrArg (fun k => some (Number.whole k)) (by omega)
    · rw [if_neg (by simp), if_pos (by simp [hneg])]
      exact congrArg (fun k => some (Number.whole k)) (by omega)
  refine bind_eq_ok.mpr ⟨_, hwhole, ?_⟩
  refine bind_eq_ok.mpr ⟨_, fractionPart_of_ne fun c hc => (hafter c hc).2.1, ?_⟩
  refine bind_eq_ok.mpr ⟨_, exponentPart_of_ne fun c hc => (hafter c hc).2.2, ?_⟩
  dsimp only
  rw [hassemble]

/-- **A whole number in range reads back**, at any depth and before any text that ends a number. Its
digits are taken as they are and never go through a double. -/
theorem value_whole (depth : Nat) {n : Int} (hmin : -(UInt64.size / 2 : Nat) ≤ n)
    (hmax : n ≤ significandMax) {after : List Char} (hafter : EndsNumber after) :
    value .kept depth (numberText (.whole n) ++ after) = .ok (.number (.whole n), after) := by
  obtain ⟨c, cs, hdigits, hc⟩ := exists_toDigits_eq_cons n.natAbs
  have hread := numberRest_toDigits hmin hmax hafter
  rw [numberText, Token.toList_repr, List.append_assoc, hdigits, List.cons_append,
    value_sign_digit depth _ hc]
  rw [hdigits, List.cons_append] at hread
  rw [hread]
  rfl

/-! ## Doubles -/

/-- A point stands where the digits of a decimal go below one, and is added where they do not. -/
theorem positional_pointed (d : Decimal) :
    (if 0 ≤ d.exponent then d.positional ++ ['.', '0'] else d.positional) =
      pointedChars d.positional := by
  by_cases h : 0 ≤ d.exponent
  · have hnone : '.' ∉ d.positional := by
      unfold Decimal.positional
      rw [if_pos h]
      exact point_notMem fun c hc =>
        (List.mem_append.mp hc).elim isDigit_of_mem_toDigits isDigit_of_mem_zeros
    rw [if_pos h, pointedChars, if_neg hnone]
  · have hpoint : '.' ∈ d.positional := by
      unfold Decimal.positional
      rw [if_neg h]
      dsimp only
      split
      · exact List.mem_append_right _ List.mem_cons_self
      · exact List.mem_cons_of_mem _ List.mem_cons_self
    rw [if_neg h, pointedChars, if_pos hpoint]

/-- Digits of which one stands before the point have an exponent behind them, however many there
are. -/
theorem exists_scientific_eq_cons (style : NumberStyle) {digits : List Char} (hne : digits ≠ [])
    (power : Int) : ∃ c cs, style.scientific digits power = c :: cs ∧ c ∈ digits ∧ 'e' ∈ cs := by
  obtain ⟨c, cs, rfl⟩ := List.exists_cons_of_ne_nil hne
  unfold NumberStyle.scientific
  cases cs with
  | nil => exact ⟨c, _, rfl, List.mem_cons_self, List.mem_cons_self⟩
  | cons d ds =>
    refine ⟨c, _, rfl, List.mem_cons_self, ?_⟩
    exact List.mem_append_left _ (List.mem_append_right _ List.mem_cons_self)

/-- **The text of a double shows that it is one**: behind its first digit stands a point or an
exponent. -/
theorem exists_magnitude_eq_cons (m : Magnitude) : ∃ c cs, numberStyle.magnitude m = c :: cs ∧
    c.isDigit = true ∧ ('.' ∈ cs ∨ 'e' ∈ cs) := by
  unfold NumberStyle.magnitude
  dsimp only
  split
  · obtain ⟨whole, fraction, layout, htext⟩ := (m.shortest numberStyle.tie).exists_layout
    obtain ⟨c, cs, rfl⟩ := List.exists_cons_of_ne_nil layout.whole_ne
    rw [positional_pointed, htext]
    refine ⟨c, cs ++ '.' :: fraction, rfl, layout.isDigit c List.mem_cons_self, .inl ?_⟩
    exact List.mem_append_right _ List.mem_cons_self
  · obtain ⟨c, cs, htext, hc, hmark⟩ := exists_scientific_eq_cons numberStyle
      (Nat.toDigits_ne_nil (b := 10) (n := (m.shortest numberStyle.tie).digits)) _
    exact ⟨c, cs, htext, isDigit_of_mem_toDigits hc, .inr hmark⟩

/-- The double that a number of a document names. -/
def Number.toDouble : Number → Double
  | .whole n => Double.ofInt n
  | .double x => x

/-- The double that the text of a double names where it is read. Reading scales what it gathers, so
this need not be the double that was written. -/
def reread? (x : Double) : Option Double :=
  match value .kept 0 (doubleText x) with
  | .ok (.number n, []) => some n.toDouble
  | _ => none

/-- A double is read back when its text is read to the end as some number with this double. The
number need not be a double itself: digits alone would do. -/
theorem reread?_eq_some {x y : Double} :
    reread? x = some y ↔ ∃ n, value .kept 0 (doubleText x) = .ok (.number n, []) ∧
      n.toDouble = y := by
  unfold reread?
  split
  · next n heq =>
    rw [heq, Option.some.injEq]
    constructor
    · exact fun h => ⟨n, rfl, h⟩
    · rintro ⟨k, hk, h⟩
      cases hk
      exact h
  · next hnone =>
    refine iff_of_false (fun h => by cases h) ?_
    rintro ⟨n, hn, -⟩
    exact hnone n hn

/-- **A double that reads as itself does so before everything that ends a number**, and is never
taken for a whole number. -/
theorem value_double (depth : Nat) {x : Double} (h : reread? x = some x) {after : List Char}
    (hafter : EndsNumber after) :
    value .kept depth (numberText (.double x) ++ after) = .ok (.number (.double x), after) := by
  obtain ⟨n, hvalue, hn⟩ := reread?_eq_some.mp h
  cases x with
  | nan | infinity _ => cases h
  | finite negative m =>
    obtain ⟨c, cs, htext, hc, hmark⟩ := exists_magnitude_eq_cons m
    have hdouble : doubleText (.finite negative m) = signText negative ++ c :: cs :=
      congrArg (signText negative ++ ·) htext
    rw [hdouble, value_sign_digit 0 negative hc] at hvalue
    obtain ⟨⟨k, rest⟩, hread, heq⟩ := map_eq_ok.mp hvalue
    cases heq
    have hahead := readsAhead_numberRest negative hread hafter
    rw [numberText, hdouble, List.append_assoc, List.cons_append, value_sign_digit depth negative hc]
    rw [List.cons_append] at hahead
    rw [hahead]
    cases n with
    | double y =>
      obtain rfl : y = .finite negative m := hn
      rfl
    | whole n =>
      -- A whole number is digits to the end, and this text has a mark that is none.
      obtain ⟨digits, happend, hdigits⟩ := exists_digits_of_numberRest_whole hread
      rw [List.append_nil] at happend
      subst happend
      rcases hmark with hpoint | hexponent
      · exact absurd (hdigits _ (List.mem_cons_of_mem _ hpoint)) (by decide)
      · exact absurd (hdigits _ (List.mem_cons_of_mem _ hexponent)) (by decide)

/-- The largest double below one. -/
def belowOne : Double :=
  .finite false ⟨Nat.pow 2 53 - 1, 1021, by decide, by decide, .inr (by decide)⟩

/-- The sixteen digits of the largest double below one are more than a double holds, so they are
rounded before they are scaled, and what is read is one. -/
theorem reread?_belowOne : reread? belowOne = some (Double.ofInt 1) ∧ belowOne ≠ Double.ofInt 1 := by
  decide +kernel

end WhereRules.Json
