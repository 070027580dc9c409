import Mathlib.Algebra.Order.Ring.Int
import Mathlib.Order.Compare
import WhereRules.Predicate.Evaluation
import WhereRules.Proofs.Comparing.Rounding

/-!
# Numbers compare by their places, where doubles have them

A whole number and a double are compared as doubles, so a whole number of more than 53 binary digits
is compared from the place of its nearest double and not from its own. That never turns an order
around, but it can make two numbers equal that are not (`compare?_int_number`).

A whole number is compared with every double by its own place just when some double stands there
(`IsHeld`); otherwise only the double that it is rounded to is misjudged (`byPlace_of_rank?_ne`).
Values that hold no other whole numbers, and no `nan` (`Exact`), agree as an equivalence, and the
numbers among them are ordered as their places are. Beyond `2^53` there are whole numbers of 64 bits
that no double holds, and with those agreement is not transitive (`not_byPlace_beyond_twoTo53`).
-/

namespace WhereRules.Value

/-! ## Places -/

/-- The place of a number on the line, in units of `2^-1074`. A whole number stands at its own
place, whether a double stands there or not. -/
def place? : Value → Option Int
  | int n => some (n.toInt * Magnitude.unitsPerOne)
  | number x => x.rank?
  | _ => none

/-- The order of two places. -/
def comparePlaces? (a b : Value) : Option Ordering :=
  match a.place?, b.place? with
  | some p, some q => some (compare p q)
  | _, _ => none

/-- Two values are compared as their places are: they agree where the places are the same, and the
order asked of them is the order of the places. -/
structure ByPlace (a b : Value) : Prop where
  agrees_iff : a.agrees b = true ↔ a.place? = b.place?
  compare?_eq : a.compare? b = a.comparePlaces? b

/-- Whether a double stands where a whole number does. -/
def IsHeld (n : Int64) : Prop :=
  ∃ x : Double, x.isFinite = true ∧ (number x).place? = (int n).place?

mutual

/-- Values without `nan` and without whole numbers between doubles. -/
def Exact : Value → Prop
  | int n => IsHeld n
  | number x => x ≠ .nan
  | list items => ExactItems items
  | map entries => ExactEntries entries
  | null | bool _ | text _ => True

/-- The items of a list are all exact. -/
def ExactItems : List Value → Prop
  | [] => True
  | item :: items => Exact item ∧ ExactItems items

/-- The values of a map are all exact. -/
def ExactEntries : List (String × Value) → Prop
  | [] => True
  | (_, value) :: entries => Exact value ∧ ExactEntries entries

end

/-! ## Whole numbers as doubles -/

/-- A whole number of 64 bits is far below the largest double. -/
theorem natAbs_toInt_lt (n : Int64) : n.toInt.natAbs < Nat.pow 2 64 := by
  have hlt := n.toInt_lt
  have hge := n.le_toInt
  show n.toInt.natAbs < 2 ^ 64
  omega

/-- Only `nan` stands nowhere on the line. -/
theorem exists_rank? {x : Double} (h : x ≠ .nan) : ∃ r, x.rank? = some r := by
  cases x with
  | nan => exact absurd rfl h
  | infinity _ | finite _ _ => exact ⟨_, rfl⟩

/-- A finite double is not `nan`, and so it has a place. -/
theorem ne_nan_of_isFinite {x : Double} (h : x.isFinite = true) : x ≠ .nan := by
  rintro rfl
  cases h

/-- Where the double stands that a whole number is rounded to. -/
theorem exists_rank?_ofInt (n : Int64) : ∃ r, (Double.ofInt n.toInt).rank? = some r :=
  exists_rank? (ne_nan_of_isFinite (Double.isFinite_ofInt (natAbs_toInt_lt n)))

/-- A whole number is held by what it is rounded to, or by no double. -/
theorem isHeld_iff {n : Int64} :
    IsHeld n ↔ (Double.ofInt n.toInt).rank? = some (n.toInt * Magnitude.unitsPerOne) := by
  have hfinite := Double.isFinite_ofInt (natAbs_toInt_lt n)
  constructor
  · rintro ⟨x, hx, hplace⟩
    obtain ⟨r, hr⟩ := exists_rank?_ofInt n
    rw [hr, Double.rank?_ofInt_of_place hx hplace hfinite hr]
  · exact fun h => ⟨_, hfinite, h⟩

/-- Doubles that stand on the line are compared by where they stand. -/
theorem compare?_of_rank? {x y : Double} {p q : Int} (hx : x.rank? = some p)
    (hy : y.rank? = some q) : x.compare? y = some (compare p q) := by
  rw [Double.compare?, hx, hy]

/-- Doubles that stand on the line are equal where they stand in one place. The two zeros do. -/
theorem numEq_eq_true_iff {x y : Double} {p q : Int} (hx : x.rank? = some p)
    (hy : y.rank? = some q) : x.numEq y = true ↔ p = q := by
  rw [Double.numEq, compare?_of_rank? hx hy, beq_iff_eq, Option.some.injEq, compare_eq_iff_eq]

/-! ## Any whole number -/

/-- Of two places on no different sides of a third, one that is not the third has its order.
Rounding moves a whole number to such a place, which is why it seldom changes an order. -/
theorem compare_of_sides {p r s : Int} (hle : p ≤ s → r ≤ s) (hge : s ≤ p → s ≤ r) (hne : r ≠ s) :
    compare r s = compare p s ∧ compare s r = compare s p := by
  rcases Int.lt_or_gt_of_ne hne with hlt | hgt
  · have hbelow : p < s := Int.lt_of_not_ge fun h => Int.not_le.mpr hlt (hge h)
    rw [compare_lt_iff_lt.mpr hlt, compare_lt_iff_lt.mpr hbelow, compare_gt_iff_gt.mpr hlt,
      compare_gt_iff_gt.mpr hbelow]
    exact ⟨rfl, rfl⟩
  · have habove : s < p := Int.lt_of_not_ge fun h => Int.not_le.mpr hgt (hle h)
    rw [compare_gt_iff_gt.mpr hgt, compare_gt_iff_gt.mpr habove, compare_lt_iff_lt.mpr hgt,
      compare_lt_iff_lt.mpr habove]
    exact ⟨rfl, rfl⟩

section Doubles

variable (n : Int64) {x : Double}

/-- A whole number is compared by its place with each double but the one that it is rounded to.
Every other double lies on the same side of the number as of its rounding. -/
theorem byPlace_of_rank?_ne (hx : x.isFinite = true)
    (hne : x.rank? ≠ (Double.ofInt n.toInt).rank?) :
    ByPlace (int n) (number x) ∧ ByPlace (number x) (int n) := by
  obtain ⟨r, hr⟩ := exists_rank?_ofInt n
  obtain ⟨s, hs⟩ := exists_rank? (ne_nan_of_isFinite hx)
  have hfinite := Double.isFinite_ofInt (natAbs_toInt_lt n)
  have hrs : r ≠ s := fun h => hne (by rw [hr, hs, h])
  obtain ⟨hle, hge⟩ := Double.ofInt_sides hx hs hfinite hr
  obtain ⟨horder, hswapped⟩ := compare_of_sides hle hge hrs
  have hplaces : n.toInt * Magnitude.unitsPerOne ≠ s := by
    rintro rfl
    exact hrs (Double.rank?_ofInt_of_place hx hs hfinite hr)
  have hint : (int n).place? = some (n.toInt * Magnitude.unitsPerOne) := rfl
  have hnumber : (number x).place? = some s := hs
  refine ⟨⟨?_, ?_⟩, ⟨?_, ?_⟩⟩
  · rw [hint, hnumber, Option.some.injEq]
    exact iff_of_false (fun h => hrs ((numEq_eq_true_iff hr hs).mp h)) hplaces
  · rw [comparePlaces?, hint, hnumber]
    exact (compare?_of_rank? hr hs).trans (congrArg some horder)
  · rw [hint, hnumber, Option.some.injEq]
    exact iff_of_false (fun h => hrs ((numEq_eq_true_iff hs hr).mp h).symm) (Ne.symm hplaces)
  · rw [comparePlaces?, hint, hnumber]
    exact (compare?_of_rank? hs hr).trans (congrArg some hswapped)

/-- **Comparing a whole number with a double never turns their order around**: the answer is the
order of their places, or that they are equal. -/
theorem compare?_int_number (hx : x.isFinite = true) :
    (int n).compare? (number x) = (int n).comparePlaces? (number x) ∨
      (int n).compare? (number x) = some .eq := by
  by_cases hsame : x.rank? = (Double.ofInt n.toInt).rank?
  · obtain ⟨r, hr⟩ := exists_rank?_ofInt n
    have hequal : (int n).compare? (number x) = some (compare r r) :=
      compare?_of_rank? hr (hsame.trans hr)
    rw [hequal, compare_eq_iff_eq.mpr rfl]
    exact .inr rfl
  · exact .inl (byPlace_of_rank?_ne n hx hsame).1.compare?_eq

end Doubles

/-! ## Exact numbers -/

/-- The double of an exact number stands where the number does, so nothing is lost when the number
is compared as that double. -/
theorem exists_asDouble? {a : Value} (h : a.Exact) {p : Int} (hp : a.place? = some p) :
    ∃ x, a.asDouble? = some x ∧ x.rank? = some p := by
  cases a with
  | int n =>
    cases hp
    exact ⟨_, rfl, isHeld_iff.mp h⟩
  | number x => exact ⟨x, rfl, hp⟩
  | null | bool _ | text _ | list _ | map _ => cases hp

/-- And what has a double and is exact has a place: a whole number always has one, and a double
lacks one only if it is `nan`. -/
theorem exists_place? {a : Value} (h : a.Exact) {x : Double} (hx : a.asDouble? = some x) :
    ∃ p, a.place? = some p := by
  cases a with
  | int n => exact ⟨_, rfl⟩
  | number y => exact exists_rank? h
  | null | bool _ | text _ | list _ | map _ => cases hx

/-- Whole numbers at the same place are the same number. -/
theorem mul_unitsPerOne_inj {m n : Int64} :
    m.toInt * Magnitude.unitsPerOne = n.toInt * Magnitude.unitsPerOne ↔ m = n := by
  have hunit : (Magnitude.unitsPerOne : Int) ≠ 0 :=
    Int.natCast_ne_zero.mpr (Nat.ne_of_gt Magnitude.unitsPerOne_pos)
  rw [Int.mul_eq_mul_right_iff hunit, Int64.toInt_inj]

/-- Whole numbers are in the order of their places. -/
theorem compare_mul_unitsPerOne (m n : Int) :
    compare (m * Magnitude.unitsPerOne) (n * Magnitude.unitsPerOne) = compare m n := by
  have hunit : (0 : Int) < Magnitude.unitsPerOne :=
    Int.natCast_pos.mpr Magnitude.unitsPerOne_pos
  rcases Int.lt_trichotomy m n with hlt | rfl | hgt
  · rw [compare_lt_iff_lt.mpr hlt, compare_lt_iff_lt.mpr (Int.mul_lt_mul_of_pos_right hlt hunit)]
  · rw [compare_eq_iff_eq.mpr rfl, compare_eq_iff_eq.mpr rfl]
  · rw [compare_gt_iff_gt.mpr hgt, compare_gt_iff_gt.mpr (Int.mul_lt_mul_of_pos_right hgt hunit)]

section Numbers

variable {a b : Value}

/-- Numbers whose doubles stand at their places are compared by their places. Two whole numbers are
not compared as doubles at all, which is why the places come in beside the doubles. -/
theorem compare?_of_place? {x y : Double} {p q : Int} (hx : a.asDouble? = some x)
    (hy : b.asDouble? = some y) (hp : x.rank? = some p) (hq : y.rank? = some q)
    (hplace : a.place? = some p) (hplace' : b.place? = some q) :
    a.compare? b = some (compare p q) := by
  have hdoubles : x.compare? y = some (compare p q) := compare?_of_rank? hp hq
  cases a with
  | int m =>
    cases hx
    cases b with
    | int n =>
      cases hplace
      cases hplace'
      rw [compare_mul_unitsPerOne]
      rfl
    | number _ =>
      cases hy
      exact hdoubles
    | null | bool _ | text _ | list _ | map _ => cases hplace'
  | number _ =>
    cases hx
    cases b with
    | int _ | number _ =>
      cases hy
      exact hdoubles
    | null | bool _ | text _ | list _ | map _ => cases hplace'
  | null | bool _ | text _ | list _ | map _ => cases hplace

/-- An exact number agrees with what stands at its place, and with nothing else: what has no place
is no number, and agrees with none. -/
theorem agrees_iff_place? (ha : a.Exact) (hb : b.Exact) {p : Int} (hp : a.place? = some p) :
    a.agrees b = true ↔ b.place? = some p := by
  obtain ⟨x, hx, hrank⟩ := exists_asDouble? ha hp
  cases hq : b.place? with
  | none =>
    -- not a number: the kinds differ
    cases b with
    | int _ => cases hq
    | number y =>
      obtain ⟨q, hy⟩ := exists_rank? hb
      rw [place?, hy] at hq
      cases hq
    | null | bool _ | text _ | list _ | map _ =>
      cases a with
      | int _ | number _ => exact ⟨fun h => Bool.noConfusion h, fun h => by cases h⟩
      | null | bool _ | text _ | list _ | map _ => cases hp
  | some q =>
    obtain ⟨y, hy, hrank'⟩ := exists_asDouble? hb hq
    have hdoubles : numbersAgree a b = true ↔ q = p := by
      rw [numbersAgree, hx, hy]
      exact (numEq_eq_true_iff hrank hrank').trans eq_comm
    rw [Option.some.injEq, ← hdoubles]
    cases a with
    | int m =>
      cases b with
      | int n =>
        cases hp
        cases hq
        have hsame : (m == n) = true ↔ m = n := beq_iff_eq
        rw [hdoubles, mul_unitsPerOne_inj]
        exact hsame.trans eq_comm
      | number _ => exact Iff.rfl
      | null | bool _ | text _ | list _ | map _ => cases hq
    | number _ =>
      cases b with
      | int _ | number _ => exact Iff.rfl
      | null | bool _ | text _ | list _ | map _ => cases hq
    | null | bool _ | text _ | list _ | map _ => cases hp

/-- **Exact numbers are compared by their places.** -/
theorem byPlace_of_exact (ha : a.Exact) (hb : b.Exact) {p q : Int} (hp : a.place? = some p)
    (hq : b.place? = some q) : ByPlace a b := by
  obtain ⟨x, hx, hrank⟩ := exists_asDouble? ha hp
  obtain ⟨y, hy, hrank'⟩ := exists_asDouble? hb hq
  constructor
  · rw [agrees_iff_place? ha hb hp, hp, eq_comm]
  · rw [compare?_of_place? hx hy hrank hrank' hp hq, comparePlaces?, hp, hq]

end Numbers

/-! ## Exact values -/

/-- What is left of a value when its numbers are no more than their places. Exact values agree when
their forms are equal, and so agreement is an equivalence because equality is one. -/
inductive Form
  | null
  | bool (b : Bool)
  | place (p : Option Int)
  | text (s : String)
  | list (items : List Form)
  | map (entries : List (String × Form))

mutual

/-- The form of a value. -/
def form : Value → Form
  | null => .null
  | bool b => .bool b
  | int n => .place (int n).place?
  | number x => .place (number x).place?
  | text s => .text s
  | list items => .list (formItems items)
  | map entries => .map (formEntries entries)

/-- The forms of the items of a list. -/
def formItems : List Value → List Form
  | [] => []
  | item :: items => form item :: formItems items

/-- The forms of the values of a map, under their keys. -/
def formEntries : List (String × Value) → List (String × Form)
  | [] => []
  | (key, value) :: entries => (key, form value) :: formEntries entries

end

/-- What has a place is a number, and its form is no more than the place. -/
theorem form_of_place? {a : Value} {p : Int} (h : a.place? = some p) :
    a.form = .place (some p) := by
  cases a with
  | int n => exact congrArg Form.place h
  | number x => exact congrArg Form.place h
  | null | bool _ | text _ | list _ | map _ => cases h

/-- A number agrees with what has its form. The other side need not be a number; then it has another
form and does not agree. -/
theorem agrees_number_iff_form {a b : Value} (ha : a.Exact) (hb : b.Exact) {p : Int}
    (hp : a.place? = some p) : a.agrees b = true ↔ a.form = b.form := by
  rw [agrees_iff_place? ha hb hp, form_of_place? hp]
  constructor
  · exact fun h => (form_of_place? h).symm
  · intro h
    cases b with
    | int n => exact (Form.place.inj h).symm
    | number x => exact (Form.place.inj h).symm
    | null | bool _ | text _ | list _ | map _ => cases h

mutual

/-- **Exact values agree when they differ in nothing but how their numbers are kept.** The recursion
is on both values, lists item by item and maps key by key. -/
theorem agrees_iff_form : (a b : Value) → a.Exact → b.Exact →
    (a.agrees b = true ↔ a.form = b.form)
  | .int _, _, ha, hb => agrees_number_iff_form ha hb rfl
  | .number _, _, ha, hb => by
    obtain ⟨p, hp⟩ := exists_rank? ha
    exact agrees_number_iff_form ha hb hp
  | .null, b, _, _ => by
    cases b with
    | null => exact iff_of_true rfl rfl
    | _ => exact ⟨fun h => Bool.noConfusion h, fun h => by cases h⟩
  | .bool x, b, _, _ => by
    cases b with
    | bool y => exact beq_iff_eq.trans (iff_of_eq (Form.bool.injEq x y)).symm
    | _ => exact ⟨fun h => Bool.noConfusion h, fun h => by cases h⟩
  | .text s, b, _, _ => by
    cases b with
    | text t => exact beq_iff_eq.trans (iff_of_eq (Form.text.injEq s t)).symm
    | _ => exact ⟨fun h => Bool.noConfusion h, fun h => by cases h⟩
  | .list as, b, ha, hb => by
    cases b with
    | list bs => exact (agreeItems_iff_form as bs ha hb).trans (iff_of_eq (Form.list.injEq ..)).symm
    | _ => exact ⟨fun h => Bool.noConfusion h, fun h => by cases h⟩
  | .map as, b, ha, hb => by
    cases b with
    | map bs => exact (agreeEntries_iff_form as bs ha hb).trans (iff_of_eq (Form.map.injEq ..)).symm
    | _ => exact ⟨fun h => Bool.noConfusion h, fun h => by cases h⟩

/-- Lists of exact values agree item by item when their forms are equal item by item. -/
theorem agreeItems_iff_form : (as bs : List Value) → ExactItems as → ExactItems bs →
    (agreeItems as bs = true ↔ formItems as = formItems bs)
  | [], [], _, _ => iff_of_true rfl rfl
  | [], _ :: _, _, _ => ⟨fun h => Bool.noConfusion h, fun h => by cases h⟩
  | _ :: _, [], _, _ => ⟨fun h => Bool.noConfusion h, fun h => by cases h⟩
  | a :: as, b :: bs, ha, hb => by
    have hfirst := agrees_iff_form a b ha.1 hb.1
    have hrest := agreeItems_iff_form as bs ha.2 hb.2
    rw [formItems, formItems, List.cons.injEq, ← hfirst, ← hrest]
    exact Bool.and_eq_true_iff

/-- Exact entries agree when they have the same keys, and their values differ in nothing but how
numbers are kept. -/
theorem agreeEntries_iff_form : (as bs : List (String × Value)) → ExactEntries as →
    ExactEntries bs → (agreeEntries as bs = true ↔ formEntries as = formEntries bs)
  | [], [], _, _ => iff_of_true rfl rfl
  | [], _ :: _, _, _ => ⟨fun h => Bool.noConfusion h, fun h => by cases h⟩
  | _ :: _, [], _, _ => ⟨fun h => Bool.noConfusion h, fun h => by cases h⟩
  | (j, a) :: as, (k, b) :: bs, ha, hb => by
    have hfirst := agrees_iff_form a b ha.1 hb.1
    have hrest := agreeEntries_iff_form as bs ha.2 hb.2
    have hkey : (j == k) = true ↔ j = k := beq_iff_eq
    rw [formEntries, formEntries, List.cons.injEq, Prod.mk.injEq, ← hfirst, ← hrest, ← hkey,
      ← Bool.and_eq_true_iff, ← Bool.and_eq_true_iff]
    exact Iff.rfl

end

/-! ## Order -/

/-- Whether a value is a number of either kind. -/
def IsNumber (a : Value) : Prop := a.asDouble?.isSome = true

/-- The values of a kind are ordered by comparison: any two stand one way or the other, and what is
equal stands both ways. -/
structure OrdersAll (kind : Value → Prop) : Prop where
  total : ∀ a b, kind a → kind b →
    Relation.lessOrEqual.holds a b = true ∨ Relation.lessOrEqual.holds b a = true
  trans : ∀ a b c, kind a → kind b → kind c → Relation.lessOrEqual.holds a b = true →
    Relation.lessOrEqual.holds b c = true → Relation.lessOrEqual.holds a c = true
  swapped : ∀ a b, kind a → kind b →
    Relation.greaterOrEqual.holds a b = Relation.lessOrEqual.holds b a
  equal_iff : ∀ a b, kind a → kind b → (Relation.equal.holds a b = true ↔
    Relation.lessOrEqual.holds a b = true ∧ Relation.lessOrEqual.holds b a = true)

/-- An exact number has a place, at which it is compared. -/
theorem exists_place?_of_isNumber {a : Value} (h : a.Exact) (hnumber : a.IsNumber) :
    ∃ p, a.place? = some p := by
  obtain ⟨x, hx⟩ := Option.isSome_iff_exists.mp hnumber
  exact exists_place? h hx

/-- The order of exact numbers is that of their places. -/
theorem compare?_of_exact {a b : Value} (ha : a.Exact) (hb : b.Exact) {p q : Int}
    (hp : a.place? = some p) (hq : b.place? = some q) : a.compare? b = some (compare p q) := by
  rw [(byPlace_of_exact ha hb hp hq).compare?_eq, comparePlaces?, hp, hq]

section Relations

variable {a b : Value} {p q : Int}

/-- `<=` holds of numbers that are compared by their places when the first place is no larger. -/
theorem holds_lessOrEqual_iff (h : a.compare? b = some (compare p q)) :
    Relation.lessOrEqual.holds a b = true ↔ p ≤ q := by
  rw [Relation.holds, h]
  rcases Int.lt_trichotomy p q with hlt | rfl | hgt
  · rw [compare_lt_iff_lt.mpr hlt]
    exact iff_of_true rfl (Int.le_of_lt hlt)
  · rw [compare_eq_iff_eq.mpr rfl]
    exact iff_of_true rfl (Int.le_refl p)
  · rw [compare_gt_iff_gt.mpr hgt]
    exact iff_of_false Bool.false_ne_true (Int.not_le.mpr hgt)

/-- `>=` holds of them when the second place is no larger. -/
theorem holds_greaterOrEqual_iff (h : a.compare? b = some (compare p q)) :
    Relation.greaterOrEqual.holds a b = true ↔ q ≤ p := by
  rw [Relation.holds, h]
  rcases Int.lt_trichotomy p q with hlt | rfl | hgt
  · rw [compare_lt_iff_lt.mpr hlt]
    exact iff_of_false Bool.false_ne_true (Int.not_le.mpr hlt)
  · rw [compare_eq_iff_eq.mpr rfl]
    exact iff_of_true rfl (Int.le_refl p)
  · rw [compare_gt_iff_gt.mpr hgt]
    exact iff_of_true rfl (Int.le_of_lt hgt)

end Relations

/-- **Exact numbers are ordered as their places are.** They are totally ordered by `<=`, `>=` is the
same order the other way, and `=` is being ordered both ways. -/
theorem ordersAll_exact : OrdersAll fun a => a.Exact ∧ a.IsNumber where
  total := by
    rintro a b ⟨ha, hna⟩ ⟨hb, hnb⟩
    obtain ⟨p, hp⟩ := exists_place?_of_isNumber ha hna
    obtain ⟨q, hq⟩ := exists_place?_of_isNumber hb hnb
    rw [holds_lessOrEqual_iff (compare?_of_exact ha hb hp hq),
      holds_lessOrEqual_iff (compare?_of_exact hb ha hq hp)]
    exact Int.le_total p q
  trans := by
    rintro a b c ⟨ha, hna⟩ ⟨hb, hnb⟩ ⟨hc, hnc⟩
    obtain ⟨p, hp⟩ := exists_place?_of_isNumber ha hna
    obtain ⟨q, hq⟩ := exists_place?_of_isNumber hb hnb
    obtain ⟨r, hr⟩ := exists_place?_of_isNumber hc hnc
    rw [holds_lessOrEqual_iff (compare?_of_exact ha hb hp hq),
      holds_lessOrEqual_iff (compare?_of_exact hb hc hq hr),
      holds_lessOrEqual_iff (compare?_of_exact ha hc hp hr)]
    exact Int.le_trans
  swapped := by
    rintro a b ⟨ha, hna⟩ ⟨hb, hnb⟩
    obtain ⟨p, hp⟩ := exists_place?_of_isNumber ha hna
    obtain ⟨q, hq⟩ := exists_place?_of_isNumber hb hnb
    rw [Bool.eq_iff_iff, holds_greaterOrEqual_iff (compare?_of_exact ha hb hp hq),
      holds_lessOrEqual_iff (compare?_of_exact hb ha hq hp)]
  equal_iff := by
    rintro a b ⟨ha, hna⟩ ⟨hb, hnb⟩
    obtain ⟨p, hp⟩ := exists_place?_of_isNumber ha hna
    obtain ⟨q, hq⟩ := exists_place?_of_isNumber hb hnb
    rw [holds_lessOrEqual_iff (compare?_of_exact ha hb hp hq),
      holds_lessOrEqual_iff (compare?_of_exact hb ha hq hp), Relation.holds,
      agrees_iff_place? ha hb hp, hq, Option.some.injEq, eq_comm]
    exact Int.le_antisymm_iff

/-! ## Which whole numbers doubles hold -/

/-- There is a magnitude for each multiple of a step that has at most 53 binary digits. These are
the whole numbers that some double holds. -/
theorem exists_units_of_lt {k p : Nat} (hk : k < Nat.pow 2 53) (hp : 52 ≤ p) (hle : p ≤ 2045) :
    ∃ m : Magnitude, m.units = k * Nat.pow 2 p := by
  by_cases hzero : k = 0
  · subst hzero
    exact ⟨.zero, (Nat.zero_mul _).symm⟩
  · -- as many digits as a significand has, and the exponent that leaves the value
    have hlog : k.log2 < 53 := (Nat.log2_lt hzero).mpr hk
    have hpow : ∀ i j, Nat.pow 2 i * Nat.pow 2 j = Nat.pow 2 (i + j) := fun i j =>
      (Nat.pow_add 2 i j).symm
    have hbelow : k * Nat.pow 2 (52 - k.log2) < Nat.pow 2 53 := by
      have hlt : k * Nat.pow 2 (52 - k.log2) < Nat.pow 2 (k.log2 + 1) * Nat.pow 2 (52 - k.log2) :=
        Nat.mul_lt_mul_of_pos_right Nat.lt_log2_self (Nat.two_pow_pos _)
      rwa [hpow, show k.log2 + 1 + (52 - k.log2) = 53 by omega] at hlt
    have habove : Nat.pow 2 52 ≤ k * Nat.pow 2 (52 - k.log2) := by
      have hge : Nat.pow 2 k.log2 * Nat.pow 2 (52 - k.log2) ≤ k * Nat.pow 2 (52 - k.log2) :=
        Nat.mul_le_mul_right _ (Nat.log2_self_le hzero)
      rwa [hpow, show k.log2 + (52 - k.log2) = 52 by omega] at hge
    refine ⟨⟨k * Nat.pow 2 (52 - k.log2), p - (52 - k.log2), hbelow, by omega, .inr habove⟩, ?_⟩
    show k * Nat.pow 2 (52 - k.log2) * Nat.pow 2 (p - (52 - k.log2)) = k * Nat.pow 2 p
    rw [Nat.mul_assoc, hpow, Nat.add_sub_cancel' (by omega)]

/-- The next power of two has one digit more and is a multiple of the next step. So a significand
may be `2^53` itself. -/
theorem exists_units_of_le {k p : Nat} (hk : k ≤ Nat.pow 2 53) (hp : 52 ≤ p) (hle : p < 2045) :
    ∃ m : Magnitude, m.units = k * Nat.pow 2 p := by
  rcases Nat.lt_or_eq_of_le hk with hlt | rfl
  · exact exists_units_of_lt hlt hp (Nat.le_of_lt hle)
  · have hpow : Nat.pow 2 52 * Nat.pow 2 (p + 1) = Nat.pow 2 53 * Nat.pow 2 p := by
      simp only [Nat.pow_eq, ← Nat.pow_add]
      congr 1
      omega
    rw [← hpow]
    exact exists_units_of_lt (by decide) (Nat.le_succ_of_le hp) hle

/-- **Doubles hold all whole numbers up to `2^53`** in size. Such a number has at most 53 binary
digits, so it is a significand at the step of the ones. -/
theorem isHeld_of_natAbs_le {n : Int64} (h : n.toInt.natAbs ≤ Nat.pow 2 53) : IsHeld n := by
  obtain ⟨m, hm⟩ := exists_units_of_le h (p := 1074) (by decide) (by decide)
  refine ⟨.finite (n.toInt < 0) m, rfl, ?_⟩
  rw [place?, place?, Double.mul_unitsPerOne, Magnitude.unitsPerOne, ← hm]
  rfl

/-! ## Comparing whole numbers with doubles -/

/-- **A whole number is compared with a double by its place, unless no double holds it and this is
the one that it is rounded to.** All numbers up to `2^53` are held. Values in which every whole number
is held agree as an equivalence, and the numbers among them are totally ordered. Of other whole
numbers the comparison can still say that they are equal to a double, and never the wrong one of the
two orders. -/
theorem byPlace_iff_isHeld (n : Int64) {x : Double} (hx : x.isFinite = true) :
    (ByPlace (int n) (number x) ∧ ByPlace (number x) (int n) ↔
      IsHeld n ∨ x.rank? ≠ (Double.ofInt n.toInt).rank?) ∧
    ((int n).compare? (number x) = (int n).comparePlaces? (number x) ∨
      (int n).compare? (number x) = some .eq) ∧
    (n.toInt.natAbs ≤ Nat.pow 2 53 → IsHeld n) ∧
    Equivalence (fun a b : {a : Value // a.Exact} => a.1.agrees b.1 = true) ∧
    OrdersAll fun a => a.Exact ∧ a.IsNumber := by
  refine ⟨⟨fun h => ?_, fun h => ?_⟩, compare?_int_number n hx, isHeld_of_natAbs_le,
    ⟨fun a => ?_, fun {a b} h => ?_, fun {a b c} hab hbc => ?_⟩, ordersAll_exact⟩
  · -- the number agrees with the double that it is rounded to
    refine or_iff_not_imp_right.mpr fun hsame => ?_
    obtain ⟨r, hr⟩ := exists_rank?_ofInt n
    have hagrees : (int n).agrees (number x) = true :=
      (numEq_eq_true_iff hr ((not_not.mp hsame).trans hr)).mpr rfl
    exact ⟨x, hx, (h.1.agrees_iff.mp hagrees).symm⟩
  · rcases h with hheld | hne
    · have hexact : (number x).Exact := ne_nan_of_isFinite hx
      obtain ⟨q, hq⟩ := exists_rank? (ne_nan_of_isFinite hx)
      have hint : (int n).Exact := hheld
      exact ⟨byPlace_of_exact hint hexact rfl hq, byPlace_of_exact hexact hint hq rfl⟩
    · exact byPlace_of_rank?_ne n hx hne
  · exact (agrees_iff_form a.1 a.1 a.2 a.2).mpr rfl
  · exact (agrees_iff_form b.1 a.1 b.2 a.2).mpr ((agrees_iff_form a.1 b.1 a.2 b.2).mp h).symm
  · have hforms := (agrees_iff_form a.1 b.1 a.2 b.2).mp hab
    exact (agrees_iff_form a.1 c.1 a.2 c.2).mpr
      (hforms.trans ((agrees_iff_form b.1 c.1 b.2 c.2).mp hbc))

/-- The double `2^53`, from which on not every whole number is held. -/
def twoTo53 : Double := .finite false ⟨Nat.pow 2 52, 1075, by decide, by decide, .inr (by decide)⟩

/-- At `2^53` itself the double holds the whole number, and the two agree inside lists too, either
way round. -/
theorem byPlace_twoTo53 :
    twoTo53.isFinite = true ∧ IsHeld 9007199254740992 ∧
      ByPlace (int 9007199254740992) (number twoTo53) ∧
      (list [int 9007199254740992]).agrees (list [number twoTo53]) = true ∧
      (list [number twoTo53]).agrees (list [int 9007199254740992]) = true ∧
      (Relation.lessOrEqual.holds (int 9007199254740992) (number (.infinity false)) = true ∨
        Relation.lessOrEqual.holds (number (.infinity false)) (int 9007199254740992) = true) := by
  have hfinite : twoTo53.isFinite = true := rfl
  obtain ⟨hiff, -, hheld, hequivalence, horders⟩ := byPlace_iff_isHeld 9007199254740992 hfinite
  have h53 : IsHeld 9007199254740992 := hheld (by decide)
  have hplaces := (hiff.mpr (.inl h53)).1
  have hlists : (list [int 9007199254740992]).agrees (list [number twoTo53]) = true := by
    decide +kernel
  have hints : (list [int 9007199254740992]).Exact := ⟨h53, trivial⟩
  have hdoubles : (list [number twoTo53]).Exact := ⟨ne_nan_of_isFinite hfinite, trivial⟩
  have hinfinity : Double.infinity false ≠ .nan := by decide
  refine ⟨hfinite, h53, hplaces, hlists, ?_, ?_⟩
  · exact hequivalence.symm (x := ⟨_, hints⟩) (y := ⟨_, hdoubles⟩) hlists
  · exact horders.total _ _ ⟨h53, rfl⟩ ⟨hinfinity, rfl⟩

/-- **One beyond `2^53` no double holds the number.** It agrees with the double `2^53` at another
place, and so agreement is not transitive: that double also agrees with `2^53`. -/
theorem not_byPlace_beyond_twoTo53 :
    (int 9007199254740993).agrees (number twoTo53) = true ∧
      (int 9007199254740993).place? ≠ (number twoTo53).place? ∧
      (int 9007199254740993).compare? (number twoTo53) = some .eq ∧
      (int 9007199254740993).comparePlaces? (number twoTo53) = some .gt ∧
      (number twoTo53).agrees (int 9007199254740992) = true ∧
      (int 9007199254740993).agrees (int 9007199254740992) = false := by
  decide +kernel

end WhereRules.Value
