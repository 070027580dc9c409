import Mathlib.Data.List.Perm.Subperm
import WhereRules.Proofs.Comparing.Places
import WhereRules.Proofs.Reading.Get

/-!
# Equality and order fit together

Whether two values agree and which of them is larger are asked by two relations that are defined
apart, and a whole number meets a double in both. Still they fit together
(`coherent_agrees_compare?`): neither depends on which of two values comes first, a value agrees with
itself unless there is a `nan` in it, values that are comparable agree exactly where neither is
larger, and being smaller is transitive. So of two comparable operands a rule finds exactly one of
`<`, `=` and `>`.

Agreement itself is not transitive on all values, for two whole numbers may be rounded to one double;
being smaller is, because rounding keeps the order of whole numbers (`doublePlace?_mono`). Maps are
compared entry by entry, and since entries stand in key order (`Keyed.sorted_ofList`) that is the
same as looking each key up (`agrees_map_iff_lookup`).
-/

namespace WhereRules

/-! ## Entries in key order -/

namespace Keyed

variable {α : Type} {entries : List (String × α)}

/-- Whatever is in a map after an entry was put in is that entry or was there before. -/
theorem mem_or_eq_of_mem_insert {key : String} {value : α} {entry : String × α}
    (h : entry ∈ insert key value entries) : entry = (key, value) ∨ entry ∈ entries := by
  fun_induction insert key value entries with
  | case1 => exact .inl (List.mem_singleton.mp h)
  | case2 k v rest => exact List.mem_cons.mp h
  | case3 v rest => exact (List.mem_cons.mp h).imp_right (List.mem_cons_of_mem _)
  | case4 k v rest _ _ ih =>
    rcases List.mem_cons.mp h with rfl | hrest
    · exact .inr List.mem_cons_self
    · exact (ih hrest).imp_right (List.mem_cons_of_mem _)

/-- Inserting keeps the key order: the entry goes before the first larger key, and takes the place
of an entry under its own key. -/
theorem sorted_insert (key : String) (value : α) (h : Sorted entries) :
    Sorted (insert key value entries) := by
  fun_induction insert key value entries with
  | case1 => exact List.pairwise_singleton _ _
  | case2 k v rest hlt =>
    refine List.pairwise_cons.mpr ⟨fun entry hmem => ?_, h⟩
    rcases List.mem_cons.mp hmem with rfl | hrest
    · exact hlt
    · exact String.lt_trans hlt (List.rel_of_pairwise_cons h hrest)
  | case3 v rest => exact List.pairwise_cons.mpr (List.pairwise_cons.mp h)
  | case4 k v rest hlt hne ih =>
    obtain ⟨hfirst, hrest⟩ := List.pairwise_cons.mp h
    refine List.pairwise_cons.mpr ⟨fun entry hmem => ?_, ih hrest⟩
    rcases mem_or_eq_of_mem_insert hmem with rfl | hold
    · exact Std.lt_of_le_of_ne (Std.not_lt.mp hlt) (Ne.symm hne)
    · exact hfirst entry hold

/-- Whatever entries a map is made of, it is in key order. -/
theorem sorted_ofList (entries : List (String × α)) : Sorted (ofList entries) := by
  refine List.foldlRecOn (motive := Sorted) entries _ List.Pairwise.nil fun sorted h entry _ => ?_
  exact sorted_insert entry.1 entry.2 h

/-- In a map in key order no key comes twice, so looking a key up finds every entry under it. This
is how equality by lookup comes to be equality entry by entry. -/
theorem lookup_eq_some_iff (h : Sorted entries) {key : String} {value : α} :
    entries.lookup key = some value ↔ (key, value) ∈ entries := by
  induction entries with
  | nil => exact iff_of_false (fun h => nomatch h) List.not_mem_nil
  | cons entry entries ih =>
    obtain ⟨k, v⟩ := entry
    obtain ⟨hfirst, hrest⟩ := List.pairwise_cons.mp h
    rw [lookup_cons, List.mem_cons, Prod.mk.injEq]
    by_cases hkey : key = k
    · rw [if_pos hkey, Option.some.injEq]
      have hnot : (key, value) ∉ entries := fun hmem =>
        String.lt_irrefl k (hkey ▸ hfirst (key, value) hmem)
      exact ⟨fun hv => .inl ⟨hkey, hv.symm⟩, fun hv => (hv.resolve_right hnot).2.symm⟩
    · rw [if_neg hkey, ih hrest]
      exact ⟨.inr, fun hv => hv.resolve_left fun hv => hkey hv.1⟩

/-- As many entries, each under a key of the others: then the keys are the same, in the same order.
For the keys of the one are then a rearrangement of those of the other, and both are sorted. -/
theorem map_fst_eq {as bs : List (String × α)} (has : Sorted as) (hbs : Sorted bs)
    (hlength : as.length = bs.length)
    (hkeys : ∀ entry ∈ as, ∃ value, (entry.1, value) ∈ bs) :
    as.map Prod.fst = bs.map Prod.fst := by
  have hsorted : ∀ {entries : List (String × α)}, Sorted entries →
      (entries.map Prod.fst).Pairwise (· < ·) := List.pairwise_map.mpr
  have hnodup : (as.map Prod.fst).Nodup := by
    refine (hsorted has).imp ?_
    intro j k hlt heq
    exact String.lt_irrefl k (heq ▸ hlt)
  have hsubset : as.map Prod.fst ⊆ bs.map Prod.fst := by
    intro key hmem
    obtain ⟨entry, hentry, rfl⟩ := List.mem_map.mp hmem
    obtain ⟨value, hvalue⟩ := hkeys entry hentry
    exact List.mem_map.mpr ⟨_, hvalue, rfl⟩
  have hperm : (as.map Prod.fst).Perm (bs.map Prod.fst) := by
    refine (hnodup.subperm hsubset).perm_of_length_le ?_
    rw [List.length_map, List.length_map, hlength]
  refine hperm.eq_of_pairwise (fun j k _ _ hjk hkj => ?_) (hsorted has) (hsorted hbs)
  exact absurd (String.lt_trans hjk hkj) (String.lt_irrefl j)

end Keyed

/-! ## Doubles -/

/-- The other way round two doubles have the opposite order, or still none. On the line this is the
order of their places; off it there is `nan`. -/
theorem Double.compare?_swap (x y : Double) : y.compare? x = (x.compare? y).map Ordering.swap := by
  unfold Double.compare?
  cases x.rank? with
  | none => cases y.rank? <;> rfl
  | some p =>
    cases y.rank? with
    | none => rfl
    | some q => exact congrArg some Std.OrientedCmp.eq_swap

/-- A double is smaller than another when both stand on the line and the first stands before. -/
theorem Double.compare?_eq_lt_iff {x y : Double} :
    x.compare? y = some .lt ↔ ∃ p q, x.rank? = some p ∧ y.rank? = some q ∧ p < q := by
  unfold Double.compare?
  cases x.rank? with
  | none => simp
  | some p =>
    cases y.rank? with
    | none => simp
    | some q => simp [compare_lt_iff_lt]

/-- Equality of doubles does not depend on which comes first. -/
theorem Double.numEq_comm (x y : Double) : x.numEq y = y.numEq x := by
  unfold Double.numEq
  rw [Double.compare?_swap x y]
  cases x.compare? y with
  | none => rfl
  | some order => cases order <;> rfl

/-- A double equals itself unless it is `nan`. -/
theorem Double.numEq_self_iff (x : Double) : x.numEq x = true ↔ x ≠ .nan := by
  cases x with
  | nan => decide
  | infinity negative =>
    exact iff_of_true ((Value.numEq_eq_true_iff rfl rfl).mpr rfl) Double.noConfusion
  | finite negative m =>
    exact iff_of_true ((Value.numEq_eq_true_iff rfl rfl).mpr rfl) Double.noConfusion

/-- The comparison that asks for an order. -/
def Relation.ofOrdering : Ordering → Relation
  | .lt => less
  | .eq => equal
  | .gt => greater

namespace Value

/-! ## Either way round -/

/-- Numbers agree either way round, whichever of them is whole. A whole number is compared by the
double that it is rounded to, on either side. -/
theorem numbersAgree_comm (a b : Value) : numbersAgree a b = numbersAgree b a := by
  unfold numbersAgree
  cases a.asDouble? with
  | none => cases b.asDouble? <;> rfl
  | some x =>
    cases b.asDouble? with
    | none => rfl
    | some y => exact x.numEq_comm y

mutual

/-- **Agreement does not depend on which of two values comes first.** The induction goes through
both values side by side, as agreement itself does. -/
theorem agrees_comm : (a b : Value) → a.agrees b = b.agrees a
  | .null, b => by cases b <;> rfl
  | .bool x, b => by
    cases b with
    | bool y => exact Bool.beq_comm
    | _ => rfl
  | .int m, b => by
    cases b with
    | int n => exact Bool.beq_comm
    | number y => exact numbersAgree_comm (int m) (number y)
    | _ => rfl
  | .number x, b => by
    cases b with
    | int n => exact numbersAgree_comm (number x) (int n)
    | number y => exact numbersAgree_comm (number x) (number y)
    | _ => rfl
  | .text s, b => by
    cases b with
    | text t => exact Bool.beq_comm
    | _ => rfl
  | .list as, b => by
    cases b with
    | list bs => exact agreeItems_comm as bs
    | _ => rfl
  | .map as, b => by
    cases b with
    | map bs => exact agreeEntries_comm as bs
    | _ => rfl

/-- Lists agree item by item either way round. -/
theorem agreeItems_comm : (as bs : List Value) → agreeItems as bs = agreeItems bs as
  | [], [] => rfl
  | [], _ :: _ => rfl
  | _ :: _, [] => rfl
  | a :: as, b :: bs => by rw [agreeItems, agreeItems, agrees_comm a b, agreeItems_comm as bs]

/-- Entries agree either way round: the keys are the same, and the values agree. -/
theorem agreeEntries_comm : (as bs : List (String × Value)) →
    agreeEntries as bs = agreeEntries bs as
  | [], [] => rfl
  | [], _ :: _ => rfl
  | _ :: _, [] => rfl
  | (j, a) :: as, (k, b) :: bs => by
    rw [agreeEntries, agreeEntries, agrees_comm a b, agreeEntries_comm as bs, Bool.beq_comm (a := j)]

end

/-- **The other way round the order is the opposite one**, or there is still none. -/
theorem compare?_swap (a b : Value) : b.compare? a = (a.compare? b).map Ordering.swap := by
  cases a with
  | int m =>
    cases b with
    | int n => exact congrArg some Std.OrientedCmp.eq_swap
    | number y => exact Double.compare?_swap _ _
    | _ => rfl
  | number x =>
    cases b with
    | int n => exact Double.compare?_swap _ _
    | number y => exact Double.compare?_swap _ _
    | _ => rfl
  | text s =>
    cases b with
    | text t => exact congrArg some Std.OrientedCmp.eq_swap
    | _ => rfl
  | bool x =>
    cases b with
    | bool y => exact congrArg some Std.OrientedCmp.eq_swap
    | _ => rfl
  | null | list _ | map _ => cases b <;> rfl

/-! ## A value and itself -/

mutual

/-- Whether there is a `nan` in a value. -/
def hasNan : Value → Bool
  | number x => x == .nan
  | list items => hasNanItems items
  | map entries => hasNanEntries entries
  | null | bool _ | int _ | text _ => false

/-- Whether there is a `nan` in one of the items. -/
def hasNanItems : List Value → Bool
  | [] => false
  | item :: items => hasNan item || hasNanItems items

/-- Whether there is a `nan` in one of the values of a map. -/
def hasNanEntries : List (String × Value) → Bool
  | [] => false
  | (_, value) :: entries => hasNan value || hasNanEntries entries

end

mutual

/-- **A value agrees with itself unless there is a `nan` in it**, however deep. -/
theorem agrees_self_iff : (a : Value) → (a.agrees a = true ↔ a.hasNan = false)
  | .null => iff_of_true rfl rfl
  | .bool x => iff_of_true (beq_self_eq_true x) rfl
  | .int n => iff_of_true (beq_self_eq_true n) rfl
  | .number x => by
    show x.numEq x = true ↔ (x == .nan) = false
    rw [Double.numEq_self_iff, beq_eq_false_iff_ne]
  | .text s => iff_of_true (beq_self_eq_true s) rfl
  | .list items => agreeItems_self_iff items
  | .map entries => agreeEntries_self_iff entries

/-- A list agrees with itself item by item when no item has a `nan` in it. -/
theorem agreeItems_self_iff : (items : List Value) →
    (agreeItems items items = true ↔ hasNanItems items = false)
  | [] => iff_of_true rfl rfl
  | item :: items => by
    rw [agreeItems, hasNanItems, Bool.and_eq_true, Bool.or_eq_false_iff, agrees_self_iff item,
      agreeItems_self_iff items]

/-- The entries of a map agree with themselves when no value has a `nan` in it. -/
theorem agreeEntries_self_iff : (entries : List (String × Value)) →
    (agreeEntries entries entries = true ↔ hasNanEntries entries = false)
  | [] => iff_of_true rfl rfl
  | (key, value) :: entries => by
    rw [agreeEntries, hasNanEntries, beq_self_eq_true, Bool.true_and, Bool.and_eq_true,
      Bool.or_eq_false_iff, agrees_self_iff value, agreeEntries_self_iff entries]

end

/-! ## Equal in the order -/

/-- Numbers agree as doubles just when the comparison of these doubles finds them equal. -/
theorem numbersAgree_iff_compare? {a b : Value} {x y : Double} (hx : a.asDouble? = some x)
    (hy : b.asDouble? = some y) : numbersAgree a b = true ↔ x.compare? y = some .eq := by
  rw [numbersAgree, hx, hy]
  exact beq_iff_eq

/-- What is comparable agrees where neither is larger. The two questions are answered apart, by
kind, and both turn to doubles where one of two numbers is no whole number. -/
theorem compare?_eq_iff_agrees {a b : Value} {order : Ordering} (h : a.compare? b = some order) :
    order = .eq ↔ a.agrees b = true := by
  have hdoubles : ∀ {x y : Double}, a.asDouble? = some x → b.asDouble? = some y →
      x.compare? y = some order → (order = .eq ↔ numbersAgree a b = true) := by
    intro x y hx hy horder
    rw [numbersAgree_iff_compare? hx hy, horder, Option.some.injEq]
  cases a with
  | int m =>
    cases b with
    | int n =>
      obtain rfl : compare m.toInt n.toInt = order := Option.some.inj h
      rw [compare_eq_iff_eq, Int64.toInt_inj]
      exact beq_iff_eq.symm
    | number y => exact hdoubles rfl rfl h
    | _ => cases h
  | number x =>
    cases b with
    | int n => exact hdoubles rfl rfl h
    | number y => exact hdoubles rfl rfl h
    | _ => cases h
  | text s =>
    cases b with
    | text t =>
      obtain rfl : compare s t = order := Option.some.inj h
      exact Std.LawfulEqCmp.compare_eq_iff_eq.trans beq_iff_eq.symm
    | _ => cases h
  | bool x =>
    cases b with
    | bool y =>
      obtain rfl : compare x y = order := Option.some.inj h
      exact Std.LawfulEqCmp.compare_eq_iff_eq.trans beq_iff_eq.symm
    | _ => cases h
  | null | list _ | map _ => cases b <;> cases h

/-! ## Smaller -/

/-- Where the double of a number stands. -/
def doublePlace? (a : Value) : Option Int := a.asDouble?.bind Double.rank?

/-- A number stands where its double does. -/
theorem doublePlace?_of_asDouble? {a : Value} {x : Double} (h : a.asDouble? = some x) :
    a.doublePlace? = x.rank? := by
  rw [doublePlace?, h, Option.bind_some]

/-- A whole number that is no larger than another is rounded to no larger double. This is what
rounding keeps, and it makes being smaller transitive although agreement is not. -/
theorem doublePlace?_mono {m n : Int64} (h : m.toInt ≤ n.toInt) {p q : Int}
    (hp : (int m).doublePlace? = some p) (hq : (int n).doublePlace? = some q) : p ≤ q := by
  rw [doublePlace?_of_asDouble? rfl] at hp hq
  exact Double.rank?_ofInt_mono h (Double.isFinite_ofInt (natAbs_toInt_lt m))
    (Double.isFinite_ofInt (natAbs_toInt_lt n)) hp hq

/-- How one number is smaller than another: its double is, or they are whole numbers. In the second
case their doubles may be the same. -/
theorem exists_doublePlace?_of_lt {a b : Value} (hb : b.IsNumber) (h : a.compare? b = some .lt) :
    ∃ p q, a.doublePlace? = some p ∧ b.doublePlace? = some q ∧ p ≤ q ∧
      (p < q ∨ ∃ m n, a = int m ∧ b = int n ∧ m.toInt < n.toInt) := by
  have hdoubles : ∀ {x y : Double}, a.asDouble? = some x → b.asDouble? = some y →
      x.compare? y = some .lt → ∃ p q, a.doublePlace? = some p ∧ b.doublePlace? = some q ∧ p ≤ q ∧
        (p < q ∨ ∃ m n, a = int m ∧ b = int n ∧ m.toInt < n.toInt) := by
    intro x y hx hy hlt
    obtain ⟨p, q, hp, hq, hpq⟩ := Double.compare?_eq_lt_iff.mp hlt
    exact ⟨p, q, (doublePlace?_of_asDouble? hx).trans hp, (doublePlace?_of_asDouble? hy).trans hq,
      Int.le_of_lt hpq, .inl hpq⟩
  cases b with
  | int n =>
    cases a with
    | int m =>
      have hlt : m.toInt < n.toInt := compare_lt_iff_lt.mp (Option.some.inj h)
      obtain ⟨p, hp⟩ := exists_rank?_ofInt m
      obtain ⟨q, hq⟩ := exists_rank?_ofInt n
      have hp' : (int m).doublePlace? = some p := (doublePlace?_of_asDouble? rfl).trans hp
      have hq' : (int n).doublePlace? = some q := (doublePlace?_of_asDouble? rfl).trans hq
      exact ⟨p, q, hp', hq', doublePlace?_mono (Int.le_of_lt hlt) hp' hq', .inr ⟨m, n, rfl, rfl, hlt⟩⟩
    | number x => exact hdoubles rfl rfl h
    | _ => cases h
  | number y =>
    cases a with
    | int m => exact hdoubles rfl rfl h
    | number x => exact hdoubles rfl rfl h
    | _ => cases h
  | _ => cases hb

/-- A number with the smaller double is smaller, whatever the kinds of the two: whole numbers with
different doubles are in the order of these. -/
theorem compare?_of_doublePlace? {a b : Value} {p q : Int} (hp : a.doublePlace? = some p)
    (hq : b.doublePlace? = some q) (h : p < q) : a.compare? b = some .lt := by
  obtain ⟨x, hx, hxp⟩ := Option.bind_eq_some_iff.mp hp
  obtain ⟨y, hy, hyq⟩ := Option.bind_eq_some_iff.mp hq
  have hdoubles : x.compare? y = some .lt := Double.compare?_eq_lt_iff.mpr ⟨p, q, hxp, hyq, h⟩
  cases a with
  | int m =>
    cases b with
    | int n =>
      -- in the other order the double would be in the other order, or the same
      have hlt : m.toInt < n.toInt := by
        by_contra hge
        exact Int.not_le.mpr h (doublePlace?_mono (Int.not_lt.mp hge) hq hp)
      exact congrArg some (compare_lt_iff_lt.mpr hlt)
    | number _ =>
      cases hx
      cases hy
      exact hdoubles
    | _ => cases hy
  | number _ =>
    cases b with
    | int _ | number _ =>
      cases hx
      cases hy
      exact hdoubles
    | _ => cases hy
  | _ => cases hx

/-- **Being smaller is transitive.** Along three numbers the doubles never go back; if they go
forward anywhere the outer two are in order, and otherwise all three are whole. -/
theorem compare?_lt_trans {a b c : Value} (hab : a.compare? b = some .lt)
    (hbc : b.compare? c = some .lt) : a.compare? c = some .lt := by
  have hnumbers : b.IsNumber → c.IsNumber → a.compare? c = some .lt := by
    intro hb hc
    obtain ⟨p, q, hp, hq, hpq, hstrict⟩ := exists_doublePlace?_of_lt hb hab
    obtain ⟨q', r, hq', hr, hqr, hstrict'⟩ := exists_doublePlace?_of_lt hc hbc
    obtain rfl : q = q' := Option.some.inj (hq.symm.trans hq')
    rcases hstrict with hlt | ⟨m, n, rfl, rfl, hmn⟩
    · exact compare?_of_doublePlace? hp hr (Int.lt_of_lt_of_le hlt hqr)
    rcases hstrict' with hlt | ⟨n', k, hn, rfl, hnk⟩
    · exact compare?_of_doublePlace? hp hr (Int.lt_of_le_of_lt hpq hlt)
    · -- three whole numbers
      cases hn
      exact congrArg some (compare_lt_iff_lt.mpr (Int.lt_trans hmn hnk))
  cases b with
  | int n =>
    cases c with
    | int _ | number _ => exact hnumbers rfl rfl
    | _ => cases hbc
  | number y =>
    cases c with
    | int _ | number _ => exact hnumbers rfl rfl
    | _ => cases hbc
  | text t =>
    cases a with
    | text s =>
      cases c with
      | text u =>
        exact congrArg some (Std.TransCmp.lt_trans (Option.some.inj hab) (Option.some.inj hbc))
      | _ => cases hbc
    | _ => cases hab
  | bool y =>
    cases a with
    | bool x =>
      cases c with
      | bool z =>
        exact congrArg some (Std.TransCmp.lt_trans (Option.some.inj hab) (Option.some.inj hbc))
      | _ => cases hbc
    | _ => cases hab
  | null | list _ | map _ => cases a <;> cases hab

/-! ## Maps by key -/

/-- Maps agree entry by entry: under the same keys in the same order, with values that agree. -/
theorem agreeEntries_iff_forall₂ : {as bs : List (String × Value)} →
    (agreeEntries as bs = true ↔ as.Forall₂ (fun a b => a.1 = b.1 ∧ a.2.agrees b.2 = true) bs)
  | [], [] => iff_of_true rfl .nil
  | [], _ :: _ => iff_of_false Bool.false_ne_true fun h => nomatch h
  | _ :: _, [] => iff_of_false Bool.false_ne_true fun h => nomatch h
  | (j, a) :: as, (k, b) :: bs => by
    rw [agreeEntries, List.forall₂_cons, Bool.and_eq_true, Bool.and_eq_true, beq_iff_eq,
      agreeEntries_iff_forall₂]

/-- **Maps agree when they have equally many entries and each of one agrees with what is under its
key in the other.** Entry by entry the code compares them in key order, which comes to the same
since maps are kept in that order. -/
theorem agrees_map_iff_lookup {as bs : List (String × Value)} (has : Keyed.Sorted as)
    (hbs : Keyed.Sorted bs) : (map as).agrees (map bs) = true ↔ as.length = bs.length ∧
      ∀ entry ∈ as, ∃ value, bs.lookup entry.1 = some value ∧ entry.2.agrees value = true := by
  refine Iff.trans agreeEntries_iff_forall₂ ⟨fun h => ⟨h.length_eq, fun entry hmem => ?_⟩,
    fun ⟨hlength, hfound⟩ => ?_⟩
  · obtain ⟨i, hi, rfl⟩ := List.mem_iff_getElem.mp hmem
    obtain ⟨hkey, hagrees⟩ := (List.forall₂_iff_get.mp h).2 i hi (h.length_eq ▸ hi)
    refine ⟨_, (Keyed.lookup_eq_some_iff hbs).mpr ?_, hagrees⟩
    exact (congrArg (·, _) hkey) ▸ List.getElem_mem _
  · -- the keys of the two are the same, one by one, so what is found stands in the same place
    have hkeys : as.map Prod.fst = bs.map Prod.fst := by
      refine Keyed.map_fst_eq has hbs hlength fun entry hmem => ?_
      obtain ⟨value, hvalue, -⟩ := hfound entry hmem
      exact ⟨value, (Keyed.lookup_eq_some_iff hbs).mp hvalue⟩
    refine List.forall₂_iff_get.mpr ⟨hlength, fun i hi hi' => ?_⟩
    obtain ⟨value, hvalue, hagrees⟩ := hfound as[i] (List.getElem_mem hi)
    have hkey : as[i].1 = bs[i].1 := by
      simpa [hi, hi'] using congrArg (·[i]?) hkeys
    have hsame : bs.lookup as[i].1 = some bs[i].2 :=
      (Keyed.lookup_eq_some_iff hbs).mpr (hkey ▸ List.getElem_mem hi')
    obtain rfl : bs[i].2 = value := Option.some.inj (hsame.symm.trans hvalue)
    exact ⟨hkey, hagrees⟩

/-! ## Comparisons -/

section Comparisons

variable {a b : Value} {relation : Relation}

/-- Of what is comparable one side is smaller, both are equal or one is larger, and the comparison
that holds is the one that asks for this order. -/
theorem holds_iff_eq_ofOrdering {order : Ordering} (h : a.compare? b = some order)
    (hmem : relation ∈ [.less, .equal, .greater]) :
    relation.holds a b = true ↔ relation = .ofOrdering order := by
  have hagrees : a.agrees b = (order == .eq) := by
    rw [Bool.eq_iff_iff, ← compare?_eq_iff_agrees h, beq_iff_eq]
  simp only [List.mem_cons, List.not_mem_nil, or_false] at hmem
  rcases hmem with rfl | rfl | rfl
  · rw [Relation.holds, h]
    cases order <;> decide
  · rw [Relation.holds, hagrees]
    cases order <;> decide
  · rw [Relation.holds, h]
    cases order <;> decide

/-- Never two of these: of comparable values exactly one of `<`, `=` and `>` holds. What makes
values comparable is that the comparison gives an order at all. -/
theorem existsUnique_holds (h : a.compare? b ≠ none) :
    ∃! relation : Relation,
      relation ∈ [.less, .equal, .greater] ∧ relation.holds a b = true := by
  obtain ⟨order, horder⟩ := Option.ne_none_iff_exists'.mp h
  have hmem : Relation.ofOrdering order ∈ [Relation.less, .equal, .greater] := by
    cases order <;> decide
  refine ⟨.ofOrdering order, ⟨hmem, (holds_iff_eq_ofOrdering horder hmem).mpr rfl⟩, ?_⟩
  rintro relation ⟨hrelation, hholds⟩
  exact (holds_iff_eq_ofOrdering horder hrelation).mp hholds

/-- What is incomparable is neither smaller nor larger, nor equal or one of these. -/
theorem holds_of_incomparable (h : a.compare? b = none)
    (hmem : relation ∈ [.less, .lessOrEqual, .greater, .greaterOrEqual]) :
    relation.holds a b = false := by
  simp only [List.mem_cons, List.not_mem_nil, or_false] at hmem
  rcases hmem with rfl | rfl | rfl | rfl <;> rw [Relation.holds, h] <;> rfl

end Comparisons

/-! ## Together -/

/-- **Equality and order of values are coherent.** Two operands that are comparable when they are read
stand in exactly one of `<`, `=` and `>`, and two that are not in none of `<`, `<=`, `>` and `>=`. -/
theorem coherent_agrees_compare? :
    (∀ a b : Value, a.agrees b = b.agrees a) ∧
    (∀ a : Value, a.agrees a = true ↔ a.hasNan = false) ∧
    (∀ a b : Value, b.compare? a = (a.compare? b).map Ordering.swap) ∧
    (∀ (a b : Value) (order : Ordering), a.compare? b = some order →
      (order = .eq ↔ a.agrees b = true)) ∧
    (∀ a b c : Value, a.compare? b = some .lt → b.compare? c = some .lt →
      a.compare? c = some .lt) ∧
    (∀ as bs : List (String × Value), Keyed.Sorted as → Keyed.Sorted bs →
      ((map as).agrees (map bs) = true ↔ as.length = bs.length ∧
        ∀ entry ∈ as, ∃ value, bs.lookup entry.1 = some value ∧ entry.2.agrees value = true)) ∧
    ∀ (left right : Operand) (state : ReadState),
      let a := (left.read.run state).1
      let b := (right.read.run (left.read.run state).2).1
      let decides := fun relation : Relation =>
        ((Predicate.comparison relation left right).evaluate.run state).1
      (a.compare? b ≠ none → ∃! relation,
        relation ∈ [.less, .equal, .greater] ∧ decides relation = true) ∧
      (a.compare? b = none → ∀ relation ∈ [.less, .lessOrEqual, .greater, .greaterOrEqual],
        decides relation = false) := by
  refine ⟨agrees_comm, agrees_self_iff, compare?_swap, fun a b order => compare?_eq_iff_agrees,
    fun a b c => compare?_lt_trans, fun as bs => agrees_map_iff_lookup, ?_⟩
  intro left right state a b decides
  have hdecides : ∀ relation, decides relation = relation.holds a b := by
    intro relation
    show ((Predicate.comparison relation left right).evaluate.run state).1 = _
    rw [Predicate.evaluate]
    rfl
  refine ⟨fun h => ?_, fun h relation hmem => ?_⟩
  · simpa only [hdecides] using existsUnique_holds h
  · rw [hdecides, holds_of_incomparable h hmem]

/-- Two maps that hold the double `2^53` and whole numbers which it is compared with. -/
def beyondTwoTo53 : List (String × Value) × List (String × Value) :=
  (Keyed.ofList [("b", list [number twoTo53]), ("a", int 9007199254740993)],
    Keyed.ofList [("b", list [int 9007199254740992]), ("a", number twoTo53)])

/-- The two maps agree, either way round and key by key, though agreement goes through rounding
there. -/
theorem coherent_beyondTwoTo53 :
    (map beyondTwoTo53.2).agrees (map beyondTwoTo53.1) = true ∧
      (map beyondTwoTo53.1).agrees (map beyondTwoTo53.1) = true ∧
      (∃ value, beyondTwoTo53.2.lookup "a" = some value ∧
        (int 9007199254740993).agrees value = true) ∧
      ((int 9007199254740992).compare? (int 9007199254740993) = some .lt ∧
        (int 9007199254740993).compare? (number (.infinity false)) = some .lt ∧
        (int 9007199254740992).compare? (number (.infinity false)) = some .lt) ∧
      ∀ state : ReadState, (∃! relation : Relation, relation ∈ [.less, .equal, .greater] ∧
          ((Predicate.comparison relation (.constant (int 9007199254740993))
            (.constant (number twoTo53))).evaluate.run state).1 = true) ∧
        ((Predicate.comparison .lessOrEqual (.constant (int 1))
          (.constant (number .nan))).evaluate.run state).1 = false := by
  obtain ⟨hcomm, hself, hswap, hequal, htrans, hmaps, hdecides⟩ := coherent_agrees_compare?
  have hagrees : (map beyondTwoTo53.1).agrees (map beyondTwoTo53.2) = true := by decide +kernel
  have hone : (int 9007199254740992).compare? (int 9007199254740993) = some .lt := by decide +kernel
  have hinfinity : (int 9007199254740993).compare? (number (.infinity false)) = some .lt := by
    decide +kernel
  refine ⟨(hcomm _ _).trans hagrees, (hself _).mpr (by decide +kernel), ?_,
    ⟨hone, hinfinity, htrans _ _ _ hone hinfinity⟩, fun state => ⟨?_, ?_⟩⟩
  · have hkeys := (hmaps _ _ (Keyed.sorted_ofList _) (Keyed.sorted_ofList _)).mp hagrees
    have hofList : ∀ u v : Value, Keyed.ofList [("b", u), ("a", v)] = [("a", v), ("b", u)] := by
      intro u v
      refine if_pos ?_
      simp only
      decide +kernel
    have hmem : ("a", int 9007199254740993) ∈ beyondTwoTo53.1 := by
      rw [beyondTwoTo53, hofList]
      exact List.mem_cons_self
    exact hkeys.2 _ hmem
  · have hcomparable : (int 9007199254740993).compare? (number twoTo53) ≠ none := by
      decide +kernel
    have hread := (hdecides (.constant (int 9007199254740993)) (.constant (number twoTo53)) state).1
    rw [Operand.read, Operand.read] at hread
    exact hread hcomparable
  · have hnan : (int 1).compare? (number .nan) = none := by decide +kernel
    have hread := (hdecides (.constant (int 1)) (.constant (number .nan)) state).2
    rw [Operand.read, Operand.read] at hread
    exact hread hnan .lessOrEqual (by decide)

end Value

end WhereRules
