import WhereRules.Proofs.Comparing.Coherence
import WhereRules.Proofs.Documents.Reread
import WhereRules.Value.Json

/-!
# Values in and out of documents

A document becomes a value in two ways, and they agree on every text (`ofJsonText_eq`): settling the
names of every object and converting part by part, or taking the document as it was read and letting
what the content is decide. What comes out is said without either way (`Json.Denotes`): a whole
number that fits 64 signed bits stays whole, every other number is a double, and of a repeated name
the last one counts, at every level.

A value written as a document reads back, its whole numbers whole and its doubles doubles.
-/

namespace WhereRules

/-! ## Entries put in their places -/

namespace Keyed

variable {α β : Type}

/-- Of a repeated key the last one is found, because an entry takes the place of an earlier one. -/
theorem lookup_ofList (key : String) (entries : List (String × α)) :
    (ofList entries).lookup key = entries.reverse.lookup key := by
  -- An entry that comes later hides those in place, so the fold is looked at from any start.
  have hfold : ∀ sorted : List (String × α),
      (entries.foldl (fun sorted entry => insert entry.1 entry.2 sorted) sorted).lookup key =
        (entries.reverse.lookup key).or (sorted.lookup key) := by
    induction entries with
    | nil => exact fun sorted => rfl
    | cons entry rest ih =>
      intro sorted
      rw [List.foldl_cons, ih, lookup_insert, List.reverse_cons, List.lookup_append, lookup_cons,
        Option.or_assoc]
      split <;> rfl
  rw [ofList, hfold, List.lookup_nil, Option.or_none]

/-- Putting entries in their places brings in no others. -/
theorem mem_of_mem_ofList {entry : String × α} {entries : List (String × α)}
    (h : entry ∈ ofList entries) : entry ∈ entries := by
  have hsubset : ofList entries ⊆ entries := by
    refine List.foldlRecOn (motive := (· ⊆ entries)) entries _ (List.nil_subset _) ?_
    intro sorted hsorted added hadded other hmem
    rcases mem_or_eq_of_mem_insert hmem with rfl | hold
    · exact hadded
    · exact hsorted hold
  exact hsubset h

/-- An entry goes to the same place when all values are changed. -/
theorem insert_map (f : α → β) (key : String) (value : α) (entries : List (String × α)) :
    insert key (f value) (entries.map fun entry => (entry.1, f entry.2)) =
      (insert key value entries).map fun entry => (entry.1, f entry.2) := by
  fun_induction insert key value entries with
  | case1 => rfl
  | case2 k v rest hlt =>
    rw [List.map_cons, insert, if_pos hlt]
    rfl
  | case3 v rest hlt =>
    rw [List.map_cons, insert, if_neg hlt, if_pos rfl]
    rfl
  | case4 k v rest hlt hne ih =>
    rw [List.map_cons, insert, if_neg hlt, if_neg hne, ih]
    rfl

/-- Changing the values does not change where the entries go, for they go by their keys. -/
theorem ofList_map (f : α → β) (entries : List (String × α)) :
    ofList (entries.map fun entry => (entry.1, f entry.2)) =
      (ofList entries).map fun entry => (entry.1, f entry.2) := by
  have hfold : ∀ sorted : List (String × α),
      (entries.map fun entry => (entry.1, f entry.2)).foldl
          (fun sorted entry => insert entry.1 entry.2 sorted)
          (sorted.map fun entry => (entry.1, f entry.2)) =
        (entries.foldl (fun sorted entry => insert entry.1 entry.2 sorted) sorted).map
          fun entry => (entry.1, f entry.2) := by
    induction entries with
    | nil => exact fun sorted => rfl
    | cons entry rest ih =>
      intro sorted
      rw [List.map_cons, List.foldl_cons, List.foldl_cons]
      dsimp only
      rw [insert_map, ih]
  exact hfold []

/-- An entry with a larger key than all others goes behind them. -/
theorem insert_last {key : String} {entries : List (String × α)}
    (h : ∀ entry ∈ entries, entry.1 < key) (value : α) :
    insert key value entries = entries ++ [(key, value)] := by
  induction entries with
  | nil => rfl
  | cons entry rest ih =>
    obtain ⟨hentry, hrest⟩ := List.forall_mem_cons.mp h
    rw [insert, if_neg (String.lt_asymm hentry), if_neg (String.ne_of_lt hentry).symm, ih hrest]
    rfl

/-- Entries that are in order stay where they are, since each one goes behind those before it. -/
theorem ofList_of_sorted {entries : List (String × α)} (h : Sorted entries) :
    ofList entries = entries := by
  -- Each entry comes behind all that are in place: the order of the whole says so.
  have hfold : ∀ sorted : List (String × α), Sorted (sorted ++ entries) →
      entries.foldl (fun sorted entry => insert entry.1 entry.2 sorted) sorted =
        sorted ++ entries := by
    induction entries with
    | nil => exact fun sorted _ => (List.append_nil sorted).symm
    | cons entry rest ih =>
      intro sorted hsorted
      have hlast : ∀ before ∈ sorted, before.1 < entry.1 := fun before hmem =>
        (List.pairwise_append.mp hsorted).2.2 before hmem entry List.mem_cons_self
      rw [List.foldl_cons, insert_last hlast, ih (List.Pairwise.of_cons h), List.append_assoc]
      · rfl
      · rw [List.append_assoc]
        exact hsorted
  exact hfold [] h

/-- Entries in key order are different from each other, since their keys are. -/
theorem Sorted.nodup {entries : List (String × α)} (h : Sorted entries) : entries.Nodup := by
  refine h.imp ?_
  rintro a _ hlt rfl
  exact String.lt_irrefl a.1 hlt

/-- Entries in order are told by what is found under each key. So what is said of a map by looking
up its keys leaves nothing open. -/
theorem eq_of_lookup {as bs : List (String × α)} (has : Sorted as) (hbs : Sorted bs)
    (h : ∀ key, as.lookup key = bs.lookup key) : as = bs := by
  have hmem : ∀ entry, entry ∈ as ↔ entry ∈ bs := fun entry => by
    rw [← lookup_eq_some_iff has, ← lookup_eq_some_iff hbs, h]
  have hperm : as.Perm bs := (List.perm_ext_iff_of_nodup has.nodup hbs.nodup).mpr hmem
  refine hperm.eq_of_pairwise (fun a b _ _ hab hba => ?_) has hbs
  exact absurd (String.lt_trans hab hba) (String.lt_irrefl a.1)

end Keyed

/-! ## What a document denotes -/

/-- The value of a document: a whole number is one of 64 signed bits or a double, and an object has
the last of the members of each name. -/
inductive Json.Denotes : Json → Value → Prop
  | null : Denotes .null .null
  | bool (b : Bool) : Denotes (.bool b) (.bool b)
  | int (n : Int64) : Denotes (.number (.whole n.toInt)) (.int n)
  | large {n : Int} (h : Value.fitsInt n = false) :
    Denotes (.number (.whole n)) (.number (Double.ofInt n))
  | double (x : Double) : Denotes (.number (.double x)) (.number x)
  | string (s : String) : Denotes (.string s) (.text s)
  | array {items : List Json} {values : List Value} (h : List.Forall₂ Denotes items values) :
    Denotes (.array items) (.list values)
  | object {members : List (String × Json)} {entries : List (String × Value)}
    (hsorted : Keyed.Sorted entries)
    (h : ∀ name, Option.Rel Denotes (members.reverse.lookup name) (entries.lookup name)) :
    Denotes (.object members) (.map entries)

namespace Value

/-- Items become values one by one. -/
theorem ofItemContents_eq (items : List Json) : ofItemContents items = items.map ofContent := by
  induction items with
  | nil => rfl
  | cons item rest ih => rw [ofItemContents, ih, List.map_cons]

/-- Members become entries one by one, and each goes to its place. -/
theorem ofMemberContents_eq (members : List (String × Json)) :
    ofMemberContents members [] =
      Keyed.ofList (members.map fun member => (member.1, ofContent member.2)) := by
  have hfold : ∀ entries, ofMemberContents members entries =
      members.foldl (fun sorted member => Keyed.insert member.1 (ofContent member.2) sorted)
        entries := by
    induction members with
    | nil => exact fun entries => rfl
    | cons member rest ih =>
      intro entries
      rw [ofMemberContents, ih, List.foldl_cons]
  rw [hfold, Keyed.ofList, List.foldl_map]

/-- An array becomes the list of what its items become. -/
theorem ofContent_array (items : List Json) :
    ofContent (.array items) = list (items.map ofContent) := by
  rw [ofContent, ofItemContents_eq]
  rfl

/-- An object becomes the map of what its members become, of a repeated name the last one. -/
theorem ofContent_object (members : List (String × Json)) : ofContent (.object members) =
    map (Keyed.ofList (members.map fun member => (member.1, ofContent member.2))) := by
  rw [ofContent, ofMemberContents_eq]
  rfl

/-- A number becomes a whole number where it fits 64 signed bits and a double otherwise. -/
theorem ofContent_number (n : Json.Number) : ofContent (.number n) = ofJsonNumber n := by
  cases n with
  | double x => rfl
  | whole n =>
    unfold ofContent
    dsimp only [asNull?, asBool?, asInt?, asNumber?, ofJsonNumber]
    split <;> rfl

/-- What a number becomes is what it denotes: its own value where that fits, and otherwise its
double. -/
theorem denotes_ofJsonNumber (n : Json.Number) :
    (Json.number n).Denotes (ofJsonNumber n) := by
  cases n with
  | double x => exact .double x
  | whole n =>
    by_cases hfits : fitsInt n = true
    · have hint : (Int64.ofInt n).toInt = n := by
        simp only [fitsInt, Bool.and_eq_true, decide_eq_true_eq] at hfits
        exact Int64.toInt_ofInt_of_le hfits.1 (Int.lt_of_le_of_lt hfits.2 (by decide))
      have hdenotes := Json.Denotes.int (Int64.ofInt n)
      rw [hint] at hdenotes
      rw [ofJsonNumber, if_pos hfits]
      exact hdenotes
    · rw [ofJsonNumber, if_neg hfits]
      exact .large (Bool.eq_false_iff.mpr hfits)

/-- Under a name stands the value of the last member that has it. -/
theorem lookup_ofMembers (members : List (String × Json)) (name : String) :
    (Keyed.ofList (members.map fun member => (member.1, ofContent member.2))).lookup name =
      (members.reverse.lookup name).map ofContent := by
  rw [Keyed.lookup_ofList, ← List.map_reverse]
  exact Keyed.lookup_map (fun _ => ofContent) name members.reverse

/-- What is found under a name is a member. -/
theorem mem_of_lookup_reverse {members : List (String × Json)} {name : String} {document : Json}
    (h : members.reverse.lookup name = some document) : (name, document) ∈ members := by
  obtain ⟨before, after, hsplit, _⟩ := List.lookup_eq_some_iff.mp h
  refine List.mem_reverse.mp ?_
  rw [hsplit]
  exact List.mem_append_right _ List.mem_cons_self

/-- What the content of a document becomes is denoted by the document. By induction on the
document. -/
theorem denotes_ofContent (document : Json) : document.Denotes (ofContent document) := by
  induction document using Json.inductionOn with
  | null => exact .null
  | bool b => exact .bool b
  | number n =>
    rw [ofContent_number]
    exact denotes_ofJsonNumber n
  | string s => exact .string s
  | array items ih =>
    rw [ofContent_array]
    exact .array (List.forall₂_map_right_iff.mpr (List.forall₂_same.mpr ih))
  | object members ih =>
    rw [ofContent_object]
    refine .object (Keyed.sorted_ofList _) fun name => ?_
    rw [lookup_ofMembers]
    cases hfound : members.reverse.lookup name with
    | none => exact .none
    | some document => exact .some (ih _ (mem_of_lookup_reverse hfound))

/-- What a document denotes is determined part by part, so it is the one value that reading makes of
it. The recursion is on the document, with members matched by name. -/
theorem eq_ofContent_of_denotes {document : Json} {value : Value} (h : document.Denotes value) :
    value = ofContent document := by
  induction document using Json.inductionOn generalizing value with
  | null | bool _ | string _ =>
    cases h
    rfl
  | number n =>
    rw [ofContent_number]
    cases h with
    | int n => rw [ofJsonNumber, if_pos (fitsInt_toInt n), Int64.ofInt_toInt]
    | large hfits => rw [ofJsonNumber, if_neg (Bool.eq_false_iff.mp hfits)]
    | double x => rfl
  | array items ih =>
    cases h with
    | array hvalues =>
      rw [ofContent_array]
      refine congrArg list ?_
      induction hvalues with
      | nil => rfl
      | cons hvalue _ ihvalues =>
        obtain ⟨hitem, hitems⟩ := List.forall_mem_cons.mp ih
        rw [List.map_cons, hitem hvalue, ihvalues hitems]
  | object members ih =>
    cases h with
    | @object _ entries hsorted hentries =>
      rw [ofContent_object]
      refine congrArg map (Keyed.eq_of_lookup hsorted (Keyed.sorted_ofList _) fun name => ?_)
      rw [lookup_ofMembers]
      have hentry := hentries name
      -- The relation is taken apart by its sides, which have to be variables for that.
      generalize entries.lookup name = value? at hentry
      cases hfound : members.reverse.lookup name with
      | none =>
        rw [hfound] at hentry
        cases hentry
        rfl
      | some document =>
        rw [hfound] at hentry
        cases hentry with
        | some hvalue => exact congrArg some (ih _ (mem_of_lookup_reverse hfound) hvalue)

/-- **A document denotes one value**, which is the one that its content becomes. -/
theorem denotes_iff {document : Json} {value : Value} :
    document.Denotes value ↔ value = ofContent document := by
  constructor
  · exact eq_ofContent_of_denotes
  · rintro rfl
    exact denotes_ofContent document

/-! ## The two ways agree -/

/-- Items are settled one by one. -/
theorem settledItems_eq (items : List Json) :
    Json.settledItems items = items.map Json.settled := by
  induction items with
  | nil => rfl
  | cons item rest ih => rw [Json.settledItems, ih, List.map_cons]

/-- The values of members are settled one by one, before repeated names are. -/
theorem settledMembers_eq (members : List (String × Json)) :
    Json.settledMembers members = members.map fun member => (member.1, member.2.settled) := by
  induction members with
  | nil => rfl
  | cons member rest ih => rw [Json.settledMembers, ih, List.map_cons]

/-- Settled items are converted one by one. -/
theorem ofJsonItems_eq (items : List Json) : ofJsonItems items = items.map ofJson := by
  induction items with
  | nil => rfl
  | cons item rest ih => rw [ofJsonItems, ih, List.map_cons]

/-- Settled members are read one by one. -/
theorem ofJsonMembers_eq (members : List (String × Json)) :
    ofJsonMembers members = members.map fun member => (member.1, ofJson member.2) := by
  induction members with
  | nil => rfl
  | cons member rest ih => rw [ofJsonMembers, ih, List.map_cons]

/-- **Converting part by part and taking the content as it was read give the same value.** The one
puts members in their places and converts them there, the other the other way round;
`Keyed.ofList_map` says that this does not matter. -/
theorem ofJson_settled (document : Json) : ofJson document.settled = ofContent document := by
  induction document using Json.inductionOn with
  | null => rfl
  | bool b => rfl
  | number n => exact (ofContent_number n).symm
  | string s => rfl
  | array items ih =>
    rw [ofContent_array, Json.settled, ofJson, settledItems_eq, ofJsonItems_eq, List.map_map]
    exact congrArg list (List.map_congr_left ih)
  | object members ih =>
    have hvalues : (members.map fun member => (member.1, member.2.settled)).map
        (fun member => (member.1, ofJson member.2)) =
          members.map fun member => (member.1, ofContent member.2) := by
      rw [List.map_map]
      exact List.map_congr_left fun member hmem => congrArg (Prod.mk member.1) (ih member hmem)
    rw [ofContent_object, Json.settled, ofJson, ofJsonMembers_eq, settledMembers_eq,
      ← Keyed.ofList_map, hvalues]

/-- The two ways give the same answer to every text, also where it is no document. -/
theorem ofJsonText_eq (text : String) : ofJsonText text = ofContentText text := by
  have hways : (fun document : Json => ofJson document.settled) = ofContent := funext ofJson_settled
  rw [ofJsonText, hways, ofContentText]

/-! ## There and back -/

/-- What holds of a value if it holds of its items and of the values of its entries holds of every
value. -/
@[elab_as_elim]
theorem inductionOn {motive : Value → Prop} (value : Value) (null : motive null)
    (bool : ∀ b, motive (bool b)) (int : ∀ n, motive (int n)) (number : ∀ x, motive (number x))
    (text : ∀ s, motive (text s))
    (list : ∀ items, (∀ item ∈ items, motive item) → motive (list items))
    (map : ∀ entries, (∀ entry ∈ entries, motive entry.2) → motive (map entries)) :
    motive value :=
  @Value.rec motive (fun items => ∀ item ∈ items, motive item)
    (fun entries => ∀ entry ∈ entries, motive entry.2) (fun entry => motive entry.2)
    null bool int number text list map
    (List.forall_mem_nil _) (fun _ _ hitem hrest => List.forall_mem_cons.mpr ⟨hitem, hrest⟩)
    (List.forall_mem_nil _) (fun _ _ hentry hrest => List.forall_mem_cons.mpr ⟨hentry, hrest⟩)
    (fun _ _ hvalue => hvalue) value

mutual

/-- Every map in the value holds its entries in key order. -/
def Ordered : Value → Prop
  | list items => OrderedItems items
  | map entries => Keyed.Sorted entries ∧ OrderedEntries entries
  | _ => True

/-- Every map in the items holds its entries in key order. -/
def OrderedItems : List Value → Prop
  | [] => True
  | item :: rest => Ordered item ∧ OrderedItems rest

/-- And every map in the values of entries. -/
def OrderedEntries : List (String × Value) → Prop
  | [] => True
  | (_, value) :: rest => Ordered value ∧ OrderedEntries rest

end

/-- Items are ordered when each of them is. -/
theorem orderedItems_iff {items : List Value} :
    OrderedItems items ↔ ∀ item ∈ items, item.Ordered := by
  induction items with
  | nil => exact iff_of_true trivial (List.forall_mem_nil _)
  | cons item rest ih => rw [OrderedItems, ih, List.forall_mem_cons]

/-- Entries are ordered when each of their values is. -/
theorem orderedEntries_iff {entries : List (String × Value)} :
    OrderedEntries entries ↔ ∀ entry ∈ entries, entry.2.Ordered := by
  induction entries with
  | nil => exact iff_of_true trivial (List.forall_mem_nil _)
  | cons entry rest ih => rw [OrderedEntries, ih, List.forall_mem_cons]

/-- A value that comes out of a document is in key order at every level, since each entry is put in
its place. -/
theorem ordered_ofContent (document : Json) : (ofContent document).Ordered := by
  induction document using Json.inductionOn with
  | null | bool _ | string _ => trivial
  | number n =>
    rw [ofContent_number]
    cases n with
    | double x => trivial
    | whole n =>
      rw [ofJsonNumber]
      split <;> trivial
  | array items ih =>
    rw [ofContent_array]
    exact orderedItems_iff.mpr (List.forall_mem_map.mpr ih)
  | object members ih =>
    rw [ofContent_object]
    refine ⟨Keyed.sorted_ofList _, orderedEntries_iff.mpr fun entry hmem => ?_⟩
    obtain ⟨member, hmember, rfl⟩ := List.mem_map.mp (Keyed.mem_of_mem_ofList hmem)
    exact ih member hmember

/-- Items are written one by one. -/
theorem toJsonItems_eq (items : List Value) : toJsonItems items = items.map toJson := by
  induction items with
  | nil => rfl
  | cons item rest ih => rw [toJsonItems, ih, List.map_cons]

/-- Entries are written one by one, each as a member. -/
theorem toJsonMembers_eq (entries : List (String × Value)) :
    toJsonMembers entries = entries.map fun entry => (entry.1, toJson entry.2) := by
  induction entries with
  | nil => rfl
  | cons entry rest ih => rw [toJsonMembers, ih, List.map_cons]

/-- The document that is written for a value becomes the value. Its maps are in key order, so their
entries stay where they are. -/
theorem ofContent_toJson {value : Value} (h : value.Ordered) : ofContent value.toJson = value := by
  induction value using inductionOn with
  | null => rfl
  | bool b => rfl
  | int n =>
    rw [toJson, ofContent_number, ofJsonNumber, if_pos (fitsInt_toInt n), Int64.ofInt_toInt]
  | number x => rfl
  | text s => rfl
  | list items ih =>
    have hitems : (items.map toJson).map ofContent = items.map id := by
      rw [List.map_map]
      exact List.map_congr_left fun item hmem => ih item hmem (orderedItems_iff.mp h item hmem)
    rw [toJson, toJsonItems_eq, ofContent_array, hitems, List.map_id]
  | map entries ih =>
    have hentries : (entries.map fun entry => (entry.1, toJson entry.2)).map
        (fun entry => (entry.1, ofContent entry.2)) = entries.map id := by
      rw [List.map_map]
      exact List.map_congr_left fun entry hmem =>
        congrArg (Prod.mk entry.1) (ih entry hmem (orderedEntries_iff.mp h.2 entry hmem))
    rw [toJson, toJsonMembers_eq, ofContent_object, hentries, List.map_id,
      Keyed.ofList_of_sorted h.1]

/-- The whole numbers that are written fit 64 bits, because those of values do. Larger ones in a
document never become whole numbers. -/
theorem exists_toInt_of_mem_numbers {value : Value} {n : Int}
    (h : .whole n ∈ value.toJson.numbers) : ∃ k : Int64, k.toInt = n := by
  induction value using inductionOn with
  | null | bool _ | text _ => cases h
  | int k =>
    cases List.mem_singleton.mp h
    exact ⟨k, rfl⟩
  | number x => cases List.mem_singleton.mp h
  | list items ih =>
    rw [toJson, Json.numbers, Json.itemNumbers_eq, toJsonItems_eq] at h
    obtain ⟨document, hmem, hn⟩ := List.mem_flatMap.mp h
    obtain ⟨item, hitem, rfl⟩ := List.mem_map.mp hmem
    exact ih item hitem hn
  | map entries ih =>
    rw [toJson, Json.numbers, Json.memberNumbers_eq, toJsonMembers_eq] at h
    obtain ⟨member, hmem, hn⟩ := List.mem_flatMap.mp h
    obtain ⟨entry, hentry, rfl⟩ := List.mem_map.mp hmem
    exact ih entry hentry hn

/-- The text that is written for a value is read as its document, if it nests no deeper than
documents may and its doubles read as themselves. -/
theorem ofText_toText_toJson {value : Value} (hnesting : value.toJson.nesting ≤ Json.maxDepth)
    (hdoubles : ∀ x, .double x ∈ value.toJson.numbers → Json.reread? x = some x) :
    Json.ofText value.toJson.toText Json.maxDepth = .ok value.toJson := by
  refine Json.ofText_toText hnesting fun n hn => ?_
  cases n with
  | double x => exact hdoubles x hn
  | whole n =>
    obtain ⟨k, rfl⟩ := exists_toInt_of_mem_numbers hn
    have hmin := Int64.le_toInt k
    have hmax := Int64.toInt_lt k
    have hhalf : UInt64.size / 2 = 2 ^ 63 := by decide
    have hsignificand : Json.significandMax = 2 ^ 64 - 1 := by decide
    constructor
    · omega
    · omega

/-- **Values go in and out of documents unchanged.** The two readings of a text agree, and what they
give is the one value that the document denotes. A value that nests no deeper than documents may, and
whose doubles read as themselves, is read back from its text by both. -/
theorem readings_agree_and_undo_toText :
    (∀ text, ofJsonText text = ofContentText text) ∧
    (∀ text document, Json.ofText text Json.maxDepth = .ok document →
      ∃ value, ofContentText text = .ok value ∧
        ∀ other, document.Denotes other ↔ other = value) ∧
    ∀ value : Value, value.Ordered → value.toJson.nesting ≤ Json.maxDepth →
      (∀ x, .double x ∈ value.toJson.numbers → Json.reread? x = some x) →
      ofContentText value.toJson.toText = .ok value ∧
        ofJsonText value.toJson.toText = .ok value := by
  refine ⟨ofJsonText_eq, fun text document hread => ?_, fun value hordered hnesting hdoubles => ?_⟩
  · refine ⟨ofContent document, ?_, fun other => denotes_iff⟩
    rw [ofContentText, hread]
    rfl
  · have hback : ofContentText value.toJson.toText = .ok value := by
      rw [ofContentText, ofText_toText_toJson hnesting hdoubles]
      exact congrArg Except.ok (ofContent_toJson hordered)
    exact ⟨hback, (ofJsonText_eq _).trans hback⟩

/-- A map with the least whole number, a double without a fraction and a text with a quote. -/
def mixed : Value :=
  map [("a", list [int Int64.minValue, number twoTo53]), ("b", text "\"")]

/-- An object that names a member twice, first with a whole number of 64 unsigned bits. -/
def repeatedName : Json :=
  .object [("a", .number (.whole 9223372036854775808)), ("a", .array [.null])]

/-- A repeated name of which the first value would become a double, and a value with a number of
each kind that is read back from its text. -/
theorem readings_agree_mixed :
    Json.ofText repeatedName.toText Json.maxDepth = .ok repeatedName ∧
    (∃ value, ofContentText repeatedName.toText = .ok value ∧
      ∀ other, repeatedName.Denotes other ↔ other = value) ∧
    mixed.Ordered ∧ mixed.toJson.nesting ≤ Json.maxDepth ∧
    (∀ x, .double x ∈ mixed.toJson.numbers → Json.reread? x = some x) ∧
    ofContentText mixed.toJson.toText = .ok mixed ∧
    ofJsonText mixed.toJson.toText = .ok mixed := by
  have hread : Json.ofText repeatedName.toText Json.maxDepth = .ok repeatedName := by
    refine Json.ofText_toText (by decide) fun n hn => ?_
    obtain rfl := List.mem_singleton.mp hn
    exact ⟨by decide, by decide⟩
  have hsorted : Keyed.Sorted [("a", list [int Int64.minValue, number twoTo53]),
      ("b", text "\"")] :=
    List.pairwise_pair.mpr (by decide +kernel)
  have hordered : mixed.Ordered := ⟨hsorted, ⟨trivial, trivial, trivial⟩, trivial, trivial⟩
  have hnesting : mixed.toJson.nesting ≤ Json.maxDepth := by decide
  have hdoubles : ∀ x, .double x ∈ mixed.toJson.numbers → Json.reread? x = some x := by
    intro x hx
    have hnumbers : mixed.toJson.numbers = [.whole Int64.minValue.toInt, .double twoTo53] := rfl
    rw [hnumbers] at hx
    obtain rfl : x = twoTo53 := by simpa using hx
    decide +kernel
  obtain ⟨-, hdenotes, hback⟩ := readings_agree_and_undo_toText
  exact ⟨hread, hdenotes _ _ hread, hordered, hnesting, hdoubles,
    hback mixed hordered hnesting hdoubles⟩

end Value

end WhereRules
