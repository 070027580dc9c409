import WhereRules.Proofs.Documents.Numbers
import WhereRules.Proofs.Documents.Strings

/-!
# Documents read back

The text of a document reads as the document (`ofText_toText`), if it nests no deeper than the reader
goes and each of its numbers reads as itself. The induction is on the document
(`value_chars`), for a value that something may come after: behind an item or a member stands a comma
or what closes the sequence, and either ends whatever the item ends with.

Items and members are read by one loop. That the loop finds what is written between commas is one
lemma about any reader of items (`items_separated`).
-/

namespace WhereRules.Json

/-! ## Documents by their parts -/

/-- What holds of a document if it holds of its items and of the values of its members holds of
every document. The lists in a document are nested types, so the recursor does not say it by
itself. -/
@[elab_as_elim]
theorem inductionOn {motive : Json → Prop} (document : Json) (null : motive .null)
    (bool : ∀ b, motive (.bool b)) (number : ∀ n, motive (.number n))
    (string : ∀ s, motive (.string s))
    (array : ∀ items, (∀ item ∈ items, motive item) → motive (.array items))
    (object : ∀ members, (∀ member ∈ members, motive member.2) → motive (.object members)) :
    motive document :=
  -- The motives of the two kinds of list say that all parts have the property.
  @Json.rec motive (fun items => ∀ item ∈ items, motive item)
    (fun members => ∀ member ∈ members, motive member.2) (fun member => motive member.2)
    null bool number string array object
    (List.forall_mem_nil _) (fun _ _ hitem hrest => List.forall_mem_cons.mpr ⟨hitem, hrest⟩)
    (List.forall_mem_nil _) (fun _ _ hmember hrest => List.forall_mem_cons.mpr ⟨hmember, hrest⟩)
    (fun _ _ hvalue => hvalue) document

mutual

/-- How deep arrays and objects nest. -/
def nesting : Json → Nat
  | .array items => itemNesting items + 1
  | .object members => memberNesting members + 1
  | _ => 0

/-- How deep arrays and objects nest in a row of items. -/
def itemNesting : List Json → Nat
  | [] => 0
  | item :: rest => max (nesting item) (itemNesting rest)

/-- How deep they nest in the values of members. -/
def memberNesting : List (String × Json) → Nat
  | [] => 0
  | (_, value) :: rest => max (nesting value) (memberNesting rest)

end

mutual

/-- The numbers of a document, from left to right. -/
def numbers : Json → List Number
  | .number n => [n]
  | .array items => itemNumbers items
  | .object members => memberNumbers members
  | _ => []

/-- The numbers in a row of items. -/
def itemNumbers : List Json → List Number
  | [] => []
  | item :: rest => numbers item ++ itemNumbers rest

/-- The numbers in the values of members. -/
def memberNumbers : List (String × Json) → List Number
  | [] => []
  | (_, value) :: rest => numbers value ++ memberNumbers rest

end

/-- Items nest no deeper than some depth when each of them does. -/
theorem itemNesting_le_iff {items : List Json} {depth : Nat} :
    itemNesting items ≤ depth ↔ ∀ item ∈ items, item.nesting ≤ depth := by
  induction items with
  | nil => exact iff_of_true (Nat.zero_le _) (List.forall_mem_nil _)
  | cons item rest ih => rw [itemNesting, Nat.max_le, ih, List.forall_mem_cons]

/-- Members nest no deeper than a bound when the value of none does. -/
theorem memberNesting_le_iff {members : List (String × Json)} {depth : Nat} :
    memberNesting members ≤ depth ↔ ∀ member ∈ members, member.2.nesting ≤ depth := by
  induction members with
  | nil => exact iff_of_true (Nat.zero_le _) (List.forall_mem_nil _)
  | cons member rest ih => rw [memberNesting, Nat.max_le, ih, List.forall_mem_cons]

/-- The numbers in a row of items are those of each. -/
theorem itemNumbers_eq (items : List Json) : itemNumbers items = items.flatMap numbers := by
  induction items with
  | nil => rfl
  | cons item rest ih => rw [itemNumbers, ih, List.flatMap_cons]

/-- The numbers in an object are those of its values. -/
theorem memberNumbers_eq (members : List (String × Json)) :
    memberNumbers members = members.flatMap fun member => numbers member.2 := by
  induction members with
  | nil => rfl
  | cons member rest ih => rw [memberNumbers, ih, List.flatMap_cons]

/-! ## Items between commas -/

/-- What may follow a value in a document: nothing, a comma, or what closes a sequence. -/
def EndsValue (after : List Char) : Prop := ∀ c ∈ after.head?, c = ',' ∨ c = ']' ∨ c = '}'

/-- What may follow a value goes on with no number. -/
theorem EndsValue.endsNumber {after : List Char} (h : EndsValue after) : EndsNumber after := by
  intro c hc
  rcases h c hc with rfl | rfl | rfl <;> decide

/-- The text of an item begins with the item, not with a blank or the end of the sequence. -/
def BeginsItem (close : Char) (text : List Char) : Prop :=
  ∃ c cs, text = c :: cs ∧ isBlank c = false ∧ c ≠ close

/-- Where the sequence is closed there is no other item. -/
theorem another_close {close : Char} (hclose : isBlank close = false) (first : Bool)
    (cs : List Char) : another close first (close :: cs) = .ok (false, cs) := by
  unfold another
  rw [skipBlanks_of_isBlank hclose]
  exact if_pos rfl

/-- Before the first item no comma is needed. -/
theorem another_first {close : Char} {text : List Char} (h : BeginsItem close text)
    (after : List Char) : another close true (text ++ after) = .ok (true, text ++ after) := by
  obtain ⟨c, cs, rfl, hblank, hne⟩ := h
  unfold another
  rw [List.cons_append, skipBlanks_of_isBlank hblank]
  exact if_neg hne

/-- A comma before an item announces it, and is left out. -/
theorem another_comma {close : Char} (hcomma : ',' ≠ close) {text : List Char}
    (h : BeginsItem close text) (after : List Char) :
    another close false (',' :: text ++ after) = .ok (true, text ++ after) := by
  obtain ⟨c, cs, rfl, hblank, hne⟩ := h
  have hskip : skipBlanks (c :: (cs ++ after)) = c :: (cs ++ after) :=
    skipBlanks_of_isBlank hblank _
  unfold another
  rw [List.cons_append, List.cons_append, skipBlanks_of_isBlank (by decide)]
  dsimp only
  rw [if_neg hcomma, if_neg Bool.false_ne_true, if_pos rfl, hskip]
  exact if_neg hne

/-- Texts, a comma between two. -/
def separated (texts : List (List Char)) : List Char := List.intercalate [','] texts

theorem separated_singleton (text : List Char) : separated [text] = text :=
  List.intercalate_singleton

theorem separated_cons_cons (text next : List Char) (texts : List (List Char)) :
    separated (text :: next :: texts) = text ++ ',' :: separated (next :: texts) := by
  rw [separated, List.intercalate_cons_cons, List.append_assoc]
  rfl

/-- Texts with commas between them are the first text and then each other one behind a comma. This
is the form in which a loop reads them. -/
theorem separated_cons (text : List Char) (texts : List (List Char)) :
    separated (text :: texts) = text ++ texts.flatMap (',' :: ·) := by
  induction texts generalizing text with
  | nil => rw [separated_singleton, List.flatMap_nil, List.append_nil]
  | cons next texts ih =>
    rw [separated_cons_cons, ih, List.flatMap_cons]
    rfl

/-- Behind an item stands a comma, or what closes the sequence after the last one. Both end every
value, so no item needs to know whether it is the last. -/
theorem endsValue_following {close : Char} (hclose : close = ']' ∨ close = '}')
    (texts : List (List Char)) (after : List Char) :
    EndsValue (texts.flatMap (',' :: ·) ++ close :: after) := by
  intro c hc
  cases texts with
  | nil =>
    cases Option.some.inj hc
    exact .inr hclose
  | cons text texts =>
    cases Option.some.inj hc
    exact .inl rfl

section Items

variable {α : Type} {item : Reader α} {text : α → List Char} {close : Char} {entries : List α}

/-- Where the first item has been read, the others follow, each behind a comma. The induction is on
the items; each round takes one, so a bound above their number is enough. -/
theorem itemsUpTo_following (hclose : close = ']' ∨ close = '}')
    (hitem : ∀ a ∈ entries, ∀ after, EndsValue after → item (text a ++ after) = .ok (a, after))
    (hbegins : ∀ a ∈ entries, BeginsItem close (text a)) {bound : Nat}
    (hbound : entries.length < bound) (after : List Char) :
    itemsUpTo item close bound false ((entries.map text).flatMap (',' :: ·) ++ close :: after) =
      .ok (entries, after) := by
  have hblank : isBlank close = false := by rcases hclose with rfl | rfl <;> decide
  induction entries generalizing bound with
  | nil =>
    cases bound with
    | zero => cases hbound
    | succ bound =>
      rw [itemsUpTo, List.map_nil, List.flatMap_nil, List.nil_append, another_close hblank]
      rfl
  | cons a rest ih =>
    obtain ⟨ha, hrest⟩ := List.forall_mem_cons.mp hitem
    obtain ⟨hbegin, hbegins⟩ := List.forall_mem_cons.mp hbegins
    cases bound with
    | zero => cases hbound
    | succ bound =>
      have hcomma : ',' ≠ close := by rcases hclose with rfl | rfl <;> decide
      rw [itemsUpTo, List.map_cons, List.flatMap_cons, List.append_assoc,
        another_comma hcomma hbegin]
      refine bind_eq_ok.mpr ⟨_, rfl, ?_⟩
      refine bind_eq_ok.mpr ⟨_, ha _ (endsValue_following hclose _ after), ?_⟩
      exact bind_eq_ok.mpr ⟨_, ih hrest hbegins (Nat.lt_of_succ_lt_succ hbound), rfl⟩

/-- Each of the texts takes at least its comma, so the characters bound the rounds. -/
theorem length_le_length_flatMap_comma (texts : List (List Char)) :
    texts.length ≤ (texts.flatMap (',' :: ·)).length := by
  induction texts with
  | nil => exact Nat.le_refl 0
  | cons text texts ih =>
    rw [List.flatMap_cons, List.length_append, List.length_cons, List.length_cons]
    omega

/-- **A reader that reads each item where a value may end reads all of them between commas.** It
serves for the items of arrays and for the members of objects. -/
theorem items_separated (hclose : close = ']' ∨ close = '}')
    (hitem : ∀ a ∈ entries, ∀ after, EndsValue after → item (text a ++ after) = .ok (a, after))
    (hbegins : ∀ a ∈ entries, BeginsItem close (text a)) (after : List Char) :
    items item close (separated (entries.map text) ++ close :: after) = .ok (entries, after) := by
  have hblank : isBlank close = false := by rcases hclose with rfl | rfl <;> decide
  cases entries with
  | nil =>
    show itemsUpTo item close _ true (close :: after) = _
    rw [itemsUpTo, another_close hblank]
    rfl
  | cons a rest =>
    obtain ⟨ha, hrest⟩ := List.forall_mem_cons.mp hitem
    obtain ⟨hbegin, hbegins⟩ := List.forall_mem_cons.mp hbegins
    have hfirst : another close true (separated ((a :: rest).map text) ++ close :: after) =
        .ok (true, text a ++ ((rest.map text).flatMap (',' :: ·) ++ close :: after)) := by
      rw [List.map_cons, separated_cons, List.append_assoc]
      exact another_first hbegin _
    have hbound : rest.length <
        (separated ((a :: rest).map text) ++ close :: after).length := by
      have hle := length_le_length_flatMap_comma (rest.map text)
      rw [List.length_map] at hle
      rw [List.map_cons, separated_cons, List.length_append, List.length_append, List.length_cons]
      omega
    unfold items
    rw [itemsUpTo]
    refine bind_eq_ok.mpr ⟨_, hfirst, ?_⟩
    refine bind_eq_ok.mpr ⟨_, ha _ (endsValue_following hclose _ after), ?_⟩
    exact bind_eq_ok.mpr ⟨_, itemsUpTo_following hclose hrest hbegins hbound after, rfl⟩

end Items

/-! ## What the text of a document begins with -/

/-- Items are written with commas between them. -/
theorem itemChars_eq (items : List Json) : itemChars items = separated (items.map chars) := by
  induction items with
  | nil => rfl
  | cons item rest ih =>
    cases rest with
    | nil => rw [itemChars, List.map_singleton, separated_singleton]
    | cons next rest =>
      rw [itemChars, ih, List.map_cons, List.map_cons, List.map_cons, separated_cons_cons]
      exact List.cons_ne_nil _ _

/-- A member is its name in quotes, a colon and its value. -/
def memberText (member : String × Json) : List Char := quoted member.1 ++ ':' :: chars member.2

/-- Members are written with commas between them, as items are. -/
theorem memberChars_eq (members : List (String × Json)) :
    memberChars members = separated (members.map memberText) := by
  induction members with
  | nil => rfl
  | cons member rest ih =>
    cases rest with
    | nil =>
      rw [memberChars, List.map_singleton, separated_singleton]
      rfl
    | cons next rest =>
      rw [memberChars, ih, List.map_cons, List.map_cons, List.map_cons, separated_cons_cons]
      · rfl
      · exact List.cons_ne_nil _ _

/-- A number begins as an item may. -/
theorem beginsItem_of_sign_digit {close : Char} (hclose : close = ']' ∨ close = '}')
    (negative : Bool) {c : Char} (hc : c.isDigit = true) (cs : List Char) :
    BeginsItem close (signText negative ++ c :: cs) := by
  cases negative with
  | true => exact ⟨'-', c :: cs, rfl, by decide, by rcases hclose with rfl | rfl <;> decide⟩
  | false =>
    refine ⟨c, cs, rfl, isBlank_of_isDigit hc, ?_⟩
    rintro rfl
    rcases hclose with rfl | rfl <;> cases hc

/-- What begins with no blank and no closing bracket begins as an item may. -/
theorem beginsItem_of_ne {close c : Char} (cs : List Char) (hblank : isBlank c = false)
    (hbracket : c ≠ ']') (hbrace : c ≠ '}') (hclose : close = ']' ∨ close = '}') :
    BeginsItem close (c :: cs) := by
  refine ⟨c, cs, rfl, hblank, ?_⟩
  rcases hclose with rfl | rfl
  · exact hbracket
  · exact hbrace

/-- The text of a number begins with its sign or with a digit. -/
theorem beginsItem_numberText {close : Char} (hclose : close = ']' ∨ close = '}') (n : Number) :
    BeginsItem close (numberText n) := by
  cases n with
  | whole n =>
    obtain ⟨c, cs, hdigits, hc⟩ := exists_toDigits_eq_cons n.natAbs
    rw [numberText, Token.toList_repr, hdigits]
    exact beginsItem_of_sign_digit hclose _ hc cs
  | double x =>
    cases x with
    | nan | infinity _ =>
      exact beginsItem_of_ne _ (by decide) (by decide) (by decide) hclose
    | finite negative m =>
      obtain ⟨c, cs, htext, hc, _⟩ := exists_magnitude_eq_cons m
      rw [numberText, doubleText, htext]
      exact beginsItem_of_sign_digit hclose negative hc cs

/-- No document begins with a blank or like the end of a sequence. So a reader that looks for the
end before an item does not find it too early. -/
theorem beginsItem_chars {close : Char} (hclose : close = ']' ∨ close = '}') (document : Json) :
    BeginsItem close document.chars := by
  cases document with
  | number n => exact beginsItem_numberText hclose n
  | bool b =>
    cases b <;> exact beginsItem_of_ne _ (by decide) (by decide) (by decide) hclose
  | null | string _ | array _ | object _ =>
    exact beginsItem_of_ne _ (by decide) (by decide) (by decide) hclose

/-! ## One value -/

/-- A member where `inner` reads its value. -/
def member (care : Care) (inner : Reader Json) : Reader (String × Json) := fun cs => do
  let (name, cs) ← memberName care cs
  let (_, cs) ← colon cs
  let (value, cs) ← inner cs
  .ok ((name, value), cs)

/-- A string reads back, whatever comes after its quotes. -/
theorem value_string (depth : Nat) (s : String) (after : List Char) :
    value .kept depth (quoted s ++ after) = .ok (.string s, after) := by
  obtain ⟨inner, hinner⟩ := exists_valueWith_eq .kept depth
  have hvalue : valueWith .kept inner (quoted s ++ after) =
      (stringRest .kept (s.toList.flatMap escaped ++ ['"'] ++ after)).map fun (s, rest) =>
        (.string s, rest) := rfl
  rw [hinner, hvalue, List.append_assoc]
  exact congrArg (Except.map _) (stringRest_quoted s after)

/-- Behind its bracket an array is read item by item, each of them one level deeper. -/
theorem value_array (depth : Nat) (cs : List Char) : value .kept (depth + 1) ('[' :: cs) =
    (items (value .kept depth) ']' cs).map fun (items, rest) => (.array items, rest) := by
  rw [value]
  rfl

/-- Behind its brace an object is read member by member. -/
theorem value_object (depth : Nat) (cs : List Char) : value .kept (depth + 1) ('{' :: cs) =
    (items (member .kept (value .kept depth)) '}' cs).map fun (members, rest) =>
      (.object members, rest) := by
  rw [value]
  rfl

/-- A member reads back where its value does: its name is a string, and a colon follows. -/
theorem member_memberText {inner : Reader Json} {entry : String × Json} {after : List Char}
    (h : inner (entry.2.chars ++ after) = .ok (entry.2, after)) :
    member .kept inner (memberText entry ++ after) = .ok (entry, after) := by
  have hname : memberName .kept (memberText entry ++ after) =
      .ok (entry.1, ':' :: entry.2.chars ++ after) := by
    rw [memberText, List.append_assoc, quoted, List.append_assoc]
    exact stringRest_quoted entry.1 _
  refine bind_eq_ok.mpr ⟨_, hname, ?_⟩
  refine bind_eq_ok.mpr ⟨((), entry.2.chars ++ after), rfl, ?_⟩
  exact bind_eq_ok.mpr ⟨_, h, rfl⟩

/-- Whether a number's text reads as the number: it fits 64 bits, or it is a double that reads as
itself. -/
def Number.Rereads : Number → Prop
  | .whole n => -(UInt64.size / 2 : Nat) ≤ n ∧ n ≤ significandMax
  | .double x => reread? x = some x

/-- A number whose text names it reads back, of either kind. -/
theorem value_number (depth : Nat) {n : Number} (h : n.Rereads) {after : List Char}
    (hafter : EndsNumber after) :
    value .kept depth (numberText n ++ after) = .ok (.number n, after) := by
  cases n with
  | whole n => exact value_whole depth h.1 h.2 hafter
  | double x => exact value_double depth h hafter

/-- **A value reads back before everything that may follow it.** The induction is on the document,
for any depth that it nests no deeper than: each array and each object takes a level for what is in
it. -/
theorem value_chars (document : Json) {depth : Nat} (hdepth : document.nesting ≤ depth)
    (hnumbers : ∀ n ∈ document.numbers, n.Rereads) {after : List Char} (hafter : EndsValue after) :
    value .kept depth (document.chars ++ after) = .ok (document, after) := by
  -- Depth and following text are general: both are others for the parts.
  induction document using inductionOn generalizing depth after with
  | null =>
    obtain ⟨inner, hinner⟩ := exists_valueWith_eq .kept depth
    exact hinner _
  | bool b =>
    obtain ⟨inner, hinner⟩ := exists_valueWith_eq .kept depth
    cases b <;> exact hinner _
  | number n => exact value_number depth (hnumbers n List.mem_cons_self) hafter.endsNumber
  | string s => exact value_string depth s after
  | array items ih =>
    cases depth with
    | zero => cases hdepth
    | succ depth =>
      have hitems := itemNesting_le_iff.mp (Nat.le_of_succ_le_succ hdepth)
      rw [numbers, itemNumbers_eq] at hnumbers
      have hread : ∀ item ∈ items, ∀ after, EndsValue after →
          value .kept depth (item.chars ++ after) = .ok (item, after) := by
        intro item hmem after hafter
        have hitem : ∀ n ∈ item.numbers, n.Rereads := fun n hn =>
          hnumbers n (List.mem_flatMap_of_mem hmem hn)
        exact ih item hmem (hitems item hmem) hitem hafter
      have hbegins : ∀ item ∈ items, BeginsItem ']' item.chars := fun item _ =>
        beginsItem_chars (.inl rfl) item
      rw [chars, itemChars_eq, List.cons_append, List.cons_append, List.append_assoc, value_array]
      exact congrArg (Except.map _) (items_separated (.inl rfl) hread hbegins after)
  | object members ih =>
    cases depth with
    | zero => cases hdepth
    | succ depth =>
      have hmembers := memberNesting_le_iff.mp (Nat.le_of_succ_le_succ hdepth)
      rw [numbers, memberNumbers_eq] at hnumbers
      have hread : ∀ entry ∈ members, ∀ after, EndsValue after →
          member .kept (value .kept depth) (memberText entry ++ after) = .ok (entry, after) := by
        intro entry hmem after hafter
        have hentry : ∀ n ∈ entry.2.numbers, n.Rereads := fun n hn =>
          hnumbers n (List.mem_flatMap.mpr ⟨entry, hmem, hn⟩)
        exact member_memberText (ih entry hmem (hmembers entry hmem) hentry hafter)
      have hbegins : ∀ entry ∈ members, BeginsItem '}' (memberText entry) := fun entry _ =>
        beginsItem_of_ne _ (by decide) (by decide) (by decide) (.inr rfl)
      rw [chars, memberChars_eq, List.cons_append, List.cons_append, List.append_assoc, value_object]
      exact congrArg (Except.map _) (items_separated (.inr rfl) hread hbegins after)

/-- **The text of a document reads as the document**, if it nests no deeper than the reader goes and
its numbers read as themselves. -/
theorem ofText_toText {document : Json} {depth : Nat} (hdepth : document.nesting ≤ depth)
    (hnumbers : ∀ n ∈ document.numbers, n.Rereads) :
    ofText document.toText depth = .ok document := by
  have hends : EndsValue [] := fun c hc => by cases hc
  have hread := value_chars document hdepth hnumbers hends
  rw [List.append_nil] at hread
  unfold ofText wholeText
  rw [toText, String.toList_ofList, hread]
  rfl

end WhereRules.Json
