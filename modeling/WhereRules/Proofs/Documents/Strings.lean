import WhereRules.Json.Reader
import WhereRules.Json.Text
import WhereRules.Proofs.Success

/-!
# Strings of a document read back

The quote, the backslash and the control characters are escaped when a string is written; all other
characters stand for themselves. Reading undoes each escape (`stringChars_escaped`), so a string
reads back as itself, whatever comes after its closing quote (`stringRest_quoted`).
-/

namespace WhereRules.Json

/-! ## Steps of reading a string -/

theorem stringChars_close (care : Care) (cs : List Char) :
    stringChars care ('"' :: cs) = .ok ([], cs) := by
  rw [stringChars]

/-- A character that is no quote, backslash or control character stands for itself. -/
theorem stringChars_plain (care : Care) {c : Char} (hquote : c ≠ '"') (hslash : c ≠ '\\')
    (hplain : 32 ≤ c.toNat) (cs : List Char) : stringChars care (c :: cs) =
      (stringChars care cs).map fun (text, rest) => (c :: text, rest) := by
  rw [stringChars, if_neg (by omega)]
  · exact hquote
  · exact hslash

/-- An escape stands for its character, and as many letters are left out as the escape took. -/
theorem stringChars_escape {care : Care} {letters cs : List Char} {c : Char}
    (h : escape care (letters ++ cs) = .ok (c, letters.length)) :
    stringChars care ('\\' :: letters ++ cs) =
      (stringChars care cs).map fun (text, rest) => (c :: text, rest) := by
  rw [List.cons_append, stringChars, h]
  simp only [List.drop_left]

/-! ## Escapes -/

/-- The digit that is written for a number below sixteen has the value of that number. -/
theorem hexValue?_digitChar : ∀ n < 16, hexValue? (Nat.digitChar n) = some n := by decide

/-- Four hexadecimal digits of which the first two are zeros. -/
theorem hexUnit_hexPair {n : Nat} (hn : n < 32) (cs : List Char) :
    hexUnit ('0' :: '0' :: hexPair n ++ cs) = .ok n := by
  have hhigh := hexValue?_digitChar (n / 16) (by omega)
  have hlow := hexValue?_digitChar (n % 16) (by omega)
  have hzero : hexValue? '0' = some 0 := hexValue?_digitChar 0 (by omega)
  have hdigits : (['0', '0', Nat.digitChar (n / 16), Nat.digitChar (n % 16)]).mapM hexValue? =
      some [0, 0, n / 16, n % 16] := by
    simp [hzero, hhigh, hlow]
  have htake : ('0' :: '0' :: hexPair n ++ cs).take 4 =
      ['0', '0', Nat.digitChar (n / 16), Nat.digitChar (n % 16)] := rfl
  rw [hexUnit, htake, hdigits]
  exact congrArg Except.ok (by omega)

/-- A control character reads back from its four digits. It is the only kind of character that is
written by its number. -/
theorem escape_control {c : Char} (h : c.toNat < 32) (cs : List Char) :
    escape .kept (['u', '0', '0'] ++ hexPair c.toNat ++ cs) = .ok (c, 5) := by
  show escape .kept ('u' :: ('0' :: '0' :: hexPair c.toNat ++ cs)) = .ok (c, 5)
  rw [escape, hexUnit_hexPair h]
  dsimp only [bind, Except.bind]
  rw [if_neg (by decide), if_neg (by omega), if_neg (by omega), Char.ofNat_toNat]

/-- **What is written for a character is read as the character.** The cases are those of writing:
the characters with an escape of their own, the other control characters, and all the rest. -/
theorem stringChars_escaped (c : Char) (cs : List Char) : stringChars .kept (escaped c ++ cs) =
    (stringChars .kept cs).map fun (text, rest) => (c :: text, rest) := by
  unfold escaped
  split
  · exact stringChars_escape rfl
  · exact stringChars_escape rfl
  · exact stringChars_escape rfl
  · exact stringChars_escape rfl
  · exact stringChars_escape rfl
  · exact stringChars_escape rfl
  · exact stringChars_escape rfl
  · next hquote hslash _ _ _ _ _ =>
    split
    · next hcontrol => exact stringChars_escape (escape_control hcontrol cs)
    · next hplain => exact stringChars_plain .kept hquote hslash (by omega) cs

/-- A string reads back character by character, up to the quote that closes it. -/
theorem stringChars_flatMap_escaped (cs rest : List Char) :
    stringChars .kept (cs.flatMap escaped ++ '"' :: rest) = .ok (cs, rest) := by
  induction cs with
  | nil => exact stringChars_close .kept rest
  | cons c cs ih =>
    rw [List.flatMap_cons, List.append_assoc, stringChars_escaped, ih]
    rfl

/-- **A string reads back**, whatever comes after it. -/
theorem stringRest_quoted (s : String) (rest : List Char) :
    stringRest .kept (s.toList.flatMap escaped ++ '"' :: rest) = .ok (s, rest) := by
  rw [stringRest, stringChars_flatMap_escaped]
  exact congrArg (fun text => Except.ok (text, rest)) String.ofList_toList

end WhereRules.Json
