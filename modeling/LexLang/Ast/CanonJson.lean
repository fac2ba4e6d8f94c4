/-
# LexLang.Ast.CanonJson — canonical JSON text, and that it tells values apart

The writer (`lex-ast/src/canon_json.rs`) that everything hashed goes through: no whitespace, keys in
order, numbers as `serde_json` prints them, strings with the escapes of JSON. Printing floats is
outside the writer (`FloatText`): a text that is a number's, has a point or an exponent, and reads back.

`readCanonical` reads canonical text.
-/
import LexLang.Json.Value

namespace LexLang.Ast

open LexLang.Json
open Bool List Nat Option

/-! ## Writing -/

/-- A character of a number. -/
def isNumberChar (c : Char) : Bool := c.isDigit || c == '-' || c == '+' || c == '.' || c == 'e' || c == 'E'

/-- A character that no integer has. -/
def isFloatChar (c : Char) : Bool := c == '.' || c == 'e' || c == 'E'

/-- **The texts of floats**, as far as the writer relies on them. -/
structure FloatText where
  format : FiniteFloat → List Char
  parse : List Char → Option FiniteFloat
  parse_format : ∀ f, parse (format f) = some f
  number : ∀ f, (format f).all isNumberChar = true
  /-- A float is never printed as an integer. -/
  float : ∀ f, (format f).any isFloatChar = true

/-- The text of an integer. -/
def intText (i : Int) : List Char :=
  if i < 0 then '-' :: Nat.toDigits 10 i.natAbs else Nat.toDigits 10 i.natAbs

/-- The letter of a character that has an escape of its own. -/
def escapeLetter (c : Char) : Option Char :=
  if c = '\"' then some '\"'
  else if c = '\\' then some '\\'
  else if c = '\n' then some 'n'
  else if c = '\r' then some 'r'
  else if c = '\t' then some 't'
  else if c = '\x08' then some 'b'
  else if c = '\x0c' then some 'f'
  else none

/-- One character inside a string. The other control characters are written by their code. -/
def escape (c : Char) : List Char :=
  match escapeLetter c with
  | some letter => ['\\', letter]
  | none =>
    if c.toNat < 0x20 then
      ['\\', 'u', '0', '0', Nat.digitChar (c.toNat / 16), Nat.digitChar (c.toNat % 16)]
    else [c]

def writeString (s : String) : List Char := '\"' :: (s.toList.flatMap escape ++ ['\"'])

/-- Texts with commas between. -/
def separated : List (List Char) → List Char
  | [] => []
  | [text] => text
  | text :: texts => text ++ ',' :: separated texts

section Write

variable (floats : FloatText)

def numberText : Number → List Char
  | .int i => intText i
  | .float f => floats.format f

/-- A member of a map. -/
def writeMember (field : String × List Char) : List Char := writeString field.1 ++ ':' :: field.2

mutual

/-- **Write a value.** -/
def writeValue : Value → List Char
  | .null => ['n', 'u', 'l', 'l']
  | .bool true => ['t', 'r', 'u', 'e']
  | .bool false => ['f', 'a', 'l', 's', 'e']
  | .number n => numberText floats n
  | .string s => writeString s
  | .array items => '[' :: (separated (writeItems items) ++ [']'])
  | .object map => '{' :: (separated (((writeFields map).mergeSort keyLe).map writeMember) ++ ['}'])

def writeItems : List Value → List (List Char)
  | [] => []
  | v :: vs => writeValue v :: writeItems vs

def writeFields : List (String × Value) → List (String × List Char)
  | [] => []
  | (key, v) :: map => (key, writeValue v) :: writeFields map

end

/-- **The canonical text of a value.** -/
def toCanonicalString (v : Value) : String := String.ofList (writeValue floats v)

theorem writeItems_eq_map (vs : List Value) : writeItems floats vs = vs.map (writeValue floats) := by
  induction vs with
  | nil => rfl
  | cons v vs ih => rw [writeItems, ih, map_cons]

theorem writeFields_eq_map (map : List (String × Value)) :
    writeFields floats map = map.map fun field => (field.1, writeValue floats field.2) := by
  induction map with
  | nil => rfl
  | cons field map ih => rw [writeFields, ih, map_cons]

/-- The text of a member. -/
def memberText (field : String × Value) : List Char := writeMember (field.1, writeValue floats field.2)

/-- The members are written in the order of their keys. -/
theorem writeValue_object (map : List (String × Value)) : writeValue floats (.object map) =
    '{' :: (separated ((map.mergeSort keyLe).map (memberText floats)) ++ ['}']) := by
  rw [writeValue, writeFields_eq_map, mergeSort_map, List.map_map]
  rfl

end Write

/-! ## Reading -/

/-- The value of a hexadecimal digit, in lower case. -/
def hexValue (c : Char) : Nat := if c.isDigit then c.toNat - 48 else c.toNat - 87

/-- The character of an escape letter. -/
def unescapeLetter (c : Char) : Option Char :=
  if c = '\"' then some '\"'
  else if c = '\\' then some '\\'
  else if c = 'n' then some '\n'
  else if c = 'r' then some '\r'
  else if c = 't' then some '\t'
  else if c = 'b' then some '\x08'
  else if c = 'f' then some '\x0c'
  else none

/-- Read up to the closing quote. -/
def readChars : List Char → Option (List Char × List Char)
  | [] => none
  | '\"' :: rest => some ([], rest)
  | '\\' :: 'u' :: '0' :: '0' :: a :: b :: rest =>
    (readChars rest).map fun read => (Char.ofNat (16 * hexValue a + hexValue b) :: read.1, read.2)
  | '\\' :: letter :: rest =>
    match unescapeLetter letter with
    | some c => (readChars rest).map fun read => (c :: read.1, read.2)
    | none => none
  | c :: rest => (readChars rest).map fun read => (c :: read.1, read.2)

/-- Read digits. -/
def readNat (text : List Char) : Option Nat :=
  if text ≠ [] ∧ text.all Char.isDigit then some (Nat.ofDigitChars 10 text 0) else none

def readInt : List Char → Option Int
  | '-' :: digits => (readNat digits).map fun n : Nat => -(n : Int)
  | digits => (readNat digits).map Int.ofNat

/-- Read a word. -/
def readWord (text : List Char) : Option (Value × List Char) :=
  if ['n', 'u', 'l', 'l'].isPrefixOf text then some (.null, text.drop 4)
  else if ['t', 'r', 'u', 'e'].isPrefixOf text then some (.bool true, text.drop 4)
  else if ['f', 'a', 'l', 's', 'e'].isPrefixOf text then some (.bool false, text.drop 5)
  else none

section Read

variable (floats : FloatText)

def readNumber (text : List Char) : Option Number :=
  if text.any isFloatChar then (floats.parse text).map Number.float else (readInt text).map Number.int

mutual

/-- Read one value; the fuel bounds the length of its text. -/
def readValue : Nat → List Char → Option (Value × List Char)
  | 0, _ => none
  | _ + 1, [] => none
  | fuel + 1, c :: rest =>
    if c = '\"' then (readChars rest).map fun read => (.string (String.ofList read.1), read.2)
    else if c = '[' then
      if rest.head? = some ']' then some (.array [], rest.tail)
      else (readItems fuel rest).map fun read => (.array read.1, read.2)
    else if c = '{' then
      if rest.head? = some '}' then some (.object [], rest.tail)
      else (readFields fuel rest).map fun read => (.object read.1, read.2)
    else if isNumberChar c then
      (readNumber floats ((c :: rest).takeWhile isNumberChar)).map fun n =>
        (.number n, (c :: rest).dropWhile isNumberChar)
    else readWord (c :: rest)

/-- Read the items of an array, at least one. -/
def readItems : Nat → List Char → Option (List Value × List Char)
  | 0, _ => none
  | fuel + 1, text =>
    match readValue fuel text with
    | some (v, ',' :: rest) => (readItems fuel rest).map fun read => (v :: read.1, read.2)
    | some (v, ']' :: rest) => some ([v], rest)
    | _ => none

/-- Read the members of a map, at least one. -/
def readFields : Nat → List Char → Option (List (String × Value) × List Char)
  | 0, _ => none
  | fuel + 1, text =>
    match text with
    | '\"' :: text =>
      match readChars text with
      | some (key, ':' :: text) =>
        match readValue fuel text with
        | some (v, ',' :: rest) =>
          (readFields fuel rest).map fun read => ((String.ofList key, v) :: read.1, read.2)
        | some (v, '}' :: rest) => some ([(String.ofList key, v)], rest)
        | _ => none
      | _ => none
    | _ => none

end

/-- **Read a canonical text**, to its end. -/
def readCanonical (text : String) : Option Value :=
  match readValue floats text.toList.length text.toList with
  | some (v, []) => some v
  | _ => none

end Read

/-! ## Strings -/

variable {c : Char}

theorem unescapeLetter_of_escapeLetter {letter : Char} (h : escapeLetter c = some letter) :
    unescapeLetter letter = some c ∧ letter ≠ 'u' := by
  unfold escapeLetter at h
  repeat' split at h
  all_goals cases h
  all_goals
    subst c
    decide

theorem hexValue_digitChar : ∀ n < 16, hexValue (Nat.digitChar n) = n := by decide

/-- One character is read back from its escape. -/
theorem readChars_escape (c : Char) (rest : List Char) : readChars (escape c ++ rest) =
    (readChars rest).map fun read => (c :: read.1, read.2) := by
  unfold escape
  cases hletter : escapeLetter c with
  | some letter =>
    obtain ⟨hback, hu⟩ := unescapeLetter_of_escapeLetter hletter
    show readChars ('\\' :: letter :: rest) = _
    rw [readChars, hback]
    exact fun _ _ _ h => absurd h hu
  | none =>
    simp only
    split
    · rename_i hlow
      show readChars ('\\' :: 'u' :: '0' :: '0' :: _ :: _ :: rest) = _
      rw [readChars, hexValue_digitChar _ (by omega), hexValue_digitChar _ (by omega),
        div_add_mod, Char.ofNat_toNat]
    · have hquote : c ≠ '\"' := by
        rintro rfl
        cases hletter
      have hback : c ≠ '\\' := by
        rintro rfl
        cases hletter
      show readChars (c :: rest) = _
      rw [readChars]
      · exact hquote
      · exact fun _ _ _ h => absurd h hback
      · exact fun _ _ h => absurd h hback

theorem readChars_flatMap (cs rest : List Char) :
    readChars (cs.flatMap escape ++ '\"' :: rest) = some (cs, rest) := by
  induction cs with
  | nil => rfl
  | cons c cs ih =>
    rw [flatMap_cons, append_assoc, readChars_escape, ih]
    rfl

/-! ## Numbers -/

section Numbers

theorem isDigit_of_mem_toDigits {n : Nat} (h : c ∈ Nat.toDigits 10 n) : c.isDigit = true :=
  Nat.isDigit_of_mem_toDigits (by omega) (by omega) h

theorem readNat_toDigits (n : Nat) : readNat (Nat.toDigits 10 n) = some n := by
  have hdigits : (Nat.toDigits 10 n).all Char.isDigit = true :=
    List.all_eq_true.mpr fun c hc => isDigit_of_mem_toDigits hc
  rw [readNat, if_pos ⟨toDigits_ne_nil, hdigits⟩, ofDigitChars_ten_toDigits]

theorem readInt_intText (i : Int) : readInt (intText i) = some i := by
  unfold intText
  split
  · rename_i hneg
    rw [readInt, readNat_toDigits, map_some]
    congr 1
    omega
  · rename_i hpos
    have hhead : ∀ digits, Nat.toDigits 10 i.natAbs = '-' :: digits → False := by
      intro digits h
      have hmem : '-' ∈ Nat.toDigits 10 i.natAbs := h ▸ mem_cons_self
      exact absurd (isDigit_of_mem_toDigits hmem) (by decide)
    rw [readInt, readNat_toDigits, map_some]
    · congr 1
      show (i.natAbs : Int) = i
      omega
    · exact hhead

theorem isNumberChar_of_isDigit (h : c.isDigit = true) : isNumberChar c = true := by
  simp [isNumberChar, h]

theorem not_isFloatChar_of_isDigit (h : c.isDigit = true) : isFloatChar c = false := by
  by_contra hfloat
  rw [not_eq_false, isFloatChar, or_eq_true, or_eq_true, beq_iff_eq, beq_iff_eq, beq_iff_eq] at hfloat
  rcases hfloat with (rfl | rfl) | rfl
  all_goals exact absurd h (by decide)

theorem intText_chars (i : Int) : ∀ c ∈ intText i, isNumberChar c = true ∧ isFloatChar c = false := by
  have hdigits : ∀ c ∈ Nat.toDigits 10 i.natAbs, isNumberChar c = true ∧ isFloatChar c = false := by
    intro c hc
    have hdigit := isDigit_of_mem_toDigits hc
    exact ⟨isNumberChar_of_isDigit hdigit, not_isFloatChar_of_isDigit hdigit⟩
  intro c hc
  unfold intText at hc
  split at hc
  · rcases mem_cons.mp hc with rfl | hc
    · decide
    · exact hdigits c hc
  · exact hdigits c hc

variable (floats : FloatText)

theorem numberText_chars (n : Number) : ∀ c ∈ numberText floats n, isNumberChar c = true := by
  cases n with
  | int i => exact fun c hc => (intText_chars i c hc).1
  | float f => exact List.all_eq_true.mp (floats.number f)

theorem numberText_ne_nil (n : Number) : numberText floats n ≠ [] := by
  cases n with
  | int i =>
    show intText i ≠ []
    unfold intText
    split
    · exact cons_ne_nil _ _
    · exact toDigits_ne_nil
  | float f =>
    intro hnil
    have hfloat := floats.float f
    rw [show floats.format f = [] from hnil] at hfloat
    cases hfloat

theorem readNumber_numberText (n : Number) : readNumber floats (numberText floats n) = some n := by
  unfold readNumber
  cases n with
  | int i =>
    have hany : (intText i).any isFloatChar = false :=
      List.any_eq_false.mpr fun c hc => by simp [(intText_chars i c hc).2]
    show (if (intText i).any isFloatChar then _ else (readInt (intText i)).map Number.int) = _
    rw [hany, readInt_intText]
    rfl
  | float f =>
    show (if (floats.format f).any isFloatChar then (floats.parse (floats.format f)).map Number.float
      else _) = _
    rw [floats.float f, floats.parse_format]
    rfl

end Numbers

/-! ## Values -/

section Values

variable (floats : FloatText)

/-- What follows does not go on with a number. -/
def Delimited (rest : List Char) : Prop := ∀ c, rest.head? = some c → isNumberChar c = false

theorem delimited_nil : Delimited [] := fun c h => by cases h

theorem delimited_cons (h : isNumberChar c = false) (rest : List Char) : Delimited (c :: rest) := by
  intro d hd
  obtain rfl := some.inj hd
  exact h

theorem takeWhile_numberText (n : Number) {rest : List Char} (h : Delimited rest) :
    (numberText floats n ++ rest).takeWhile isNumberChar = numberText floats n ∧
      (numberText floats n ++ rest).dropWhile isNumberChar = rest := by
  have hchars := numberText_chars floats n
  rw [takeWhile_append_of_pos hchars, dropWhile_append_of_pos hchars]
  cases rest with
  | nil => simp
  | cons c rest => simp [h c rfl]

/-- **A value is read back from its text**, its keys in order. -/
def ReadsBack (v : Value) : Prop :=
  ∀ fuel rest, Delimited rest → (writeValue floats v).length ≤ fuel →
    readValue floats fuel (writeValue floats v ++ rest) = some (v.sortKeys, rest)

variable {floats}

/-- No value starts with a bracket that closes. -/
theorem ReadsBack.head_ne {v : Value} (h : ReadsBack floats v) {c : Char}
    (hc : c = ']' ∨ c = '}') (rest : List Char) : (writeValue floats v ++ rest).head? ≠ some c := by
  intro hhead
  have hread := h (writeValue floats v).length [] delimited_nil le_rfl
  rw [append_nil] at hread
  cases htext : writeValue floats v with
  | nil =>
    rw [htext] at hread
    cases hread
  | cons d text =>
    rw [htext] at hread hhead
    obtain rfl : d = c := some.inj hhead
    rw [length_cons, readValue] at hread
    rcases hc with rfl | rfl
    all_goals cases hread

theorem readItems_separated {items : List Value} (hne : items ≠ [])
    (h : ∀ v ∈ items, ReadsBack floats v) (fuel : Nat) (rest : List Char)
    (hfuel : (separated (items.map (writeValue floats))).length < fuel) :
    readItems floats fuel (separated (items.map (writeValue floats)) ++ ']' :: rest) =
      some (items.map Value.sortKeys, rest) := by
  induction items generalizing fuel with
  | nil => exact absurd rfl hne
  | cons v items ih =>
    obtain ⟨fuel, rfl⟩ : ∃ n, fuel = n + 1 := ⟨fuel - 1, by omega⟩
    have hv := h v mem_cons_self
    cases items with
    | nil =>
      simp only [map_cons, map_nil, separated] at hfuel ⊢
      rw [readItems, hv fuel _ (delimited_cons (by decide) rest) (by omega)]
      rfl
    | cons w items =>
      have hlater := ih (cons_ne_nil w items) fun x hx => h x (mem_cons_of_mem v hx)
      rw [map_cons, map_cons, separated] at hfuel ⊢
      · rw [length_append, length_cons] at hfuel
        rw [append_assoc, cons_append, readItems,
          hv fuel _ (delimited_cons (by decide) _) (by omega)]
        simp only
        rw [← map_cons, hlater fuel (by rw [map_cons]; omega)]
        rfl
      · exact cons_ne_nil _ _
      · exact cons_ne_nil _ _

variable {map : List (String × Value)}

theorem readFields_separated (hne : map ≠ [])
    (h : ∀ field ∈ map, ReadsBack floats field.2) (fuel : Nat) (rest : List Char)
    (hfuel : (separated (map.map (memberText floats))).length < fuel) :
    readFields floats fuel (separated (map.map (memberText floats)) ++ '}' :: rest) =
      some (map.map fun field => (field.1, field.2.sortKeys), rest) := by
  induction map generalizing fuel with
  | nil => exact absurd rfl hne
  | cons field map ih =>
    obtain ⟨key, v⟩ := field
    obtain ⟨fuel, rfl⟩ : ∃ n, fuel = n + 1 := ⟨fuel - 1, by omega⟩
    have hv := h (key, v) mem_cons_self
    have hmember : ∀ rest, memberText floats (key, v) ++ rest =
        '\"' :: (key.toList.flatMap escape ++ '\"' :: ':' :: (writeValue floats v ++ rest)) := by
      intro rest
      simp [memberText, writeMember, writeString]
    cases map with
    | nil =>
      simp only [map_cons, map_nil, separated] at hfuel ⊢
      have hlen : (writeValue floats v).length ≤ fuel := by
        have := congrArg List.length (hmember [])
        simp only [append_nil, length_cons, length_append] at this
        omega
      rw [hmember, readFields, readChars_flatMap]
      simp only
      rw [hv fuel _ (delimited_cons (by decide) rest) hlen]
      simp only [String.ofList_toList]
    | cons next map =>
      have hlater := ih (cons_ne_nil next map) fun x hx =>
        h x (mem_cons_of_mem (key, v) hx)
      rw [map_cons, map_cons, separated] at hfuel ⊢
      · rw [length_append, length_cons] at hfuel
        have hlen : (writeValue floats v).length ≤ fuel := by
          have := congrArg List.length (hmember [])
          simp only [append_nil, length_cons, length_append] at this
          omega
        rw [append_assoc, cons_append, hmember, readFields, readChars_flatMap]
        simp only
        rw [hv fuel _ (delimited_cons (by decide) _) hlen]
        simp only
        rw [← map_cons, hlater fuel (by rw [map_cons]; omega), String.ofList_toList]
        rfl
      · exact cons_ne_nil _ _
      · exact cons_ne_nil _ _

theorem readsBack_number (n : Number) : ReadsBack floats (.number n) := by
  intro fuel rest hrest hfuel
  have hchars := numberText_chars floats n
  obtain ⟨htake, hdrop⟩ := takeWhile_numberText floats n hrest
  show readValue floats fuel (numberText floats n ++ rest) = _
  replace hfuel : (numberText floats n).length ≤ fuel := hfuel
  cases htext : numberText floats n with
  | nil => exact absurd htext (numberText_ne_nil floats n)
  | cons c text =>
    rw [htext] at hfuel htake hdrop hchars
    obtain ⟨fuel, rfl⟩ : ∃ m, fuel = m + 1 := ⟨fuel - 1, by simp at hfuel; omega⟩
    have hc := hchars c mem_cons_self
    have hne : c ≠ '\"' ∧ c ≠ '[' ∧ c ≠ '{' := by
      refine ⟨?_, ?_, ?_⟩
      all_goals
        rintro rfl
        cases hc
    rw [cons_append] at htake hdrop ⊢
    rw [readValue, if_neg hne.1, if_neg hne.2.1, if_neg hne.2.2, if_pos hc, htake, hdrop, ← htext,
      readNumber_numberText]
    rfl

theorem readsBack_string (s : String) : ReadsBack floats (.string s) := by
  intro fuel rest _ hfuel
  obtain ⟨fuel, rfl⟩ : ∃ m, fuel = m + 1 :=
    ⟨fuel - 1, by simp only [writeValue, writeString, length_cons] at hfuel; omega⟩
  show readValue floats (fuel + 1) ('\"' :: (s.toList.flatMap escape ++ ['\"']) ++ rest) = _
  rw [cons_append, append_assoc, singleton_append, readValue, if_pos rfl,
    readChars_flatMap, map_some, String.ofList_toList]
  rfl

theorem readsBack_array {items : List Value} (h : ∀ v ∈ items, ReadsBack floats v) :
    ReadsBack floats (.array items) := by
  intro fuel rest _ hfuel
  rw [writeValue, writeItems_eq_map] at hfuel ⊢
  rw [Value.sortKeys, Value.sortKeysAll_eq_map]
  rw [length_cons, length_append, length_singleton] at hfuel
  obtain ⟨fuel, rfl⟩ : ∃ m, fuel = m + 1 := ⟨fuel - 1, by omega⟩
  rw [cons_append, append_assoc, singleton_append, readValue, if_neg (by decide),
    if_pos rfl]
  cases items with
  | nil => rfl
  | cons v items =>
    rw [if_neg, readItems_separated (cons_ne_nil v items) h fuel rest (by omega)]
    · rfl
    · -- What follows the bracket is the text of the first item.
      have hfirst := fun rest => (h v mem_cons_self).head_ne (.inl rfl) rest
      cases items with
      | nil => exact hfirst _
      | cons w items =>
        rw [map_cons, map_cons, separated, append_assoc]
        · exact hfirst _
        · exact cons_ne_nil _ _

theorem readsBack_object (h : ∀ field ∈ map, ReadsBack floats field.2) : ReadsBack floats (.object map) := by
  intro fuel rest _ hfuel
  rw [writeValue_object] at hfuel ⊢
  rw [Value.sortKeys, Value.sortKeysFields_eq_map, mergeSort_map]
  have hsorted : ∀ field ∈ map.mergeSort keyLe, ReadsBack floats field.2 := fun field hfield =>
    h field (mem_mergeSort.mp hfield)
  -- From here on the order of the keys is fixed.
  generalize map.mergeSort keyLe = sorted at hfuel hsorted ⊢
  rw [length_cons, length_append, length_singleton] at hfuel
  obtain ⟨fuel, rfl⟩ : ∃ m, fuel = m + 1 := ⟨fuel - 1, by omega⟩
  rw [cons_append, append_assoc, singleton_append, readValue, if_neg (by decide),
    if_neg (by decide), if_pos rfl]
  cases sorted with
  | nil => rfl
  | cons field sorted =>
    rw [if_neg, readFields_separated (cons_ne_nil field sorted) hsorted fuel rest (by omega)]
    · rfl
    · cases sorted with
      | nil => exact fun h => by cases h
      | cons next sorted =>
        rw [map_cons, map_cons, separated]
        · exact fun h => by cases h
        · exact cons_ne_nil _ _

mutual

/-- **Every value is read back.** -/
theorem readsBack : ∀ v : Value, ReadsBack floats v
  | .null | .bool true | .bool false => by
    intro fuel rest _ hfuel
    obtain ⟨fuel, rfl⟩ : ∃ m, fuel = m + 1 := ⟨fuel - 1, by simp [writeValue] at hfuel; omega⟩
    simp [writeValue, readValue, readWord, isNumberChar, Value.sortKeys]
  | .number n => readsBack_number n
  | .string s => readsBack_string s
  | .array items => readsBack_array (readsBack_items items)
  | .object map => readsBack_object (readsBack_fields map)

theorem readsBack_items : ∀ items : List Value, ∀ v ∈ items, ReadsBack floats v
  | [] => fun v h => by cases h
  | v :: items => forall_mem_cons.mpr ⟨readsBack v, readsBack_items items⟩

theorem readsBack_fields : ∀ map : List (String × Value), ∀ field ∈ map, ReadsBack floats field.2
  | [] => fun v h => by cases h
  | (_, v) :: map => forall_mem_cons.mpr ⟨readsBack v, readsBack_fields map⟩

end

/-- **Reading gives back what was written**, the keys of its maps in order. -/
theorem readCanonical_toCanonicalString (v : Value) :
    readCanonical floats (toCanonicalString floats v) = some v.sortKeys := by
  unfold readCanonical toCanonicalString
  rw [String.toList_ofList]
  have hread := readsBack v _ [] delimited_nil (le_refl (writeValue floats v).length)
  rw [append_nil] at hread
  rw [hread]

/-! ## One text, one value -/

theorem mergeSort_mergeSort {α : Type} (map : List (String × α)) :
    (map.mergeSort keyLe).mergeSort keyLe = map.mergeSort keyLe :=
  List.mergeSort_of_pairwise (pairwise_mergeSort keyLe_trans keyLe_total map)

mutual

/-- The order of the keys is not in the text. -/
theorem writeValue_sortKeys : ∀ v : Value, writeValue floats v.sortKeys = writeValue floats v
  | .null => rfl
  | .bool _ => rfl
  | .number _ => rfl
  | .string _ => rfl
  | .array items => by
    rw [Value.sortKeys, Value.sortKeysAll_eq_map, writeValue, writeValue, writeItems_eq_map,
      writeItems_eq_map, List.map_map]
    rw [map_congr_left (writeValue_sortKeys_items items)]
  | .object map => by
    rw [Value.sortKeys, Value.sortKeysFields_eq_map, writeValue_object, mergeSort_mergeSort,
      mergeSort_map, writeValue_object, List.map_map]
    refine congrArg (fun texts => '{' :: (separated texts ++ ['}'])) ?_
    refine map_congr_left fun field hfield => ?_
    show writeMember (field.1, writeValue floats field.2.sortKeys) = _
    rw [writeValue_sortKeys_fields map field (mem_mergeSort.mp hfield)]
    rfl

theorem writeValue_sortKeys_items : ∀ items : List Value, ∀ v ∈ items,
    (writeValue floats ∘ Value.sortKeys) v = writeValue floats v
  | [] => fun v h => by cases h
  | v :: items =>
    forall_mem_cons.mpr ⟨writeValue_sortKeys v, writeValue_sortKeys_items items⟩

theorem writeValue_sortKeys_fields : ∀ map : List (String × Value), ∀ field ∈ map,
    writeValue floats field.2.sortKeys = writeValue floats field.2
  | [] => fun v h => by cases h
  | (_, v) :: map =>
    forall_mem_cons.mpr ⟨writeValue_sortKeys v, writeValue_sortKeys_fields map⟩

end

/-- **One text, one value**: two values are written alike exactly if they are identical. -/
theorem toCanonicalString_eq_iff {v w : Value} :
    toCanonicalString floats v = toCanonicalString floats w ↔ v.Identical w := by
  constructor
  · intro h
    have hread := @readCanonical_toCanonicalString floats v
    rw [h, readCanonical_toCanonicalString] at hread
    exact (some.inj hread).symm
  · intro h
    unfold toCanonicalString
    rw [← writeValue_sortKeys v, h, writeValue_sortKeys]

/-- Texts tell values apart as equality does, except for equal values that are not identical: a zero
in one stands where a negative zero stands in the other. -/
theorem toCanonicalString_eq_iff_same {v w : Value} :
    (toCanonicalString floats v = toCanonicalString floats w ↔ v.same w = true) ↔
      (v.same w = true → v.Identical w) := by
  rw [toCanonicalString_eq_iff]
  constructor
  · exact fun h => h.mpr
  · exact fun h => ⟨Value.Identical.same, h⟩

end Values

/-! ## Float texts -/

/-- The bits of a float as an integer with an exponent, the zeros as `serde_json` prints them. -/
def plainFormat (f : FiniteFloat) : List Char :=
  if f = .zero then ['0', '.', '0']
  else if f = .negZero then ['-', '0', '.', '0']
  else Nat.toDigits 10 f.bits.toNat ++ ['e', '0']

def plainParse (text : List Char) : Option FiniteFloat :=
  if text = ['0', '.', '0'] then some .zero
  else if text = ['-', '0', '.', '0'] then some .negZero
  else
    let bits := BitVec.ofNat 64 (Nat.ofDigitChars 10 (text.takeWhile Char.isDigit) 0)
    if h : (bits >>> 52) &&& 0x7ff#64 ≠ 0x7ff#64 then some ⟨bits, h⟩ else none

/-- Float texts that are right on zeros. -/
def plainFloats : FloatText where
  format := plainFormat
  parse := plainParse
  parse_format := by
    intro f
    unfold plainFormat
    split
    · rename_i h
      rw [h]
      decide
    split
    · rename_i h
      rw [h]
      decide
    · have hnot : ∀ text : List Char, 'e' ∉ text →
          Nat.toDigits 10 f.bits.toNat ++ ['e', '0'] ≠ text := by
        rintro text hmem rfl
        exact hmem (by simp)
      have hdigits : (Nat.toDigits 10 f.bits.toNat ++ ['e', '0']).takeWhile Char.isDigit =
          Nat.toDigits 10 f.bits.toNat := by
        rw [takeWhile_append_of_pos fun c hc => isDigit_of_mem_toDigits hc]
        exact append_nil _
      unfold plainParse
      rw [if_neg (hnot _ (by decide)), if_neg (hnot _ (by decide))]
      simp only [hdigits, ofDigitChars_ten_toDigits, BitVec.ofNat_toNat, BitVec.setWidth_eq]
      rw [dif_pos f.finite]
  number := by
    intro f
    unfold plainFormat
    split
    · decide
    split
    · decide
    · rw [all_append, and_eq_true]
      refine ⟨List.all_eq_true.mpr fun c hc => ?_, by decide⟩
      exact isNumberChar_of_isDigit (isDigit_of_mem_toDigits hc)
  float := by
    intro f
    unfold plainFormat
    split
    · decide
    split
    · decide
    · rw [any_append]
      exact or_eq_true_iff.mpr (.inr (by decide))

end LexLang.Ast
