import PredictiveGrammar.Json.Reader

/-!
# JSON text is read back

What was written of a value is read as that value (`JsonValue.read_render`). A character of a string is read from its
escape (`readChar_escapeChar`), so a string is read up to its closing quote (`readString_quote`), and values by
recursion on them, where what stands behind a value is left.
-/

namespace PredictiveGrammar

namespace JsonValue

variable {c : Char} {s rest : List Char} {fuel : Nat}

/-! ## Strings -/

theorem hexValue?_digitChar {n : Nat} (h : n < 16) : hexValue? (Nat.digitChar n) = some n := by
  have hall : ∀ n < 16, hexValue? (Nat.digitChar n) = some n := by decide
  exact hall n h

/-- The four digits of an escaped control are read back. -/
theorem readUnit_digits {n : Nat} (h : n < 256) :
    readUnit ('0' :: '0' :: Nat.digitChar (n / 16) :: Nat.digitChar (n % 16) :: rest) = some (n, rest) := by
  have hzero : hexValue? '0' = some 0 := by decide
  have hhigh : hexValue? (Nat.digitChar (n / 16)) = some (n / 16) := hexValue?_digitChar (by omega)
  have hlow : hexValue? (Nat.digitChar (n % 16)) = some (n % 16) := hexValue?_digitChar (by omega)
  have hsum : ((0 * 16 + 0) * 16 + n / 16) * 16 + n % 16 = n := by omega
  rw [readUnit, hzero, hhigh, hlow]
  exact congrArg (fun unit => some (unit, rest)) hsum

/-- Every character has a code point that is not a surrogate. -/
theorem charOf?_toNat : charOf? c.toNat = some c := by
  have hvalid : c.toNat.isValidChar := c.valid
  rw [charOf?, if_pos hvalid, Char.ofNat_toNat]

/-- **A character is read from its escape.** -/
theorem readChar_escapeChar (c : Char) (rest : List Char) : readChar (escapeChar c ++ rest) = some (c, rest) := by
  unfold escapeChar
  split
  case h_8 hquote hbackslash _ _ _ _ _ =>
    split
    -- a control without a short form, which is below any surrogate
    · next hcontrol =>
      change readUnicode ('0' :: '0' :: Nat.digitChar (c.toNat / 16) :: Nat.digitChar (c.toNat % 16) :: rest) = _
      have hunit : ¬ (0xD800 ≤ c.toNat ∧ c.toNat < 0xDC00) := by omega
      rw [readUnicode, readUnit_digits (by omega)]
      simp only [Option.bind_eq_bind, Option.bind_some, if_neg hunit, charOf?_toNat]
      rfl
    -- a character that stands for itself
    · next hcontrol =>
      have hplain : ¬ (c = '"' ∨ c = '\\' ∨ c.toNat < 0x20) := by
        rintro (h | h | h)
        · exact hquote h
        · exact hbackslash h
        · exact hcontrol h
      rw [List.singleton_append, readChar]
      · exact if_neg hplain
      · exact fun _ h _ => hbackslash h
      · exact fun _ _ h _ => hbackslash h
  all_goals rfl

/-- An escape is not empty and does not begin like the closing quote. -/
theorem exists_escapeChar (c : Char) : ∃ d ds, escapeChar c = d :: ds ∧ d ≠ '"' := by
  unfold escapeChar
  split
  case h_8 hquote _ _ _ _ _ _ =>
    split
    · exact ⟨_, _, rfl, by decide⟩
    · exact ⟨_, _, rfl, hquote⟩
  all_goals exact ⟨_, _, rfl, by decide⟩

/-- **A string is read** up to its closing quote. -/
theorem readString_flatMap (hfuel : s.length ≤ fuel) :
    readString fuel (s.flatMap escapeChar ++ '"' :: rest) = some (s, rest) := by
  induction s generalizing fuel with
  | nil => cases fuel <;> rfl
  | cons c s ih =>
    obtain ⟨fuel, rfl⟩ : ∃ n, fuel = n + 1 := ⟨fuel - 1, by rw [List.length_cons] at hfuel; omega⟩
    obtain ⟨d, ds, hescape, hquote⟩ := exists_escapeChar c
    have hchar := readChar_escapeChar c (s.flatMap escapeChar ++ '"' :: rest)
    have hs := ih (Nat.le_of_succ_le_succ hfuel)
    rw [List.flatMap_cons, List.append_assoc]
    rw [hescape, List.cons_append] at hchar ⊢
    rw [readString, hchar]
    · simp only [Option.bind_eq_bind, Option.bind_some, hs]
      rfl
    · exact fun _ h => hquote (List.cons.inj h).1

/-- Escaping never makes a text shorter, so the length of what is written bounds the steps of reading it. -/
theorem length_le_flatMap (s : List Char) : s.length ≤ (s.flatMap escapeChar).length := by
  induction s with
  | nil => exact Nat.le_refl 0
  | cons c s ih =>
    obtain ⟨d, ds, hescape, -⟩ := exists_escapeChar c
    rw [List.flatMap_cons, List.length_append, hescape, List.length_cons, List.length_cons]
    omega

/-- **A text is read from its quote.** -/
theorem readString_quote {text : String} (rest : List Char) (hfuel : text.length ≤ fuel) :
    ∃ cs, quote text ++ rest = '"' :: cs ∧ readString fuel cs = some (text.toList, rest) := by
  refine ⟨text.toList.flatMap escapeChar ++ '"' :: rest, by simp [quote], readString_flatMap ?_⟩
  rwa [String.length_toList]

theorem length_lt_quote (text : String) : text.length < (quote text).length := by
  have := length_le_flatMap text.toList
  rw [quote, List.cons_append, List.length_cons, List.length_append, ← String.length_toList]
  omega

/-! ## Values -/

/-- Nothing is skipped where no blank stands. -/
theorem skipBlanks_cons {cs : List Char} (h : c ≠ ' ' ∧ c ≠ '\n' ∧ c ≠ '\r' ∧ c ≠ '\t') :
    skipBlanks (c :: cs) = c :: cs := by
  rw [skipBlanks, List.dropWhile_cons_of_neg (by simpa using h)]

/-- The text of a value begins neither with a blank nor like the end of an array. -/
theorem exists_chars (value : JsonValue) :
    ∃ c cs, value.chars = c :: cs ∧ (c ≠ ' ' ∧ c ≠ '\n' ∧ c ≠ '\r' ∧ c ≠ '\t') ∧ c ≠ ']' := by
  cases value with
  | null => exact ⟨_, _, rfl, by decide⟩
  | bool value => cases value <;> exact ⟨_, _, rfl, by decide⟩
  | string text => exact ⟨_, _, rfl, by decide⟩
  | array items => exact ⟨_, _, rfl, by decide⟩
  | object fields => exact ⟨_, _, rfl, by decide⟩

/-- The text of the items of an array. -/
def itemText (items : List JsonValue) : List Char := [','].intercalate (itemChars items)

/-- The text of the fields of an object. -/
def fieldText (fields : List (String × JsonValue)) : List Char := [','].intercalate (fieldChars fields)

theorem chars_array {items : List JsonValue} : chars (.array items) = '[' :: itemText items ++ [']'] := by
  rw [chars, itemText]

theorem chars_object {fields : List (String × JsonValue)} :
    chars (.object fields) = '\x7b' :: fieldText fields ++ ['\x7d'] := by
  rw [chars, fieldText]

theorem itemText_singleton {item : JsonValue} : itemText [item] = item.chars := by
  rw [itemText, itemChars, itemChars, List.intercalate_singleton]

theorem itemText_cons_cons {item other : JsonValue} {items : List JsonValue} :
    itemText (item :: other :: items) = item.chars ++ ',' :: itemText (other :: items) := by
  simp only [itemText, itemChars, List.intercalate_cons_cons, List.append_assoc, List.singleton_append]

theorem fieldText_singleton {name : String} {value : JsonValue} :
    fieldText [(name, value)] = quote name ++ ':' :: value.chars := by
  rw [fieldText, fieldChars, fieldChars, List.intercalate_singleton]

theorem fieldText_cons_cons {name : String} {value : JsonValue} {other : String × JsonValue}
    {fields : List (String × JsonValue)} :
    fieldText ((name, value) :: other :: fields) =
      quote name ++ ':' :: value.chars ++ ',' :: fieldText (other :: fields) := by
  simp only [fieldText, fieldChars, List.intercalate_cons_cons, List.append_assoc, List.singleton_append]

/-- The items of an array begin neither with a blank nor with the closing bracket. -/
theorem exists_itemText (item : JsonValue) (items : List JsonValue) :
    ∃ c cs, itemText (item :: items) = c :: cs ∧ (c ≠ ' ' ∧ c ≠ '\n' ∧ c ≠ '\r' ∧ c ≠ '\t') ∧ c ≠ ']' := by
  obtain ⟨c, cs, hchars, hc⟩ := exists_chars item
  cases items with
  | nil => exact ⟨c, cs, by rw [itemText_singleton, hchars], hc⟩
  | cons other items => exact ⟨c, _, by rw [itemText_cons_cons, hchars, List.cons_append], hc⟩

/-- The fields of an object begin with a quote. -/
theorem exists_fieldText (field : String × JsonValue) (fields : List (String × JsonValue)) :
    ∃ cs, fieldText (field :: fields) = '"' :: cs := by
  cases fields with
  | nil => exact ⟨_, by rw [fieldText_singleton, quote]; rfl⟩
  | cons other fields => exact ⟨_, by rw [fieldText_cons_cons, quote]; rfl⟩

/-- An item or a field takes no more steps than it has characters. -/
theorem succ_of_chars {value : JsonValue} (h : value.chars.length ≤ fuel) : ∃ n, fuel = n + 1 := by
  obtain ⟨c, cs, hchars, -⟩ := exists_chars value
  rw [hchars, List.length_cons] at h
  exact ⟨fuel - 1, by omega⟩

/-- An array with items in it is read item by item. -/
theorem readValue_array {items : List JsonValue} {cs : List Char}
    (hc : c ≠ ' ' ∧ c ≠ '\n' ∧ c ≠ '\r' ∧ c ≠ '\t') (hbracket : c ≠ ']')
    (hread : readItems fuel (c :: cs) = some (items, rest)) :
    readValue (fuel + 1) ('[' :: c :: cs) = some (.array items, rest) := by
  rw [readValue, skipBlanks_cons (by decide)]
  simp only [skipBlanks_cons hc]
  split
  · next heq => exact absurd (List.cons.inj heq).1 hbracket
  · simp only [hread, Option.bind_eq_bind, Option.bind_some, Option.pure_def]

/-- An object with fields in it is read field by field. -/
theorem readValue_object {fields : List (String × JsonValue)} {cs : List Char}
    (hread : readFields fuel ('"' :: cs) = some (fields, rest)) :
    readValue (fuel + 1) ('\x7b' :: '"' :: cs) = some (.object fields, rest) := by
  have hblank : skipBlanks ('"' :: cs) = '"' :: cs := skipBlanks_cons (by decide)
  rw [readValue, skipBlanks_cons (by decide)]
  simp only [hblank]
  split
  · next heq => exact absurd (List.cons.inj heq).1 (by decide)
  · simp only [hread, Option.bind_eq_bind, Option.bind_some, Option.pure_def]

/-- The last item of an array. -/
theorem readItems_last {item : JsonValue} {cs : List Char} (hread : readValue fuel cs = some (item, ']' :: rest)) :
    readItems (fuel + 1) cs = some ([item], rest) := by
  rw [readItems, hread]
  rfl

/-- An item of an array with others behind it. -/
theorem readItems_more {item : JsonValue} {items : List JsonValue} {cs cs' : List Char}
    (hread : readValue fuel cs = some (item, ',' :: cs')) (hmore : readItems fuel cs' = some (items, rest)) :
    readItems (fuel + 1) cs = some (item :: items, rest) := by
  have hcomma : skipBlanks (',' :: cs') = ',' :: cs' := skipBlanks_cons (by decide)
  simp only [readItems, hread, hcomma, hmore, Option.bind_eq_bind, Option.bind_some, Option.pure_def]

section

variable {name : String} {value : JsonValue} {fields : List (String × JsonValue)} {cs cs' cs'' : List Char}

/-- The last field of an object. -/
theorem readFields_last (hname : readString fuel cs = some (name.toList, ':' :: cs'))
    (hread : readValue fuel cs' = some (value, '\x7d' :: rest)) :
    readFields (fuel + 1) ('"' :: cs) = some ([(name, value)], rest) := by
  have hcolon : skipBlanks (':' :: cs') = ':' :: cs' := skipBlanks_cons (by decide)
  have hbrace : skipBlanks ('\x7d' :: rest) = '\x7d' :: rest := skipBlanks_cons (by decide)
  rw [readFields, skipBlanks_cons (by decide)]
  simp only [hname, hcolon, hread, hbrace, Option.bind_eq_bind, Option.bind_some, String.ofList_toList]

/-- A field of an object with others behind it. -/
theorem readFields_more (hname : readString fuel cs = some (name.toList, ':' :: cs'))
    (hread : readValue fuel cs' = some (value, ',' :: cs'')) (hmore : readFields fuel cs'' = some (fields, rest)) :
    readFields (fuel + 1) ('"' :: cs) = some ((name, value) :: fields, rest) := by
  have hcolon : skipBlanks (':' :: cs') = ':' :: cs' := skipBlanks_cons (by decide)
  have hcomma : skipBlanks (',' :: cs'') = ',' :: cs'' := skipBlanks_cons (by decide)
  rw [readFields, skipBlanks_cons (by decide)]
  simp only [hname, hcolon, hread, hcomma, hmore, Option.bind_eq_bind, Option.bind_some, Option.pure_def,
    String.ofList_toList]

end

mutual

/-- **A value is read from its text**, whatever stands behind it. -/
theorem readValue_chars (value : JsonValue) (fuel : Nat) (rest : List Char) (h : value.chars.length ≤ fuel) :
    readValue fuel (value.chars ++ rest) = some (value, rest) := by
  obtain ⟨fuel, rfl⟩ := succ_of_chars h
  match value with
  | .null => rfl
  | .bool true => rfl
  | .bool false => rfl
  | .string text =>
    have hfuel : text.length ≤ fuel := Nat.le_of_lt_succ (Nat.lt_of_lt_of_le (length_lt_quote text) h)
    obtain ⟨cs, hquote, hread⟩ := readString_quote rest hfuel
    rw [chars, hquote, readValue, skipBlanks_cons (by decide)]
    simp only [hread, Option.bind_eq_bind, Option.bind_some, String.ofList_toList]
    rfl
  | .array [] => rfl
  -- the bracket takes one step, so that what is left suffices for the items
  | .array (item :: items) =>
    obtain ⟨c, cs, hitems, hblank, hbracket⟩ := exists_itemText item items
    rw [chars_array, List.cons_append, List.length_cons, List.length_append, List.length_singleton] at h
    have hread := readItems_itemText item items fuel rest (Nat.le_of_succ_le_succ h)
    rw [hitems, List.cons_append] at hread
    rw [chars_array, hitems, List.cons_append, List.cons_append, List.append_assoc]
    exact readValue_array hblank hbracket hread
  | .object [] => rfl
  -- so it is for the fields
  | .object ((name, value) :: fields) =>
    obtain ⟨cs, hfields⟩ := exists_fieldText (name, value) fields
    rw [chars_object, List.cons_append, List.length_cons, List.length_append, List.length_singleton] at h
    have hread := readFields_fieldText name value fields fuel rest (Nat.le_of_succ_le_succ h)
    rw [hfields, List.cons_append] at hread
    rw [chars_object, hfields, List.cons_append, List.cons_append, List.append_assoc]
    exact readValue_object hread
termination_by fuel

/-- The items of an array are read back up to its closing bracket. -/
theorem readItems_itemText (item : JsonValue) (items : List JsonValue) (fuel : Nat) (rest : List Char)
    (h : (itemText (item :: items)).length < fuel) :
    readItems fuel (itemText (item :: items) ++ ']' :: rest) = some (item :: items, rest) := by
  obtain ⟨fuel, rfl⟩ : ∃ n, fuel = n + 1 := ⟨fuel - 1, by omega⟩
  match items with
  | [] =>
    rw [itemText_singleton] at h ⊢
    exact readItems_last (readValue_chars item fuel _ (Nat.le_of_lt_succ h))
  | other :: items =>
    rw [itemText_cons_cons, List.length_append, List.length_cons] at h
    rw [itemText_cons_cons, List.append_assoc, List.cons_append]
    exact readItems_more (readValue_chars item fuel _ (by omega)) (readItems_itemText other items fuel rest (by omega))
termination_by fuel

/-- The fields of an object are read back up to its closing brace. -/
theorem readFields_fieldText (name : String) (value : JsonValue) (fields : List (String × JsonValue)) (fuel : Nat)
    (rest : List Char) (h : (fieldText ((name, value) :: fields)).length < fuel) :
    readFields fuel (fieldText ((name, value) :: fields) ++ '\x7d' :: rest) = some ((name, value) :: fields, rest) := by
  obtain ⟨fuel, rfl⟩ : ∃ n, fuel = n + 1 := ⟨fuel - 1, by omega⟩
  have hquote := length_lt_quote name
  match fields with
  -- the last field, with a brace behind it
  | [] =>
    rw [fieldText_singleton, List.length_append, List.length_cons] at h
    have hfuel : name.length ≤ fuel := by omega
    obtain ⟨cs, hcs, hname⟩ := readString_quote (':' :: (value.chars ++ '\x7d' :: rest)) hfuel
    rw [fieldText_singleton, List.append_assoc, List.cons_append, hcs]
    exact readFields_last hname (readValue_chars value fuel _ (by omega))
  -- a field with another one behind the comma
  | (name', value') :: fields =>
    rw [fieldText_cons_cons, List.length_append, List.length_append, List.length_cons, List.length_cons] at h
    have hfuel : name.length ≤ fuel := by omega
    obtain ⟨cs, hcs, hname⟩ :=
      readString_quote (':' :: (value.chars ++ ',' :: (fieldText ((name', value') :: fields) ++ '\x7d' :: rest))) hfuel
    rw [fieldText_cons_cons, List.append_assoc, List.append_assoc, List.cons_append, List.cons_append, hcs]
    exact readFields_more hname (readValue_chars value fuel _ (by omega))
      (readFields_fieldText name' value' fields fuel rest (by omega))
termination_by fuel

end

/-- **JSON text is read back** as the value that was written. -/
theorem read_render (value : JsonValue) : read value.render = some value := by
  have hchars : value.render.toList = value.chars := String.toList_ofList
  have hlength : value.chars.length ≤ value.render.length :=
    Nat.le_of_eq (by rw [← hchars, String.length_toList])
  have hread := readValue_chars value value.render.length [] hlength
  rw [List.append_nil, ← hchars] at hread
  rw [read, hread]
  rfl

end JsonValue

end PredictiveGrammar
