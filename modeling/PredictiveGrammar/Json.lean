/-!
# JSON text

A `JsonValue` is written without blanks, the fields of an object in the order in which they are given.
Strings keep every character but the quote, the backslash and the controls below U+0020
(`JsonValue.escapeChar`).
-/

namespace PredictiveGrammar

/-- A JSON value without numbers. -/
inductive JsonValue
  /-- no value -/
  | null
  /-- a truth value -/
  | bool (value : Bool)
  /-- a text -/
  | string (value : String)
  /-- a list of values -/
  | array (items : List JsonValue)
  /-- named values, in order -/
  | object (fields : List (String × JsonValue))

namespace JsonValue

/-- The array of some texts. -/
def strings (texts : List String) : JsonValue := .array (texts.map .string)

/-! ## Writing -/

/-- One character inside a string. A control without a short form is written by its code point, in
four hexadecimal digits. -/
def escapeChar (c : Char) : List Char :=
  match c with
  | '"' => ['\\', '"']
  | '\\' => ['\\', '\\']
  | '\n' => ['\\', 'n']
  | '\r' => ['\\', 'r']
  | '\t' => ['\\', 't']
  | '\x08' => ['\\', 'b']
  | '\x0c' => ['\\', 'f']
  | _ =>
    if c.toNat < 0x20 then
      ['\\', 'u', '0', '0', Nat.digitChar (c.toNat / 16), Nat.digitChar (c.toNat % 16)]
    else [c]

/-- A string with its quotes. -/
def quote (s : String) : List Char := '"' :: s.toList.flatMap escapeChar ++ ['"']

mutual

/-- The characters of a value. -/
def chars : JsonValue → List Char
  | .null => "null".toList
  | .bool true => "true".toList
  | .bool false => "false".toList
  | .string value => quote value
  | .array items => '[' :: [','].intercalate (itemChars items) ++ [']']
  | .object fields => '\x7b' :: [','].intercalate (fieldChars fields) ++ ['\x7d']

/-- The characters of each item of an array. -/
def itemChars : List JsonValue → List (List Char)
  | [] => []
  | item :: items => chars item :: itemChars items

/-- The characters of each field of an object. -/
def fieldChars : List (String × JsonValue) → List (List Char)
  | [] => []
  | (name, value) :: fields => (quote name ++ ':' :: chars value) :: fieldChars fields

end

/-- The text of a value. -/
def render (value : JsonValue) : String := String.ofList value.chars

end JsonValue

end PredictiveGrammar
