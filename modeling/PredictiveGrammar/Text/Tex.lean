/-!
# TeX text

Symbol names are free text, and fifteen ASCII characters mean something else in TeX. `Tex.escape` writes a
name so that TeX typesets it as it stands; a hyphen is only kept from joining the hyphen after it.
The letter `ε` has a command of its own, which `Tex.replaceEpsilon` puts in its place.
-/

namespace PredictiveGrammar.Tex

/-- How one character other than a hyphen is written. -/
def escapeChar (c : Char) : String :=
  match c with
  | '&' => "\\&"
  | '%' => "\\%"
  | '$' => "\\$"
  | '#' => "\\#"
  | '_' => "\\_"
  | '\x7b' => "\\\x7b"
  | '\x7d' => "\\\x7d"
  | '[' => "\x7b[\x7d"
  | ']' => "\x7b]\x7d"
  | '~' => "\\textasciitilde\x7b\x7d"
  | '^' => "\\textasciicircum\x7b\x7d"
  | '<' => "\\textless\x7b\x7d"
  | '>' => "\\textgreater\x7b\x7d"
  | '!' => "!\x7b\x7d"
  | '\\' => "\\textbackslash\x7b\x7d"
  | _ => c.toString

/-- Escapes a list of characters. -/
def escapeChars : List Char → List Char
  | [] => []
  | '-' :: cs =>
    if cs.head? = some '-' then '-' :: '\x7b' :: '\x7d' :: escapeChars cs
    else '-' :: escapeChars cs
  | c :: cs => (escapeChar c).toList ++ escapeChars cs

/-- The TeX text that typesets `s`. -/
def escape (s : String) : String := String.ofList (escapeChars s.toList)

/-- Puts `command` in the place of every `ε`. -/
def replaceEpsilon (command : String) (s : String) : String :=
  String.ofList (s.toList.flatMap fun c => if c = 'ε' then command.toList else [c])

end PredictiveGrammar.Tex
