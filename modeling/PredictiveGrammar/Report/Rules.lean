import PredictiveGrammar.Grammar.Rules
import PredictiveGrammar.Json
import PredictiveGrammar.Text.Pieces
import PredictiveGrammar.Text.Tex

/-!
# Rules as text

The rules of a grammar as plain text, TeX and JSON. The plain text is rule text: reading it gives the
same rules back, as long as the names can be written there at all.
-/

namespace PredictiveGrammar

open Text

namespace Rule

/-- `left -> first alternative | second alternative`, the left side padded to a width. -/
def toPlain (rule : Rule) (width : Nat) : String :=
  padRight width rule.left ++ " -> " ++ join " | " (rule.rights.map (join " "))

/-- The rule in TeX, for a row of an array if `aligned`. Without alternatives there is nothing to
write. -/
def toTex (rule : Rule) (aligned : Bool) : String :=
  if rule.rights.isEmpty then ""
  else
    let arrow := if aligned then " & \\rightarrow &" else " \\rightarrow "
    let right := join " \\mid " (rule.rights.map fun right => join " \\ " (right.map Tex.escape))
    Tex.replaceEpsilon "\\epsilon" (Tex.escape rule.left ++ arrow ++ right)

/-- The rule as a JSON object. -/
def toJson (rule : Rule) : JsonValue :=
  .object [("left", .string rule.left), ("rights", .array (rule.rights.map .strings))]

end Rule

namespace Rules

/-- One rule a line, the arrows under each other. -/
def toPlain (rules : List Rule) : String :=
  let width := maxWidth (rules.map Rule.left)
  join "\n" (rules.map (·.toPlain width))

/-- A TeX array with one row for each rule. -/
def toTex (rules : List Rule) : String :=
  join "\\\\\n"
    ("\\[\\begin\x7barray\x7d\x7bcll\x7d" :: rules.map (·.toTex true) ++ ["\\end\x7barray\x7d\\]"])

/-- The rules as a JSON object. -/
def toJson (rules : List Rule) : JsonValue :=
  .object [("productions", .array (rules.map Rule.toJson))]

end Rules

end PredictiveGrammar
