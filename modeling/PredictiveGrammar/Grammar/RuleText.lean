import PredictiveGrammar.Grammar.Rules
import PredictiveGrammar.Text.Pieces

/-!
# Rule text

A grammar is written one rule a line, `left -> first alternative | second alternative`, and a line that
starts with a bar continues the rule before it. Blank lines mean nothing. Any other line rejects the
text, and the error names the first such line, counted from one with the blank lines (`readLines`).
-/

namespace PredictiveGrammar

namespace RuleText

open Text

/-- The left side written before an arrow: one word, and not a reserved name. -/
def readLeft (side : List Char) : Except MalformedRule String :=
  let left := trim side
  if left.isEmpty then .error .emptyLeftSide
  else if (words left).length ≠ 1 then .error .leftSideContainsWhitespace
  else if String.ofList left ∈ reserved then .error .reservedLeftSide
  else .ok (String.ofList left)

/-- The left side of a line and the text of its alternatives. `previous` is the left side of the rule
that a continuation continues. -/
def readSides (previous : Option String) (line : List Char) :
    Except MalformedRule (String × List Char) :=
  match splitArrows line with
  | [left, right] => (·, trim right) <$> readLeft left
  | [_] =>
    match line, previous with
    | '|' :: right, some left => .ok (left, trim right)
    | '|' :: _, none => .error .noPreviousLeftSide
    | _, _ => .error .missingArrow
  | _ => .error .tooManyArrows

/-- One alternative: at least one symbol. -/
def readAlternative (text : List Char) : Except MalformedRule (List String) :=
  match words text with
  | [] => .error .emptyAlternative
  | symbols => .ok (symbols.map String.ofList)

/-- The alternatives between bars. -/
def readAlternatives (text : List Char) : Except MalformedRule (List (List String)) :=
  if text.isEmpty then .error .emptyRightSide
  else (text.splitOn '|').mapM readAlternative

/-- The rule on a trimmed line that is not blank. -/
def readLine (previous : Option String) (line : List Char) : Except MalformedRule Rule := do
  let (left, right) ← readSides previous line
  return ⟨left, ← readAlternatives right⟩

/-- The rules of some lines, the first of which has this number. -/
def readLines (line : Nat) (previous : Option String) :
    List (List Char) → Except GrammarError (List Rule)
  | [] => .ok []
  | text :: rest =>
    if (trim text).isEmpty then readLines (line + 1) previous rest
    else
      match readLine previous (trim text) with
      | .error reason => .error (.malformedRule line reason)
      | .ok rule => (rule :: ·) <$> readLines (line + 1) (some rule.left) rest

/-- The rules of a text, one for each line that is not blank. -/
def readRules (text : String) : Except GrammarError (List Rule) :=
  readLines 1 none (text.toList.splitOn '\n')

end RuleText

/-- The grammar written as rule text. -/
def Grammar.parse (text : String) : Except GrammarError Grammar :=
  Grammar.ofRules <$> RuleText.readRules text

end PredictiveGrammar
