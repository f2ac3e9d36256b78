/-!
# What can go wrong

A `GrammarError` is the cause of a failure, and `GrammarError.message` its wording. The first three
causes lie in what the caller supplied. The last two lie in a grammar whose productions or start symbol
were set by hand to something that is no symbol of it; grammars built from rules never show them.
-/

namespace PredictiveGrammar

/-- Why a line of rule text is no rule. -/
inductive MalformedRule
  /-- no arrow, and the line does not continue a rule -/
  | missingArrow
  /-- more than one arrow -/
  | tooManyArrows
  /-- nothing before the arrow -/
  | emptyLeftSide
  /-- more than one word before the arrow -/
  | leftSideContainsWhitespace
  /-- `ε` or `$` before the arrow -/
  | reservedLeftSide
  /-- nothing after the arrow or the bar -/
  | emptyRightSide
  /-- nothing between two bars -/
  | emptyAlternative
  /-- a continuation with no rule before it -/
  | noPreviousLeftSide
deriving DecidableEq

/-- The wording of the reason. -/
def MalformedRule.message : MalformedRule → String
  | .missingArrow => "missing \"->\""
  | .tooManyArrows => "too many \"->\""
  | .emptyLeftSide => "empty left side"
  | .leftSideContainsWhitespace => "left side contains whitespace"
  | .reservedLeftSide => "reserved symbol on left side"
  | .emptyRightSide => "empty right side"
  | .emptyAlternative => "empty alternative"
  | .noPreviousLeftSide => "cannot find left side"

/-- The two kinds of sets that an analysis hands on to the next one. -/
inductive SetKind
  | first
  | follow
deriving DecidableEq

/-- The name of the kind in messages and reports. -/
def SetKind.name : SetKind → String
  | .first => "FIRST"
  | .follow => "FOLLOW"

/-- Why a grammar could not be read, changed, analysed or shown. -/
inductive GrammarError
  /-- a line of rule text, counted from one, is no rule -/
  | malformedRule (line : Nat) (reason : MalformedRule)
  /-- the start symbol asked for is no non-terminal of the grammar -/
  | undeclaredStart (name : String)
  /-- the sets were computed for another grammar -/
  | mismatchedSets (kind : SetKind)
  /-- a production or the start symbol holds an index that is no symbol of the grammar -/
  | unknownSymbol (index : Nat)
  /-- the non-terminal has a production without symbols -/
  | emptyProduction (left : String)
deriving DecidableEq

/-- The wording of the cause. -/
def GrammarError.message : GrammarError → String
  | .malformedRule line reason => s!"Line {line}: " ++ reason.message
  | .undeclaredStart name => s!"start symbol \"{name}\" is not a non-terminal"
  | .mismatchedSets kind => kind.name ++ " sets were computed for a different grammar"
  | .unknownSymbol index => s!"symbol {index} is not in the grammar"
  | .emptyProduction left => s!"\"{left}\" has an empty production"

end PredictiveGrammar
